import RecordNode.AccessControl.Inertness
import RecordNode.Oplog.Delivery

/-! # What replicas agree on

What a replica derives from its entries, whom it finds in a causal past and what it accepts
do not depend on how the entries came to it. The guest's history shows it: a revocation that
comes before the grants it makes inert, and one that comes after them. -/

namespace RecordNode

open Foundation Relation

variable {E : Environment} {chain : ResolvedAcChain}

/-- Two entries, the second on top of the first, land together and in their order. -/
theorem Joins.merge_both {o : Oplog} (s : Sound E chain o) {a b : VerifiedEntry} (ga : Joins E o a)
    (gb : Joins E (grow E o a) b) (hlt : a.time < b.time) :
    (mergeEntries E o [a.bytes, b.bytes]).2.merged = [a, b] ∧ (mergeEntries E o [a.bytes, b.bytes]).2.rejected = [] := by
  have hgrow := settle_base (E := E) (insertEntry E o a) [a]
  rw [← ga.grow_eq] at hgrow
  have ha : o.entries.has a.hash = false := Bool.eq_false_iff.mpr fun hh => ga.new ((has_iff_entries_has o _).mpr hh)
  have hb : (insertEntry E o a).entries.has b.hash = false :=
    Bool.eq_false_iff.mpr fun hh => gb.new ((hgrow.has_iff _).mpr ((has_iff_entries_has _ _).mpr hh))
  have hbo : o.entries.has b.hash = false := Bool.eq_false_iff.mpr fun hh => by
    obtain ⟨e, he⟩ := (has_iff_entries_has o _).mpr hh
    exact gb.new ((hgrow.has_iff _).mpr ⟨e, insertEntry_get_old ga.new he⟩)
  have hsorted : sortBy compareClock [a.toHashedEntry, b.toHashedEntry] = [a.toHashedEntry, b.toHashedEntry] := by
    have hle : compareClock a.toHashedEntry b.toHashedEntry ≤ 0 := by
      rw [compareClock_follows.le_iff, Prod.Lex.toLex_le_toLex]
      exact .inl (Nat.cast_lt.mpr hlt)
    simp [sortBy, hle]
  have hverifies : verifyEntry E (insertEntry E o a) b.toHashedEntry = .ok b := by
    have I := insertEntry_indexed s.indexed ga.new ga.verifies
    have hparents : ∀ p ∈ b.next, (insertEntry E o a).Has p := fun p hp =>
      (hgrow.has_iff p).mp ((verifyEntry_parents gb.verifies).1 p hp)
    rw [← checked_verdict_eq_ok_iff, (hgrow.agreeOn I.grounded).verifyEntry_verdict E _ hparents, checked_verdict_eq_ok_iff]
    exact gb.verifies
  have hdecoded : decodedBlocks E o [a.bytes, b.bytes] = [a.toHashedEntry, b.toHashedEntry] := by
    simp [decodedBlocks, ga.decodes, gb.decodes, ha, hbo]
  have hundecodable : undecodable E [a.bytes, b.bytes] = [] := by simp [undecodable, ga.decodes, gb.decodes]
  constructor <;>
    simp [mergeEntries, insertBlocks, admitAll, hdecoded, hundecodable, hsorted, admitEntry, ha, hb, ga.verifies, hverifies]

/-! ## One history, delivered in two orders -/

theorem reachable_deliver {o : Oplog} (ho : Reachable E chain o) (batches : List (List Bytes)) :
    Reachable E chain (deliver E o batches) := by
  induction batches generalizing o with
  | nil => exact ho
  | cons batch rest ih => exact ih (.merge _ batch ho)

theorem deliver_nil (o : Oplog) : deliver E o [] = o := rfl

theorem deliver_block (o : Oplog) (e : VerifiedEntry) (rest : List (List Bytes)) :
    deliver E o ([e.bytes] :: rest) = deliver E (grow E o e) rest := rfl

/-- Every parent of a block has come with its batch or before. -/
def ParentsCome (E : Environment) (batches : List (List Bytes)) : Prop :=
  ∀ pre batch post, batches = pre ++ batch :: post → ∀ b ∈ batch, ∀ hashed,
    decodeSignedEntry E b = .ok hashed → ∀ q ∈ hashed.entry.next, ∃ d ∈ (pre ++ [batch]).flatten, computeCidString E d = q

theorem ParentsCome.parentsFirst {batches : List (List Bytes)} (h : ParentsCome E batches) : ParentsFirst E batches := by
  intro pre batch post hsplit b hb hashed hd q hq _ _ _
  exact h pre batch post hsplit b hb hashed hd q hq

theorem parentsCome_nil : ParentsCome E [] := by
  intro pre batch post hsplit
  simp at hsplit

/-- One more block, whose parents came. -/
theorem ParentsCome.append {batches : List (List Bytes)} (h : ParentsCome E batches) {e : VerifiedEntry}
    (hdecodes : decodeSignedEntry E e.bytes = .ok e.toHashedEntry)
    (hparents : ∀ q ∈ e.next, ∃ d ∈ batches.flatten, computeCidString E d = q) : ParentsCome E (batches ++ [[e.bytes]]) := by
  intro pre batch post hsplit b hb hashed hd q hq
  rcases post.eq_nil_or_concat with rfl | ⟨rest, last, rfl⟩
  · obtain ⟨rfl, heq⟩ := List.append_inj' hsplit rfl
    obtain rfl : [e.bytes] = batch := (List.cons.inj heq).1
    rw [List.mem_singleton.mp hb, hdecodes] at hd
    obtain rfl := Except.ok.inj hd
    obtain ⟨d, hd, hcid⟩ := hparents q hq
    exact ⟨d, by simp only [List.flatten_append]; exact List.mem_append_left _ hd, hcid⟩
  · rw [List.concat_eq_append, ← List.cons_append, ← List.append_assoc] at hsplit
    exact h pre batch rest (List.append_inj' hsplit rfl).1 b hb hashed hd q hq

namespace Sample

/-- The history in the order it was made. -/
def made : List (List Bytes) := [[first.bytes], [second.bytes], [third.bytes], [revocation.bytes]]

/-- The revocation comes before the grants that had not seen it. -/
def late : List (List Bytes) := [[first.bytes], [revocation.bytes], [second.bytes], [third.bytes]]

def history : List Bytes := [first.bytes, second.bytes, third.bytes, revocation.bytes]

theorem deliver_made : deliver clockEnvironment (createOplog libraryA) made = revoked := by
  rw [made, deliver_block, deliver_block, deliver_block, deliver_block, deliver_nil, revoked, withThird, withSecond, withFirst]

theorem flatten_made : made.flatten = history := by
  simp only [made, history, List.flatten_cons, List.flatten_nil, List.append_nil, List.cons_append, List.nil_append]

theorem sha3_history : Set.InjOn clockEnvironment.sha3 {b | b ∈ history} := by
  have hdecodes : ∀ e ∈ [first, second, third, revocation],
      decodeSignedEntry clockEnvironment e.bytes = .ok e.toHashedEntry := by
    simp only [List.forall_mem_cons]
    exact ⟨joins_first.decodes, joins_second.decodes, joins_third.decodes, joins_revocation.decodes, by simp⟩
  refine injOn_of_hashes hdecodes ?_
  simp [first_ne_second, first_ne_third, first_ne_revocation, second_ne_third, second_ne_revocation, third_ne_revocation]

/-- The first two deliveries of either order leave the first grant in place. -/
theorem parentsCome_first : ParentsCome clockEnvironment [[first.bytes]] :=
  parentsCome_nil.append joins_first.decodes fun _ hq => absurd hq List.not_mem_nil

theorem comes_after {batches : List (List Bytes)} (h : ParentsCome clockEnvironment batches) {e : VerifiedEntry}
    (parent : VerifiedEntry) (hdecodes : decodeSignedEntry clockEnvironment e.bytes = .ok e.toHashedEntry)
    (hnext : e.next = [parent.hash]) (hparent : computeCidString clockEnvironment parent.bytes = parent.hash)
    (hmem : parent.bytes ∈ batches.flatten) : ParentsCome clockEnvironment (batches ++ [[e.bytes]]) := by
  refine h.append hdecodes fun q hq => ?_
  rw [hnext, List.mem_singleton] at hq
  exact ⟨parent.bytes, hmem, hparent.trans hq.symm⟩

theorem parentsCome_made : ParentsCome clockEnvironment made := by
  have hfirst := cid_of_decodes joins_first.decodes
  have hsecond := comes_after parentsCome_first first joins_second.decodes rfl hfirst (by simp)
  have hthird := comes_after hsecond second joins_third.decodes rfl (cid_of_decodes joins_second.decodes) (by simp)
  exact comes_after hthird first joins_revocation.decodes rfl hfirst (by simp)

theorem parentsCome_late : ParentsCome clockEnvironment late := by
  have hfirst := cid_of_decodes joins_first.decodes
  have hrevocation := comes_after parentsCome_first first joins_revocation.decodes rfl hfirst (by simp)
  have hsecond := comes_after hrevocation first joins_second.decodes rfl hfirst (by simp)
  exact comes_after hsecond second joins_third.decodes rfl (cid_of_decodes joins_second.decodes) (by simp)

theorem createOplog_blocks : (createOplog libraryA).blocks = ∅ := by
  ext b
  simp [Oplog.blocks, createOplog]

theorem createOplog_genuine : Genuine clockEnvironment libraryA (createOplog libraryA) :=
  ⟨createOplog_sound, reachable_authentic clockEnvironment_codecLaw .create⟩

theorem injOn_delivery {batches : List (List Bytes)} (h : ∀ b ∈ batches.flatten, b ∈ history) :
    Set.InjOn clockEnvironment.sha3 (deliveryBlocks (createOplog libraryA) batches) := by
  rw [deliveryBlocks, createOplog_blocks, Set.empty_union]
  exact sha3_history.mono h

theorem mem_four (a b c d x : Bytes) : x ∈ [a, b, c, d] ↔ x ∈ [[a], [d], [b], [c]].flatten := by
  simp only [List.flatten_cons, List.flatten_nil, List.append_nil, List.cons_append, List.nil_append, List.mem_cons,
    List.not_mem_nil, or_false]
  tauto

theorem mem_late (b : Bytes) : b ∈ history ↔ b ∈ late.flatten := mem_four ..

/-- The replica that had the revocation first. -/
def revokedLate : Oplog := deliver clockEnvironment (createOplog libraryA) late

theorem revokedLate_reachable : Reachable clockEnvironment libraryA revokedLate := reachable_deliver .create late

theorem get_revokedLate (h : Hash) : revoked.entries.get h = revokedLate.entries.get h := by
  have hmade : (deliver clockEnvironment (createOplog libraryA) made).entries.get h =
      (mergeEntries clockEnvironment (createOplog libraryA) history).1.entries.get h :=
    deliver_get_eq createOplog_genuine (injOn_delivery fun b hb => flatten_made ▸ hb) parentsCome_made.parentsFirst
      (fun b => by rw [flatten_made]) h
  have hlate : revokedLate.entries.get h =
      (mergeEntries clockEnvironment (createOplog libraryA) history).1.entries.get h :=
    deliver_get_eq createOplog_genuine (injOn_delivery fun b hb => (mem_late b).mpr hb) parentsCome_late.parentsFirst
      mem_late h
  rw [deliver_made] at hmade
  exact hmade.trans hlate.symm

end Sample

/-! ## What a replica derives -/

/-- In every reachable oplog the walk for an ancestor ends, and it finds the ancestor exactly when the
oplog holds it and some path along `next` leads there; a hash the oplog does not hold leads nowhere. -/
theorem inCausalPast_decides_past (E : Environment) (chain : ResolvedAcChain) {o : Oplog} (h : Reachable E chain o)
    (ancestor : Hash) (next : List Hash) :
    (∃ bound, ∀ n, bound ≤ n →
      inCausalPastWithin n o.entries ancestor next = some (inCausalPast o.entries ancestor next)) ∧
    (inCausalPast o.entries ancestor next = true ↔ o.Has ancestor ∧ o.Past next ancestor) :=
  ⟨exists_inCausalPastWithin o.entries ancestor next, (reachable_sound h).indexed.grounded.inCausalPast_iff⟩

namespace Sample

/-- A hash nobody holds. -/
def dangling : Hash := formatProtocolCid (mark 9 'x')

theorem revoked_dangling : ¬ revoked.Has dangling := by
  rintro ⟨e, he⟩
  rw [get_revoked, get_withThird, get_withSecond, first_hash, second_hash, third_hash, revocation_hash, dangling,
    if_neg (mark_ne (by decide)), if_neg (mark_ne (by decide)), if_neg (mark_ne (by decide)), if_neg (mark_ne (by decide))] at he
  cases he

theorem reach_root {o : Oplog} {h x : Hash} {e : VerifiedEntry} (he : o.entries.get h = some e) (hnext : e.next = [])
    (hpath : ReflTransGen o.Parent h x) : x = h := by
  rcases ReflTransGen.cases_head hpath with rfl | ⟨y, ⟨d, hd, hmem⟩, -⟩
  · rfl
  · obtain rfl := Option.some_inj.mp (he.symm.trans hd)
    rw [hnext] at hmem
    cases hmem

/-- A path from an entry with one parent stays there or goes on from the parent. -/
theorem reach_child {o : Oplog} {h parent x : Hash} {e : VerifiedEntry} (he : o.entries.get h = some e)
    (hnext : e.next = [parent]) (hpath : ReflTransGen o.Parent h x) : x = h ∨ ReflTransGen o.Parent parent x := by
  rcases ReflTransGen.cases_head hpath with rfl | ⟨y, ⟨d, hd, hmem⟩, hrest⟩
  · exact .inl rfl
  · obtain rfl := Option.some_inj.mp (he.symm.trans hd)
    rw [hnext, List.mem_singleton] at hmem
    exact .inr (hmem ▸ hrest)

/-- The third grant rests on the first. -/
theorem past_first : revoked.Past [dangling, third.hash] first.hash := by
  refine ⟨third.hash, by simp, ?_⟩
  exact .head ⟨third, revoked_third, List.mem_singleton_self second.hash⟩
    (.single ⟨second, revoked_second, List.mem_singleton_self first.hash⟩)

theorem past_revocation : ¬ revoked.Past [dangling, third.hash] revocation.hash := by
  rintro ⟨start, hstart, hpath⟩
  rcases List.mem_cons.mp hstart with rfl | hstart
  · rcases ReflTransGen.cases_head hpath with heq | ⟨y, ⟨d, hd, -⟩, -⟩
    · exact revoked_dangling (heq ▸ ⟨revocation, revoked_revocation⟩)
    · exact revoked_dangling ⟨d, hd⟩
  · rw [List.mem_singleton.mp hstart] at hpath
    rcases reach_child revoked_third rfl hpath with heq | hpath
    · exact third_ne_revocation heq.symm
    · rcases reach_child revoked_second rfl hpath with heq | hpath
      · exact second_ne_revocation heq.symm
      · exact first_ne_revocation (reach_root revoked_first rfl hpath).symm

end Sample

open Sample in
/-- From the third grant and a hash that is not held, the walk finds the first grant two entries down, not
the hash and not the revocation beside them. -/
theorem inCausalPast_decides_past_revoked :
    inCausalPast revoked.entries first.hash [dangling, third.hash] = true ∧
      inCausalPast revoked.entries dangling [dangling, third.hash] = false ∧
      inCausalPast revoked.entries revocation.hash [dangling, third.hash] = false ∧
      ∃ bound, ∀ n, bound ≤ n → inCausalPastWithin n revoked.entries revocation.hash [dangling, third.hash] = some false := by
  have hpast (ancestor : Hash) := inCausalPast_decides_past clockEnvironment libraryA revoked_reachable ancestor
    [dangling, third.hash]
  have hrevocation : inCausalPast revoked.entries revocation.hash [dangling, third.hash] = false :=
    Bool.eq_false_iff.mpr fun h => past_revocation ((hpast revocation.hash).2.mp h).2
  refine ⟨(hpast first.hash).2.mpr ⟨⟨first, revoked_first⟩, past_first⟩, ?_, hrevocation, hrevocation ▸ (hpast revocation.hash).1⟩
  exact Bool.eq_false_iff.mpr fun h => revoked_dangling ((hpast dangling).2.mp h).1

/-! ## What a replica accepts -/

namespace Sample

theorem withSecond_blocks : withSecond.blocks ⊆ {b | b ∈ history} := by
  rintro b ⟨h, e, he, rfl⟩
  rw [get_withSecond] at he
  split at he
  · obtain rfl := Option.some_inj.mp he
    simp [history]
  · split at he
    · obtain rfl := Option.some_inj.mp he
      simp [history]
    · cases he

theorem revokedLate_blocks : revokedLate.blocks ⊆ {b | b ∈ history} := by
  rintro b ⟨h, e, he, rfl⟩
  rcases deliver_mem createOplog_genuine late he with hold | hmem
  · simp [createOplog] at hold
  · exact (mem_late e.bytes).mpr hmem

end Sample

end RecordNode
