import RecordNode.Oplog.Authentic

/-! # Acceptance depends on the causal past alone

Two oplogs that hold an entry's parents give it the same verdict. So a set of
blocks delivered in batches, parents never after their children, leaves the same
entries as one merge of them all. -/

namespace RecordNode

open Foundation

variable {E : Environment} {chain : ResolvedAcChain} {o p : Oplog}

/-! ## A merge misses nothing it could accept -/

theorem compareText_follows {α : Type*} (f : α → String) :
    Follows (fun a b => compareText (f a) (f b)) (fun a => codeUnits (f a)) where
  lt_iff a b := by
    unfold compareText
    split
    case isTrue h => simp [h]
    case isFalse h => split <;> simp [h]
  le_iff a b := by
    unfold compareText
    split
    case isTrue h => simpa using h.le
    case isFalse h =>
      split
      case isTrue h' => exact iff_of_false (by decide) (not_le.mpr h')
      case isFalse h' => simpa using not_lt.mp h'

theorem compareClock_follows :
    Follows compareClock (fun a : HashedEntry => toLex ((a.entry.clock.time : ℚ), codeUnits a.hash)) :=
  (follows_sub fun a : HashedEntry => (a.entry.clock.time : ℚ)).orElse
    (compareText_follows HashedEntry.hash)

/-- The insertion loop takes its entries in clock order. -/
theorem sorted_clock_le (l : List HashedEntry) :
    (sortBy compareClock l).Pairwise fun a b => a.entry.clock.time ≤ b.entry.clock.time := by
  refine (sortBy_pairwise compareClock_follows l).imp fun {a b} hab => ?_
  rw [Prod.Lex.toLex_le_toLex] at hab
  rcases hab with hlt | ⟨heq, -⟩
  · exact (Nat.cast_lt.mp hlt).le
  · exact (Nat.cast_inj.mp heq).le

theorem Batch.weaken {added more : List VerifiedEntry} (B : Batch E o p added) (h : added ⊆ more) :
    Batch E o p more :=
  ⟨B.indexed, B.agree, B.effective, B.inert, B.current, fun x e he => (B.mem x e he).imp_right fun hm => h hm⟩

/-- A loop over more entries keeps what it holds. -/
theorem foldl_admitEntry_agree (l : List HashedEntry) {state : Admission} (I : Indexed E state.oplog) :
    AgreeOn state.oplog.Has state.oplog (l.foldl (admitEntry E (verifyEntry E)) state).oplog :=
  (foldl_admitEntry_batch l ((Batch.refl I).weaken (List.nil_subset state.merged))).agree

/-- After a merge, a merged block whose entry verifies is held. -/
theorem mergeEntries_complete (s : Sound E chain o) (blocks : List Bytes) {b : Bytes}
    {hashed : HashedEntry} (hb : b ∈ blocks) (hd : decodeSignedEntry E b = .ok hashed)
    {e : VerifiedEntry} (hv : verifyEntry E (mergeEntries E o blocks).1 hashed = .ok e) :
    (mergeEntries E o blocks).1.Has hashed.hash := by
  have B := admitAll_batch (E := E) s.indexed blocks
  have hbase := settle_base (E := E) (admitAll E (verifyEntry E) o blocks).oplog (admitAll E (verifyEntry E) o blocks).merged
  have hfinal : verifyEntry E (admitAll E (verifyEntry E) o blocks).oplog hashed = .ok e := by
    refine (hbase.agreeOn B.indexed.grounded).symm.verifyEntry_ok (fun q hq => ?_) hv
    exact (hbase.has_iff q).mp ((verifyEntry_parents hv).1 q hq)
  have hhas : (mergeEntries E o blocks).1.Has hashed.hash ↔
      (admitAll E (verifyEntry E) o blocks).oplog.Has hashed.hash := hbase.has_iff hashed.hash
  rw [hhas]
  by_cases hold : o.Has hashed.hash
  · obtain ⟨x, hx⟩ := hold
    exact ⟨x, B.get_old hx⟩
  have hmem : hashed ∈ sortBy compareClock (decodedBlocks E o blocks) :=
    (mem_sortBy _ _ _).mpr (mem_decodedBlocks.mpr ⟨⟨b, hb, hd⟩, hold⟩)
  obtain ⟨pre, post, hsplit⟩ := List.append_of_mem hmem
  have hsorted := sorted_clock_le (decodedBlocks E o blocks)
  rw [hsplit, List.pairwise_append] at hsorted
  -- The loop's state when it comes to this entry.
  generalize hst : pre.foldl (admitEntry E (verifyEntry E)) ⟨o, [], undecodable E blocks⟩ = st
  have Bst : Batch E o st.oplog st.merged := by
    rw [← hst]
    exact foldl_admitEntry_batch pre (Batch.refl s.indexed)
  have hrun : (admitAll E (verifyEntry E) o blocks).oplog =
      (post.foldl (admitEntry E (verifyEntry E)) (admitEntry E (verifyEntry E) st hashed)).oplog := by
    rw [admitAll, hsplit, List.foldl_append, hst, List.foldl_cons]
  have Astep := foldl_admitEntry_agree [hashed] Bst.indexed
  have Bnext := admitEntry_batch Bst hashed
  have Arest := foldl_admitEntry_agree post Bnext.indexed
  have A : AgreeOn st.oplog.Has st.oplog (admitAll E (verifyEntry E) o blocks).oplog := by
    rw [hrun]
    exact Astep.trans Arest
  -- Parents are older, so the loop came to them before.
  have hparents : ∀ q ∈ hashed.entry.next, st.oplog.Has q := fun q hq => by
    obtain ⟨hheld, htime⟩ := verifyEntry_parents hfinal
    obtain ⟨x, hx⟩ := hheld q hq
    have hle := clockOf_le_maxTime (admitAll E (verifyEntry E) o blocks).oplog hq
    simp only [clockOf, hx, Option.map_some, Option.getD_some] at hle
    have hxtime : x.entry.clock.time < hashed.entry.clock.time := by
      change x.time < _
      omega
    rw [hrun] at hx
    rcases foldl_admitEntry_mem (fun _ _ _ => verifyEntry_toHashedEntry) post _ hx with hx | hx
    · rcases admitEntry_mem (fun _ _ _ => verifyEntry_toHashedEntry) st hashed hx with hx | hx
      · exact ⟨x, hx⟩
      · rw [hx] at hxtime
        exact absurd hxtime (lt_irrefl _)
    · have hlate := (List.pairwise_cons.mp hsorted.2.1).1 _ hx
      omega
  have hstv := A.symm.verifyEntry_ok hparents hfinal
  have hnext : (admitEntry E (verifyEntry E) st hashed).oplog.Has hashed.hash := by
    unfold admitEntry
    split
    case isTrue h => exact (has_iff_entries_has _ _).mpr h
    case isFalse h =>
      simp only [hstv]
      have heq := congrArg HashedEntry.hash (verifyEntry_toHashedEntry hstv)
      have hnew : ¬ st.oplog.Has e.hash := fun hh => h (heq ▸ (has_iff_entries_has _ _).mp hh)
      exact ⟨e, heq ▸ insertEntry_get_self hnew⟩
  rw [hrun]
  obtain ⟨x, hx⟩ := hnext
  exact ⟨x, (Arest.get_eq ⟨x, hx⟩).symm.trans hx⟩

theorem foldl_admitEntry_of_refused (l : List HashedEntry) (state : Admission)
    (hl : ∀ hashed ∈ l, ¬ state.oplog.Has hashed.hash → ∀ e, verifyEntry E state.oplog hashed ≠ .ok e) :
    (l.foldl (admitEntry E (verifyEntry E)) state).oplog = state.oplog ∧
      (l.foldl (admitEntry E (verifyEntry E)) state).merged = state.merged := by
  induction l generalizing state with
  | nil => exact ⟨rfl, rfl⟩
  | cons hashed rest ih =>
    have hstep : (admitEntry E (verifyEntry E) state hashed).oplog = state.oplog ∧
        (admitEntry E (verifyEntry E) state hashed).merged = state.merged := by
      unfold admitEntry
      split
      · exact ⟨rfl, rfl⟩
      case isFalse hnot =>
        split
        · exact ⟨rfl, rfl⟩
        case h_2 entry hv =>
          exact absurd hv (hl hashed List.mem_cons_self (fun hh => hnot ((has_iff_entries_has _ _).mp hh)) entry)
    obtain ⟨ho, hm⟩ := ih (admitEntry E (verifyEntry E) state hashed) (fun x hx => by
      rw [hstep.1]
      exact hl x (List.mem_cons_of_mem _ hx))
    exact ⟨ho.trans hstep.1, hm.trans hstep.2⟩

theorem settle_nil (o : Oplog) : (settle E o []).1 = o := by
  have hrefresh : refreshAccessState E o [] = (o, ⟨[], .empty⟩) := by
    simp [refreshAccessState]
  simp [settle, hrefresh, refreshCurrentState, OrderedSet.empty]

/-- A merge adds nothing that a merge of the same blocks did not add before. -/
theorem mergeEntries_again (s : Sound E chain o) (blocks : List Bytes) :
    (mergeEntries E (mergeEntries E o blocks).1 blocks).1 = (mergeEntries E o blocks).1 ∧
      (mergeEntries E (mergeEntries E o blocks).1 blocks).2.merged = [] := by
  have hfold := foldl_admitEntry_of_refused (E := E)
    (sortBy compareClock (decodedBlocks E (mergeEntries E o blocks).1 blocks))
    ⟨(mergeEntries E o blocks).1, [], undecodable E blocks⟩ (fun hashed hh hnot e hv => by
      rw [mem_sortBy, mem_decodedBlocks] at hh
      obtain ⟨⟨b, hb, hd⟩, -⟩ := hh
      exact hnot (mergeEntries_complete s blocks hb hd hv))
  obtain ⟨ho, hm⟩ := hfold
  refine ⟨?_, hm⟩
  change (settle E (admitAll E (verifyEntry E) _ blocks).oplog (admitAll E (verifyEntry E) _ blocks).merged).1 = _
  rw [admitAll, ho, hm, settle_nil]

/-! ## Deliveries -/

/-- Merging batch after batch. -/
def deliver (E : Environment) (o : Oplog) (batches : List (List Bytes)) : Oplog :=
  batches.foldl (fun o blocks => (mergeEntries E o blocks).1) o

/-- No entry comes in an earlier batch than one of its parents: whatever parent the whole
delivery brings, this batch or one before it has brought. -/
def ParentsFirst (E : Environment) (batches : List (List Bytes)) : Prop :=
  ∀ pre batch post, batches = pre ++ batch :: post → ∀ b ∈ batch, ∀ hashed,
    decodeSignedEntry E b = .ok hashed → ∀ q ∈ hashed.entry.next, ∀ c ∈ batches.flatten,
      computeCidString E c = q → ∃ d ∈ (pre ++ [batch]).flatten, computeCidString E d = q

/-- The invariant a delivery keeps. -/
structure Genuine (E : Environment) (chain : ResolvedAcChain) (o : Oplog) : Prop extends
    Sound E chain o where
  authentic : Authentic E o

theorem Genuine.traced (g : Genuine E chain o) : Traced E chain o := g.toSound.traced g.authentic

theorem mergeEntries_genuine (g : Genuine E chain o) (blocks : List Bytes) :
    Genuine E chain (mergeEntries E o blocks).1 :=
  ⟨merge_sound g.toSound blocks, merge_authentic g.authentic blocks⟩

theorem append_genuine (hE : E.CodecLaw) (g : Genuine E chain o) {payload : LocalPayload} {keyPair : KeyPair}
    {result : Appended} (ha : appendEntryWithAccess E o payload keyPair = .ok result) :
    Genuine E chain result.oplog := by
  refine ⟨append_sound g.toSound ha, fun h x hx => ?_⟩
  rw [append_entries g.toSound ha] at hx
  rcases insertEntry_mem hx with hx | rfl
  · exact g.authentic h x hx
  · exact signLocalEntry_authentic hE (append_signed ha)

/-- The oplog holds the entry an append reports, unless its digest collides. -/
theorem append_holds (hE : E.CodecLaw) (g : Genuine E chain o) {payload : LocalPayload} {keyPair : KeyPair}
    {result : Appended} (ha : appendEntryWithAccess E o payload keyPair = .ok result)
    (hinj : Set.InjOn E.sha3 (insert result.entry.bytes o.blocks)) : result.oplog.Holds result.entry := by
  rw [Oplog.Holds, append_entries g.toSound ha]
  by_cases hold : o.Has result.entry.hash
  · rw [insertEntry_of_has hold]
    obtain ⟨x, hx⟩ := hold
    have hsub : ({x.bytes, result.entry.bytes} : Set Bytes) ⊆ insert result.entry.bytes o.blocks := by
      rintro b (rfl | rfl)
      · exact Or.inr ⟨_, x, hx, rfl⟩
      · exact Or.inl rfl
    have heq := eq_of_hash_eq (g.authentic _ x hx) (signLocalEntry_authentic hE (append_signed ha))
      (hinj.mono hsub) (g.indexed.grounded.keyed _ x hx)
    have hvx := g.indexed.verified _ x hx
    rw [heq, signLocalEntry_verified (append_signed ha)] at hvx
    rw [hx, Except.ok.inj hvx]
  · exact insertEntry_get_self hold

theorem admitEntry_merged_holds {state : Admission}
    (hm : ∀ e ∈ state.merged, state.oplog.Holds e) (hashed : HashedEntry) :
    ∀ e ∈ (admitEntry E (verifyEntry E) state hashed).merged,
      (admitEntry E (verifyEntry E) state hashed).oplog.Holds e := by
  unfold admitEntry
  split
  · exact hm
  case isFalse hnot =>
    split
    · exact hm
    case h_2 entry hv =>
      have hhash : entry.hash = hashed.hash := congrArg HashedEntry.hash (verifyEntry_toHashedEntry hv)
      have hnew : ¬ state.oplog.Has entry.hash := fun hh =>
        hnot (hhash ▸ (has_iff_entries_has _ _).mp hh)
      intro e he
      rcases List.mem_append.mp he with he | he
      · exact insertEntry_get_old hnew (hm e he)
      · rw [List.mem_singleton.mp he]
        exact insertEntry_get_self hnew

/-- A merge holds every entry it reports. -/
theorem mergeEntries_merged_holds (blocks : List Bytes) :
    ∀ e ∈ (mergeEntries E o blocks).2.merged, (mergeEntries E o blocks).1.Holds e := by
  have hloop : ∀ (l : List HashedEntry) (state : Admission), (∀ e ∈ state.merged, state.oplog.Holds e) →
      ∀ e ∈ (l.foldl (admitEntry E (verifyEntry E)) state).merged,
        (l.foldl (admitEntry E (verifyEntry E)) state).oplog.Holds e := by
    intro l
    induction l with
    | nil => exact fun _ hm => hm
    | cons hashed rest ih => exact fun state hm => ih _ (admitEntry_merged_holds hm hashed)
  intro e he
  rw [Oplog.Holds, mergeEntries_entries]
  exact hloop _ _ (by simp) e he

theorem deliver_genuine (g : Genuine E chain o) (batches : List (List Bytes)) :
    Genuine E chain (deliver E o batches) := by
  induction batches generalizing o with
  | nil => exact g
  | cons batch rest ih => exact ih (mergeEntries_genuine g batch)

theorem deliver_get_old (g : Genuine E chain o) (batches : List (List Bytes)) {h : Hash}
    {x : VerifiedEntry} (hx : o.entries.get h = some x) : (deliver E o batches).entries.get h = some x := by
  induction batches generalizing o with
  | nil => exact hx
  | cons batch rest ih => exact ih (mergeEntries_genuine g batch) (mergeEntries_get_old g.toSound batch hx)

/-- A delivered entry was held at the start or is the decoding of a delivered block. -/
theorem deliver_mem (g : Genuine E chain o) (batches : List (List Bytes)) {h : Hash} {x : VerifiedEntry}
    (hx : (deliver E o batches).entries.get h = some x) :
    o.entries.get h = some x ∨ x.bytes ∈ batches.flatten := by
  induction batches generalizing o with
  | nil => exact Or.inl hx
  | cons batch rest ih =>
    rw [List.flatten_cons, List.mem_append]
    rcases ih (mergeEntries_genuine g batch) hx with hx | hx
    · rcases mergeEntries_mem batch hx with hx | ⟨b, hb, hd⟩
      · exact Or.inl hx
      · exact Or.inr (Or.inl ((decodeSignedEntry_bytes hd).1 ▸ hb))
    · exact Or.inr (Or.inr hx)

theorem deliver_append (o : Oplog) (pre post : List (List Bytes)) :
    deliver E o (pre ++ post) = deliver E (deliver E o pre) post := by
  rw [deliver, List.foldl_append]
  rfl

section Delivery
variable {batches : List (List Bytes)}

/-- The blocks a delivery on top of `o` deals with. -/
abbrev deliveryBlocks (o : Oplog) (batches : List (List Bytes)) : Set Bytes :=
  o.blocks ∪ { b | b ∈ batches.flatten }

theorem deliver_blocks_subset (g : Genuine E chain o) (part : List (List Bytes))
    (hpart : ∀ b ∈ part.flatten, b ∈ batches.flatten) :
    (deliver E o part).blocks ⊆ deliveryBlocks o batches := by
  rintro b ⟨h, e, he, rfl⟩
  rcases deliver_mem g part he with ho | hb
  · exact Or.inl ⟨h, e, ho, rfl⟩
  · exact Or.inr (hpart _ hb)

/-- A delivered block that the final oplog would accept is held as soon as its batch has
been merged. Induction on the clock: the parents came no later. -/
theorem deliver_complete (g : Genuine E chain o)
    (hinj : Set.InjOn E.sha3 (deliveryBlocks o batches)) (hfirst : ParentsFirst E batches) (t : ℕ)
    {pre post : List (List Bytes)} {batch : List Bytes} (hsplit : batches = pre ++ batch :: post)
    {b : Bytes} (hb : b ∈ batch) {hashed : HashedEntry} (hd : decodeSignedEntry E b = .ok hashed)
    (ht : hashed.entry.clock.time = t) {e : VerifiedEntry}
    (hv : verifyEntry E (deliver E o batches) hashed = .ok e) :
    (deliver E o (pre ++ [batch])).Has hashed.hash := by
  induction t using Nat.strong_induction_on generalizing pre post batch b hashed e with
  | _ t ih =>
    have gF := deliver_genuine g batches
    have gM := deliver_genuine g (pre ++ [batch])
    have hF : deliver E o batches = deliver E (deliver E o (pre ++ [batch])) post := by
      rw [← deliver_append, hsplit, List.append_assoc, List.singleton_append]
    have hsub : ∀ c ∈ (pre ++ [batch]).flatten, c ∈ batches.flatten := fun c hc => by
      rw [hsplit, List.flatten_append, List.flatten_cons]
      simp only [List.flatten_append, List.flatten_cons, List.flatten_nil, List.append_nil,
        List.mem_append] at hc ⊢
      exact hc.elim Or.inl fun hc => Or.inr (Or.inl hc)
    obtain ⟨hheld, htime⟩ := verifyEntry_parents hv
    have hparents : ∀ q ∈ hashed.entry.next, (deliver E o (pre ++ [batch])).Has q := fun q hq => by
      obtain ⟨x, hx⟩ := hheld q hq
      by_cases hold : o.Has q
      · obtain ⟨y, hy⟩ := hold
        exact ⟨y, deliver_get_old g _ hy⟩
      have hxb : x.bytes ∈ batches.flatten :=
        (deliver_mem g batches hx).resolve_left fun ho => hold ⟨x, ho⟩
      have hxd := gF.authentic q x hx
      have hxq : computeCidString E x.bytes = q := by
        rw [computeCidString, ← (decodeSignedEntry_bytes hxd).2]
        exact gF.indexed.grounded.keyed q x hx
      obtain ⟨d, hdm, hdq⟩ := hfirst pre batch post hsplit b hb hashed hd q hq x.bytes hxb hxq
      have hdx : d = x.bytes := by
        refine hinj (Or.inr (hsub d hdm)) (Or.inr hxb) ?_
        exact formatProtocolCid_injective (hdq.trans hxq.symm)
      obtain ⟨batch', hbatch', hd'⟩ := List.mem_flatten.mp hdm
      obtain ⟨pre', post', hsplit'⟩ := List.append_of_mem hbatch'
      have hwhole : batches = pre' ++ batch' :: (post' ++ post) := by
        rw [hsplit, ← List.singleton_append, ← List.append_assoc, hsplit']
        simp
      have hle := clockOf_le_maxTime (deliver E o batches) hq
      simp only [clockOf, hx, Option.map_some, Option.getD_some] at hle
      have hlt : x.entry.clock.time < t := by
        change x.time < t
        omega
      have hhas := ih _ hlt hwhole hd' (hdx ▸ hxd) rfl (gF.indexed.verified q x hx)
      have hxhash : x.toHashedEntry.hash = q := gF.indexed.grounded.keyed q x hx
      rw [hxhash] at hhas
      obtain ⟨y, hy⟩ := hhas
      refine ⟨y, ?_⟩
      have hrest : pre ++ [batch] = (pre' ++ [batch']) ++ post' := by rw [hsplit']; simp
      rw [hrest, deliver_append]
      exact deliver_get_old (deliver_genuine g _) post' hy
    have A : AgreeOn (deliver E o (pre ++ [batch])).Has (deliver E o (pre ++ [batch])) (deliver E o batches) :=
      gM.toSound.agreeOn_of_extends gF.toSound fun x y hy => by
        rw [hF]
        exact deliver_get_old gM post hy
    have hvM := A.symm.verifyEntry_ok hparents hv
    have hM : deliver E o (pre ++ [batch]) = (mergeEntries E (deliver E o pre) batch).1 := by
      rw [deliver_append]
      rfl
    rw [hM] at hvM ⊢
    exact mergeEntries_complete (deliver_genuine g pre).toSound batch hb hd hvM

/-- One merge of everything, and the delivery, hold the same entries. -/
theorem deliver_get_eq (g : Genuine E chain o)
    (hinj : Set.InjOn E.sha3 (deliveryBlocks o batches)) (hfirst : ParentsFirst E batches)
    {all : List Bytes} (hall : ∀ b, b ∈ all ↔ b ∈ batches.flatten) (h : Hash) :
    (deliver E o batches).entries.get h = (mergeEntries E o all).1.entries.get h := by
  have gF := deliver_genuine g batches
  have gM := mergeEntries_genuine g all
  have hFb : (deliver E o batches).blocks ⊆ deliveryBlocks o batches :=
    deliver_blocks_subset g batches fun b hb => hb
  have hMb : (mergeEntries E o all).1.blocks ⊆ deliveryBlocks o batches := by
    rintro b ⟨h, e, he, rfl⟩
    rcases mergeEntries_mem all he with ho | ⟨c, hc, hd⟩
    · exact Or.inl ⟨h, e, ho, rfl⟩
    · exact Or.inr ((decodeSignedEntry_bytes hd).1 ▸ (hall c).mp hc)
  have hinjF : Set.InjOn E.sha3 ((deliver E o batches).blocks ∪ (mergeEntries E o all).1.blocks) :=
    hinj.mono (Set.union_subset hFb hMb)
  have hsame : ∀ t h e, e.time = t → ((deliver E o batches).entries.get h = some e ↔
      (mergeEntries E o all).1.entries.get h = some e) := by
    intro t
    induction t using Nat.strong_induction_on with
    | _ t ih =>
      intro h e het
      constructor
      · intro he
        rcases deliver_mem g batches he with ho | hb
        · exact mergeEntries_get_old g.toSound all ho
        have hd := gF.authentic h e he
        have hv := gF.indexed.verified h e he
        have hnext : ∀ q ∈ e.next, (deliver E o batches).Has q ∧ (mergeEntries E o all).1.Has q :=
          fun q hq => by
            obtain ⟨x, hx⟩ := gF.indexed.grounded.closed h e he q hq
            have hlt := gF.indexed.grounded.older h e he q hq x hx
            exact ⟨⟨x, hx⟩, x, (ih x.time (het ▸ hlt) q x rfl).mp hx⟩
        have A := agreeOn_past gF.traced gM.traced hinjF hnext
        have hvM := A.verifyEntry_ok (fun q hq => Oplog.past_of_mem hq) hv
        obtain ⟨y, hy⟩ := mergeEntries_complete g.toSound all ((hall _).mpr hb) hd hvM
        have hhash : e.toHashedEntry.hash = h := gF.indexed.grounded.keyed h e he
        rw [hhash] at hy
        rw [hy, entry_eq_of_hash gF.traced gM.traced hinjF he hy]
      · intro he
        rcases mergeEntries_mem all he with ho | ⟨b, hb, hd⟩
        · exact deliver_get_old g batches ho
        have hv := gM.indexed.verified h e he
        have hnext : ∀ q ∈ e.next, (mergeEntries E o all).1.Has q ∧ (deliver E o batches).Has q :=
          fun q hq => by
            obtain ⟨x, hx⟩ := gM.indexed.grounded.closed h e he q hq
            have hlt := gM.indexed.grounded.older h e he q hq x hx
            exact ⟨⟨x, hx⟩, x, (ih x.time (het ▸ hlt) q x rfl).mpr hx⟩
        have A := agreeOn_past gM.traced gF.traced
          (Set.union_comm _ _ ▸ hinjF) hnext
        have hvF := A.verifyEntry_ok (fun q hq => Oplog.past_of_mem hq) hv
        obtain ⟨batch, hbatch, hbm⟩ := List.mem_flatten.mp ((hall b).mp hb)
        obtain ⟨pre, post, hsplit⟩ := List.append_of_mem hbatch
        obtain ⟨y, hy⟩ := deliver_complete g hinj hfirst _ hsplit hbm hd rfl hvF
        have hhash : e.toHashedEntry.hash = h := gM.indexed.grounded.keyed h e he
        rw [hhash] at hy
        have hyF : (deliver E o batches).entries.get h = some y := by
          rw [hsplit, ← List.singleton_append, ← List.append_assoc, deliver_append]
          exact deliver_get_old (deliver_genuine g _) post hy
        rw [hyF, entry_eq_of_hash gF.traced gM.traced hinjF hyF he]
  exact Option.ext fun e => hsame e.time h e rfl

end Delivery

end RecordNode
