import RecordNode.Oplog.Merge

/-! # The indexes are exact

Everything `insertEntry` maintains equals its definition over the held entries,
and every held entry still verifies against the oplog that holds it. Verification
reads neither the effective set nor the inert set nor the current state, so the
invariant holds between the insertions of a batch as well. -/

namespace RecordNode

open Foundation Relation

variable {E : Environment}

structure Indexed (E : Environment) (o : Oplog) : Prop where
  grounded : Grounded o
  verified : ∀ h e, o.entries.get h = some e → verifyEntry E o e.toHashedEntry = .ok e
  referenced : ∀ h, h ∈ o.referenced ↔ ∃ x e, o.entries.get x = some e ∧ h ∈ e.next
  heads : ∀ h, h ∈ o.heads ↔ o.Has h ∧ ∀ x e, o.entries.get x = some e → h ∉ e.next
  keyEntries : ∀ k h, (∃ s, o.keyEntries.get k = some s ∧ h ∈ s) ↔
    ∃ e, o.entries.get h = some e ∧ k ∈ e.stateKeys E
  capabilities : ∀ h e, o.capabilities.get h = some e ↔
    o.entries.get h = some e ∧ e.operation.isCapability = true
  delegated : ∀ h, h ∈ o.delegated ↔
    ∃ e, o.entries.get h = some e ∧ isWriteListKey o e.signer = false

theorem has_iff_entries_has (o : Oplog) (h : Hash) : o.Has h ↔ o.entries.has h = true := by
  rw [OrderedMap.has, Option.isSome_iff_exists, Oplog.Has]

theorem createOplog_indexed (chain : ResolvedAcChain) : Indexed E (createOplog chain) where
  grounded :=
    { keyed := by simp [createOplog]
      closed := by simp [createOplog]
      older := by simp [createOplog]
      cited := by simp [createOplog]
      revocations := by simp [createOplog] }
  verified := by simp [createOplog]
  referenced := by simp [createOplog]
  heads := by simp [createOplog, Oplog.Has]
  keyEntries := by simp [createOplog]
  capabilities := by simp [createOplog]
  delegated := by simp [createOplog]

section Insert
variable {o : Oplog} {e : VerifiedEntry}

theorem insertEntry_get (hnew : ¬ o.Has e.hash) (h : Hash) :
    (insertEntry E o e).entries.get h = if h = e.hash then some e else o.entries.get h := by
  have hf : ¬ o.entries.has e.hash = true := fun hh => hnew ((has_iff_entries_has o _).mpr hh)
  simp [insertEntry, hf]

theorem insertEntry_of_has (h : o.Has e.hash) : insertEntry E o e = o := by
  rw [insertEntry, if_pos ((has_iff_entries_has o e.hash).mp h)]

@[simp] theorem insertEntry_chain : (insertEntry E o e).chain = o.chain := by
  unfold insertEntry
  split <;> rfl

@[simp] theorem isWriteListKey_insertEntry (key : String) :
    isWriteListKey (insertEntry E o e) key = isWriteListKey o key := by
  rw [isWriteListKey, isWriteListKey, insertEntry_chain]

@[simp] theorem insertEntry_effective : (insertEntry E o e).effective = o.effective := by
  unfold insertEntry
  split <;> rfl

@[simp] theorem insertEntry_inert : (insertEntry E o e).inert = o.inert := by
  unfold insertEntry
  split <;> rfl

@[simp] theorem insertEntry_current : (insertEntry E o e).current = o.current := by
  unfold insertEntry
  split <;> rfl

/-- Old lookups survive an insertion. -/
theorem insertEntry_get_old (hnew : ¬ o.Has e.hash) {h : Hash} {x : VerifiedEntry}
    (hx : o.entries.get h = some x) : (insertEntry E o e).entries.get h = some x := by
  have hne : h ≠ e.hash := fun heq => hnew (heq ▸ ⟨x, hx⟩)
  rw [insertEntry_get hnew, if_neg hne, hx]

theorem insertEntry_get_self (hnew : ¬ o.Has e.hash) :
    (insertEntry E o e).entries.get e.hash = some e := by
  rw [insertEntry_get hnew, if_pos rfl]

theorem insertEntry_get_iff (hnew : ¬ o.Has e.hash) {h : Hash} {x : VerifiedEntry} :
    (insertEntry E o e).entries.get h = some x ↔ o.entries.get h = some x ∨ (h = e.hash ∧ x = e) := by
  rw [insertEntry_get hnew]
  by_cases heq : h = e.hash
  · have hn : o.entries.get h = none := by
      rw [Option.eq_none_iff_forall_ne_some]
      exact fun x hx => hnew (heq ▸ ⟨x, hx⟩)
    simp [heq, heq ▸ hn, eq_comm]
  · simp [heq]

theorem past_insertEntry (hnew : ¬ o.Has e.hash) {next : List Hash} {h : Hash} (hp : o.Past next h) :
    (insertEntry E o e).Past next h := by
  obtain ⟨s, hs, hr⟩ := hp
  refine ⟨s, hs, ReflTransGen.mono (fun x y hxy => ?_) s h hr⟩
  obtain ⟨q, hq, hm⟩ := hxy
  exact ⟨q, insertEntry_get_old hnew hq, hm⟩

/-- The parents of an accepted entry are held, and older. -/
theorem verifyEntry_parents {hashed : HashedEntry} (hv : verifyEntry E o hashed = .ok e) :
    (∀ p ∈ hashed.entry.next, o.Has p) ∧ hashed.entry.clock.time = maxTime o hashed.entry.next + 1 :=
  (assertClock_eq_ok_iff o hashed).mp ((verifyEntry_eq_ok_iff E o hashed e).mp hv).2.2.1

/-- An index of the held entries of one kind stays exact when the new entry is added to it
exactly if it is of that kind. -/
theorem index_insertEntry (hnew : ¬ o.Has e.hash) (kind : VerifiedEntry → Bool)
    (index : OrderedMap Hash VerifiedEntry)
    (hindex : ∀ h x, index.get h = some x ↔ o.entries.get h = some x ∧ kind x = true) (h : Hash)
    (x : VerifiedEntry) : (if kind e then index.set e.hash e else index).get h = some x ↔
      (insertEntry E o e).entries.get h = some x ∧ kind x = true := by
  have hnone : ∀ x, o.entries.get e.hash ≠ some x := fun x hx => hnew ⟨x, hx⟩
  rw [insertEntry_get_iff hnew]
  cases hk : kind e with
  | false =>
    rw [if_neg Bool.false_ne_true, hindex]
    constructor
    · exact fun ⟨hx, hr⟩ => ⟨Or.inl hx, hr⟩
    · rintro ⟨hx | ⟨rfl, rfl⟩, hr⟩
      · exact ⟨hx, hr⟩
      · simp [hk] at hr
  | true =>
    rw [if_pos rfl, OrderedMap.get_set]
    by_cases hh : h = e.hash
    · subst hh
      simp only [if_true, Option.some_inj]
      constructor
      · rintro rfl
        exact ⟨Or.inr ⟨trivial, rfl⟩, hk⟩
      · rintro ⟨hx | ⟨-, rfl⟩, -⟩
        · exact absurd hx (hnone x)
        · rfl
    · simp [hh, hindex]

/-- One more accepted entry keeps the oplog grounded. -/
theorem insertEntry_grounded (g : Grounded o) (hnew : ¬ o.Has e.hash)
    (hv : verifyEntry E o e.toHashedEntry = .ok e) : Grounded (insertEntry E o e) where
  keyed h x hx := by
    rcases (insertEntry_get_iff hnew).mp hx with hx | ⟨rfl, rfl⟩
    · exact g.keyed h x hx
    · rfl
  closed h x hx p hp := by
    rcases (insertEntry_get_iff hnew).mp hx with hx | ⟨rfl, rfl⟩
    · obtain ⟨q, hq⟩ := g.closed h x hx p hp
      exact ⟨q, insertEntry_get_old hnew hq⟩
    · obtain ⟨q, hq⟩ := (verifyEntry_parents hv).1 p hp
      exact ⟨q, insertEntry_get_old hnew hq⟩
  older h x hx p hp q hq := by
    rcases (insertEntry_get_iff hnew).mp hx with hx | ⟨rfl, rfl⟩
    · obtain ⟨q', hq'⟩ := g.closed h x hx p hp
      obtain rfl : q = q' := Option.some_inj.mp (hq.symm.trans (insertEntry_get_old hnew hq'))
      exact g.older h x hx p hp q hq'
    · obtain ⟨hheld, htime⟩ := verifyEntry_parents hv
      obtain ⟨q', hq'⟩ := hheld p hp
      obtain rfl : q = q' := Option.some_inj.mp (hq.symm.trans (insertEntry_get_old hnew hq'))
      have hle : clockOf o p ≤ maxTime o x.entry.next := clockOf_le_maxTime o hp
      simp only [clockOf, hq', Option.map_some, Option.getD_some] at hle
      change q.time < x.entry.clock.time
      omega
  cited h x hx hw := by
    rw [isWriteListKey_insertEntry] at hw
    have hc : ∃ c ce, x.operation.capabilityId = some c ∧ o.entries.get c = some ce ∧
        ce.operation.isCapability = true ∧ o.Past x.next c := by
      rcases (insertEntry_get_iff hnew).mp hx with hx | ⟨rfl, rfl⟩
      · exact g.cited h x hx hw
      · exact authoriseEntry_cites g ((verifyEntry_eq_ok_iff E o _ x).mp hv).2.2.2 hw
    obtain ⟨c, ce, hc, hce, hcap, hp⟩ := hc
    exact ⟨c, ce, hc, insertEntry_get_old hnew hce, hcap, past_insertEntry hnew hp⟩
  revocations h x := by
    have hf : ¬ o.entries.has e.hash = true := fun hh => hnew ((has_iff_entries_has o _).mpr hh)
    rw [← index_insertEntry hnew (fun x => x.operation.isRevocation) o.revocations g.revocations]
    simp [insertEntry, hf]

/-- An insertion leaves everything judged inside the old entries as it was. -/
theorem insertEntry_agreeOn (g : Grounded o) (hnew : ¬ o.Has e.hash)
    (hv : verifyEntry E o e.toHashedEntry = .ok e) : AgreeOn o.Has o (insertEntry E o e) where
  chain := insertEntry_chain.symm
  left := g
  right := insertEntry_grounded g hnew hv
  shared h hh := by
    obtain ⟨x, hx⟩ := hh
    exact ⟨x, hx, insertEntry_get_old hnew hx⟩
  closed h _ x hx q hq := g.closed h x hx q hq

theorem mem_foldl_indexKey (hash : Hash) (keys : List String)
    (index : OrderedMap String (OrderedSet Hash)) (k : String) (h : Hash) :
    (∃ s, (keys.foldl (indexKey hash) index).get k = some s ∧ h ∈ s) ↔
      (∃ s, index.get k = some s ∧ h ∈ s) ∨ (h = hash ∧ k ∈ keys) := by
  induction keys generalizing index with
  | nil => simp
  | cons key rest ih =>
    rw [List.foldl_cons, ih]
    have hstep : (∃ s, (indexKey hash index key).get k = some s ∧ h ∈ s) ↔
        (∃ s, index.get k = some s ∧ h ∈ s) ∨ (h = hash ∧ k = key) := by
      by_cases hk : k = key
      · subst hk
        cases hg : index.get k <;> simp [indexKey, hg, or_comm]
      · simp [indexKey, hk]
    rw [hstep, List.mem_cons, or_assoc, ← and_or_left]

/-- What an entry cites as a parent is held. -/
theorem Indexed.referenced_has (I : Indexed E o) : ∀ h ∈ o.referenced, o.Has h := by
  intro h hh
  obtain ⟨x, q, hq, hm⟩ := (I.referenced h).mp hh
  exact I.grounded.closed x q hq h hm

/-- The new entry is nobody's parent, so it becomes a head, and its parents are no longer. -/
theorem mem_heads_insertEntry (hnew : ¬ o.Has e.hash) (hreferenced : ∀ h ∈ o.referenced, o.Has h)
    (hparents : ∀ p ∈ e.next, o.Has p) (h : Hash) :
    h ∈ (insertEntry E o e).heads ↔ h = e.hash ∨ (h ∈ o.heads ∧ h ∉ e.next) := by
  have hf : ¬ o.entries.has e.hash = true := fun hh => hnew ((has_iff_entries_has o _).mpr hh)
  have hunref : e.hash ∉ e.next.foldl OrderedSet.add o.referenced := by
    rw [OrderedSet.mem_foldl_add]
    rintro (hm | hm)
    · exact hnew (hparents _ hm)
    · exact hnew (hreferenced _ hm)
  simp [insertEntry, hf, hunref, OrderedSet.mem_foldl_delete]

theorem insertEntry_indexed (I : Indexed E o) (hnew : ¬ o.Has e.hash)
    (hv : verifyEntry E o e.toHashedEntry = .ok e) : Indexed E (insertEntry E o e) := by
  have A := insertEntry_agreeOn I.grounded hnew hv
  have hf : ¬ o.entries.has e.hash = true := fun hh => hnew ((has_iff_entries_has o _).mpr hh)
  have hparents := (verifyEntry_parents hv).1
  refine
    { grounded := insertEntry_grounded I.grounded hnew hv
      verified := ?_
      referenced := ?_
      heads := ?_
      keyEntries := ?_
      capabilities := ?_
      delegated := ?_ }
  · intro h x hx
    rcases (insertEntry_get_iff hnew).mp hx with hx | ⟨rfl, rfl⟩
    · exact A.verifyEntry_ok (I.grounded.closed h x hx) (I.verified h x hx)
    · exact A.verifyEntry_ok hparents hv
  · intro h
    have hmem : h ∈ (insertEntry E o e).referenced ↔ h ∈ e.next ∨ h ∈ o.referenced := by
      simp [insertEntry, hf, OrderedSet.mem_foldl_add]
    rw [hmem, I.referenced]
    simp only [insertEntry_get_iff hnew]
    constructor
    · rintro (hm | ⟨x, q, hq, hm⟩)
      · exact ⟨e.hash, e, Or.inr ⟨rfl, rfl⟩, hm⟩
      · exact ⟨x, q, Or.inl hq, hm⟩
    · rintro ⟨x, q, hq | ⟨-, rfl⟩, hm⟩
      · exact Or.inr ⟨x, q, hq, hm⟩
      · exact Or.inl hm
  · intro h
    -- The new entry is nobody's parent: parents are held, and it was not.
    have hfresh : ∀ x q, o.entries.get x = some q → e.hash ∉ q.next := fun x q hq hm =>
      hnew (I.grounded.closed x q hq e.hash hm)
    have hself : e.hash ∉ e.next := fun hm => hnew (hparents e.hash hm)
    rw [mem_heads_insertEntry hnew I.referenced_has hparents, I.heads]
    simp only [Oplog.Has, insertEntry_get_iff hnew]
    constructor
    · rintro (rfl | ⟨⟨⟨x, hx⟩, hall⟩, hn⟩)
      · refine ⟨⟨e, Or.inr ⟨rfl, rfl⟩⟩, ?_⟩
        rintro x q (hq | ⟨-, rfl⟩)
        · exact hfresh x q hq
        · exact hself
      · refine ⟨⟨x, Or.inl hx⟩, ?_⟩
        rintro y q (hq | ⟨-, rfl⟩)
        · exact hall y q hq
        · exact hn
    · rintro ⟨⟨x, hx | ⟨rfl, -⟩⟩, hall⟩
      · exact Or.inr ⟨⟨⟨x, hx⟩, fun y q hq => hall y q (Or.inl hq)⟩,
          hall e.hash e (Or.inr ⟨rfl, rfl⟩)⟩
      · exact Or.inl rfl
  · intro k h
    have hidx : (insertEntry E o e).keyEntries = (e.stateKeys E).foldl (indexKey e.hash) o.keyEntries := by
      simp [insertEntry, hf]
    rw [hidx, mem_foldl_indexKey, I.keyEntries]
    simp only [insertEntry_get_iff hnew]
    constructor
    · rintro (⟨x, hx, hk⟩ | ⟨rfl, hk⟩)
      · exact ⟨x, Or.inl hx, hk⟩
      · exact ⟨e, Or.inr ⟨rfl, rfl⟩, hk⟩
    · rintro ⟨x, hx | ⟨rfl, rfl⟩, hk⟩
      · exact Or.inl ⟨x, hx, hk⟩
      · exact Or.inr ⟨rfl, hk⟩
  · intro h x
    rw [← index_insertEntry hnew (fun x => x.operation.isCapability) o.capabilities I.capabilities]
    simp [insertEntry, hf]
  · intro h
    have hdel : h ∈ (insertEntry E o e).delegated ↔
        h ∈ o.delegated ∨ (h = e.hash ∧ isWriteListKey o e.signer = false) := by
      cases hw : isWriteListKey o e.signer <;> simp [insertEntry, hf, hw, or_comm]
    rw [hdel, I.delegated]
    simp only [insertEntry_get_iff hnew, isWriteListKey_insertEntry]
    constructor
    · rintro (⟨x, hx, hw⟩ | ⟨rfl, hw⟩)
      · exact ⟨x, Or.inl hx, hw⟩
      · exact ⟨e, Or.inr ⟨rfl, rfl⟩, hw⟩
    · rintro ⟨x, hx | ⟨rfl, rfl⟩, hw⟩
      · exact Or.inl ⟨x, hx, hw⟩
      · exact Or.inr ⟨rfl, hw⟩

end Insert

end RecordNode
