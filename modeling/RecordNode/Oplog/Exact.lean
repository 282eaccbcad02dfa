import RecordNode.Oplog.Root

/-! # Derived state equals its definition in every reachable oplog

Whatever sequence of merges and appends led to an oplog, its indexes, its access
state and its current state are functions of the entries it holds. -/

namespace RecordNode

open Foundation

variable {E : Environment} {chain : ResolvedAcChain}

/-- The invariant of whole runs: exact indexes and a settled state over them. -/
structure Sound (E : Environment) (chain : ResolvedAcChain) (o : Oplog) : Prop where
  chain_eq : o.chain = chain
  indexed : Indexed E o
  settled : Settled E o

theorem createOplog_sound : Sound E chain (createOplog chain) :=
  ⟨rfl, createOplog_indexed chain, createOplog_settled chain⟩

/-- A settled batch is sound again, and holds the old entries with the new ones. -/
theorem Batch.sound {o p : Oplog} {added : List VerifiedEntry} (B : Batch E o p added)
    (s : Sound E chain o) : Sound E chain (settle E p added).1 where
  chain_eq := by rw [(settle_base _ _).chain, ← B.agree.chain, s.chain_eq]
  indexed := (settle_base _ _).indexed B.indexed
  settled := B.settle_settled s.settled s.indexed

/-! ## The two transitions -/

theorem signLocalEntry_verified {o : Oplog} {payload : LocalPayload} {keyPair : KeyPair}
    {e : VerifiedEntry} (h : signLocalEntry E o payload keyPair = .ok e) :
    verifyEntry E o e.toHashedEntry = .ok e := by
  simp only [signLocalEntry, bind_eq_ok] at h
  obtain ⟨-, -, unsigned, -, hv⟩ := h
  rw [((verifyEntry_eq_ok_iff E o _ e).mp hv).1]
  exact hv

/-- An append is a batch of the one entry it signed. -/
theorem append_batch {o : Oplog} (I : Indexed E o) {payload : LocalPayload} {keyPair : KeyPair}
    {result : Appended} (h : appendEntryWithAccess E o payload keyPair = .ok result) :
    result.oplog = (settle E (insertEntry E o result.entry) [result.entry]).1 ∧
      Batch E o (insertEntry E o result.entry) [result.entry] := by
  simp only [appendEntryWithAccess, bind_eq_ok] at h
  obtain ⟨e, he, hres⟩ := h
  cases Except.ok.inj hres
  exact ⟨rfl, (Batch.refl I).insert (signLocalEntry_verified he)⟩

theorem append_sound {o : Oplog} (s : Sound E chain o) {payload : LocalPayload} {keyPair : KeyPair}
    {result : Appended} (h : appendEntryWithAccess E o payload keyPair = .ok result) :
    Sound E chain result.oplog := by
  obtain ⟨heq, B⟩ := append_batch s.indexed h
  rw [heq]
  exact B.sound s

theorem admitEntry_batch {o : Oplog} {state : Admission} (B : Batch E o state.oplog state.merged)
    (hashed : HashedEntry) :
    Batch E o (admitEntry E (verifyEntry E) state hashed).oplog
      (admitEntry E (verifyEntry E) state hashed).merged := by
  unfold admitEntry
  split
  · exact B
  · split
    · exact B
    case h_2 entry hv =>
      rw [← ((verifyEntry_eq_ok_iff E _ hashed entry).mp hv).1] at hv
      exact B.insert hv

theorem foldl_admitEntry_batch {o : Oplog} (l : List HashedEntry) {state : Admission}
    (B : Batch E o state.oplog state.merged) :
    Batch E o (l.foldl (admitEntry E (verifyEntry E)) state).oplog
      (l.foldl (admitEntry E (verifyEntry E)) state).merged := by
  induction l generalizing state with
  | nil => exact B
  | cons hashed rest ih => exact ih (admitEntry_batch B hashed)

/-- A merge is a batch of accepted entries. -/
theorem admitAll_batch {o : Oplog} (I : Indexed E o) (blocks : List Bytes) :
    Batch E o (admitAll E (verifyEntry E) o blocks).oplog (admitAll E (verifyEntry E) o blocks).merged :=
  foldl_admitEntry_batch _ (Batch.refl I)

theorem merge_sound {o : Oplog} (s : Sound E chain o) (blocks : List Bytes) :
    Sound E chain (mergeEntries E o blocks).1 :=
  (admitAll_batch s.indexed blocks).sound s

/-- Every run keeps the invariant. -/
theorem reachable_sound {o : Oplog} (h : Reachable E chain o) : Sound E chain o := by
  induction h with
  | create => exact createOplog_sound
  | merge o blocks _ ih => exact merge_sound ih blocks
  | append o payload keyPair result _ ha ih => exact append_sound ih ha

/-! ## The definitions the state is exact against -/

/-- The winner of a key: it competes, and every other competitor sorts after it. -/
def IsWinner (E : Environment) (o : Oplog) (k : String) (e : VerifiedEntry) : Prop :=
  Competes E o k e ∧
    ∀ x, Competes E o k x → x = e ∨ compareCurrentState e.toHashedEntry x.toHashedEntry < 0

/-- Every derived field of the oplog, from scratch over the entries it holds. -/
structure DerivedState (E : Environment) (o : Oplog) : Prop where
  heads : ∀ h, h ∈ o.heads ↔ o.Has h ∧ ∀ x e, o.entries.get x = some e → h ∉ e.next
  keyed : ∀ h e, o.entries.get h = some e → e.hash = h
  closed : ∀ h e, o.entries.get h = some e → ∀ p ∈ e.next, o.Has p
  clock : ∀ h e, o.entries.get h = some e → e.time = 1 + maxTime o e.next
  keyEntries : ∀ k h, (∃ s, o.keyEntries.get k = some s ∧ h ∈ s) ↔
    ∃ e, o.entries.get h = some e ∧ k ∈ e.stateKeys E
  capabilities : ∀ h e, o.capabilities.get h = some e ↔
    o.entries.get h = some e ∧ e.operation.isCapability = true
  revocations : ∀ h e, o.revocations.get h = some e ↔
    o.entries.get h = some e ∧ e.operation.isRevocation = true
  delegated : ∀ h, h ∈ o.delegated ↔
    ∃ e, o.entries.get h = some e ∧ isWriteListKey o e.signer = false
  effective : ∀ h, h ∈ o.effective ↔ ∃ r ∈ effectiveRevocations o o.revocations.values, r.hash = h
  inert : ∀ h, h ∈ o.inert ↔ ∃ e, o.entries.get h = some e ∧ h ∈ o.delegated ∧
    (if e.operation.isRevocation then h ∉ o.effective
      else inertUnder o e (effectiveEntries o) = true)
  current_some : ∀ k e, o.current.get k = some e ↔ IsWinner E o k e
  current_none : ∀ k, o.current.get k = none ↔ ∀ e, ¬ Competes E o k e

theorem Sound.current_some {o : Oplog} (s : Sound E chain o) (k : String) (e : VerifiedEntry) :
    o.current.get k = some e ↔ IsWinner E o k e := by
  rw [s.settled.current, resolveCurrentState_eq_some_iff (s.indexed.candidates_hashInjective k)]
  simp only [s.indexed.mem_candidates, IsWinner]

theorem Sound.isInert_iff {o : Oplog} (s : Sound E chain o) {h : Hash} {e : VerifiedEntry}
    (he : o.entries.get h = some e) : isInert o (effectiveEntries o) e = true ↔
      if e.operation.isRevocation then h ∉ o.effective else inertUnder o e (effectiveEntries o) = true := by
  have hh := s.indexed.grounded.keyed h e he
  rw [isInert, hh, s.indexed.grounded.revocations_has he]
  split
  · rw [Bool.not_eq_true', ← Bool.not_eq_true, OrderedSet.has_iff]
  · exact Iff.rfl

/-- What a write-list key signed is never inert. -/
theorem Sound.competes_of_writeListKey {o : Oplog} (s : Sound E chain o) {h : Hash} {e : VerifiedEntry}
    (he : o.entries.get h = some e) (hw : isWriteListKey o e.signer = true) {k : String}
    (hk : k ∈ e.stateKeys E) : Competes E o k e := by
  have hh := s.indexed.grounded.keyed h e he
  subst hh
  refine ⟨he, hk, fun hi => ?_⟩
  obtain ⟨x, hx, hxw, -⟩ := (s.settled.inert _).mp hi
  obtain rfl : e = x := Option.some_inj.mp (he.symm.trans hx)
  rw [hw] at hxw
  exact absurd hxw (by decide)

theorem Sound.derivedState {o : Oplog} (s : Sound E chain o) : DerivedState E o where
  heads := s.indexed.heads
  keyed := s.indexed.grounded.keyed
  closed := s.indexed.grounded.closed
  clock h e he := by
    have hc := (verifyEntry_parents (s.indexed.verified h e he)).2
    change e.entry.clock.time = 1 + maxTime o e.entry.next
    omega
  keyEntries := s.indexed.keyEntries
  capabilities := s.indexed.capabilities
  revocations := s.indexed.grounded.revocations
  delegated := s.indexed.delegated
  effective := s.settled.effective
  inert h := by
    rw [s.settled.inert]
    refine exists_congr fun e => and_congr_right fun he => ?_
    rw [s.isInert_iff he, s.indexed.delegated]
    simp [he]
  current_some := s.current_some
  current_none k := by
    rw [s.settled.current, resolveCurrentState_eq_none_iff, List.eq_nil_iff_forall_not_mem]
    simp only [s.indexed.mem_candidates]

/-- Two oplogs that answer alike in every derived field. -/
structure SameDerived (o p : Oplog) : Prop where
  heads : ∀ h, h ∈ o.heads ↔ h ∈ p.heads
  keyEntries : ∀ k h, (∃ s, o.keyEntries.get k = some s ∧ h ∈ s) ↔
    ∃ s, p.keyEntries.get k = some s ∧ h ∈ s
  capabilities : ∀ h, o.capabilities.get h = p.capabilities.get h
  revocations : ∀ h, o.revocations.get h = p.revocations.get h
  delegated : ∀ h, h ∈ o.delegated ↔ h ∈ p.delegated
  effective : ∀ h, h ∈ o.effective ↔ h ∈ p.effective
  inert : ∀ h, h ∈ o.inert ↔ h ∈ p.inert
  current : ∀ k, o.current.get k = p.current.get k

/-! ## Growth without a revocation

A larger oplog that holds no revocation more judges the old entries as before. -/

/-- Everything held in `o` is held in `p`. -/
def Extends (o p : Oplog) : Prop := ∀ h e, o.entries.get h = some e → p.entries.get h = some e

def NoNewRevocation (o p : Oplog) : Prop :=
  ∀ h e, p.entries.get h = some e → e.operation.isRevocation = true → o.entries.get h = some e

section Growth
variable {o p : Oplog}

theorem Sound.agreeOn_of_extends (s : Sound E chain o) (t : Sound E chain p) (h : Extends o p) :
    AgreeOn o.Has o p where
  chain := s.chain_eq.trans t.chain_eq.symm
  left := s.indexed.grounded
  right := t.indexed.grounded
  shared x hx := by
    obtain ⟨e, he⟩ := hx
    exact ⟨e, he, h x e he⟩
  closed x _ e he := s.indexed.grounded.closed x e he

theorem Sound.revocations_eq (s : Sound E chain o) (t : Sound E chain p) (hext : Extends o p)
    (hnew : NoNewRevocation o p) (h : Hash) : o.revocations.get h = p.revocations.get h := by
  apply Option.ext
  intro e
  rw [s.indexed.grounded.revocations, t.indexed.grounded.revocations]
  constructor
  · exact fun ⟨he, hr⟩ => ⟨hext h e he, hr⟩
  · exact fun ⟨he, hr⟩ => ⟨hnew h e he hr, hr⟩

theorem Sound.effective_iff (s : Sound E chain o) (t : Sound E chain p) (hext : Extends o p)
    (hnew : NoNewRevocation o p) (h : Hash) : h ∈ o.effective ↔ h ∈ p.effective := by
  have hin : AgreeOn.Inside o.Has o o.revocations.values := fun r hr => by
    have hh := ((s.indexed.grounded.mem_revocations_values r).mp hr).1
    exact ⟨⟨r, hh⟩, hh⟩
  have hperm := (s.agreeOn_of_extends t hext).effectiveRevocations_perm hin
    (OrderedMap.values_perm _ _ (s.revocations_eq t hext hnew))
  rw [s.settled.effective, t.settled.effective]
  simp only [hperm.mem_iff]

theorem Sound.effectiveEntries_perm (s : Sound E chain o) (t : Sound E chain p) (hext : Extends o p)
    (hnew : NoNewRevocation o p) : (effectiveEntries o).Perm (effectiveEntries p) := by
  have hitems : o.effective.items.Perm p.effective.items :=
    (List.perm_ext_iff_of_nodup o.effective.nodup p.effective.nodup).mpr (s.effective_iff t hext hnew)
  have hget : o.effective.items.filterMap o.entries.get = o.effective.items.filterMap p.entries.get :=
    List.filterMap_congr fun h hh => by
      obtain ⟨e, he⟩ := s.settled.effective_has s.indexed.grounded hh
      rw [he, hext h e he]
  rw [effectiveEntries, effectiveEntries, hget]
  exact hitems.filterMap _

/-- An old entry keeps its verdict. -/
theorem Sound.inert_iff (s : Sound E chain o) (t : Sound E chain p) (hext : Extends o p)
    (hnew : NoNewRevocation o p) {h : Hash} {e : VerifiedEntry} (he : o.entries.get h = some e) :
    h ∈ o.inert ↔ h ∈ p.inert := by
  have A := s.agreeOn_of_extends t hext
  rw [s.settled.inert, t.settled.inert]
  simp only [he, hext h e he, Option.some.injEq, exists_eq_left']
  rw [← A.isWriteListKey_eq, s.isInert_iff he, t.isInert_iff (hext h e he), s.effective_iff t hext hnew,
    A.inertUnder_eq ⟨e, he⟩ he (effectiveEntries_inside s.indexed.grounded)
      (s.effectiveEntries_perm t hext hnew)]

/-- A key none of the new entries is keyed under keeps its current entry. -/
theorem Sound.current_eq (s : Sound E chain o) (t : Sound E chain p) (hext : Extends o p)
    (hnew : NoNewRevocation o p) {k : String}
    (hk : ∀ h e, p.entries.get h = some e → k ∈ e.stateKeys E → o.entries.get h = some e) :
    p.current.get k = o.current.get k := by
  have hcompete (e : VerifiedEntry) : Competes E o k e ↔ Competes E p k e := by
    rw [Competes, Competes, Oplog.Holds, Oplog.Holds]
    constructor
    · rintro ⟨he, hke, hi⟩
      exact ⟨hext _ e he, hke, fun hc => hi ((s.inert_iff t hext hnew he).mpr hc)⟩
    · rintro ⟨he, hke, hi⟩
      have ho := hk _ e he hke
      exact ⟨ho, hke, fun hc => hi ((s.inert_iff t hext hnew ho).mp hc)⟩
  apply Option.ext
  intro e
  simp only [s.current_some, t.current_some, IsWinner, hcompete]

/-- The held entries decide every derived field. -/
theorem Sound.sameDerived (s : Sound E chain o) (t : Sound E chain p)
    (hget : ∀ x, o.entries.get x = p.entries.get x) : SameDerived o p := by
  have hext : Extends o p := fun h e he => hget h ▸ he
  have hnew : NoNewRevocation o p := fun h e he _ => (hget h).trans he
  refine
    { heads := fun h => by simp only [s.indexed.heads, t.indexed.heads, Oplog.Has, hget]
      keyEntries := fun k h => by rw [s.indexed.keyEntries, t.indexed.keyEntries, hget]
      capabilities := fun h => Option.ext fun e => by
        rw [s.indexed.capabilities, t.indexed.capabilities, hget]
      revocations := s.revocations_eq t hext hnew
      delegated := fun h => by
        simp only [s.indexed.delegated, t.indexed.delegated, hget,
          (s.agreeOn_of_extends t hext).isWriteListKey_eq]
      effective := s.effective_iff t hext hnew
      inert := fun h => ?_
      current := fun k => (s.current_eq t hext hnew fun h e he _ => (hget h).trans he).symm }
  by_cases hh : o.Has h
  · obtain ⟨e, he⟩ := hh
    exact s.inert_iff t hext hnew he
  · rw [s.settled.inert, t.settled.inert]
    constructor
    · rintro ⟨e, he, -⟩
      exact absurd ⟨e, he⟩ hh
    · rintro ⟨e, he, -⟩
      exact absurd ⟨e, (hget h).trans he⟩ hh

end Growth

end RecordNode
