import RecordNode.AccessControl.Locality

/-! # Append verification

`checkEntry` is what the entry alone decides, `verifyEntry` adds what needs its
causal past. Both paths into an oplog, local append and remote merge, go through
`verifyEntry`; `restoreEntry` reads back what was verified before. -/

namespace RecordNode

open Foundation

/-- The six signed fields, in canonical key order. -/
def unsignedFields (e : SignedEntry) : Value :=
  .record [
    ("v", .number 2),
    ("id", .string e.id),
    ("next", .array (e.next.map .string)),
    ("refs", .array (e.refs.map .string)),
    ("clock", .record [("id", .string e.clock.id), ("time", .number e.clock.time)]),
    ("payload", e.payload)]

def signingDigest (E : Environment) (e : SignedEntry) : Digest 32 := E.sha256 (E.encode (unsignedFields e))

def verifyEntrySignature (E : Environment) (e : SignedEntry) : Bool :=
  E.verifyDigest e.sig (signingDigest E e) e.key

/-- Size, shape, the operation for the library type, the signature, and the write list
where only it may sign. -/
def checkEntry (E : Environment) (chain : ResolvedAcChain) (hashed : HashedEntry) : Checked Operation := do
  assertSignedEntrySize hashed.bytes
  let _ ← assertSignedEntryShape E hashed.entry.toValue
  let writeListSigner := chain.writeList.contains hashed.entry.key
  let operation ← validateOperation E chain.type writeListSigner hashed.entry.payload
  require (verifyEntrySignature E hashed.entry) .invalidSignature
    s!"entry {hashed.hash} failed append verification: invalid signature"
  require (!(chain.type ≠ .recordstore && !writeListSigner)) .unauthorisedWriter
    s!"entry {hashed.hash} failed append verification: {hashed.entry.key} is not in the write list"
  return operation

/-- The loop of `expected_clock_time`: `none` once a parent is missing. -/
def expectedClockTimeFrom (o : Oplog) (max : ℕ) : List Hash → Option ℕ
  | [] => some (max + 1)
  | hash :: rest =>
    match o.entries.get hash with
    | none => none
    | some parent => expectedClockTimeFrom o (Nat.max max parent.time) rest

def expectedClockTime (o : Oplog) (next : List Hash) : Option ℕ := expectedClockTimeFrom o 0 next

def assertClock (o : Oplog) (hashed : HashedEntry) : Checked Unit :=
  match expectedClockTime o hashed.entry.next with
  | none => refuse .invalidClock s!"entry {hashed.hash} names a next entry the oplog does not hold"
  | some expected => require (hashed.entry.clock.time = expected) .invalidClock
      s!"entry {hashed.hash} has clock.time {hashed.entry.clock.time}, not {expected}"

def verifyEntry (E : Environment) (o : Oplog) (hashed : HashedEntry) : Checked VerifiedEntry := do
  let operation ← checkEntry E o.chain hashed
  assertClock o hashed
  match authoriseEntry E o hashed operation with
  | .error e => refuse e.code s!"entry {hashed.hash} failed append verification: {e.message}"
  | .ok () => return ⟨hashed, operation⟩

/-- An entry accepted before under the same rules: neither signature nor authorisation
is checked again, the clock still is. -/
def restoreEntry (E : Environment) (o : Oplog) (hashed : HashedEntry) : Checked VerifiedEntry := do
  let writeListSigner := o.chain.writeList.contains hashed.entry.key
  let operation ← validateOperation E o.chain.type writeListSigner hashed.entry.payload
  assertClock o hashed
  return ⟨hashed, operation⟩

/-! ## What acceptance says -/

/-- The greatest clock time among the parents, 0 for none. -/
def maxTime (o : Oplog) (next : List Hash) : ℕ := (next.map (clockOf o)).foldr max 0

theorem clockOf_le_maxTime (o : Oplog) {next : List Hash} {h : Hash} (hm : h ∈ next) :
    clockOf o h ≤ maxTime o next := by
  induction next with
  | nil => simp at hm
  | cons x rest ih =>
    rw [maxTime, List.map_cons, List.foldr_cons]
    change _ ≤ max (clockOf o x) (maxTime o rest)
    rcases List.mem_cons.mp hm with rfl | hm
    · exact Nat.le_max_left _ _
    · exact (ih hm).trans (Nat.le_max_right _ _)

theorem expectedClockTimeFrom_eq_some_iff (o : Oplog) (next : List Hash) (m t : ℕ) :
    expectedClockTimeFrom o m next = some t ↔
      (∀ p ∈ next, o.Has p) ∧ t = max m (maxTime o next) + 1 := by
  induction next generalizing m with
  | nil => simp [expectedClockTimeFrom, maxTime, eq_comm]
  | cons x rest ih =>
    rw [expectedClockTimeFrom]
    cases hx : o.entries.get x with
    | none => simp [Oplog.Has, hx]
    | some parent =>
      have hc : clockOf o x = parent.time := by simp [clockOf, hx]
      have hmax : maxTime o (x :: rest) = max parent.time (maxTime o rest) := by
        simp [maxTime, hc]
      have hhas : o.Has x := ⟨parent, hx⟩
      simp only [ih, hmax, List.forall_mem_cons, hhas, true_and, Nat.max_def]
      grind

theorem assertClock_eq_ok_iff (o : Oplog) (hashed : HashedEntry) :
    assertClock o hashed = .ok () ↔
      (∀ p ∈ hashed.entry.next, o.Has p) ∧ hashed.entry.clock.time = maxTime o hashed.entry.next + 1 := by
  have hs := expectedClockTimeFrom_eq_some_iff o hashed.entry.next 0
  unfold assertClock expectedClockTime
  cases h : expectedClockTimeFrom o 0 hashed.entry.next with
  | none =>
    simp only [refuse, reduceCtorEq, false_iff]
    rintro ⟨hp, ht⟩
    have := (hs _).mpr ⟨hp, rfl⟩
    simp [h] at this
  | some expected =>
    obtain ⟨hp, ht⟩ := (hs expected).mp h
    simp only [require, refuse]
    split
    · simp_all
    · simp_all

theorem verifyEntry_eq_ok_iff (E : Environment) (o : Oplog) (hashed : HashedEntry) (e : VerifiedEntry) :
    verifyEntry E o hashed = .ok e ↔
      e.toHashedEntry = hashed ∧ checkEntry E o.chain hashed = .ok e.operation ∧
        assertClock o hashed = .ok () ∧ authoriseEntry E o hashed e.operation = .ok () := by
  unfold verifyEntry
  simp only [bind_eq_ok]
  constructor
  · rintro ⟨operation, hop, ⟨⟩, hclock, hres⟩
    split at hres
    · simp [refuse] at hres
    case h_2 hauth =>
      cases Except.ok.inj hres
      exact ⟨rfl, hop, hclock, hauth⟩
  · rintro ⟨rfl, hop, hclock, hauth⟩
    refine ⟨e.operation, hop, (), hclock, ?_⟩
    rw [hauth]
    rfl

/-- What authorising an entry signed outside the write list has established. -/
structure Authorised (E : Environment) (o : Oplog) (hashed : HashedEntry) (operation : Operation)
    (capabilityId : Hash) (record : Fields) : Prop where
  recordstore : o.chain.type = .recordstore
  put : operation.op? = some .put
  cites : operation.capabilityId = some capabilityId
  record_eq : capabilityRecord (o.entries.get capabilityId) = some record
  past : inCausalPast o.entries capabilityId hashed.entry.next = true
  grantee : granteeMatches (record.get "grantee") hashed.entry.key = true
  length_le : (capabilityChain o (some capabilityId)).length ≤ maxChainLength
  unrevoked : ∀ r ∈ effectiveRevocations o (pastRevocations o hashed.entry.next),
    revokedCapability r ∉ capabilityChain o (some capabilityId)
  scope : (payloadValue hashed).string? "type" = some "revocation" →
    revocationInScope o hashed.entry.key hashed.entry.next
      (((payloadValue hashed).string? "revokes").getD "") = true
  links : (payloadValue hashed).string? "type" ≠ some "revocation" →
    checkLinks E o (payloadValue hashed) (capabilityChain o (some capabilityId)) = .ok ()

theorem authoriseEntry_delegated {E : Environment} {o : Oplog} {hashed : HashedEntry}
    {operation : Operation} (h : authoriseEntry E o hashed operation = .ok ())
    (hw : isWriteListKey o hashed.entry.key = false) :
    ∃ c record, Authorised E o hashed operation c record := by
  unfold authoriseEntry at h
  simp only [hw, Bool.false_eq_true, if_false] at h
  split at h
  · simp [refuse] at h
  case isFalse htype =>
  split at h
  case h_2 => simp [refuse] at h
  case h_1 capabilityId hput hc =>
  split at h
  · simp [refuse] at h
  case h_2 record hrec =>
  split at h
  · simp [refuse] at h
  case isFalse hp =>
  split at h
  · simp [refuse] at h
  case isFalse hgrantee =>
  split at h
  · simp [refuse] at h
  case isFalse hlen =>
  split at h
  · simp [refuse] at h
  case h_2 hfind =>
  refine ⟨capabilityId, record, by simpa using htype, hput, hc, hrec, by simpa using hp,
    by simpa using hgrantee, Nat.le_of_not_lt hlen, fun r hr => ?_, fun ht => ?_, fun ht => ?_⟩
  · simpa using List.find?_eq_none.mp hfind r hr
  · rw [if_pos ht] at h
    split at h
    · assumption
    · simp [refuse] at h
  · rw [if_neg ht] at h
    exact h

/-- A delegated entry that was accepted cites a capability its past holds. -/
theorem authoriseEntry_cites {E : Environment} {o : Oplog} (g : Grounded o) {hashed : HashedEntry}
    {operation : Operation} (h : authoriseEntry E o hashed operation = .ok ())
    (hw : isWriteListKey o hashed.entry.key = false) :
    ∃ c ce, operation.capabilityId = some c ∧ o.entries.get c = some ce ∧
      ce.operation.isCapability = true ∧ o.Past hashed.entry.next c := by
  obtain ⟨c, record, a⟩ := authoriseEntry_delegated h hw
  obtain ⟨⟨ce, hce⟩, hpast⟩ := g.inCausalPast_iff.mp a.past
  refine ⟨c, ce, a.cites, hce, ?_, hpast⟩
  rw [← isCapability_iff_capabilityRecord, ← hce, a.record_eq, Option.isSome_some]

theorem checked_verdict_eq_ok_iff {α : Type*} (x : Checked α) (a : α) : x.verdict = .ok a ↔ x = .ok a := by
  cases x <;> simp [Checked.verdict, Except.mapError]

/-- Verification on top of a shared closed set: same verdict, same error code. -/
theorem AgreeOn.verifyEntry_verdict {S : Set Hash} {o p : Oplog} (A : AgreeOn S o p) (E : Environment)
    (hashed : HashedEntry) (hn : ∀ q ∈ hashed.entry.next, q ∈ S) :
    (verifyEntry E o hashed).verdict = (verifyEntry E p hashed).verdict := by
  have htime (next : List Hash) (m : ℕ) (hs : ∀ q ∈ next, q ∈ S) :
      expectedClockTimeFrom o m next = expectedClockTimeFrom p m next := by
    induction next generalizing m with
    | nil => rfl
    | cons x rest ih =>
      rw [expectedClockTimeFrom, expectedClockTimeFrom, A.get_eq (hs x List.mem_cons_self)]
      cases p.entries.get x with
      | none => rfl
      | some parent => exact ih _ fun q hq => hs q (List.mem_cons_of_mem x hq)
  have hclock : assertClock o hashed = assertClock p hashed := by
    rw [assertClock, assertClock, expectedClockTime, expectedClockTime, htime _ _ hn]
  unfold verifyEntry
  rw [A.chain, hclock]
  cases checkEntry E p.chain hashed with
  | error e => rfl
  | ok operation =>
    cases assertClock p hashed with
    | error e => rfl
    | ok u =>
      have hauth := A.authoriseEntry_verdict E hashed operation hn
      cases ho : authoriseEntry E o hashed operation <;>
        cases hp : authoriseEntry E p hashed operation <;>
          simp_all [Checked.verdict, Except.mapError, bind, Except.bind, refuse]

/-- What one oplog accepts on top of a shared closed set, the other accepts as the same entry. -/
theorem AgreeOn.verifyEntry_ok {S : Set Hash} {o p : Oplog} (A : AgreeOn S o p) {E : Environment}
    {hashed : HashedEntry} {e : VerifiedEntry} (hn : ∀ q ∈ hashed.entry.next, q ∈ S)
    (h : verifyEntry E o hashed = .ok e) : verifyEntry E p hashed = .ok e := by
  rw [← checked_verdict_eq_ok_iff] at h ⊢
  rw [← A.verifyEntry_verdict E hashed hn, h]

end RecordNode
