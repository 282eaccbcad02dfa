import RecordNode.Oplog.LocalEntry
import RecordNode.AccessControl.Delegation

/-! # Capabilities as the API reports them

The report reads the oplog's own effective set and folds the expiries of the chain.
A write is judged over its causal past and link by link. While an entry can cite every
head its past is the whole oplog, and the two agree. -/

namespace RecordNode

open Foundation Relation

variable {E : Environment} {chain : ResolvedAcChain} {o : Oplog}

/-! ## The report -/

inductive CapabilityStatus where
  | revoked
  | inert
  | expired
  | active
deriving DecidableEq

structure CapabilityReport where
  capabilityId : Hash
  libraryAddress : String
  issuer : String
  viaCapabilityId : Option String
  grantee : Option Value
  actions : List String
  filter : Value
  conditions : List Value
  issuedAt : Option Value
  expiresAt : Option ℕ
  status : CapabilityStatus
  revokedBy : Option Hash

def accessRecord (entry : Option VerifiedEntry) : Fields :=
  match entry.map VerifiedEntry.operation with
  | some (.access _ _ value _) => value
  | _ => []

def expiryTimes (conditions : Option Value) : List ℕ :=
  (((conditions.bind Value.asArray?).getD []).filter fun condition => conditionShape condition == .ok).filterMap
    fun condition => condition.fields?.bind fun fields => fields.uint? "at"

def earliestExpiry (conditions : Option Value) : Option ℕ := (expiryTimes conditions).min?

/-- The effective revocation naming a capability, if any. -/
def revocationOf (o : Oplog) (capabilityId : Hash) : Option Hash :=
  o.effective.items.find? fun hash => (accessRecord (o.entries.get hash)).string? "revokes" = some capabilityId

def chainExpiry (o : Oplog) (links : List Hash) : Option ℕ :=
  (links.filterMap fun hash => earliestExpiry ((accessRecord (o.entries.get hash)).get "conditions")).min?

theorem chainExpiry_singleton {hash : Hash} {e : VerifiedEntry} (he : o.entries.get hash = some e) :
    chainExpiry o [hash] = earliestExpiry ((accessRecord (some e)).get "conditions") := by
  rw [chainExpiry, List.filterMap_cons, he]
  cases earliestExpiry ((accessRecord (some e)).get "conditions") <;> simp

/-- A capability is only as usable as its chain: revoked when any capability above it is, and
expired with the earliest expiry above it. -/
def describeCapability (o : Oplog) (entry : VerifiedEntry) (now : ℚ) : CapabilityReport :=
  let record := accessRecord (some entry)
  let links := capabilityChain o (some entry.hash)
  let revokedBy := links.findSome? (revocationOf o)
  let expiresAt := chainExpiry o links
  { capabilityId := entry.hash
    libraryAddress := o.chain.address
    issuer := entry.signer
    viaCapabilityId := if isWriteListKey o entry.signer then none else entry.operation.capabilityId
    grantee := record.get "grantee"
    actions := actionsOf record
    filter := (record.get "filter").getD .null
    conditions := ((record.get "conditions").bind Value.asArray?).getD []
    issuedAt := record.get "timestamp"
    expiresAt := expiresAt
    status :=
      if revokedBy.isSome then .revoked
      else if o.inert.has entry.hash then .inert
      else if expiresAt.any fun limit : ℕ => decide ((limit : ℚ) < now) then .expired
      else .active
    revokedBy := revokedBy }

theorem status_eq_revoked (entry : VerifiedEntry) (now : ℚ) : (describeCapability o entry now).status = .revoked ↔
    ∃ h ∈ capabilityChain o (some entry.hash), (revocationOf o h).isSome = true := by
  simp only [describeCapability]
  rw [← List.findSome?_isSome_iff]
  split_ifs with hrevoked
  · simp [hrevoked]
  all_goals simpa using hrevoked

theorem status_eq_active {entry : VerifiedEntry} {now : ℚ} (hrevoked : (describeCapability o entry now).status ≠ .revoked)
    (hinert : o.inert.has entry.hash = false) (hexpiry : chainExpiry o (capabilityChain o (some entry.hash)) = none) :
    (describeCapability o entry now).status = .active := by
  simp only [describeCapability, hinert, hexpiry] at hrevoked ⊢
  split at hrevoked
  · exact absurd rfl hrevoked
  · rename_i hnone
    simp [hnone]

theorem status_active {entry : VerifiedEntry} {now : ℚ} (h : (describeCapability o entry now).status = .active) :
    (∀ x ∈ capabilityChain o (some entry.hash), (revocationOf o x).isSome = false) ∧
      ∀ limit, chainExpiry o (capabilityChain o (some entry.hash)) = some limit → now ≤ limit := by
  constructor
  · intro x hx
    by_contra hsome
    have hrevoked := (status_eq_revoked entry now).2 ⟨x, hx, Bool.eq_true_of_not_eq_false hsome⟩
    rw [h] at hrevoked
    cases hrevoked
  · intro limit hlimit
    simp only [describeCapability] at h
    split_ifs at h with hrevoked hinert hexpired
    rw [hlimit] at hexpired
    simpa using hexpired

/-! ## Revocations as the report and the check see them -/

theorem HashedEntry.hash_ne_empty (hashed : HashedEntry) : hashed.hash ≠ "" := by
  intro h
  have hl := congrArg String.length h
  rw [HashedEntry.hash, formatProtocolCid, String.length_append] at hl
  have hz : "z".length = 1 := by decide
  have hempty : "".length = 0 := by decide
  omega

/-- For a revocation the field the report reads is the capability the check compares. -/
theorem revokes_eq_some_iff {r : VerifiedEntry} (hr : r.operation.isRevocation = true) {h : Hash} (hne : h ≠ "") :
    (accessRecord (some r)).string? "revokes" = some h ↔ revokedCapability r = h := by
  unfold Operation.isRevocation at hr
  split at hr
  · rename_i key value cited hop
    have hrecord : accessRecord (some r) = value := by simp [accessRecord, hop]
    have hrevoked : revokedCapability r = (value.string? "revokes").getD "" := by simp [revokedCapability, hop]
    rw [hrecord, hrevoked]
    cases value.string? "revokes" with
    | none => simpa using hne.symm
    | some text => simp
  · simp at hr

theorem Sound.revocationOf_isSome_iff (s : Sound E chain o) {h : Hash} (hh : o.Has h) :
    (revocationOf o h).isSome = true ↔ ∃ r ∈ effectiveRevocations o o.revocations.values, revokedCapability r = h := by
  have g := s.indexed.grounded
  obtain ⟨e, he⟩ := hh
  have hne : h ≠ "" := by
    rw [← g.keyed h e he]
    exact e.toHashedEntry.hash_ne_empty
  have hread : ∀ r ∈ effectiveRevocations o o.revocations.values,
      ((accessRecord (o.entries.get r.hash)).string? "revokes" = some h ↔ revokedCapability r = h) := by
    intro r hr
    obtain ⟨hheld, hrevocation⟩ := (g.mem_revocations_values r).1 (mem_of_mem_effectiveRevocations hr)
    rw [hheld]
    exact revokes_eq_some_iff hrevocation hne
  rw [revocationOf, List.find?_isSome]
  simp only [decide_eq_true_eq]
  constructor
  · rintro ⟨x, hx, hrevokes⟩
    obtain ⟨r, hr, rfl⟩ := (s.settled.effective x).1 hx
    exact ⟨r, hr, (hread r hr).1 hrevokes⟩
  · rintro ⟨r, hr, hrevoked⟩
    exact ⟨r.hash, (s.settled.effective r.hash).2 ⟨r, hr, rfl⟩, (hread r hr).2 hrevoked⟩

/-- An entry that cites every head has the whole oplog in its past. -/
theorem Indexed.past_of_few_heads (I : Indexed E o) (hfew : o.heads.items.length ≤ maxCitedHeads)
    (capabilityId : Option String) {h : Hash} (hh : o.Has h) : o.Past (selectNext o capabilityId) h := by
  obtain ⟨head, hhead, hpath⟩ := I.crowned hh
  exact ⟨head, (mem_selectNext_iff o capabilityId hfew head).2 hhead, hpath⟩

theorem Indexed.pastRevocations_eq (I : Indexed E o) (hfew : o.heads.items.length ≤ maxCitedHeads)
    (capabilityId : Option String) : pastRevocations o (selectNext o capabilityId) = o.revocations.values := by
  refine List.filter_eq_self.2 fun r hr => ?_
  have hheld : o.Has r.hash := ⟨r, ((I.grounded.mem_revocations_values r).1 hr).1⟩
  exact I.grounded.inCausalPast_iff.2 ⟨hheld, I.past_of_few_heads hfew capabilityId hheld⟩

/-! ## Well-formed writes -/

def RefusedWith {α : Type} (result : Checked α) (code : ProtocolErrorCode) : Prop :=
  ∃ message, result = .error ⟨code, message⟩

theorem refusedWith_refuse {α : Type} {code code' : ProtocolErrorCode} {message : String} :
    RefusedWith (refuse code message : Checked α) code' ↔ code = code' := by
  simp [RefusedWith, refuse]

/-- A PUT that says what it should, duplicates nothing live, cites the capability, and makes an entry
within the bounds on clock and size. -/
structure WellFormedPut (E : Environment) (o : Oplog) (capabilityId : Hash) (payload : LocalPayload)
    (keyPair : KeyPair) (operation : Operation) : Prop where
  validates : validateOperation E o.chain.type false payload.val = .ok operation
  put : operation.op? = some .put
  cites : operation.capabilityId = some capabilityId
  fresh : assertNotDuplicate E o payload.val = .ok ()
  clock : maxTime o (selectNext o payload.capabilityId) + 1 ≤ Value.maxSafeInteger
  size : (localEntry E o payload keyPair).bytes.length ≤ signedEntryMaxBytes

/-- What the curve library promises of a key pair. -/
structure SigningLaw (E : Environment) (keyPair : KeyPair) : Prop where
  key : isCompressedPubkey (E.publicKey keyPair.privateKey) = true
  signature : ∀ d, E.verifyDigest (E.signDigest d keyPair.privateKey) d (E.publicKey keyPair.privateKey) = true

theorem Indexed.isProtocolCid_of_head (I : Indexed E o) {h : Hash} (hh : h ∈ o.heads) : isProtocolCid h = true := by
  obtain ⟨e, he⟩ := ((I.heads h).1 hh).1
  rw [← I.grounded.keyed h e he]
  exact isProtocolCid_formatProtocolCid _

section Write
variable {payload : LocalPayload} {keyPair : KeyPair} {operation : Operation} {c : Hash}

theorem WellFormedPut.wellSigned (w : WellFormedPut E o c payload keyPair operation) (I : Indexed E o)
    (law : SigningLaw E keyPair) : WellSigned E o payload.val (selectNext o payload.capabilityId) keyPair where
  key := law.key
  signature := law.signature
  cids _ hp := I.isProtocolCid_of_head (selectNext_mem_heads o _ hp)
  count := selectNext_length_le o _
  clock := w.clock
  size := w.size

/-- A well-formed write is refused for what authorisation refuses it for, and for nothing else. -/
theorem WellFormedPut.refused_iff (w : WellFormedPut E o c payload keyPair operation) (I : Indexed E o)
    (hr : o.chain.type = .recordstore) (law : SigningLaw E keyPair)
    (hkey : isWriteListKey o (E.publicKey keyPair.privateKey) = false) (code : ProtocolErrorCode) :
    RefusedWith (signLocalEntry E o payload keyPair) code ↔
      RefusedWith (authoriseEntry E o (localEntry E o payload keyPair) operation) code := by
  have signed := w.wellSigned I law
  have hsign : signLocalEntry E o payload keyPair = verifyEntry E o (localEntry E o payload keyPair) :=
    signed.signLocalEntry_eq w.fresh
  have hcheck : checkEntry E o.chain (localEntry E o payload keyPair) = .ok operation :=
    signed.check hr (by rw [hkey]; exact w.validates)
  rw [hsign, verifyEntry, hcheck]
  simp only [bind, Except.bind, I.assertClock_localEntry]
  cases authoriseEntry E o (localEntry E o payload keyPair) operation with
  | ok u => simp [RefusedWith, pure, Except.pure]
  | error e =>
    simp only [RefusedWith, refuse, Except.error.injEq, ProtocolError.mk.injEq, exists_and_left, exists_eq']
    constructor
    · rintro ⟨rfl, -⟩
      exact ⟨e.message, rfl⟩
    · rintro ⟨message, rfl⟩
      exact ⟨rfl, trivial⟩

/-! ## Enforcement -/

/-- A link refuses as denied, or as expired when one of its conditions has passed. -/
theorem checkLink_refused {value : Fields} {h : Hash} {code : ProtocolErrorCode}
    (hlink : RefusedWith (checkLink E o value h) code) : code = .capabilityDenied ∨ code = .capabilityExpired ∧
      conditionFailure (((capabilityRecord (o.entries.get h)).getD []).get "conditions")
        (((value.get "timestamp").bind Value.asNumber?).getD 0) = some .expired := by
  unfold checkLink at hlink
  simp only at hlink
  split at hlink
  · exact .inl (refusedWith_refuse.1 hlink).symm
  · split at hlink
    · exact .inl (refusedWith_refuse.1 hlink).symm
    · split at hlink
      · exact .inl (refusedWith_refuse.1 hlink).symm
      · split at hlink
        · rename_i hexpired
          exact .inr ⟨(refusedWith_refuse.1 hlink).symm, hexpired⟩
        · exact .inl (refusedWith_refuse.1 hlink).symm
        · obtain ⟨message, hm⟩ := hlink
          cases hm

theorem checkLinks_refused {value : Fields} {l : List Hash} {code : ProtocolErrorCode}
    (h : RefusedWith (checkLinks E o value l) code) : code = .capabilityDenied ∨ code = .capabilityExpired ∧
      ∃ x ∈ l, conditionFailure (((capabilityRecord (o.entries.get x)).getD []).get "conditions")
        (((value.get "timestamp").bind Value.asNumber?).getD 0) = some .expired := by
  induction l with
  | nil =>
    obtain ⟨message, hm⟩ := h
    cases hm
  | cons x rest ih =>
    rw [checkLinks] at h
    cases hx : checkLink E o value x with
    | error e =>
      have hrefused : RefusedWith (checkLink E o value x) code := by
        obtain ⟨message, hm⟩ := h
        rw [hx] at hm
        exact ⟨message, hx.trans hm⟩
      obtain hdenied | ⟨hcode, hexpired⟩ := checkLink_refused hrefused
      · exact .inl hdenied
      · exact .inr ⟨hcode, x, List.mem_cons_self, hexpired⟩
    | ok u =>
      rw [hx] at h
      obtain hdenied | ⟨hcode, y, hy, hexpired⟩ := ih h
      · exact .inl hdenied
      · exact .inr ⟨hcode, y, List.mem_cons_of_mem x hy, hexpired⟩

/-- A condition that fails a write as expired is one the report counts. -/
theorem exists_expiry_of_expired {conditions : Option Value} {timestamp : ℚ}
    (h : conditionFailure conditions timestamp = some .expired) : ∃ limit ∈ expiryTimes conditions, (limit : ℚ) < timestamp := by
  unfold conditionFailure at h
  simp only at h
  split at h
  · cases h
  · rename_i hunknown
    split at h
    · rename_i hexpired
      obtain ⟨condition, hmem, hlimit⟩ := List.any_eq_true.1 hexpired
      have hok : conditionShape condition = .ok := by
        by_contra hne
        exact hunknown (List.any_eq_true.2 ⟨condition, hmem, by simpa using hne⟩)
      split at hlimit
      · rename_i limit hat
        exact ⟨limit, List.mem_filterMap.2 ⟨condition, List.mem_filter.2 ⟨hmem, by simp [hok]⟩, hat⟩,
          by simpa using hlimit⟩
      · simp at hlimit
    · cases h

theorem exists_min_le {l : List ℕ} {n : ℕ} (h : n ∈ l) : ∃ least, l.min? = some least ∧ least ≤ n := by
  cases hmin : l.min? with
  | none =>
    rw [List.min?_eq_none_iff] at hmin
    simp [hmin] at h
  | some least => exact ⟨least, rfl, (List.min?_eq_some_iff.1 hmin).2 n h⟩

/-- The report's expiry is no later than any condition on the chain. -/
theorem exists_chainExpiry_le {l : List Hash} {x : Hash} (hx : x ∈ l) {limit : ℕ}
    (hlimit : limit ∈ expiryTimes ((accessRecord (o.entries.get x)).get "conditions")) :
    ∃ least, chainExpiry o l = some least ∧ least ≤ limit := by
  obtain ⟨first, hfirst, hle⟩ := exists_min_le hlimit
  have hmem : first ∈ l.filterMap fun hash => earliestExpiry ((accessRecord (o.entries.get hash)).get "conditions") :=
    List.mem_filterMap.2 ⟨x, hx, hfirst⟩
  obtain ⟨least, hleast, hle'⟩ := exists_min_le hmem
  exact ⟨least, hleast, hle'.trans hle⟩

theorem capabilityRecord_eq_accessRecord {e : VerifiedEntry} (he : e.operation.isCapability = true) :
    capabilityRecord (some e) = some (accessRecord (some e)) := by
  unfold Operation.isCapability at he
  split at he
  · rename_i hop
    simp [capabilityRecord, accessRecord, hop]
  · simp at he

/-- The grant itself is in order: what is left to check is the revocations and the links. -/
structure Granted (o : Oplog) (hashed : HashedEntry) (operation : Operation) (c : Hash) (record : Fields) : Prop where
  recordstore : o.chain.type = .recordstore
  signer : isWriteListKey o hashed.entry.key = false
  put : operation.op? = some .put
  cites : operation.capabilityId = some c
  record_eq : capabilityRecord (o.entries.get c) = some record
  past : inCausalPast o.entries c hashed.entry.next = true
  grantee : granteeMatches (record.get "grantee") hashed.entry.key = true
  length_le : (capabilityChain o (some c)).length ≤ maxChainLength

theorem Granted.refused_cases {hashed : HashedEntry} {record : Fields} (a : Granted o hashed operation c record)
    {code : ProtocolErrorCode} (h : RefusedWith (authoriseEntry E o hashed operation) code) :
    (code = .capabilityRevoked ∧ ∃ r ∈ effectiveRevocations o (pastRevocations o hashed.entry.next),
      revokedCapability r ∈ capabilityChain o (some c)) ∨ code = .capabilityDenied ∨
    (code = .capabilityExpired ∧ ∃ x ∈ capabilityChain o (some c),
      conditionFailure (((capabilityRecord (o.entries.get x)).getD []).get "conditions")
        ((((payloadValue hashed).get "timestamp").bind Value.asNumber?).getD 0) = some .expired) := by
  simp only [authoriseEntry, a.signer, a.recordstore, a.put, a.cites, a.record_eq, a.past, a.grantee,
    if_neg (Nat.not_lt.mpr a.length_le), Bool.false_eq_true, Bool.not_true, if_false, ne_eq, not_true_eq_false] at h
  split at h
  · rename_i r hfind
    refine .inl ⟨(refusedWith_refuse.1 h).symm, r, List.mem_of_find?_eq_some hfind, ?_⟩
    simpa using List.find?_some hfind
  · split at h
    · split at h
      · obtain ⟨message, hm⟩ := h
        cases hm
      · exact .inr (.inl (refusedWith_refuse.1 h).symm)
    · exact .inr (checkLinks_refused h)

theorem Granted.refused_of_revoked {hashed : HashedEntry} {record : Fields} (a : Granted o hashed operation c record)
    {r : VerifiedEntry} (hr : r ∈ effectiveRevocations o (pastRevocations o hashed.entry.next))
    (hmem : revokedCapability r ∈ capabilityChain o (some c)) :
    RefusedWith (authoriseEntry E o hashed operation) .capabilityRevoked := by
  obtain ⟨revoked, hfind⟩ := Option.isSome_iff_exists.1 (List.find?_isSome.2 ⟨r, hr, by simpa using hmem⟩ :
    ((effectiveRevocations o (pastRevocations o hashed.entry.next)).find? fun revocation =>
      (capabilityChain o (some c)).contains (revokedCapability revocation)).isSome = true)
  simp only [authoriseEntry, a.signer, a.recordstore, a.put, a.cites, a.record_eq, a.past, a.grantee, hfind,
    if_neg (Nat.not_lt.mpr a.length_le), Bool.false_eq_true, Bool.not_true, if_false, ne_eq, not_true_eq_false]
  exact refusedWith_refuse.2 rfl

end Write

namespace Sample

theorem signingLaw (keyPair : KeyPair) : SigningLaw clockEnvironment keyPair where
  key := Plain.isCompressedPubkey_publicKey _
  signature d := plainEnvironment_verify d keyPair.privateKey

theorem withFirst_heads : withFirst.heads.items.length ≤ 256 := by
  have hall : ∀ h ∈ withFirst.heads.items, h = first.hash := fun h hm => (mem_heads_withFirst h).mp hm
  have hone := List.eq_replicate_of_mem hall
  have hnodup := withFirst.heads.nodup
  rw [hone, List.nodup_replicate] at hnodup
  omega

theorem guest_wellFormedPut :
    WellFormedPut clockEnvironment withFirst first.hash guestPayload guest (grantOperation (some first.hash)) := by
  have hchain : withFirst.chain = libraryA := (reachable_sound withFirst_reachable).chain_eq
  have htype : withFirst.chain.type = .recordstore := by rw [hchain]; rfl
  have hvalid : validateOperation clockEnvironment withFirst.chain.type false guestPayload.val =
      .ok (grantOperation (some first.hash)) := by
    rw [htype]
    exact validate_grantPayload false (some first.hash)
  have hc : ∀ x ∈ some first.hash, x.length ≤ 273 := by
    rintro x ⟨⟩
    exact formatProtocolCid_length_le _
  have hcids : ∀ p ∈ [first.hash], isProtocolCid p = true ∧ p.length ≤ 273 := fun p hp => by
    rw [List.mem_singleton.mp hp]
    exact ⟨isProtocolCid_formatProtocolCid _, formatProtocolCid_length_le _⟩
  have signed : WellSigned clockEnvironment withFirst guestPayload.val [first.hash] guest :=
    wellSigned hcids (Nat.le_add_left 1 7) (by rw [maxTime_singleton, clockOf_eq withFirst_first, first_time]; decide)
      (by rw [hchain]; decide) (put_grantPayload_length hc)
  refine ⟨hvalid, rfl, rfl, assertNotDuplicate_guestPayload htype, ?_, ?_⟩
  · rw [selectNext_withFirst]
    exact signed.clock
  · rw [localEntry, selectNext_withFirst]
    exact signed.size

/-- With nothing revoked the owner's grant reads as active. -/
theorem first_status : (describeCapability withFirst first 1).status = .active := by
  have s := reachable_sound withFirst_reachable
  have hrevoked : (describeCapability withFirst first 1).status ≠ .revoked := by
    rw [Ne, status_eq_revoked]
    rintro ⟨h, hm, hsome⟩
    rw [withFirst_chain, List.mem_singleton] at hm
    obtain ⟨r, hr, -⟩ := (s.revocationOf_isSome_iff ⟨first, hm ▸ withFirst_first⟩).1 hsome
    simp [withFirst_revocations, effectiveRevocations, sortBy] at hr
  have hinert : withFirst.inert.has first.hash = false := by
    by_contra hin
    obtain ⟨e, he, hw, -⟩ := (s.settled.inert first.hash).1 ((OrderedSet.has_iff _ _).1 (by simpa using hin))
    obtain rfl := Option.some_inj.mp (withFirst_first.symm.trans he)
    rw [first_signer withFirst_reachable] at hw
    exact absurd hw (by decide)
  have hexpiry : chainExpiry withFirst (capabilityChain withFirst (some first.hash)) = none := by
    have hrecord : accessRecord (some first) = grant := by rw [first]; rfl
    have hnone : earliestExpiry (grant.get "conditions") = none := rfl
    rw [withFirst_chain, chainExpiry_singleton withFirst_first, hrecord, hnone]
  exact status_eq_active hrevoked hinert hexpiry

end Sample

end RecordNode
