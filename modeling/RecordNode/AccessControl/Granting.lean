import RecordNode.Oplog.Growing

/-! # Granting

What is enough for an entry of a key outside the write list to be authorised, and
the capability that restricts nothing but the action it grants: a chain of those
passes every link. -/

namespace RecordNode

open Foundation

variable {E : Environment} {o : Oplog}

/-- The facts authorisation establishes are all it asks for. -/
theorem Authorised.eq_ok {hashed : HashedEntry} {operation : Operation} {c : Hash} {record : Fields}
    (a : Authorised E o hashed operation c record) (hw : isWriteListKey o hashed.entry.key = false) :
    authoriseEntry E o hashed operation = .ok () := by
  have hfind : ((effectiveRevocations o (pastRevocations o hashed.entry.next)).find? fun revocation =>
      (capabilityChain o (some c)).contains (revokedCapability revocation)) = none :=
    List.find?_eq_none.mpr fun r hr => by simpa using a.unrevoked r hr
  simp only [authoriseEntry, hw, a.recordstore, a.put, a.cites, a.record_eq, a.past, a.grantee, hfind,
    if_neg (Nat.not_lt.mpr a.length_le), Bool.false_eq_true, Bool.not_true, if_false, ne_eq, not_true_eq_false]
  split
  case isTrue ht =>
    rw [if_pos (a.scope ht)]
  case isFalse ht => exact a.links ht

/-- A capability of the guest key with one action, no filter and no condition. -/
def grantValue (key action : String) : Fields :=
  [("v", .number 1), ("type", .string "capability"), ("actions", .array [.string action]),
    ("grantee", .record [("key", .string key), ("type", .string "key")]), ("timestamp", .number 1)]

section GrantValue
variable {key action : String}

theorem granteeShape_key (hkey : isCompressedPubkey key = true) :
    granteeShape (some (.record [("key", .string key), ("type", .string "key")])) = .ok := by
  simp [granteeShape, Value.fields?, Fields.string?, Fields.get, List.lookup_cons, Value.asString?, knownShape, hkey,
    hasExtraFields, Fields.names]

theorem granteeMatches_grantValue (hkey : isCompressedPubkey key = true) :
    granteeMatches ((grantValue key action).get "grantee") key = true := by
  have hget : (grantValue key action).get "grantee" =
      some (.record [("key", .string key), ("type", .string "key")]) := rfl
  rw [granteeMatches, hget, granteeShape_key hkey]
  simp [Value.fields?, Fields.string?, Fields.get, List.lookup_cons, Value.asString?]

theorem capabilityShape_grantValue (hkey : isCompressedPubkey key = true) :
    capabilityShape (grantValue key action) = .ok := by
  have h1 : (grantValue key action).uint? "timestamp" = some 1 := by
    change (Value.number 1).asUint? = some 1
    decide
  have hv : (grantValue key action).isInt "v" 1 = true := by simp [grantValue, Fields.isInt, Fields.get]
  have hactions : (grantValue key action).array? "actions" = some [.string action] := rfl
  have hconditions : conditionsOf (grantValue key action) = .array [] := rfl
  have hgrantee : (grantValue key action).get "grantee" =
      some (.record [("key", .string key), ("type", .string "key")]) := rfl
  have hfilter : (grantValue key action).has "filter" = false := rfl
  have hextra : hasExtraFields (grantValue key action) capabilityFields = false := rfl
  simp [capabilityShape, h1, hv, hactions, hconditions, hgrantee, hfilter, hextra, granteeShape_key hkey,
    Value.asArray?, Value.asString?, worstShape]

/-- Such a capability passes every write its action covers. -/
theorem checkLink_grantValue {value : Fields} {h : Hash} (hrecord : capabilityRecord (o.entries.get h) =
    some (grantValue key action)) (haction : coveringAction value = some action) :
    checkLink E o value h = .ok () := by
  have hclosed : capabilityFailsClosed (grantValue key action) = false := rfl
  have hactions : actionsOf (grantValue key action) = [action] := rfl
  have hfilter (subject : Value) : filterMatches ((grantValue key action).get "filter") subject = true := rfl
  have hconditions (timestamp : ℚ) : conditionFailure ((grantValue key action).get "conditions") timestamp = none := rfl
  simp [checkLink, hrecord, hclosed, hactions, haction, hfilter, hconditions]

theorem checkLinks_grantValue {value : Fields} {l : List Hash} (hrecords : ∀ h ∈ l,
    capabilityRecord (o.entries.get h) = some (grantValue key action)) (haction : coveringAction value = some action) :
    checkLinks E o value l = .ok () := by
  induction l with
  | nil => rfl
  | cons h l ih =>
    rw [checkLinks, checkLink_grantValue (hrecords h List.mem_cons_self) haction]
    exact ih fun x hx => hrecords x (List.mem_cons_of_mem h hx)

end GrantValue

/-! ## Access records as payloads -/

/-- A PUT of an access record, under a capability or not. -/
def accessPayload (E : Environment) (value : Fields) (capabilityId : Option Hash) : Value :=
  .record ([("op", .string "PUT"), ("key", .string (E.recordKey (.record value))), ("value", .record value)] ++
    capabilityId.toList.map fun c => ("capability_id", .string c))

def revocationValue (target : Hash) : Fields :=
  [("v", .number 1), ("type", .string "revocation"), ("revokes", .string target), ("timestamp", .number 1)]

section AccessPayload
variable {value : Fields} {capabilityId : Option Hash}

theorem accessPayload_canonical (hvalue : (Value.record value).Canonical) :
    (accessPayload E value capabilityId).Canonical := by
  cases capabilityId with
  | none =>
    refine .record _ (by simp; decide) ?_
    simp only [Option.toList_none, List.map_nil, List.append_nil, List.forall_mem_cons]
    exact ⟨.string _, .string _, hvalue, by simp⟩
  | some c =>
    refine .record _ (by simp; decide) ?_
    simp only [Option.toList_some, List.map_cons, List.map_nil, List.cons_append, List.nil_append, List.forall_mem_cons]
    exact ⟨.string _, .string _, hvalue, .string _, by simp⟩

/-- A well-formed access record is what its payload says, whoever signs it. -/
theorem validate_accessPayload (type : AccessRecordType) (w : Bool) (htype : value.string? "type" = some type.name)
    (hvalid : validateAccessRecord E type (E.recordKey (.record value)) value = .ok ()) :
    validateOperation E .recordstore w (accessPayload E value capabilityId) =
      .ok (.access type (E.recordKey (.record value)) value capabilityId) := by
  have hput : validateRecordPut E .recordstore w (E.recordKey (.record value)) value =
      .ok (.access type (E.recordKey (.record value)) value none) := by
    have hv1 : isV1Envelope value = false := by
      cases type <;> simp [isV1Envelope, htype, AccessRecordType.name]
    cases type <;>
      simp [validateRecordPut, htype, hv1, AccessRecordType.name, admittedPuts, accessRecordType?, hvalid]
  have hread : ∀ fields : Fields, fields = [("op", .string "PUT"), ("key", .string (E.recordKey (.record value))),
      ("value", .record value)] ++ (capabilityId.toList.map fun c => ("capability_id", .string c)) →
      fields.string? "key" = some (E.recordKey (.record value)) ∧ fields.string? "op" = some "PUT" ∧
        (fields.get "value").bind Value.fields? = some value ∧ fields.string? "capability_id" = capabilityId := by
    rintro _ rfl
    cases capabilityId <;> exact ⟨rfl, rfl, rfl, rfl⟩
  obtain ⟨hkey, hop, hval, hcap⟩ := hread _ rfl
  simp only [validateOperation, validateRecordOperation, accessPayload, Value.fields?, hkey, hop, hval, hcap, hput]
  rfl

end AccessPayload

/-! ## A guest's capabilities

The owner grants the guest the right to grant, the guest grants it on under that, and
once more under the second grant; the owner revokes the first grant having seen
nothing else. -/

namespace Sample

def guest : KeyPair := ⟨[2]⟩

def guestKey : String := plainEnvironment.publicKey guest.privateKey

theorem guestKey_isKey : isCompressedPubkey guestKey = true := Plain.isCompressedPubkey_publicKey _

-- The keys are turned into lists of characters first, so that the kernel only computes on lists.
theorem guest_no_writer : libraryA.writeList.contains guestKey = false := by
  have hne : guestKey ≠ ownerKey := by
    intro h
    have hl := congrArg String.toList h
    revert hl
    simp only [guestKey, ownerKey, plainEnvironment, Plain.publicKey, guest, owner, String.toList_append, toList_bytesToHex]
    decide +kernel
  change [ownerKey].contains guestKey = false
  simpa using hne

/-- The guest may grant what it was granted. -/
def grant : Fields := grantValue guestKey "library.grant_capability"

def grantPayload (capabilityId : Option Hash) : Value := accessPayload clockEnvironment grant capabilityId

def grantOperation (capabilityId : Option Hash) : Operation :=
  .access .capability (clockEnvironment.recordKey (.record grant)) grant capabilityId

theorem grant_canonical : (Value.record grant).Canonical := by
  have h1 : IsDouble 1 := by exact_mod_cast isDouble_natCast (n := 1) (by decide)
  have hgrantee : (Value.record [("key", .string guestKey), ("type", .string "key")]).Canonical := by
    refine .record _ (by simp; decide) ?_
    simp only [List.forall_mem_cons]
    exact ⟨.string _, .string _, by simp⟩
  have hactions : (Value.array [.string "library.grant_capability"]).Canonical :=
    .array _ (by simpa using .string _)
  refine .record _ (by simp [grant, grantValue]; decide) ?_
  simp only [grant, grantValue, List.forall_mem_cons]
  exact ⟨.number 1 h1, .string _, hactions, hgrantee, .number 1 h1, by simp⟩

theorem recordKey_length (v : Value) : (clockEnvironment.recordKey v).length = 64 := by
  have h := (clockEnvironment.sha256Hex (clockEnvironment.encode v)).isHex
  rw [isHex64, Bool.and_eq_true, beq_iff_eq, String.length_toList] at h
  exact h.1

theorem put_accessPayload_length {value : Fields} {capabilityId : Option Hash}
    (hc : ∀ c ∈ capabilityId, c.length ≤ 273) :
    (Plain.put (accessPayload clockEnvironment value capabilityId)).length ≤ (Plain.put (.record value)).length + 5000 := by
  have hlen : ["op", "PUT", "key", "value", "capability_id"].map String.length = [2, 3, 3, 5, 13] := by decide
  simp only [List.map_cons, List.map_nil, List.cons.injEq, and_true] at hlen
  have hkey := recordKey_length (.record value)
  cases capabilityId with
  | none =>
    simp [accessPayload, Plain.put, Plain.putFields, Plain.putString_length, hlen, hkey]
    omega
  | some c =>
    have hc := hc c rfl
    simp [accessPayload, Plain.put, Plain.putFields, Plain.putString_length, hlen, hkey]
    omega

theorem put_grant_length : (Plain.put (.record grant)).length ≤ 5000 := by
  have hlen : ["v", "type", "capability", "actions", "library.grant_capability", "grantee", "key", "timestamp"].map
      String.length = [1, 4, 10, 7, 24, 7, 3, 9] := by decide
  simp only [List.map_cons, List.map_nil, List.cons.injEq, and_true] at hlen
  simp [grant, grantValue, guestKey, plainEnvironment, Plain.put, Plain.putFields, Plain.putItems,
    Plain.putString_length, Plain.publicKey_length, Plain.putInt, Plain.putNat_length, hlen]

theorem validate_grantPayload (w : Bool) (capabilityId : Option Hash) :
    validateOperation clockEnvironment .recordstore w (grantPayload capabilityId) = .ok (grantOperation capabilityId) := by
  refine validate_accessPayload .capability w rfl ?_
  simp [validateAccessRecord, require, grant, capabilityShape_grantValue guestKey_isKey]
  rfl

/-- An entry of the library on top of held parents, to be authorised where its signer is a guest. -/
theorem joins {o : Oplog} (ho : Reachable clockEnvironment libraryA o) {payload : Value} {next : List Hash}
    {keyPair : KeyPair} {operation : Operation} (hp : payload.Canonical) (hsize : (Plain.put payload).length ≤ 100000)
    (hheld : ∀ p ∈ next, o.Has p) (hcount : next.length ≤ 8) (ht : maxTime o next ≤ 1000)
    (hop : validateOperation clockEnvironment .recordstore
      (isWriteListKey o (clockEnvironment.publicKey keyPair.privateKey)) payload = .ok operation)
    (hauth : authoriseEntry clockEnvironment o (signedOn clockEnvironment o payload next keyPair) operation = .ok ())
    (hnew : ¬ o.Has (formatProtocolCid (mark (maxTime o next + 1) (letterOf payload)))) :
    Joins clockEnvironment o ⟨signedOn clockEnvironment o payload next keyPair, operation⟩ := by
  have s := reachable_sound ho
  have hmax : (1001 : ℕ) ≤ Value.maxSafeInteger := by decide
  have hcids : ∀ p ∈ next, isProtocolCid p = true ∧ p.length ≤ 273 := by
    intro p hm
    obtain ⟨e, he⟩ := hheld p hm
    rw [← s.indexed.grounded.keyed p e he]
    exact ⟨isProtocolCid_formatProtocolCid _, formatProtocolCid_length_le _⟩
  have hchain : o.chain = libraryA := s.chain_eq
  have w : WellSigned clockEnvironment o payload next keyPair :=
    wellSigned hcids hcount ht (by rw [hchain]; decide) hsize
  refine ⟨w.decode clockEnvironment_codecLaw hp, w.verify (by rw [hchain]; rfl) ?_ hheld hauth, ?_⟩
  · rw [hchain]
    exact hop
  · change ¬ o.Has (signedOn clockEnvironment o payload next keyPair).hash
    rwa [hash_signedOn rfl (by omega)]

/-- The owner needs no capability. -/
theorem authorise_owner {o : Oplog} (hchain : o.chain = libraryA) (payload : Value) (next : List Hash) (operation : Operation) :
    authoriseEntry clockEnvironment o (signedOn clockEnvironment o payload next owner) operation = .ok () := by
  have hw : isWriteListKey o (signedOn clockEnvironment o payload next owner).entry.key = true := by
    rw [isWriteListKey, hchain]
    change [ownerKey].contains ownerKey = true
    simp
  rw [authoriseEntry, if_pos hw]

/-- The guest may sign under a parent whose chain is all grants, as long as nothing is revoked. -/
theorem authorise_guest {o : Oplog} (ho : Reachable clockEnvironment libraryA o) {c : Hash}
    (hrevocations : o.revocations.values = []) (hlength : (capabilityChain o (some c)).length ≤ maxChainLength)
    (hrecord : capabilityRecord (o.entries.get c) = some grant)
    (hrecords : ∀ h ∈ capabilityChain o (some c), capabilityRecord (o.entries.get h) = some grant) :
    authoriseEntry clockEnvironment o (signedOn clockEnvironment o (grantPayload (some c)) [c] guest)
      (grantOperation (some c)) = .ok () := by
  have s := reachable_sound ho
  have hchain : o.chain = libraryA := s.chain_eq
  have hheld : o.Has c := by
    cases hget : o.entries.get c with
    | none => simp [hget, capabilityRecord] at hrecord
    | some e => exact ⟨e, hget⟩
  have htype : (payloadValue (signedOn clockEnvironment o (grantPayload (some c)) [c] guest)).string? "type" =
      some "capability" := rfl
  have a : Authorised clockEnvironment o (signedOn clockEnvironment o (grantPayload (some c)) [c] guest)
      (grantOperation (some c)) c grant := by
    refine ⟨by rw [hchain]; rfl, rfl, rfl, hrecord, ?_, ?_, hlength, ?_, ?_, ?_⟩
    · exact s.indexed.grounded.inCausalPast_iff.mpr ⟨hheld, Oplog.past_of_mem (List.mem_singleton_self c)⟩
    · exact granteeMatches_grantValue guestKey_isKey
    · simp [pastRevocations, hrevocations, effectiveRevocations, sortBy]
    · intro ht
      rw [htype] at ht
      exact absurd ht (by decide)
    · intro _
      exact checkLinks_grantValue hrecords rfl
  refine a.eq_ok ?_
  rw [isWriteListKey, hchain]
  exact guest_no_writer

/-- The owner's grant. -/
def first : VerifiedEntry :=
  ⟨signedOn clockEnvironment (createOplog libraryA) (grantPayload none) [] owner, grantOperation none⟩

def withFirst : Oplog := grow clockEnvironment (createOplog libraryA) first

/-- The guest's grant under it. -/
def second : VerifiedEntry :=
  ⟨signedOn clockEnvironment withFirst (grantPayload (some first.hash)) [first.hash] guest, grantOperation (some first.hash)⟩

def withSecond : Oplog := grow clockEnvironment withFirst second

theorem withFirst_reachable : Reachable clockEnvironment libraryA withFirst := reachable_grow .create first

theorem createOplog_has (h : Hash) : ¬ (createOplog libraryA).Has h := by
  simp [Oplog.Has, createOplog]

theorem grantPayload_canonical (capabilityId : Option Hash) : (grantPayload capabilityId).Canonical :=
  accessPayload_canonical grant_canonical

theorem put_grantPayload_length {capabilityId : Option Hash} (hc : ∀ c ∈ capabilityId, c.length ≤ 273) :
    (Plain.put (grantPayload capabilityId)).length ≤ 100000 := by
  have hpayload := @put_accessPayload_length grant _ hc
  have hgrant := put_grant_length
  rw [grantPayload]
  omega

theorem joins_first : Joins clockEnvironment (createOplog libraryA) first := by
  have hsize : (Plain.put (grantPayload none)).length ≤ 100000 := put_grantPayload_length (by simp)
  exact joins .create (grantPayload_canonical none) hsize (by simp) (by decide) (by decide)
    (validate_grantPayload _ none) (authorise_owner rfl _ _ _) (createOplog_has _)

theorem first_clock : maxTime (createOplog libraryA) [] + 1 = 1 := rfl

theorem first_time : first.time = 1 := by rw [first, time_signedOn, first_clock]

theorem first_hash : first.hash = formatProtocolCid (mark 1 'c') := hash_signedOn first_clock (by decide)

theorem get_withFirst (h : Hash) : withFirst.entries.get h = if h = first.hash then some first else none :=
  joins_first.get_grow h

theorem maxTime_singleton (o : Oplog) (h : Hash) : maxTime o [h] = clockOf o h := by
  simp [maxTime]

theorem clockOf_eq {o : Oplog} {h : Hash} {e : VerifiedEntry} (he : o.entries.get h = some e) : clockOf o h = e.time := by
  rw [clockOf, he, Option.map_some, Option.getD_some]

/-- The guest's grant under a chain of grants. -/
theorem joins_guest {o : Oplog} (ho : Reachable clockEnvironment libraryA o) {c : Hash} {e : VerifiedEntry}
    (he : o.entries.get c = some e) (ht : e.time ≤ 1000) (hrevocations : o.revocations.values = [])
    (hlength : (capabilityChain o (some c)).length ≤ maxChainLength)
    (hrecord : capabilityRecord (some e) = some grant)
    (hrecords : ∀ h ∈ capabilityChain o (some c), capabilityRecord (o.entries.get h) = some grant)
    (hnew : ¬ o.Has (formatProtocolCid (mark (e.time + 1) 'c'))) :
    Joins clockEnvironment o ⟨signedOn clockEnvironment o (grantPayload (some c)) [c] guest, grantOperation (some c)⟩ := by
  have hc : ∀ x ∈ some c, x.length ≤ 273 := by
    rintro x ⟨⟩
    rw [← (reachable_sound ho).indexed.grounded.keyed c e he]
    exact formatProtocolCid_length_le _
  have hheld : ∀ p ∈ [c], o.Has p := fun p hp => List.mem_singleton.mp hp ▸ ⟨e, he⟩
  have htime : maxTime o [c] = e.time := by rw [maxTime_singleton, clockOf_eq he]
  refine joins ho (grantPayload_canonical (some c)) (put_grantPayload_length hc) hheld (Nat.le_add_left 1 7)
    (htime ▸ ht) (validate_grantPayload _ (some c)) ?_ (by rw [htime]; exact hnew)
  exact authorise_guest ho hrevocations hlength (by rw [he, hrecord]) hrecords

theorem capabilityChain_root {o : Oplog} (ho : Reachable clockEnvironment libraryA o) {h : Hash} {e : VerifiedEntry}
    (he : o.entries.get h = some e) (hcap : e.operation.isCapability = true) (hw : isWriteListKey o e.signer = true) :
    capabilityChain o (some h) = [h] := by
  rw [(reachable_sound ho).indexed.grounded.capabilityChain_some, he]
  simp [hcap, hw]

theorem capabilityChain_link {o : Oplog} (ho : Reachable clockEnvironment libraryA o) {h : Hash} {e : VerifiedEntry}
    (he : o.entries.get h = some e) (hcap : e.operation.isCapability = true) (hw : isWriteListKey o e.signer = false) :
    capabilityChain o (some h) = h :: capabilityChain o e.operation.capabilityId := by
  rw [(reachable_sound ho).indexed.grounded.capabilityChain_some, he]
  simp [hcap, hw]

theorem first_signer {o : Oplog} (ho : Reachable clockEnvironment libraryA o) : isWriteListKey o first.signer = true := by
  rw [isWriteListKey, (reachable_sound ho).chain_eq]
  change [ownerKey].contains ownerKey = true
  simp

theorem second_signer {o : Oplog} (ho : Reachable clockEnvironment libraryA o) : isWriteListKey o second.signer = false := by
  rw [isWriteListKey, (reachable_sound ho).chain_eq]
  exact guest_no_writer

theorem withFirst_first : withFirst.entries.get first.hash = some first := by rw [get_withFirst, if_pos rfl]

theorem withFirst_revocations : withFirst.revocations.values = [] := by
  rw [withFirst, joins_first.revocations_grow rfl]
  rfl

theorem withFirst_chain : capabilityChain withFirst (some first.hash) = [first.hash] :=
  capabilityChain_root withFirst_reachable withFirst_first rfl (first_signer withFirst_reachable)

theorem joins_second : Joins clockEnvironment withFirst second := by
  refine joins_guest withFirst_reachable withFirst_first (by rw [first_time]; decide) withFirst_revocations ?_ rfl ?_ ?_
  · rw [withFirst_chain]
    decide
  · rw [withFirst_chain]
    intro h hm
    rw [List.mem_singleton.mp hm, withFirst_first]
    rfl
  · rw [first_time]
    rintro ⟨e, he⟩
    rw [get_withFirst, first_hash, if_neg (mark_ne (by decide))] at he
    simp at he

end Sample

end RecordNode
