import RecordNode.AccessControl.CapabilityRecord
import RecordNode.Entry.Records

/-! # Operations per library type

Which payloads a library admits: track envelopes with label, About and access
records in a recordstore, label and About records in a labels library, listens,
and identity records. A recordstore PUT of an undefined type, and the Log and
About envelopes version 1 wrote, stay opaque. -/

namespace RecordNode

def delValueFields : List String := ["type", "timestamp"]

/-- Exactly a type `track` and a timestamp; the timestamp is what is kept. -/
def validateDelValue (E : Environment) (value : Option Value) : Checked ℕ :=
  match value.bind Value.fields? with
  | none => refuse .invalidOperation "DEL value must be a map"
  | some fields => do
    require (fields.length = delValueFields.length && delValueFields.all (fields.names.contains ·))
      .invalidOperation "DEL value carries exactly type and timestamp, and no content CID"
    require (fields.string? "type" = some "track") .invalidOperation
      ("DEL value.type must be track, not " ++ E.display (fields.get "type") ++ "; " ++
        "labels are unset and About records are never deleted")
    match fields.uint? "timestamp" with
    | some timestamp => return timestamp
    | none => refuse .invalidOperation "DEL timestamp must be unsigned integer milliseconds"

/-- The Log and About envelopes version 1 wrote. -/
def isV1Envelope (value : Fields) : Bool :=
  (value.string? "type" = some "log" || value.string? "type" = some "about") &&
    (value.string? "id").isSome && (value.string? "content").isSome && value.isInt "v" 1 &&
    (value.uint? "timestamp").isSome

def accessRecordType? : String → Option AccessRecordType
  | "capability" => some .capability
  | "revocation" => some .revocation
  | _ => none

/-- The PUT value types each record-carrying library admits. -/
def admittedPuts : LibraryType → List String
  | .recordstore => ["track", "labels", "about", "capability", "revocation"]
  | .labels => ["labels", "about"]
  | .listens | .identity => []

def validateRecordPut (E : Environment) (libraryType : LibraryType) (writeListSigner : Bool)
    (key : String) (value : Fields) : Checked Operation :=
  if libraryType = .recordstore ∧ writeListSigner ∧ isV1Envelope value then
    return .unknown .put key value none
  else
    match value.string? "type" with
    | none =>
      if libraryType = .recordstore then refuse .invalidShape "a PUT value must carry a string type"
      else refuse .invalidOperation
        ("a " ++ libraryType.name ++ " library does not admit a " ++ E.display (value.get "type") ++ " PUT")
    | some type =>
      if (admittedPuts libraryType).contains type then
        if type = "labels" then do
          let record ← validateLabelsRecord E key value
          return .labels key record none
        else if type = "about" then do
          let record ← validateAboutRecord E key value
          return .about record none
        else
          match accessRecordType? type with
          | some access => do
            validateAccessRecord E access key value
            return .access access key value none
          | none => do
            let envelope ← validateEnvelope value
            require (key = envelope.id.text) .invalidOperation "PUT key must equal the envelope id"
            return .track envelope none
      else if libraryType = .recordstore then return .unknown .put key value none
      else refuse .invalidOperation
        ("a " ++ libraryType.name ++ " library does not admit a " ++ E.display (value.get "type") ++ " PUT")

def validateRecordOperation (E : Environment) (libraryType : LibraryType) (writeListSigner : Bool)
    (payload : Value) : Checked Operation :=
  match payload.fields? with
  | none => refuse .invalidOperation "an operation must be a map"
  | some fields =>
    match fields.string? "key" with
    | none => refuse .invalidOperation "operation key must be a string"
    | some key => do
      require (!(libraryType = .labels && fields.has "capability_id")) .invalidOperation
        "a labels library entry never carries capability_id"
      let capabilityId := fields.string? "capability_id"
      if fields.string? "op" = some "PUT" then
        match (fields.get "value").bind Value.fields? with
        | none => refuse .invalidShape "a PUT value must be a map"
        | some value =>
          let operation ← validateRecordPut E libraryType writeListSigner key value
          return operation.withCapability capabilityId
      else if fields.string? "op" = some "DEL" then
        require (libraryType ≠ .labels) .invalidOperation "a labels library admits no DEL"
        -- A version 1 Log DEL from a write-list signer merges with no effect.
        if writeListSigner ∧ ((fields.get "value").bind Value.fields?).bind (·.string? "type") = some "log" then
          return .unknown .del key (((fields.get "value").bind Value.fields?).getD []) none
        else
          match trackId? key with
          | none => refuse .invalidOperation "a DEL key is a track id, 64 lowercase hex chars"
          | some id =>
            let timestamp ← validateDelValue E (fields.get "value")
            return .del id timestamp capabilityId
      else refuse .invalidOperation ("unknown operation " ++ E.display (fields.get "op"))

/-- The operation check of append verification. -/
def validateOperation (E : Environment) (libraryType : LibraryType) (writeListSigner : Bool)
    (payload : Value) : Checked Operation :=
  match libraryType with
  | .identity => validateIdentityOperation E payload
  | .recordstore | .labels => validateRecordOperation E libraryType writeListSigner payload
  | .listens => do
    require (!(payload.fields?.any fun fields => fields.has "capability_id")) .invalidOperation
      "a listens library entry never carries capability_id"
    validateListenPayload payload

/-! ## What validation says about a payload -/

variable {E : Environment}

/-- The value a PUT or DEL carries, when it is a map. -/
def valueFields (payload : Value) : Option Fields :=
  (payload.fields?.bind (·.get "value")).bind Value.fields?

theorem accessRecordType_name {type : String} {a : AccessRecordType} (h : accessRecordType? type = some a) :
    type = a.name := by
  unfold accessRecordType? at h
  split at h
  · obtain rfl := Option.some_inj.mp h
    rfl
  · obtain rfl := Option.some_inj.mp h
    rfl
  · simp at h

/-- An access PUT keeps its value as signed, of the type its operation says. -/
theorem validateRecordPut_access {libraryType : LibraryType} {writeListSigner : Bool} {key : String}
    {value v : Fields} {op : Operation} {a : AccessRecordType}
    (h : validateRecordPut E libraryType writeListSigner key value = .ok op)
    (ha : op.accessRecord? = some (a, v)) : v = value ∧ value.string? "type" = some a.name := by
  unfold validateRecordPut at h
  split at h
  · cases Except.ok.inj h
    simp [Operation.accessRecord?] at ha
  split at h
  · split at h <;> simp at h
  case h_2 type htype =>
  split at h
  case isTrue =>
    split at h
    · simp only [bind_eq_ok] at h
      obtain ⟨record, -, hres⟩ := h
      cases Except.ok.inj hres
      simp [Operation.accessRecord?] at ha
    split at h
    · simp only [bind_eq_ok] at h
      obtain ⟨record, -, hres⟩ := h
      cases Except.ok.inj hres
      simp [Operation.accessRecord?] at ha
    split at h
    case h_1 access hacc =>
      simp only [bind_eq_ok] at h
      obtain ⟨-, -, hres⟩ := h
      cases Except.ok.inj hres
      obtain ⟨rfl, rfl⟩ : access = a ∧ value = v := by simpa [Operation.accessRecord?] using ha
      exact ⟨rfl, by rw [htype, accessRecordType_name hacc]⟩
    case h_2 =>
      simp only [bind_eq_ok] at h
      obtain ⟨envelope, -, -, -, hres⟩ := h
      cases Except.ok.inj hres
      simp [Operation.accessRecord?] at ha
  case isFalse =>
    split at h
    · cases Except.ok.inj h
      simp [Operation.accessRecord?] at ha
    · simp at h
/-- Only a write-list signer's revocation can stay opaque. -/
theorem validateRecordPut_revocation {key : String} {value : Fields} {op : Operation}
    (h : validateRecordPut E .recordstore false key value = .ok op)
    (ht : value.string? "type" = some "revocation") : op.isRevocation = true := by
  have hadmitted : (admittedPuts .recordstore).contains "revocation" = true := by decide
  have haccess : accessRecordType? "revocation" = some .revocation := rfl
  have hl : ¬ "revocation" = "labels" := by decide
  have ha : ¬ "revocation" = "about" := by decide
  simp only [validateRecordPut, ht, hadmitted, haccess, hl, ha, Bool.false_eq_true, false_and, and_false,
    if_false, if_true, bind_eq_ok] at h
  obtain ⟨-, -, hres⟩ := h
  cases Except.ok.inj hres
  rfl

theorem accessRecord_withCapability (op : Operation) (c : Option String) :
    (op.withCapability c).accessRecord? = op.accessRecord? := by
  cases op <;> rfl

theorem isRevocation_withCapability (op : Operation) (c : Option String) :
    (op.withCapability c).isRevocation = op.isRevocation := by
  cases op with
  | access a => cases a <;> rfl
  | _ => rfl

/-- What a record-carrying library accepts: a PUT of a validated value, or a DEL. -/
theorem validateRecordOperation_cases {libraryType : LibraryType} {writeListSigner : Bool}
    {payload : Value} {op : Operation}
    (h : validateRecordOperation E libraryType writeListSigner payload = .ok op) :
    (∃ key value put c, valueFields payload = some value ∧
      validateRecordPut E libraryType writeListSigner key value = .ok put ∧
      op = put.withCapability c) ∨
    op.op? = some .del ∧ op.accessRecord? = none := by
  unfold validateRecordOperation at h
  split at h
  · simp at h
  case h_2 fields hfields =>
  split at h
  · simp at h
  case h_2 key hkey =>
  simp only [bind_eq_ok] at h
  obtain ⟨-, -, h⟩ := h
  split at h
  · split at h
    · simp at h
    case h_2 value hvalue =>
      simp only [bind_eq_ok] at h
      obtain ⟨put, hput, hres⟩ := h
      exact Or.inl ⟨key, value, put, _, by simp [valueFields, hfields, hvalue], hput,
        (Except.ok.inj hres).symm⟩
  · refine Or.inr ?_
    split at h
    · simp only [bind_eq_ok] at h
      obtain ⟨-, -, h⟩ := h
      split at h
      · cases Except.ok.inj h
        exact ⟨rfl, rfl⟩
      · split at h
        · simp at h
        · simp only [bind_eq_ok] at h
          obtain ⟨timestamp, -, hres⟩ := h
          cases Except.ok.inj hres
          exact ⟨rfl, rfl⟩
    · simp at h

theorem validateOperation_access {writeListSigner : Bool} {payload : Value} {v : Fields}
    {op : Operation} {a : AccessRecordType}
    (h : validateOperation E .recordstore writeListSigner payload = .ok op)
    (ha : op.accessRecord? = some (a, v)) :
    valueFields payload = some v ∧ v.string? "type" = some a.name := by
  rcases validateRecordOperation_cases h with ⟨key, value, put, c, hv, hput, rfl⟩ | ⟨-, hn⟩
  · rw [accessRecord_withCapability] at ha
    obtain ⟨rfl, ht⟩ := validateRecordPut_access hput ha
    exact ⟨hv, ht⟩
  · simp [hn] at ha

theorem validateOperation_revocation {payload : Value} {v : Fields} {op : Operation}
    (h : validateOperation E .recordstore false payload = .ok op) (hput : op.op? = some .put)
    (hv : valueFields payload = some v) (ht : v.string? "type" = some "revocation") :
    op.isRevocation = true := by
  rcases validateRecordOperation_cases h with ⟨key, value, put, c, hv', hp, rfl⟩ | ⟨hd, -⟩
  · obtain rfl := Option.some_inj.mp (hv.symm.trans hv')
    rw [isRevocation_withCapability]
    exact validateRecordPut_revocation hp ht
  · simp [hd] at hput

end RecordNode
