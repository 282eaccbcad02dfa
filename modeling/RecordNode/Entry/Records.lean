import RecordNode.Foundation.OrderedMap
import RecordNode.Entry.Signed

/-! # Record validators

The inline values a payload carries: track envelopes, label and About records,
identity records and listens. Each validator returns the view the rest of the
program reads, or the refusal the source throws. A value whose `type` is read
is a map, since neither bytes nor a CID object carries a property of that name. -/

namespace RecordNode

open Foundation

def trackId? (text : String) : Option TrackId :=
  if h : isHex64 text = true then some ⟨text, h⟩ else none

/-! ## Track envelopes -/

def validateEnvelope (value : Fields) : Checked Envelope :=
  match (value.string? "id").bind trackId? with
  | none => refuse .invalidShape "envelope id must be 64 lowercase hex chars"
  | some id =>
    match value.uint? "timestamp" with
    | none => refuse .invalidShape "envelope timestamp must be unsigned integer milliseconds"
    | some timestamp => do
      require (value.isInt "v" 1) .invalidShape "envelope v must be 1"
      require (value.string? "type" = some "track") .invalidShape "envelope type must be track"
      match value.string? "content" with
      | some content =>
        require (isProtocolCid content) .invalidShape
          "envelope content must be a base58btc dag-cbor sha3-512 CID"
        return ⟨id, timestamp, content⟩
      | none => refuse .invalidShape "envelope content must be a base58btc dag-cbor sha3-512 CID"

/-! ## Label and About records -/

def labelMaxBytes : ℕ := 128

/-- General category Cc: C0 controls, DEL and C1 controls. -/
def isControl (c : Char) : Bool := c.toNat < 0x20 || (0x7f ≤ c.toNat && c.toNat ≤ 0x9f)

def assertLabel (E : Environment) (label : Value) : Checked String :=
  match label with
  | .string text => do
    require (text ≠ "") .invalidShape "a label must be a non-empty string"
    require (E.normalizeNfc text = text) .invalidShape "a label must be in Unicode Normalization Form C"
    require (!text.toList.any isControl) .invalidShape "a label must not contain a control character"
    require ((utf8ToBytes text).length ≤ labelMaxBytes) .sizeExceeded
      s!"label is {(utf8ToBytes text).length} bytes, over the {labelMaxBytes}-byte bound"
    return text
  | _ => refuse .invalidShape "a label must be a non-empty string"

def validatePair (E : Environment) (pair : Value) : Checked LabelPair :=
  match pair with
  | .array [track, label] =>
    match track.asString?.bind trackId? with
    | none => refuse .invalidShape "a label pair track_id must be 64 lowercase hex chars"
    | some id => do
      let text ← assertLabel E label
      return (id, text)
  | _ => refuse .invalidShape "a label pair is a [track_id, label] array"

def validatePairs (E : Environment) (pairs : Option Value) (field : String) : Checked (List LabelPair) :=
  match pairs.bind Value.asArray? with
  | none => refuse .invalidShape s!"a label record's {field} must be an array"
  | some items => items.mapM (validatePair E)

/-- No field this version does not define. -/
def assertFields (value : Fields) (defined : List String) (what : String) : Checked Unit :=
  let extra := value.names.filter fun name => !defined.contains name
  require extra.isEmpty .invalidShape
    (what ++ " carries fields this version does not define: " ++ String.intercalate ", " extra)

def labelsFields : List String := ["type", "v", "timestamp", "set", "unset"]

def validateLabelsRecord (E : Environment) (key : String) (value : Fields) : Checked LabelsRecord := do
  require (value.string? "type" = some "labels") .invalidShape "a label record must be a map of type labels"
  assertFields value labelsFields "a label record"
  require (value.isInt "v" 1) .invalidShape "label record v must be 1"
  match value.uint? "timestamp" with
  | none => refuse .invalidShape "label record timestamp must be unsigned integer milliseconds"
  | some timestamp =>
    let set ← validatePairs E (value.get "set") "set"
    let unset ← validatePairs E (value.get "unset") "unset"
    require (set.length + unset.length ≠ 0) .invalidShape "a label record names at least one pair"
    let keys := OrderedSet.ofList ((set ++ unset).map labelStateKey)
    require (keys.size = set.length + unset.length) .invalidShape "a label record names a pair more than once"
    require (key = E.recordKey (.record value)) .invalidShape "a label record's key is the sha256 of its value"
    return ⟨timestamp, set, unset⟩

def aboutFields : List String := ["type", "v", "timestamp", "name"]

def aboutNameMaxBytes : ℕ := 128

def validateAboutRecord (E : Environment) (key : String) (value : Fields) : Checked AboutRecord := do
  require (value.string? "type" = some "about") .invalidShape "an About record must be a map of type about"
  assertFields value aboutFields "an About record"
  require (value.isInt "v" 1) .invalidShape "About record v must be 1"
  match value.uint? "timestamp", value.string? "name" with
  | none, _ => refuse .invalidShape "About record timestamp must be unsigned integer milliseconds"
  | some _, none => refuse .invalidShape s!"an About name must be 1 to {aboutNameMaxBytes} UTF-8 bytes"
  | some timestamp, some name =>
    require (name ≠ "" ∧ (utf8ToBytes name).length ≤ aboutNameMaxBytes) .invalidShape
      s!"an About name must be 1 to {aboutNameMaxBytes} UTF-8 bytes"
    require (key = E.aboutKey.text) .invalidShape "an About record's key is sha256(\"about\")"
    return ⟨timestamp, name⟩

/-! ## Listens -/

def validateListenPayload (payload : Value) : Checked Operation :=
  match payload.fields? with
  | none => refuse .invalidOperation "a listen payload must be a map"
  | some value => do
    require (!value.has "op") .invalidOperation
      "a listens library accepts only listen writes, never PUT or DEL"
    match value.string? "trackId" with
    | none => refuse .invalidOperation "a listen write requires trackId"
    | some trackId =>
      require (trackId ≠ "") .invalidOperation "a listen write requires trackId"
      match value.string? "address" with
      | none => refuse .invalidOperation "a listen write requires address"
      | some address =>
        match value.uint? "timestamp" with
        | none => refuse .invalidOperation "a listen timestamp must be unsigned integer milliseconds"
        | some timestamp => return .listen trackId address timestamp

/-! ## Identity records -/

def aliasMaxBytes : ℕ := 128
def profileNameMaxBytes : ℕ := 128
def profileBioMaxBytes : ℕ := 1024

def identityRecordType? : String → Option IdentityRecordType
  | "library" => some .library
  | "link" => some .link
  | "pin" => some .pin
  | "profile" => some .profile
  | _ => none

/-- `parse_library_address`, with the general CID parser a parameter. -/
def isLibraryAddress (E : Environment) (address : String) : Bool :=
  let start := "/record/".toList
  if start.isPrefixOf address.toList then
    let rest := address.toList.drop start.length
    match rest.dropWhile (· ≠ '/') with
    | [] => false
    | _ :: name => E.parsesCid (String.ofList (rest.takeWhile (· ≠ '/'))) && !name.contains '/'
  else false

/-- A field that is absent, or present and of the given shape. -/
def optionalField (value : Fields) (name : String) (shape : String → Bool) (message : String) :
    Checked (Option String) :=
  match value.get name with
  | none => .ok none
  | some v =>
    match v.asString? with
    | some text => if shape text then .ok (some text) else refuse .invalidShape message
    | none => refuse .invalidShape message

def isBoundedString (min max : ℕ) (text : String) : Bool :=
  min ≤ (utf8ToBytes text).length && (utf8ToBytes text).length ≤ max

def isCanonicalCid (E : Environment) (cid : String) : Bool := E.canonicalCid cid = some cid

/-- A profile keeps the fields this version defines and drops the rest. -/
def validateProfile (E : Environment) (value : Fields) : Checked IdentityRecord :=
  match value.uint? "timestamp" with
  | none => refuse .invalidShape "a profile record timestamp is unsigned integer milliseconds"
  | some timestamp => do
    let name ← optionalField value "name" (isBoundedString 1 profileNameMaxBytes)
      s!"a profile name is 1 to {profileNameMaxBytes} UTF-8 bytes"
    let bio ← optionalField value "bio" (isBoundedString 0 profileBioMaxBytes)
      s!"a profile bio is at most {profileBioMaxBytes} UTF-8 bytes"
    let avatar ← optionalField value "avatar" (isCanonicalCid E)
      "a profile avatar is an image CID, CIDv1 in base32, never a URL"
    return .profile timestamp name bio avatar

/-- The fields a library, link or pin record must and may carry. -/
def recordFields : IdentityRecordType → List String × List String
  | .library => (["type", "v", "timestamp", "address"], [])
  | .link => (["type", "v", "timestamp", "address"], ["alias"])
  | .pin => (["type", "v", "timestamp", "cid"], [])
  | .profile => ([], [])

/-- `validate_record` of an identity library. -/
def validateIdentityRecord (E : Environment) (type : IdentityRecordType) (value : Fields) :
    Checked IdentityRecord :=
  if type = .profile then do
    require (value.isInt "v" 1) .invalidShape "a profile record has an integer v of 1 or more"
    validateProfile E value
  else do
    let (required, optional) := recordFields type
    require (required.all (value.names.contains ·) && value.names.all (fun name => (required ++ optional).contains name))
      .invalidShape ("a " ++ type.name ++ " record has the fields " ++ String.intercalate ", " (required ++ optional))
    require (value.isInt "v" 1) .invalidShape s!"a {type.name} record has v 1"
    match value.uint? "timestamp" with
    | none => refuse .invalidShape s!"a {type.name} record timestamp is unsigned integer milliseconds"
    | some timestamp =>
      if type = .pin then
        match value.string? "cid" with
        | none => refuse .invalidShape "a pin cid is a CIDv1 in base32"
        | some cid =>
          match E.canonicalCid cid with
          | none => refuse .invalidCid s!"not a CID: {cid}"
          | some canonical =>
            require (canonical = cid) .invalidShape "a pin cid is a CIDv1 in base32"
            return .pin timestamp cid
      else
        match value.string? "address" with
        | none => refuse .invalidShape s!"a {type.name} record address is a library address"
        | some address =>
          require (isLibraryAddress E address) .invalidShape s!"a {type.name} record address is a library address"
          if type = .library then return .library timestamp address
          else
            let linkAlias ← optionalField value "alias" (isBoundedString 0 aliasMaxBytes)
              s!"a link alias is a string of at most {aliasMaxBytes} UTF-8 bytes"
            return .link timestamp address linkAlias

def identityRecordKey (E : Environment) : IdentityRecord → String
  | .profile .. => E.profileKey.text
  | .pin _ cid => (E.sha256Hex (utf8ToBytes cid)).text
  | .library _ address | .link _ address _ => (E.sha256Hex (utf8ToBytes address)).text

/-- A profile whose `v` is a later version is an unknown record. -/
def isLaterProfile (value : Fields) : Bool :=
  value.string? "type" = some "profile" &&
    match value.uint? "v" with
    | some v => 1 < v
    | none => false

def validateIdentityOperation (E : Environment) (payload : Value) : Checked Operation :=
  match payload.fields? with
  | none => refuse .invalidOperation "an operation must be a map"
  | some fields => do
    require (!fields.has "capability_id") .invalidOperation
      "an identity library entry never carries capability_id"
    match fields.string? "key" with
    | none => refuse .invalidOperation "operation key must be a string"
    | some key =>
      match (fields.get "value").bind Value.fields? with
      | none => refuse .invalidShape "an identity library record is a map with a type"
      | some value =>
        match value.string? "type" with
        | none => refuse .invalidShape "an identity library record is a map with a type"
        | some typeName =>
          if fields.string? "op" = some "PUT" then
            match identityRecordType? typeName with
            | none => return .unknown .put key value none
            | some type =>
              if isLaterProfile value then return .unknown .put key value none
              else
                let record ← validateIdentityRecord E type value
                require (key = identityRecordKey E record) .invalidShape
                  s!"a {record.type.name} record key is derived as §4.8.2 states"
                return .identityPut key record
          else if fields.string? "op" = some "DEL" then
            require (value.length = 2 && value.has "timestamp") .invalidShape
              "a DEL value is exactly \x7btype, timestamp\x7d"
            match value.uint? "timestamp" with
            | none => refuse .invalidShape "a DEL timestamp is unsigned integer milliseconds"
            | some timestamp =>
              match identityRecordType? typeName with
              | none => return .unknown .del key value none
              | some type =>
                require (type ≠ .profile) .invalidShape "a profile is never deleted"
                return .identityDel key type timestamp
          else refuse .invalidOperation ("unknown operation " ++ E.display (fields.get "op"))

end RecordNode
