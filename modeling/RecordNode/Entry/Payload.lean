import RecordNode.Entry.Records

/-! # Track payload objects

The dag-cbor block behind an envelope's `content`: bounded, canonical, with the
required fields of a track. Whatever else it carries passes through. -/

namespace RecordNode

open Foundation

def payloadMaxBytes : ℕ := 1024 * 1024

def assertPayloadSize (b : Bytes) : Checked Unit :=
  require (b.length ≤ payloadMaxBytes) .sizeExceeded
    s!"envelope payload is {b.length} bytes, over the {payloadMaxBytes}-byte bound"

/-- Size before decode, then canonical form. -/
def decodePayload (E : Environment) (b : Bytes) : Checked Value := do
  assertPayloadSize b
  decodeCanonical E b

def isCidString (E : Environment) : Option Value → Bool
  | some (.string text) => E.parsesCid text
  | _ => false

/-- One character of a JSON string. -/
def jsonChar (c : Char) : String :=
  if c = '"' then "\\\""
  else if c = '\\' then "\\\\"
  else if c = '\x08' then "\\b"
  else if c = '\x0c' then "\\f"
  else if c = '\n' then "\\n"
  else if c = '\r' then "\\r"
  else if c = '\t' then "\\t"
  else if c.toNat < 0x20 then "\\u00" ++ String.ofList [hexDigit (c.toNat / 16), hexDigit (c.toNat % 16)]
  else String.ofList [c]

def jsonString (text : String) : String := "\"" ++ String.join (text.toList.map jsonChar) ++ "\""

/-- The identity of a source pointer. -/
def resolverKey (resolver : String × String) : String :=
  "[" ++ jsonString resolver.1 ++ "," ++ jsonString resolver.2 ++ "]"

def validateResolverEntry (value : Value) : Checked (String × String) :=
  match value.fields? with
  | none => refuse .invalidShape "a resolver entry must be a map"
  | some fields =>
    match fields.string? "extractor", fields.string? "id" with
    | some extractor, some id => do
      require (!fields.has "url") .invalidShape "a resolver entry must not carry a streaming url"
      return (extractor, id)
    | _, _ => refuse .invalidShape "a resolver entry requires string extractor and id"

/-- One round of the loop over the resolver entries, with the keys seen so far. -/
def checkResolver (seen : OrderedSet String) (element : Value) : Checked (OrderedSet String) := do
  let resolver ← validateResolverEntry element
  require (!seen.has (resolverKey resolver)) .invalidShape
    ("resolver entries repeat the source pointer " ++ resolverKey resolver)
  return seen.add (resolverKey resolver)

def validateResolverEntries (value : Option Value) : Checked Unit :=
  match value.bind Value.asArray? with
  | none => refuse .invalidShape "track content resolver must be an array"
  | some items => do
    let _ ← items.foldlM checkResolver .empty
    return ()

def hasFingerprint (tags : Fields) : Bool :=
  match tags.string? "acoustid_fingerprint" with
  | some fingerprint => fingerprint ≠ ""
  | none => false

/-- The required fields of a track; optional tags and audio fields pass through. -/
def validateTrackContent (E : Environment) (value : Value) : Checked Fields :=
  match value.fields? with
  | none => refuse .invalidShape "track content must be a map"
  | some fields => do
    require (isCidString E (fields.get "hash")) .invalidShape "track content hash must be a CID"
    require (fields.uint? "size").isSome .invalidShape "track content size must be an unsigned integer"
    match (fields.get "tags").bind Value.fields? with
    | none => refuse .invalidShape "track content tags must be a map"
    | some tags => do
      require (hasFingerprint tags) .invalidShape "track content requires tags.acoustid_fingerprint"
      require ((fields.get "audio").any Value.isRecord) .invalidShape "track content audio must be a map"
      require ((fields.array? "artwork").any fun items => items.all fun item => isCidString E (some item))
        .invalidShape "track content artwork must be an array of CIDs"
      validateResolverEntries (fields.get "resolver")
      return fields

end RecordNode
