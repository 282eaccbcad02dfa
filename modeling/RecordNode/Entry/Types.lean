import RecordNode.Encoding.Environment

/-! # Entries, records and operations

The signed entry as it travels, and the operation a library reads out of its
payload. An `Operation` only carries views its checks produced: a track id is of
the track-id shape, the key of a track PUT is its envelope's id, and the key of
an About PUT is the one About key, so neither is stored twice. -/

namespace RecordNode

inductive LibraryType where
  | recordstore
  | labels
  | listens
  | identity
deriving DecidableEq, Repr

def LibraryType.name : LibraryType → String
  | .recordstore => "recordstore"
  | .labels => "labels"
  | .listens => "listens"
  | .identity => "identity"

/-- The verified access-control chain an oplog exists over. -/
structure ResolvedAcChain where
  address : String
  name : String
  type : LibraryType
  writeList : List String
  manifestCid : String
  wrapperCid : String
  writeListCid : String
deriving DecidableEq

structure LamportClock where
  id : String
  time : ℕ
deriving DecidableEq

structure SignedEntry where
  id : String
  payload : Value
  next : List Hash
  refs : List Hash
  clock : LamportClock
  key : String
  sig : String

/-- The entry as the eight-field map that is hashed, in canonical key order. -/
def SignedEntry.toValue (e : SignedEntry) : Value :=
  .record [
    ("v", .number 2),
    ("id", .string e.id),
    ("key", .string e.key),
    ("sig", .string e.sig),
    ("next", .array (e.next.map .string)),
    ("refs", .array (e.refs.map .string)),
    ("clock", .record [("id", .string e.clock.id), ("time", .number e.clock.time)]),
    ("payload", e.payload)]

/-- A signed entry with its block bytes and their digest; hash and multihash follow. -/
structure HashedEntry where
  digest : Digest 64
  bytes : Bytes
  entry : SignedEntry

namespace HashedEntry

def hash (h : HashedEntry) : Hash := formatProtocolCid h.digest

def multihash (h : HashedEntry) : Bytes := 0x14 :: 0x40 :: h.digest.bytes

/-- The multihash bytes determine the hash. -/
theorem hash_eq_of_multihash_eq {a b : HashedEntry} (h : a.multihash = b.multihash) :
    a.hash = b.hash := by
  have hd : a.digest.bytes = b.digest.bytes := by simpa [multihash] using h
  have : a.digest = b.digest := by
    cases ha : a.digest
    cases hb : b.digest
    simpa [ha, hb] using hd
  rw [hash, hash, this]

end HashedEntry

structure Envelope where
  id : TrackId
  timestamp : ℕ
  content : String
deriving DecidableEq

abbrev LabelPair := TrackId × String

structure LabelsRecord where
  timestamp : ℕ
  set : List LabelPair
  unset : List LabelPair
deriving DecidableEq

structure AboutRecord where
  timestamp : ℕ
  name : String
deriving DecidableEq

inductive AccessRecordType where
  | capability
  | revocation
deriving DecidableEq

inductive IdentityRecordType where
  | library
  | link
  | pin
  | profile
deriving DecidableEq

def IdentityRecordType.name : IdentityRecordType → String
  | .library => "library"
  | .link => "link"
  | .pin => "pin"
  | .profile => "profile"

inductive IdentityRecord where
  | library (timestamp : ℕ) (address : String)
  | link (timestamp : ℕ) (address : String) (linkAlias : Option String)
  | pin (timestamp : ℕ) (cid : String)
  | profile (timestamp : ℕ) (name bio avatar : Option String)
deriving DecidableEq

def IdentityRecord.type : IdentityRecord → IdentityRecordType
  | .library .. => .library
  | .link .. => .link
  | .pin .. => .pin
  | .profile .. => .profile

inductive OpKind where
  | put
  | del
deriving DecidableEq

/-- A validated payload. An opaque operation is one a write-list key signed whose record
type this version does not define; it merges with no state of its own. An access record
is kept as received, since its fields are read through the shape checks. -/
inductive Operation where
  | track (value : Envelope) (capabilityId : Option String)
  | del (key : TrackId) (timestamp : ℕ) (capabilityId : Option String)
  | labels (key : String) (value : LabelsRecord) (capabilityId : Option String)
  | about (value : AboutRecord) (capabilityId : Option String)
  | access (type : AccessRecordType) (key : String) (value : Fields) (capabilityId : Option String)
  | unknown (op : OpKind) (key : String) (value : Fields) (capabilityId : Option String)
  | identityPut (key : String) (value : IdentityRecord)
  | identityDel (key : String) (type : IdentityRecordType) (timestamp : ℕ)
  | listen (trackId : String) (address : String) (timestamp : ℕ)

namespace Operation

/-- `operation.op`, absent from a listen. -/
def op? : Operation → Option OpKind
  | .track .. | .labels .. | .about .. | .access .. | .identityPut .. => some .put
  | .del .. | .identityDel .. => some .del
  | .unknown op .. => some op
  | .listen .. => none

/-- `cited_capability`: the capability a write is made under. -/
def capabilityId : Operation → Option String
  | .track _ c | .del _ _ c | .labels _ _ c | .about _ c | .access _ _ _ c | .unknown _ _ _ c => c
  | .identityPut .. | .identityDel .. | .listen .. => none

/-- `with_capability` on a freshly validated operation. -/
def withCapability (operation : Operation) (capabilityId : Option String) : Operation :=
  match operation with
  | .track v _ => .track v capabilityId
  | .del k t _ => .del k t capabilityId
  | .labels k v _ => .labels k v capabilityId
  | .about v _ => .about v capabilityId
  | .access a k v _ => .access a k v capabilityId
  | .unknown o k v _ => .unknown o k v capabilityId
  | other => other

/-- A track envelope PUT, the source's `is_put`. -/
def isPut : Operation → Bool
  | .track .. => true
  | _ => false

def isLabelsPut : Operation → Bool
  | .labels .. => true
  | _ => false

def isAboutPut : Operation → Bool
  | .about .. => true
  | _ => false

/-- A track PUT or DEL: the operations resolved per track id. -/
def isEnvelopeOperation : Operation → Bool
  | .track .. | .del .. => true
  | _ => false

def isIdentityOperation : Operation → Bool
  | .identityPut .. | .identityDel .. => true
  | _ => false

/-- The access record of an access PUT. -/
def accessRecord? : Operation → Option (AccessRecordType × Fields)
  | .access type _ value _ => some (type, value)
  | _ => none

def isCapability (operation : Operation) : Bool :=
  match operation with
  | .access .capability .. => true
  | _ => false

def isRevocation (operation : Operation) : Bool :=
  match operation with
  | .access .revocation .. => true
  | _ => false

end Operation

/-- The slot one (track id, label) pair resolves under. -/
def labelStateKey (pair : LabelPair) : String := "label:" ++ pair.1.text ++ ":" ++ pair.2

/-- `state_keys_of`: the slots current-state resolution keys an operation under. -/
def stateKeysOf (E : Environment) : Operation → List String
  | .identityPut key value => [value.type.name ++ ":" ++ key]
  | .identityDel key type _ => [type.name ++ ":" ++ key]
  | .labels _ value _ => (value.set ++ value.unset).map labelStateKey
  | .track value _ => [value.id.text]
  | .del key .. => [key.text]
  | .about .. => [E.aboutKey.text]
  | .access .. | .unknown .. | .listen .. => []

/-- An entry that passed verification, with the operation read from its payload. -/
structure VerifiedEntry extends HashedEntry where
  operation : Operation

namespace VerifiedEntry

def stateKeys (E : Environment) (e : VerifiedEntry) : List String := stateKeysOf E e.operation

def next (e : VerifiedEntry) : List Hash := e.entry.next

def time (e : VerifiedEntry) : ℕ := e.entry.clock.time

def signer (e : VerifiedEntry) : String := e.entry.key

end VerifiedEntry

end RecordNode
