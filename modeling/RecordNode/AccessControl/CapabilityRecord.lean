import RecordNode.AccessControl.Filter
import RecordNode.Entry.Signed

/-! # Capability and revocation records

A record of a defined type that breaks its shape rejects the entry. An unknown
grantee, filter node, condition or field merges but grants nothing. -/

namespace RecordNode

def capabilityFields : List String := ["type", "v", "timestamp", "grantee", "actions", "filter", "conditions"]

def revocationFields : List String := ["type", "v", "timestamp", "revokes"]

def granteeShape (grantee : Option Value) : Shape :=
  match grantee.bind Value.fields? with
  | none => .malformed
  | some fields =>
    match fields.string? "type" with
    | none => .malformed
    | some "key" =>
      match fields.string? "key" with
      | some key => knownShape fields ["type", "key"] (isCompressedPubkey key)
      | none => .malformed
    | some "key_set" =>
      match (fields.array? "keys").bind (List.mapM Value.asString?) with
      | some keys => knownShape fields ["type", "keys"]
          (1 ≤ keys.length && keys.length ≤ 256 && keys.all isCompressedPubkey)
      | none => .malformed
    | some _ => .unknown

def conditionShape (condition : Value) : Shape :=
  match condition.fields? with
  | none => .malformed
  | some fields =>
    match fields.string? "type" with
    | none => .malformed
    | some "expires_at" => knownShape fields ["type", "at"] (fields.uint? "at").isSome
    | some _ => .unknown

/-- `record.conditions ?? []`. -/
def conditionsOf (record : Fields) : Value :=
  match record.get "conditions" with
  | none | some .null => .array []
  | some conditions => conditions

def capabilityShape (record : Fields) : Shape :=
  let wellFormed := record.isInt "v" 1 && (record.uint? "timestamp").isSome &&
    (match (record.array? "actions").bind (List.mapM Value.asString?) with
      | some actions => 1 ≤ actions.length && actions.length ≤ 16
      | none => false) &&
    (match (conditionsOf record).asArray? with
      | some conditions => conditions.length ≤ 16
      | none => false)
  if !wellFormed then .malformed
  else
    worstShape ([if hasExtraFields record capabilityFields then .unknown else .ok,
      granteeShape (record.get "grantee"),
      if record.has "filter" then filterShape (record.get "filter") else .ok] ++
      ((conditionsOf record).asArray?.getD []).map conditionShape)

def revocationWellFormed (record : Fields) : Bool :=
  record.isInt "v" 1 && (record.uint? "timestamp").isSome && (record.string? "revokes").isSome &&
    !hasExtraFields record revocationFields

def AccessRecordType.name : AccessRecordType → String
  | .capability => "capability"
  | .revocation => "revocation"

def validateAccessRecord (E : Environment) (type : AccessRecordType) (key : String) (value : Fields) :
    Checked Unit := do
  require (key == E.recordKey (.record value)) .invalidShape
    s!"a {type.name} record's key is the sha256 of its value"
  let wellFormed := match type with
    | .capability => capabilityShape value != .malformed
    | .revocation => revocationWellFormed value
  require wellFormed .invalidShape s!"malformed {type.name} record"

def granteeMatches (grantee : Option Value) (key : String) : Bool :=
  granteeShape grantee == .ok &&
    match grantee.bind Value.fields? with
    | none => false
    | some fields =>
      if fields.string? "type" = some "key" then fields.string? "key" = some key
      else ((fields.array? "keys").getD []).any fun k => k.asString? = some key

/-- A capability carrying a field this version does not define authorises nothing. -/
def capabilityFailsClosed (record : Fields) : Bool := hasExtraFields record capabilityFields

inductive ConditionFailure where
  | expired
  | unrecognised
deriving DecidableEq

/-- Why a capability's conditions fail an operation, or `none` when they hold. -/
def conditionFailure (conditions : Option Value) (timestamp : ℚ) : Option ConditionFailure :=
  let list := (conditions.bind Value.asArray?).getD []
  if list.any fun condition => conditionShape condition != .ok then some .unrecognised
  else if list.any fun condition =>
      match (condition.fields?.bind fun fields => fields.uint? "at") with
      | some limit => (limit : ℚ) < timestamp
      | none => false then some .expired
  else none

end RecordNode
