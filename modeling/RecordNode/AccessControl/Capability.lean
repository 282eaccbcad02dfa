import RecordNode.AccessControl.CapabilityRecord
import RecordNode.Oplog.Causal
import RecordNode.Oplog.CurrentState

/-! # Capability verification and revocation

Whether a capability authorises an entry, and which revocations are effective.
Walking a capability's chain is a loop over the citations; it runs on fuel here
and is shown to end by itself on every grounded oplog. -/

namespace RecordNode

open Foundation

def maxChainLength : ℕ := 8

def capabilityRecord (entry : Option VerifiedEntry) : Option Fields :=
  match entry.map VerifiedEntry.operation with
  | some (.access .capability _ value _) => some value
  | _ => none

/-- The loop of `capability_chain`; `none` is a loop that has not ended yet. -/
def capabilityChainLoop (o : Oplog) : ℕ → Option String → Option (List Hash)
  | _, none => some []
  | 0, some _ => none
  | n + 1, some hash =>
    match o.entries.get hash with
    | none => some []
    | some e =>
      if e.operation.isCapability then
        if isWriteListKey o e.signer then some [hash]
        else (capabilityChainLoop o n e.operation.capabilityId).map (hash :: ·)
      else some []

/-- A capability's chain: itself while a write-list key signed it, otherwise itself
followed by the chain of the capability its entry cites. -/
def capabilityChain (o : Oplog) (capabilityId : Option String) : List Hash :=
  (capabilityChainLoop o (o.entries.size + 1) capabilityId).getD []

/-- The capabilities an entry depends on: the chain of the one it cites. -/
def dependencies (o : Oplog) (e : VerifiedEntry) : List Hash :=
  if isWriteListKey o e.signer then [] else capabilityChain o e.operation.capabilityId

def revokedCapability (revocation : VerifiedEntry) : Hash :=
  match revocation.operation with
  | .access _ _ value _ => (value.string? "revokes").getD ""
  | _ => ""

/-- The entry depends on a capability an effective revocation names, and is not in that
revocation's causal past. -/
def inertUnder (o : Oplog) (e : VerifiedEntry) (effective : List VerifiedEntry) : Bool :=
  let chain := dependencies o e
  !chain.isEmpty && effective.any fun revocation =>
    chain.contains (revokedCapability revocation) &&
      !inCausalPast o.entries e.hash revocation.next

def selfReferential (o : Oplog) (revocation : VerifiedEntry) : Bool :=
  (capabilityChain o revocation.operation.capabilityId).contains (revokedCapability revocation)

/-- Judge one more delegated revocation against those found effective before it. -/
def judgeRevocation (o : Oplog) (effective : List VerifiedEntry) (revocation : VerifiedEntry) :
    List VerifiedEntry :=
  if !selfReferential o revocation && !inertUnder o revocation effective then
    effective ++ [revocation]
  else effective

/-- Every write-list revocation, then the others in order, each effective unless it is
self-referential or made inert by one found effective before it. -/
def effectiveRevocations (o : Oplog) (revocations : List VerifiedEntry) : List VerifiedEntry :=
  let effective := revocations.filter fun r => isWriteListKey o r.signer
  let delegated := sortBy (fun a b => compareRevocations a.toHashedEntry b.toHashedEntry)
    (revocations.filter fun r => !isWriteListKey o r.signer)
  delegated.foldl (judgeRevocation o) effective

/-- The action that authorises a PUT, read from the value as signed. -/
def coveringAction (value : Fields) : Option String :=
  match value.string? "type" with
  | some "track" => some "library.append_track"
  | some "labels" => some "library.write_label"
  | some "about" => some "library.update_about"
  | some "capability" => some "library.grant_capability"
  | _ => none

def labelSubject (op : String) (pair : Value) : Value :=
  .record ([("type", .string "label"), ("op", .string op)] ++
    match pair with
    | .array (track :: label :: _) => [("track_id", track), ("label", label)]
    | _ => [])

/-- What a capability's filter is evaluated against: a track envelope or About record as
signed, a label record once per pair, and nothing for a capability record. -/
def filterSubjects (value : Fields) : List Value :=
  match value.string? "type" with
  | some "track" | some "about" => [.record value]
  | some "labels" =>
    ((value.array? "set").getD []).map (labelSubject "set") ++
      ((value.array? "unset").getD []).map (labelSubject "unset")
  | _ => []

def actionsOf (capability : Fields) : List String :=
  ((capability.array? "actions").getD []).filterMap Value.asString?

def payloadValue (hashed : HashedEntry) : Fields := (valueFields hashed.entry.payload).getD []

/-- Step 5 of authorisation, for one capability of the chain. -/
def checkLink (E : Environment) (o : Oplog) (value : Fields) (hash : Hash) : Checked Unit :=
  let capability := (capabilityRecord (o.entries.get hash)).getD []
  if capabilityFailsClosed capability then
    refuse .capabilityDenied s!"capability {hash} carries a field this version does not define"
  else if !((coveringAction value).any fun action => (actionsOf capability).contains action) then
    refuse .capabilityDenied
      ("capability " ++ hash ++ " grants no action that authorises this " ++
        E.display (value.get "type") ++ " PUT")
  else if !((filterSubjects value).all fun subject => filterMatches (capability.get "filter") subject) then
    refuse .capabilityDenied s!"capability {hash}'s filter does not match the write"
  else
    match conditionFailure (capability.get "conditions") (((value.get "timestamp").bind Value.asNumber?).getD 0) with
    | some .expired => refuse .capabilityExpired
        ("capability " ++ hash ++ " has expired for a write timestamped " ++
          E.display (value.get "timestamp"))
    | some .unrecognised =>
      refuse .capabilityDenied s!"capability {hash} holds a condition this version does not define"
    | none => .ok ()

/-- The loop over the chain: the first link that refuses decides. -/
def checkLinks (E : Environment) (o : Oplog) (value : Fields) : List Hash → Checked Unit
  | [] => .ok ()
  | hash :: rest => do
    checkLink E o value hash
    checkLinks E o value rest

/-- A revocation is in scope when its signer issued the target or a capability above it. -/
def revocationInScope (o : Oplog) (key : String) (next : List Hash) (target : Hash) : Bool :=
  (capabilityRecord (o.entries.get target)).isSome && inCausalPast o.entries target next &&
    (capabilityChain o (some target)).any fun hash => (o.entries.get hash).any fun e => e.signer = key

/-- The accepted revocations in the causal past of an entry with this `next`. -/
def pastRevocations (o : Oplog) (next : List Hash) : List VerifiedEntry :=
  o.revocations.values.filter fun revocation => inCausalPast o.entries revocation.hash next

/-- Authorisation of an entry about to join the oplog; its parents are in the oplog. -/
def authoriseEntry (E : Environment) (o : Oplog) (hashed : HashedEntry) (operation : Operation) :
    Checked Unit :=
  let key := hashed.entry.key
  let next := hashed.entry.next
  let value := payloadValue hashed
  if isWriteListKey o key then .ok ()
  else if o.chain.type ≠ .recordstore then
    refuse .unauthorisedWriter s!"{key} is not in the write list"
  else
    match operation.op?, operation.capabilityId with
    | some .put, some capabilityId =>
      match capabilityRecord (o.entries.get capabilityId) with
      | none => refuse .capabilityDenied
          s!"capability {capabilityId} is not a capability in the entry's causal past"
      | some record =>
        if !inCausalPast o.entries capabilityId next then
          refuse .capabilityDenied
            s!"capability {capabilityId} is not a capability in the entry's causal past"
        else if !granteeMatches (record.get "grantee") key then
          refuse .capabilityDenied s!"capability {capabilityId} is not granted to {key}"
        else
          let chain := capabilityChain o (some capabilityId)
          if chain.length > maxChainLength then
            refuse .capabilityDenied
              s!"capability {capabilityId} has a chain of {chain.length}, over {maxChainLength}"
          else
            match (effectiveRevocations o (pastRevocations o next)).find? fun revocation =>
                chain.contains (revokedCapability revocation) with
            | some revoked => refuse .capabilityRevoked
                s!"capability {revokedCapability revoked} is revoked by {revoked.hash} in the entry's causal past"
            | none =>
              if value.string? "type" = some "revocation" then
                let target := (value.string? "revokes").getD ""
                if revocationInScope o key next target then .ok ()
                else refuse .capabilityDenied s!"{key} issued neither {target} nor a capability above it"
              else checkLinks E o value chain
    | _, _ => refuse .unauthorisedWriter s!"{key} is not in the write list and cites no capability"

end RecordNode
