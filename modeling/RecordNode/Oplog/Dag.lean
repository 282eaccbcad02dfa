import RecordNode.Oplog.Accept

/-! # Inserting, settling and appending

The append-only DAG with its access state. `insertEntry` maintains the indexes
incrementally; `settle` is what an append and a merge both end with, bringing the
effective and inert sets up to date and re-resolving every key that may have
moved. -/

namespace RecordNode

open Foundation

variable (E : Environment)

def indexKey (hash : Hash) (index : OrderedMap String (OrderedSet Hash)) (key : String) :
    OrderedMap String (OrderedSet Hash) :=
  index.set key (((index.get key).getD .empty).add hash)

/-- Idempotent: an entry whose hash is already present is a no-op. -/
def insertEntry (o : Oplog) (e : VerifiedEntry) : Oplog :=
  if o.entries.has e.hash then o
  else
    let referenced := e.next.foldl OrderedSet.add o.referenced
    let heads := e.next.foldl OrderedSet.delete o.heads
    { o with
      entries := o.entries.set e.hash e
      referenced := referenced
      heads := if referenced.has e.hash then heads else heads.add e.hash
      keyEntries := (e.stateKeys E).foldl (indexKey e.hash) o.keyEntries
      capabilities := if e.operation.isCapability then o.capabilities.set e.hash e else o.capabilities
      revocations := if e.operation.isRevocation then o.revocations.set e.hash e else o.revocations
      delegated := if isWriteListKey o e.signer then o.delegated else o.delegated.add e.hash }

/-- The known entries of a key that are not inert. -/
def candidates (o : Oplog) (key : String) : List VerifiedEntry :=
  ((((o.keyEntries.get key).map OrderedSet.items).getD []).filter
    fun hash => !o.inert.has hash).filterMap o.entries.get

def refreshKey (o : Oplog) (key : String) : Oplog :=
  match resolveCurrentState (candidates o key) with
  | none => { o with current := o.current.delete key }
  | some e => { o with current := o.current.set key e }

/-- Re-resolve each key over every known entry for it, never only the new ones. -/
def refreshCurrentState (o : Oplog) (keys : List String) : Oplog := keys.foldl refreshKey o

structure AccessChange where
  inert : List VerifiedEntry
  keys : OrderedSet String

def effectiveEntries (o : Oplog) : List VerifiedEntry := o.effective.items.filterMap o.entries.get

/-- A revocation's own effect is decided only by the effective set. -/
def isInert (o : Oplog) (effective : List VerifiedEntry) (e : VerifiedEntry) : Bool :=
  if o.revocations.has e.hash then !o.effective.has e.hash else inertUnder o e effective

def addKeys (keys : OrderedSet String) (e : VerifiedEntry) : OrderedSet String :=
  (e.stateKeys E).foldl OrderedSet.add keys

/-- Judge one delegated entry again; a change of verdict touches its state keys. -/
def judgeEntry (effective : List VerifiedEntry) (state : Oplog × AccessChange) (hash : Hash) :
    Oplog × AccessChange :=
  match state.1.entries.get hash with
  | none => state
  | some e =>
    let inert := isInert state.1 effective e
    if inert = state.1.inert.has hash then state
    else
      ({ state.1 with inert := if inert then state.1.inert.add hash else state.1.inert.delete hash },
        { inert := if inert then state.2.inert ++ [e] else state.2.inert
          keys := addKeys E state.2.keys e })

/-- The effective set, cleared and filled again from all held revocations. -/
def recomputeEffective (o : Oplog) : Oplog :=
  { o with effective := .ofList ((effectiveRevocations o o.revocations.values).map fun r => r.hash) }

/-- Bring the effective and inert sets up to date after inserting `added`. A new
revocation can change the effective set either way, so every delegated entry is judged
again; otherwise only the new ones are. -/
def refreshAccessState (o : Oplog) (added : List VerifiedEntry) : Oplog × AccessChange :=
  let revocationAdded := added.any fun e => o.revocations.has e.hash
  let o := if revocationAdded then recomputeEffective o else o
  if !revocationAdded && o.effective.size = 0 && o.inert.size = 0 then (o, ⟨[], .empty⟩)
  else
    let judged := if revocationAdded then o.delegated.items
      else (added.filter fun e => o.delegated.has e.hash).map fun e => e.hash
    judged.foldl (judgeEntry E (effectiveEntries o)) (o, ⟨[], .empty⟩)

/-- The end of an append and of a merge: access state, then every touched key. -/
def settle (o : Oplog) (added : List VerifiedEntry) : Oplog × AccessChange :=
  let refreshed := refreshAccessState E o added
  (refreshCurrentState refreshed.1 (added.foldl (addKeys E) refreshed.2.keys).items, refreshed.2)

/-- The current entry of a key if it is a PUT; a current DEL tombstones the key. -/
def getLiveEntry (o : Oplog) (key : String) : Option VerifiedEntry :=
  (o.current.get key).filter fun current => current.operation.op? = some .put

/-- The duplicate key of an envelope, as the tuple the source serialises. -/
def duplicateKey (libraryAddress : String) (envelope : Envelope) : String × String × String :=
  (libraryAddress, envelope.id.text, envelope.content)

def assertNotDuplicate (o : Oplog) (payload : Value) : Checked Unit :=
  if o.chain.type ≠ .recordstore then .ok ()
  else do
    let operation ← validateOperation E o.chain.type false payload
    match operation with
    | .track value _ =>
      match getLiveEntry o value.id.text with
      | some live =>
        match live.operation with
        | .track liveValue _ =>
          require (duplicateKey o.chain.address liveValue ≠ duplicateKey o.chain.address value)
            .duplicateEntry s!"PUT {value.id.text} duplicates live entry {live.hash}"
        | _ => .ok ()
      | none => .ok ()
    | _ => .ok ()

def maxCitedHeads : ℕ := 256

/-- Strings compare by their code units; hashes are ASCII, one unit a character. -/
def codeUnits (text : String) : List ℕ := text.toList.map Char.toNat

def compareText (a b : String) : ℚ :=
  if codeUnits a < codeUnits b then -1 else if codeUnits b < codeUnits a then 1 else 0

/-- Every head when there are at most 256, otherwise the 256 with the greatest clock,
keeping the cited capability in the causal past. -/
def selectNext (o : Oplog) (capabilityId : Option String) : List Hash :=
  let heads := sortBy (fun a b => orElse ((clockOf o b : ℚ) - clockOf o a) 
      (if codeUnits a < codeUnits b then -1 else 1)) o.heads.items
  let next := heads.take maxCitedHeads
  let reaches (hash : Hash) : Bool :=
    match capabilityId with
    | none => true
    | some capability => hash = capability || inCausalPast o.entries capability [hash]
  let kept := if maxCitedHeads < heads.length && !next.any reaches then
      match (heads.drop maxCitedHeads).find? reaches with
      | some head => next.dropLast ++ [head]
      | none => next
    else next
  sortBy compareText kept

/-- A local identity; its public key is derived from the private one. -/
structure KeyPair where
  privateKey : Bytes

/-- A payload as a local caller hands it over, listed in canonical key order. -/
abbrev LocalPayload := { v : Value // v.Canonical }

/-- `build_unsigned_entry`, with the key and signature still blank. -/
def buildUnsignedEntry (id : String) (payload : Value) (next refs : List Hash) (clock : LamportClock) :
    Checked SignedEntry :=
  assertUnsignedFields [("id", .string id), ("payload", payload), ("next", .array (next.map .string)),
    ("refs", .array (refs.map .string)), ("v", .number 2),
    ("clock", .record [("id", .string clock.id), ("time", .number clock.time)])] "" ""

def signEntry (unsigned : SignedEntry) (keyPair : KeyPair) : SignedEntry :=
  { unsigned with
    key := E.publicKey keyPair.privateKey
    sig := E.signDigest (signingDigest E unsigned) keyPair.privateKey }

/-- The entry an append would add now, or the refusal it would meet. -/
def signLocalEntry (o : Oplog) (payload : LocalPayload) (keyPair : KeyPair) : Checked VerifiedEntry := do
  assertNotDuplicate E o payload.val
  let capabilityId := payload.val.fields?.bind fun fields => fields.string? "capability_id"
  let next := selectNext o capabilityId
  let time := next.foldl (fun max hash => Nat.max max (clockOf o hash)) 0 + 1
  let unsigned ← buildUnsignedEntry o.chain.address payload.val next []
    ⟨E.publicKey keyPair.privateKey, time⟩
  verifyEntry E o (hashSignedEntry E (signEntry E unsigned keyPair))

structure Appended where
  oplog : Oplog
  entry : VerifiedEntry
  access : AccessChange

/-- Sign and append a local operation; a refusal leaves the oplog as it was. -/
def appendEntryWithAccess (o : Oplog) (payload : LocalPayload) (keyPair : KeyPair) : Checked Appended := do
  let entry ← signLocalEntry E o payload keyPair
  let settled := settle E (insertEntry E o entry) [entry]
  return ⟨settled.1, entry, settled.2⟩

end RecordNode
