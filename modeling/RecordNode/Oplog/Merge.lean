import RecordNode.Oplog.Dag

/-! # Merging remote entries

A batch of blocks is decoded, taken in clock order and admitted one entry at a
time, so that an entry's parents are in the oplog before it is verified. -/

namespace RecordNode

open Foundation

variable (E : Environment)

abbrev Rejection := Hash × ProtocolError

structure MergeResult where
  merged : List VerifiedEntry
  rejected : List Rejection
  access : AccessChange

/-- The decodable blocks whose entry the oplog does not hold yet. -/
def decodedBlocks (o : Oplog) (blocks : List Bytes) : List HashedEntry :=
  blocks.filterMap fun b =>
    match decodeSignedEntry E b with
    | .ok hashed => if o.entries.has hashed.hash then none else some hashed
    | .error _ => none

/-- The blocks that do not decode, under the hash of what was received. -/
def undecodable (blocks : List Bytes) : List Rejection :=
  blocks.filterMap fun b =>
    match decodeSignedEntry E b with
    | .ok _ => none
    | .error e => some (computeCidString E b, e)

def compareClock (a b : HashedEntry) : ℚ :=
  orElse ((a.entry.clock.time : ℚ) - b.entry.clock.time) (compareText a.hash b.hash)

structure Admission where
  oplog : Oplog
  merged : List VerifiedEntry
  rejected : List Rejection

abbrev Admit := Oplog → HashedEntry → Checked VerifiedEntry

/-- One round of the insertion loop. -/
def admitEntry (accept : Admit) (state : Admission) (hashed : HashedEntry) : Admission :=
  if state.oplog.entries.has hashed.hash then state
  else
    match accept state.oplog hashed with
    | .error e => { state with rejected := state.rejected ++ [(hashed.hash, e)] }
    | .ok entry => { state with oplog := insertEntry E state.oplog entry, merged := state.merged ++ [entry] }

def admitAll (accept : Admit) (o : Oplog) (blocks : List Bytes) : Admission :=
  (sortBy compareClock (decodedBlocks E o blocks)).foldl (admitEntry E accept)
    ⟨o, [], undecodable E blocks⟩

def insertBlocks (accept : Admit) (o : Oplog) (blocks : List Bytes) : Oplog × MergeResult :=
  let admission := admitAll E accept o blocks
  let settled := settle E admission.oplog admission.merged
  (settled.1, ⟨admission.merged, admission.rejected, settled.2⟩)

def mergeEntries (o : Oplog) (blocks : List Bytes) : Oplog × MergeResult :=
  insertBlocks E (verifyEntry E) o blocks

/-- The open's path for cached blocks these rules already verified. -/
def restoreEntries (o : Oplog) (blocks : List Bytes) : Oplog × MergeResult :=
  insertBlocks E (restoreEntry E) o blocks

/-- The oplogs a library can come to: created empty, then merged into and appended to. -/
inductive Reachable (chain : ResolvedAcChain) : Oplog → Prop
  | create : Reachable chain (createOplog chain)
  | merge (o : Oplog) (blocks : List Bytes) (h : Reachable chain o) :
      Reachable chain (mergeEntries E o blocks).1
  | append (o : Oplog) (payload : LocalPayload) (keyPair : KeyPair) (result : Appended)
      (h : Reachable chain o) (ha : appendEntryWithAccess E o payload keyPair = .ok result) :
      Reachable chain result.oplog

end RecordNode
