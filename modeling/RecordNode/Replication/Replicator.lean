import RecordNode.Foundation.Run
import RecordNode.Oplog.Authentic
import RecordNode.Replication.Orchestrator
import RecordNode.Replication.Traversal

/-! # One library's replicator

Heads snapshots start a traversal, what it fetches and verifies waits in the
orchestrator, and ready batches merge into the oplog. Local appends and direct
merges reach the same oplog between any two of these steps. -/

namespace RecordNode

open Foundation

/-- A fetched entry must hash to the CID it was fetched by and pass every check the entry
alone decides. -/
def verifyFetched (E : Environment) (chain : ResolvedAcChain) (hash : Hash) (bytes : Bytes) :
    Checked HashedEntry := do
  let hashed ← decodeSignedEntry E bytes
  require (hashed.hash = hash) .cidMismatch s!"fetched {hash}, got {hashed.hash}"
  let _ ← checkEntry E chain hashed
  return hashed

inductive ReplicatorState where
  | idle
  | running
  | paused
  | unlinked
deriving DecidableEq

structure Replicator where
  oplog : Oplog
  traversal : Traversal
  orchestrator : Orchestrator HashedEntry
  state : ReplicatorState
  /-- Starts that still await their subscription. -/
  starting : ℕ
  /-- Heads received while paused, enqueued at resume. -/
  deferred : OrderedSet Hash

namespace Replicator

def create (oplog : Oplog) : Replicator where
  oplog := oplog
  traversal := .create
  orchestrator := .create
  state := .idle
  starting := 0
  deferred := .empty

def candidate : MergeCandidate HashedEntry := ⟨HashedEntry.hash, fun hashed => hashed.entry.next⟩

def isLanded (r : Replicator) (hash : Hash) : Bool := r.oplog.entries.has hash

inductive Label where
  | start
  /-- The subscription of a start resolved. -/
  | subscribed
  /-- A complete heads snapshot of some sender. -/
  | heads (hashes : List Hash)
  | result (hash : Hash) (record : ℕ) (bytes : Option Bytes)
  | timeout (hash : Hash) (record : ℕ)
  | pause
  | resume
  | unlink
  /-- The scheduled run takes the ready batch and merges it. -/
  | runMerge
  | mergeDone
  | mergeFailed
  /-- `merge_entries` by any other caller. -/
  | merge (blocks : List Bytes)
  | append (payload : LocalPayload) (keyPair : KeyPair)

section Step
variable (E : Environment) (concurrency : ℕ)

def receive (r : Replicator) (hashes : List Hash) : Replicator :=
  match r.state with
  | .running => { r with traversal := r.traversal.enqueue r.isLanded concurrency hashes }
  | .paused => { r with deferred := hashes.foldl OrderedSet.add r.deferred }
  | _ => r

/-- A fetch came back: what verifies goes on to the orchestrator. -/
def receiveResult (r : Replicator) (hash : Hash) (record : ℕ) (bytes : Option Bytes) : Replicator :=
  let landed := r.traversal.result r.isLanded (verifyFetched E r.oplog.chain)
    (fun hashed => hashed.entry.next ++ hashed.entry.refs) concurrency hash record bytes
  { r with
    traversal := landed.1
    orchestrator := match landed.2 with
      | none => r.orchestrator
      | some hashed => r.orchestrator.add candidate hashed }

def runMerge (r : Replicator) : Replicator :=
  let taken := r.orchestrator.runBatch candidate r.isLanded
  { r with
    orchestrator := taken.1
    oplog := if taken.2.isEmpty then r.oplog
      else (mergeEntries E r.oplog (taken.2.map HashedEntry.bytes)).1 }

def step (r : Replicator) : Label → Option Replicator
  | .start => if r.state = .idle then some { r with starting := r.starting + 1 } else none
  | .subscribed =>
    if 0 < r.starting then some { r with starting := r.starting - 1, state := .running } else none
  | .heads hashes => some (r.receive concurrency hashes)
  | .result hash record bytes => some (r.receiveResult E concurrency hash record bytes)
  | .timeout hash record =>
    some { r with traversal := r.traversal.timeout r.isLanded concurrency hash record }
  | .pause =>
    if r.state = .running then some { r with state := .paused, traversal := r.traversal.pause } else none
  | .resume =>
    if r.state = .paused then
      some { r with
        state := .running
        traversal := (r.traversal.resume r.isLanded concurrency).enqueue r.isLanded concurrency r.deferred.items
        deferred := .empty }
    else none
  | .unlink => some { r with
      state := .unlinked
      traversal := r.traversal.discard
      orchestrator := r.orchestrator.discard
      deferred := .empty }
  | .runMerge =>
    if r.orchestrator.scheduled && r.orchestrator.running.isNone then some (r.runMerge E) else none
  | .mergeDone => r.orchestrator.running.map fun batch =>
      { r with orchestrator := r.orchestrator.runDone candidate r.isLanded batch }
  | .mergeFailed => r.orchestrator.running.map fun batch =>
      { r with orchestrator := r.orchestrator.runFailed candidate batch }
  | .merge blocks => some { r with oplog := (mergeEntries E r.oplog blocks).1 }
  | .append payload keyPair =>
    match appendEntryWithAccess E r.oplog payload keyPair with
    | .ok result => some { r with oplog := result.oplog }
    | .error _ => none

end Step

end Replicator

end RecordNode
