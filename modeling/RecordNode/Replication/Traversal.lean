import RecordNode.Foundation.OrderedMap
import RecordNode.Encoding.Environment

/-! # The bounded fetch traversal

From heads along `next` and `refs`, each hash enqueued once, a bounded number of
fetches in flight. A fetch is known by its record: a result that comes back after
its record was settled by a timeout or a discard changes nothing. `isLanded`
answers from the oplog as it is when the step runs. -/

namespace RecordNode

open Foundation

structure Traversal where
  enqueued : OrderedSet Hash
  fetched : OrderedSet Hash
  unresolved : OrderedSet Hash
  rejected : OrderedMap Hash ProtocolError
  /-- The fetches in flight, each with the record its result must carry. -/
  inFlight : OrderedMap Hash ℕ
  queue : List Hash
  paused : Bool
  nextRecord : ℕ

namespace Traversal

def create : Traversal where
  enqueued := .empty
  fetched := .empty
  unresolved := .empty
  rejected := .empty
  inFlight := .empty
  queue := []
  paused := false
  nextRecord := 0

section Steps
variable (isLanded : Hash → Bool)

/-- `add`: new hashes join the queue, unresolved ones are retried. -/
def addHash (t : Traversal) (hash : Hash) : Traversal :=
  if isLanded hash then t
  else if !t.enqueued.has hash then
    { t with enqueued := t.enqueued.add hash, queue := t.queue ++ [hash] }
  else if t.unresolved.has hash && !t.inFlight.has hash then
    { t with unresolved := t.unresolved.delete hash, queue := t.queue ++ [hash] }
  else t

def add (t : Traversal) (hashes : List Hash) : Traversal := hashes.foldl (addHash isLanded) t

def start (t : Traversal) (hash : Hash) : Traversal :=
  { t with inFlight := t.inFlight.set hash t.nextRecord, nextRecord := t.nextRecord + 1 }

/-- The loop of `pump` over the queued hashes. -/
def pumpQueue (concurrency : ℕ) (t : Traversal) : List Hash → Traversal
  | [] => { t with queue := [] }
  | hash :: rest =>
    if t.inFlight.size < concurrency then
      if !isLanded hash && !t.fetched.has hash && !t.inFlight.has hash then
        pumpQueue concurrency (t.start hash) rest
      else pumpQueue concurrency t rest
    else { t with queue := hash :: rest }

def pump (concurrency : ℕ) (t : Traversal) : Traversal :=
  if t.paused then t else pumpQueue isLanded concurrency t t.queue

def enqueue (concurrency : ℕ) (t : Traversal) (hashes : List Hash) : Traversal :=
  pump isLanded concurrency (t.add isLanded hashes)

/-- Takes the fetch out of flight, unless its record is no longer the one there. -/
def settle (t : Traversal) (hash : Hash) (record : ℕ) : Option Traversal :=
  if t.inFlight.get hash = some record then some { t with inFlight := t.inFlight.delete hash } else none

/-- Fetched bytes: verified, handed on and followed, or recorded as rejected. -/
def land {T : Type*} (verify : Hash → Bytes → Checked T) (links : T → List Hash) (t : Traversal)
    (hash : Hash) (bytes : Bytes) : Traversal × Option T :=
  let t := { t with unresolved := t.unresolved.delete hash }
  match verify hash bytes with
  | .error e => ({ t with rejected := t.rejected.set hash e }, none)
  | .ok entry => ({ t with fetched := t.fetched.add hash }.add isLanded (links entry), some entry)

/-- A fetch comes back with bytes, or with `none` for nothing or a failure. -/
def result {T : Type*} (verify : Hash → Bytes → Checked T) (links : T → List Hash) (concurrency : ℕ)
    (t : Traversal) (hash : Hash) (record : ℕ) (bytes : Option Bytes) : Traversal × Option T :=
  match t.settle hash record with
  | none => (t, none)
  | some t =>
    match bytes with
    | none => (pump isLanded concurrency { t with unresolved := t.unresolved.add hash }, none)
    | some bytes =>
      let landed := t.land isLanded verify links hash bytes
      (pump isLanded concurrency landed.1, landed.2)

/-- The timer of a fetch fires. -/
def timeout (concurrency : ℕ) (t : Traversal) (hash : Hash) (record : ℕ) : Traversal :=
  match t.settle hash record with
  | none => t
  | some t => pump isLanded concurrency { t with unresolved := t.unresolved.add hash }

def pause (t : Traversal) : Traversal :=
  { t with paused := true, unresolved := t.inFlight.keys.foldl OrderedSet.add t.unresolved }

def resume (concurrency : ℕ) (t : Traversal) : Traversal :=
  let unresolved := t.unresolved.items.foldl
    (fun s hash => if isLanded hash then s.delete hash else s) t.unresolved
  let retry := unresolved.items.filter fun hash => !t.inFlight.has hash
  pump isLanded concurrency
    { t with
      paused := false
      unresolved := retry.foldl OrderedSet.delete unresolved
      queue := retry ++ t.queue.filter fun hash => !retry.contains hash }

def discard (t : Traversal) : Traversal :=
  { t with
    inFlight := .empty
    queue := []
    enqueued := .empty
    fetched := .empty
    unresolved := .empty
    rejected := .empty }

end Steps

end Traversal

end RecordNode
