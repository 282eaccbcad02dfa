import RecordNode.Fabric.PinIndex

/-! # Pin, unpin and evict calls under way

Calls on the pin index take their turns at every `await`. Those that pin or unpin
one root run one at a time, in the order they were made. A pin enters the gate
before it walks, an eviction claims the gate and waits for the walks in it. The
walks and the store they look at change step by step; a transaction is one step,
alone or in the open batch of a commit batcher. -/

namespace RecordNode

open Foundation

/-- What is stored under a multihash is fixed by it: the bytes, and how they are decoded. -/
structure Contents where
  bytes : Multihash → Bytes
  decoders : Decoders

/-- A visit while these blocks are stored. -/
def Contents.visit (C : Contents) (stored : OrderedSet Multihash) (recursive : Bool) (next : Cid) :
    Checked (List Cid) :=
  visitBlock C.decoders (fun cid => if stored.has cid.multihash then some (C.bytes cid.multihash) else none)
    (fun cid => stored.has cid.multihash) recursive next

/-- A walk under way: the visits still to make and those made. -/
structure BlockWalk where
  work : List Cid
  visited : OrderedSet Cid

def BlockWalk.start (cid : Cid) : BlockWalk := ⟨[cid], .empty⟩

/-- One visit, unless it was made before. -/
def BlockWalk.visit (C : Contents) (stored : OrderedSet Multihash) (recursive : Bool) (w : BlockWalk) :
    Option (Checked BlockWalk) :=
  match w.work with
  | [] => none
  | next :: rest =>
    if next ∈ w.visited then some (.ok ⟨rest, w.visited⟩)
    else some ((C.visit stored recursive next).map fun links => ⟨links ++ rest, w.visited.add next⟩)

/-- Where a pin stands. Past its turn it knows the kind of its root. In the gate it awaits the
end of an eviction, if it has found one. -/
inductive PinStage where
  | queued
  | gate (kind : Option Bool) (awaited : Option ℕ)
  | walking (kind : Option Bool) (walk : BlockWalk)
  | leaving (fulfilled : Bool)
  | done (fulfilled : Bool)

inductive UnpinStage where
  | queued
  | walking (kind : Bool) (walk : BlockWalk)
  | done (fulfilled : Bool)

/-- Where an eviction stands: before the gate, waiting for the walks in it, at its work, or
past it. -/
inductive EvictStage where
  | gate (awaited : Option ℕ)
  | waiting
  | ready
  | unpinned
  | removing
  | leaving
  | done

inductive PinCall where
  | pin (cid : Cid) (recursive : Bool) (stage : PinStage)
  | unpin (cid : Cid) (stage : UnpinStage)
  | evict (cid : Cid) (stage : EvictStage)

namespace PinCall

/-- The root whose lock the call takes. -/
def root : PinCall → Option Multihash
  | .pin cid _ _ => some cid.multihash
  | .unpin cid _ => some cid.multihash
  | .evict _ _ => none

def cid : PinCall → Cid
  | .pin cid _ _ => cid
  | .unpin cid _ => cid
  | .evict cid _ => cid

def isDone : PinCall → Bool
  | .pin _ _ (.done _) => true
  | .unpin _ (.done _) => true
  | .evict _ .done => true
  | _ => false

def isQueued : PinCall → Bool
  | .pin _ _ .queued => true
  | .unpin _ .queued => true
  | _ => false

def isRejected : PinCall → Bool
  | .pin _ _ (.leaving false) => true
  | .pin _ _ (.done false) => true
  | .unpin _ (.done false) => true
  | _ => false

/-- The call is counted in `walking`. -/
def isWalking : PinCall → Bool
  | .pin _ _ (.walking _ _) => true
  | .pin _ _ (.leaving _) => true
  | _ => false

/-- The call has set `evicting`. -/
def isEvicting : PinCall → Bool
  | .evict _ (.gate _) => false
  | .evict _ .done => false
  | .evict _ _ => true
  | _ => false

/-- The eviction is past the walks it had to wait for. -/
def runsEviction : PinCall → Bool
  | .evict _ .waiting => false
  | call => call.isEvicting

end PinCall

/-- The open batch of the commit batcher: the tables and pins when it began, and its runs. -/
structure OpenBatch where
  tables : PinTables
  live : LivePins
  count : ℕ

structure PinGate where
  tables : PinTables
  /-- The pins whose transactions the tables hold. -/
  live : LivePins
  stored : OrderedSet Multihash
  /-- The calls in the order they were made. -/
  calls : List PinCall
  walking : ℕ
  walksDone : Option ℕ
  evicting : Option ℕ
  batch : Option OpenBatch
  /-- The calls whose transaction has been applied. -/
  applied : List ℕ

namespace PinGate

def create (stored : OrderedSet Multihash) : PinGate :=
  ⟨.empty, .empty, stored, [], 0, none, none, none, []⟩

inductive Label where
  | pin (cid : Cid) (recursive : Bool)
  | unpin (cid : Cid)
  | evict (cid : Cid)
  /-- The call takes its root's lock and looks up its kind. -/
  | start (call : ℕ)
  /-- It looks whether an eviction holds the gate, for the first time or after a wait. -/
  | gate (call : ℕ)
  | visit (call : ℕ)
  /-- The store fails to look a block up. -/
  | visitFailed (call : ℕ)
  /-- The walk is over and the transaction runs; it may throw. -/
  | commit (call : ℕ) (ok : Bool)
  /-- The `finally` of a walk or of an eviction. -/
  | leave (call : ℕ)
  /-- The eviction looks for a pin, then for the block, then removes it. -/
  | check (call : ℕ)
  | lookup (call : ℕ)
  | remove (call : ℕ)
  | evictFailed (call : ℕ)
  | put (multihash : Multihash)
  | flush

def setCall (s : PinGate) (i : ℕ) (call : PinCall) : PinGate := { s with calls := s.calls.set i call }

/-- Every earlier call on the root has settled. -/
def lockFree (s : PinGate) (i : ℕ) (root : Multihash) : Bool :=
  (s.calls.take i).all fun call => call.root ≠ some root || call.isDone

section Step
variable (C : Contents) (maxTransactions : Option ℕ)

def start (s : PinGate) (i : ℕ) : Option PinGate :=
  match s.calls[i]? with
  | some (.pin cid recursive .queued) =>
    if s.lockFree i cid.multihash then
      let kind := s.tables.rootKind cid
      if kind = some true ∨ kind = some false ∧ !recursive then some (s.setCall i (.pin cid recursive (.done true)))
      else some (s.setCall i (.pin cid recursive (.gate kind none)))
    else none
  | some (.unpin cid .queued) =>
    if s.lockFree i cid.multihash then
      match s.tables.rootKind cid with
      | none => some (s.setCall i (.unpin cid (.done true)))
      | some kind => some (s.setCall i (.unpin cid (.walking kind (.start cid))))
    else none
  | _ => none

/-- The loop over `evicting`: a call that awaits an eviction goes on once that one is over, and
looks again. With the gate free a pin counts itself in, and an eviction claims the gate. -/
def gate (s : PinGate) (i : ℕ) : Option PinGate :=
  match s.calls[i]? with
  | some (.pin cid recursive (.gate kind awaited)) =>
    match s.evicting with
    | none => some ({ s with walking := s.walking + 1 }.setCall i (.pin cid recursive (.walking kind (.start cid))))
    | some e => if awaited = some e then none else some (s.setCall i (.pin cid recursive (.gate kind (some e))))
  | some (.evict cid (.gate awaited)) =>
    match s.evicting with
    | none =>
      if 0 < s.walking then
        some ({ s with evicting := some i, walksDone := some i }.setCall i (.evict cid .waiting))
      else some ({ s with evicting := some i }.setCall i (.evict cid .ready))
    | some e => if awaited = some e then none else some (s.setCall i (.evict cid (.gate (some e))))
  | _ => none

def visit (s : PinGate) (i : ℕ) : Option PinGate :=
  match s.calls[i]? with
  | some (.pin cid recursive (.walking kind walk)) =>
    (walk.visit C s.stored recursive).map fun
      | .ok next => s.setCall i (.pin cid recursive (.walking kind next))
      | .error _ => s.setCall i (.pin cid recursive (.leaving false))
  | some (.unpin cid (.walking kind walk)) =>
    (walk.visit C s.stored kind).map fun
      | .ok next => s.setCall i (.unpin cid (.walking kind next))
      | .error _ => s.setCall i (.unpin cid (.done false))
  | _ => none

def visitFailed (s : PinGate) (i : ℕ) : Option PinGate :=
  match s.calls[i]? with
  | some (.pin cid recursive (.walking _ _)) => some (s.setCall i (.pin cid recursive (.leaving false)))
  | some (.unpin cid (.walking _ _)) => some (s.setCall i (.unpin cid (.done false)))
  | _ => none

/-- `in_transaction`: without a batcher a transaction of its own, otherwise a run in the open
batch, which commits at its limit and is rolled back whole when a run throws. -/
def transaction (s : PinGate) (i : ℕ) (ok : Bool) (tables : PinTables) (live : LivePins) : PinGate :=
  match maxTransactions with
  | none => if ok then { s with tables := tables, live := live, applied := s.applied ++ [i] } else s
  | some limit =>
    let batch := s.batch.getD ⟨s.tables, s.live, 0⟩
    if ok then
      { s with
        tables := tables
        live := live
        applied := s.applied ++ [i]
        batch := if limit ≤ batch.count + 1 then none else some { batch with count := batch.count + 1 } }
    else { s with tables := batch.tables, live := batch.live, batch := none }

def commit (s : PinGate) (i : ℕ) (ok : Bool) : Option PinGate :=
  match s.calls[i]? with
  | some (.pin cid recursive (.walking kind ⟨[], visited⟩)) =>
    some ((s.transaction maxTransactions i ok (s.tables.countPin kind cid recursive visited.items)
      (s.live.set cid recursive)).setCall i (.pin cid recursive (.leaving ok)))
  | some (.unpin cid (.walking _ ⟨[], visited⟩)) =>
    some ((s.transaction maxTransactions i ok (s.tables.countUnpin cid visited.items)
      (s.live.delete cid)).setCall i (.unpin cid (.done ok)))
  | _ => none

/-- The last walk to leave resolves what an eviction waits for. -/
def leaveWalk (s : PinGate) : PinGate :=
  let s := { s with walking := s.walking - 1 }
  if s.walking = 0 then
    match s.walksDone with
    | none => s
    | some e =>
      match s.calls[e]? with
      | some (.evict cid .waiting) => s.setCall e (.evict cid .ready)
      | _ => s
  else s

def leave (s : PinGate) (i : ℕ) : Option PinGate :=
  match s.calls[i]? with
  | some (.pin cid recursive (.leaving fulfilled)) =>
    some ((s.setCall i (.pin cid recursive (.done fulfilled))).leaveWalk)
  | some (.evict cid .leaving) =>
    some ({ s with walksDone := none, evicting := none }.setCall i (.evict cid .done))
  | _ => none

def evictStep (s : PinGate) : Label → Option PinGate
  | .check i =>
    match s.calls[i]? with
    | some (.evict cid .ready) =>
      some (s.setCall i (.evict cid (if s.tables.isPinned cid then .leaving else .unpinned)))
    | _ => none
  | .lookup i =>
    match s.calls[i]? with
    | some (.evict cid .unpinned) =>
      some (s.setCall i (.evict cid (if s.stored.has cid.multihash then .removing else .leaving)))
    | _ => none
  | .remove i =>
    match s.calls[i]? with
    | some (.evict cid .removing) =>
      some ({ s with stored := s.stored.delete cid.multihash }.setCall i (.evict cid .leaving))
    | _ => none
  | .evictFailed i =>
    match s.calls[i]? with
    | some (.evict cid .unpinned) => some (s.setCall i (.evict cid .leaving))
    | some (.evict cid .removing) => some (s.setCall i (.evict cid .leaving))
    | _ => none
  | _ => none

def step (s : PinGate) : Label → Option PinGate
  | .pin cid recursive => some { s with calls := s.calls ++ [.pin cid recursive .queued] }
  | .unpin cid => some { s with calls := s.calls ++ [.unpin cid .queued] }
  | .evict cid => some { s with calls := s.calls ++ [.evict cid (.gate none)] }
  | .start i => s.start i
  | .gate i => s.gate i
  | .visit i => s.visit C i
  | .visitFailed i => s.visitFailed i
  | .commit i ok => s.commit maxTransactions i ok
  | .leave i => s.leave i
  | .put multihash => some { s with stored := s.stored.add multihash }
  | .flush => some { s with batch := none }
  | label => s.evictStep label

end Step

end PinGate

end RecordNode
