import RecordNode.Foundation.Run
import RecordNode.Peer.Load

/-! # A node and one of its libraries

An append, a merge or an ingest changes the in-memory oplog at once; its blocks
reach the content store one put after another, then the block cache, the pins,
and last the state store, which is handed the heads as they are at that moment.
The machine below takes these steps in any order, lets any of them fail, and may
crash anywhere. -/

namespace RecordNode

open Foundation

/-- How far a write has come: blocks still to be stored, the first of them awaited, or
the pins. -/
inductive WriteStage where
  | put (rest : List VerifiedEntry)
  | pin

/-- A `register` in flight, or the tail of `put_track` and `put_labels`, which store and pin
their entry and leave the rest to a later `register`. -/
structure Write where
  entries : List VerifiedEntry
  stage : WriteStage
  registers : Bool

structure OpenLibrary where
  oplog : Oplog
  writes : List Write

structure Node where
  store : BlockStore
  /-- The library's rows of the index, as its connection reads them. -/
  cache : EntryBlockCache
  /-- Earlier states of the cache, to which a rollback or a crash may return. -/
  earlier : List EntryBlockCache
  /-- The `save_heads` calls the state store has queued. -/
  saves : List (List Hash)
  /-- The library's heads in the state store's memory, and in its file. -/
  memory : List Hash
  disk : List Hash
  library : Option OpenLibrary

namespace Node

def initial : Node where
  store := .empty
  cache := .empty
  earlier := []
  saves := []
  memory := []
  disk := []
  library := none

inductive Label where
  | openLibrary
  | append (payload : LocalPayload) (keyPair : KeyPair)
  /-- The append of `put_track` and `put_labels`. -/
  | ingest (payload : LocalPayload) (keyPair : KeyPair)
  | merge (blocks : List Bytes)
  /-- `register` of held entries, as after an ingest. -/
  | register (hashes : List Hash)
  | putDone (write : ℕ)
  | putFailed (write : ℕ)
  | saveCache (write : ℕ)
  | pinDone (write : ℕ)
  | pinFailed (write : ℕ)
  /-- The state store runs a queued call; the file may fail to be written. -/
  | saveHeads (written : Bool)
  /-- It writes its file for another library. -/
  | writeState
  /-- A block stored by anyone else, or by a put that has not been fulfilled. -/
  | stored (bytes : Bytes)
  | rollback (n : ℕ)
  | crash (n : ℕ)

section Step
variable (E : Environment) (chain : ResolvedAcChain)

def setCache (s : Node) (cache : EntryBlockCache) : Node :=
  { s with cache := cache, earlier := s.cache :: s.earlier }

def openLibrary (s : Node) : Node :=
  let loaded := loadOplog E chain s.memory s.store s.cache
  { s.setCache loaded.cache with
    library := some ⟨loaded.oplog, []⟩
    saves := s.saves ++ [sortHeads loaded.oplog.heads.items] }

/-- The library goes on with another oplog and one more write. -/
def startWrite (s : Node) (lib : OpenLibrary) (oplog : Oplog) (entries : List VerifiedEntry)
    (registers : Bool) : Node :=
  { s with library := some ⟨oplog, lib.writes ++ [⟨entries, .put entries, registers⟩]⟩ }

def setWrite (s : Node) (lib : OpenLibrary) (i : ℕ) (write : Write) : Node :=
  { s with library := some { lib with writes := lib.writes.set i write } }

def endWrite (s : Node) (lib : OpenLibrary) (i : ℕ) : Node :=
  { s with library := some { lib with writes := lib.writes.eraseIdx i } }

/-- The awaited put is fulfilled. -/
def putDone (s : Node) (lib : OpenLibrary) (i : ℕ) (write : Write) : Option Node :=
  match write.stage with
  | .put (e :: rest) =>
    match putBlock E s.store e.hash e.bytes with
    | .error _ => none
    | .ok store => some ({ s with store := store }.setWrite lib i { write with stage := .put rest })
  | _ => none

def putFailed (s : Node) (lib : OpenLibrary) (i : ℕ) (write : Write) : Option Node :=
  match write.stage with
  | .put (_ :: _) => some (s.endWrite lib i)
  | _ => none

def saveCache (s : Node) (lib : OpenLibrary) (i : ℕ) (write : Write) : Option Node :=
  match write.stage, write.registers with
  | .put [], true => some ((s.setCache (s.cache.save write.entries lib.oplog.heads.items)).setWrite lib i
      { write with stage := .pin })
  | _, _ => none

/-- The pins are made; a register then hands its heads to the state store. -/
def pinDone (s : Node) (lib : OpenLibrary) (i : ℕ) (write : Write) : Option Node :=
  match write.stage, write.registers with
  | .pin, true => some ({ s with saves := s.saves ++ [lib.oplog.heads.items] }.endWrite lib i)
  | .put [], false => some (s.endWrite lib i)
  | _, _ => none

def pinFailed (s : Node) (lib : OpenLibrary) (i : ℕ) (write : Write) : Option Node :=
  match write.stage, write.registers with
  | .pin, true => some (s.endWrite lib i)
  | .put [], false => some (s.endWrite lib i)
  | _, _ => none

def withLibrary (s : Node) (f : OpenLibrary → Option Node) : Option Node := s.library.bind f

def withWrite (s : Node) (i : ℕ) (f : OpenLibrary → Write → Option Node) : Option Node :=
  s.withLibrary fun lib => lib.writes[i]?.bind (f lib)

def appendAndStore (s : Node) (payload : LocalPayload) (keyPair : KeyPair) (registers : Bool) : Option Node :=
  s.withLibrary fun lib =>
    match appendEntryWithAccess E lib.oplog payload keyPair with
    | .error _ => none
    | .ok result => some (s.startWrite lib result.oplog [result.entry] registers)

def mergeAndStore (s : Node) (blocks : List Bytes) : Option Node :=
  s.withLibrary fun lib =>
    let merged := mergeEntries E lib.oplog blocks
    if merged.2.merged.isEmpty then some { s with library := some { lib with oplog := merged.1 } }
    else some (s.startWrite lib merged.1 merged.2.merged true)

def step (s : Node) : Label → Option Node
  | .openLibrary => if s.library.isNone then some (s.openLibrary E chain) else none
  | .append payload keyPair => s.appendAndStore E payload keyPair true
  | .ingest payload keyPair => s.appendAndStore E payload keyPair false
  | .merge blocks => s.mergeAndStore E blocks
  | .register hashes => s.withLibrary fun lib =>
      some (s.startWrite lib lib.oplog (hashes.filterMap lib.oplog.entries.get) true)
  | .putDone i => s.withWrite i fun lib write => s.putDone E lib i write
  | .putFailed i => s.withWrite i fun lib write => s.putFailed lib i write
  | .saveCache i => s.withWrite i fun lib write => s.saveCache lib i write
  | .pinDone i => s.withWrite i fun lib write => s.pinDone lib i write
  | .pinFailed i => s.withWrite i fun lib write => s.pinFailed lib i write
  | .saveHeads written =>
    match s.saves with
    | [] => none
    | heads :: rest => some { s with
        saves := rest
        memory := sortHeads heads
        disk := if written then sortHeads heads else s.disk }
  | .writeState => some { s with disk := s.memory }
  | .stored bytes => (putBlock E s.store (computeCidString E bytes) bytes).toOption.map fun store =>
      { s with store := store }
  | .rollback n => s.earlier[n]?.map s.setCache
  | .crash n => (s.cache :: s.earlier)[n]?.map fun cache =>
      { s.setCache cache with saves := [], memory := s.disk, library := none }

end Step

end Node

end RecordNode
