import RecordNode.AccessControl.Filter
import RecordNode.Peer.BlobKeeper
import RecordNode.Peer.Registration
import RecordNode.Peer.StateStore

/-! # Blobs and policy changes

The handlers that hold, want and release the blobs of the open libraries, with the identity
open and the peer not stopping. Each handler is a task that moves from one await to the next.
Holds and releases wait in one queue for their turn; a registration pins without one. A move
reads the policy, the labels and the pin sets as they are, so every interleaving is a run. The
decisions to keep a blob are listed with the generation of the policy they were made under. -/

namespace RecordNode

open Foundation

/-! ## What a policy keeps -/

/-- The policy a library replicates under; only a selective one has a filter. -/
structure EffectivePolicy where
  mode : ReplicationMode
  filter : Option Fields

namespace EffectivePolicy

/-- The object a selective filter reads for a live track; a field whose source is absent or null is
left out. -/
def trackView (library : String) (envelope : Envelope) (e : VerifiedEntry) (content : Fields) (labels : List String) :
    Value :=
  let tags := contentFields (content.get "tags")
  let audio := contentFields (content.get "audio")
  let resolver := ((content.get "resolver").bind Value.asArray?).getD []
  let view : List (String × Option Value) :=
    [("library_address", some (.string library)), ("added_by", some (.string e.signer)),
      ("added_at", some (.number envelope.timestamp)), ("tags", some (.array (labels.map .string))),
      ("cid", content.get "hash"), ("audio_size_bytes", content.get "size"),
      ("duration_seconds", audio.get "duration"), ("title", tags.get "title"), ("artist", tags.get "artist"),
      ("source", some (.array (resolver.filterMap fun source =>
        (textOf ((contentFields (some source)).get "extractor")).map .string)))]
  .record (view.filterMap fun field =>
    match field.2 with
    | some .null => none
    | value => value.map fun v => (field.1, v))

def unknownFilter : Fields := [("type", .string "unknown")]

/-- `keeps_blobs`, for a library of an own key or not, with the labels a track has. -/
def keepsBlobs (own : Bool) (policy : Option EffectivePolicy) (library : String) (labels : String → List String)
    (e : VerifiedEntry) (content : Option Fields) : Bool :=
  if own then true
  else match policy with
    | none => false
    | some ⟨.indexOnly, _⟩ => false
    | some ⟨.full, _⟩ => true
    | some ⟨.selective, filter⟩ =>
      match e.operation with
      | .track envelope _ => filterMatches (some (.record (filter.getD unknownFilter)))
          (trackView library envelope e (content.getD []) (labels envelope.id.text))
      | _ => true

/-- Only the mode decides the avatar. -/
def keepsAvatar : Option EffectivePolicy → Bool
  | some ⟨.full, _⟩ | some ⟨.selective, _⟩ => true
  | _ => false

end EffectivePolicy

/-! ## Tasks and turns -/

/-- A policy as a handler read it, with its generation. -/
structure PolicyRead where
  generation : ℕ
  policy : Option EffectivePolicy

/-- The handler a task runs. -/
inductive BlobHandler where
  | entries
  | policyChanged
  | keepAvatar
  | labelsChanged
  | landing
  | registration
deriving DecidableEq

/-- A call a handler has still to make. -/
inductive BlobCall where
  /-- The redecision of the live entries, for the policy change of a generation. -/
  | redecideLive (library : String) (generation : ℕ)
  /-- The redecision of the tracks whose labels changed. -/
  | redecideTracks (library : String) (tracks : List String)
  | keepEntries (library : String) (entries : List VerifiedEntry)
  | keepAvatar (library : String)

/-- The blobs of an entry with the content that names them, if it is stored. -/
abbrev StoredItem := Option (Option Fields × List String)

/-- Where a task stands: at its next call, or at an await of `redecide`, `keep_library_blobs`,
`keep_avatar`, `land` or `pin_entries`. -/
inductive BlobStage where
  | next
  | awaitsAvatar
  | redeciding (library : String) (read : PolicyRead) (all left : List VerifiedEntry) (released : List String)
  | judging (library : String) (read : PolicyRead) (all : List VerifiedEntry) (entry : VerifiedEntry)
      (item : StoredItem) (left : List VerifiedEntry) (released : List String)
  | releasing (library : String) (all : List VerifiedEntry)
  | keeping (library : String) (read : PolicyRead) (left : List VerifiedEntry)
  | offering (library : String) (read : PolicyRead) (entry : VerifiedEntry) (item : StoredItem)
      (left : List VerifiedEntry)
  | holding (library : String) (read : PolicyRead) (cids : List String) (left : List VerifiedEntry)
  | holdingAvatar (library : String) (generation : ℕ) (avatar : String)
  | landing (found : BlobJob)
  /-- The libraries still to hold the blob, each with the generation that asked. -/
  | landingLibraries (cid : String) (libraries : List (String × ℕ))
  | landingHold (cid : String) (libraries : List (String × ℕ))
  | registering (library : String) (read : PolicyRead) (entry : VerifiedEntry)
  | registered (library : String) (read : PolicyRead) (entry : VerifiedEntry) (item : StoredItem)
  | pinning (library : String) (read : PolicyRead) (cids : List String)

structure BlobTask where
  handler : BlobHandler
  stage : BlobStage
  calls : List BlobCall

/-- What is left of a hold, a release that has not begun, or one that has. -/
inductive TurnJob where
  | hold (cids : List String)
  | release (cids : List String)
  | releasing (cids : List String)

/-- A job in the queue of `exclusive_pins`. -/
structure PinTurn where
  owner : ℕ
  handler : BlobHandler
  library : String
  job : TurnJob

structure BlobHolds where
  keeper : BlobKeeper
  own : String → Bool
  policies : String → Option EffectivePolicy
  /-- The live entries of a library that carry blobs. -/
  live : String → List VerifiedEntry
  content : VerifiedEntry → Option Fields
  /-- The labels a library's track view reads for a track. -/
  labels : String → String → List String
  /-- The avatar of a library's owner. -/
  avatars : String → Option String
  /-- The CIDs pinned recursively. -/
  pins : String → OrderedSet String
  turns : List PinTurn
  tasks : ℕ → Option BlobTask
  nextTask : ℕ
  /-- The decisions to keep a blob: the library, the generation of the policy, the CID. -/
  kept : List (String × ℕ × String)

namespace BlobHolds

inductive Label where
  /-- The live entries of a library change. -/
  | merges (library : String) (live : List VerifiedEntry)
  | stores (entry : VerifiedEntry) (content : Fields)
  | labelled (library track : String) (labels : List String)
  | announces (library : String) (avatar : Option String)
  | entries (library : String) (entries : List VerifiedEntry)
  | policyChanged (library : String) (policy : Option EffectivePolicy)
  | keepAvatar (library : String)
  /-- Labels changed that these selective libraries read. -/
  | labelsChanged (libraries : List String) (tracks : List String)
  /-- An entry is registered. -/
  | registers (library : String) (entry : VerifiedEntry)
  /-- A task runs to its next await. -/
  | advance (task : ℕ)
  /-- A registration pins its next blob, or finds it is not all local. -/
  | pins (task : ℕ) (isLocal : Bool)
  /-- A task throws. -/
  | fails (task : ℕ)
  /-- The first turn of the queue makes its next pin or release. -/
  | turn (isLocal : Bool)
  | turnFails
  /-- A step of the keeper that no handler here takes. -/
  | keeper (label : BlobKeeper.Label)

variable (s : BlobHolds)

def generation (library : String) : ℕ := s.keeper.generations library

def readPolicy (library : String) : PolicyRead := ⟨s.generation library, s.policies library⟩

def storedItem6 (e : VerifiedEntry) : StoredItem :=
  PinSource.storedItem6 ⟨s.content, fun _ _ => false, fun _ => false⟩ e

def hasItem6 (e : VerifiedEntry) : Bool := e.operation.isPut || (PinSource.profileAvatar e.operation).isSome

def isLive (library : String) (e : VerifiedEntry) : Bool := (s.live library).any fun current => current.multihash = e.multihash

/-- The live track of an id. -/
def liveTrack (library track : String) : Option VerifiedEntry :=
  (s.live library).find? fun e =>
    match e.operation with
    | .track envelope _ => envelope.id.text = track
    | _ => false

/-- The judgement of an entry's blobs, under a policy read and the labels now. -/
def keeps (library : String) (read : PolicyRead) (e : VerifiedEntry) (content : Option Fields) : Bool :=
  EffectivePolicy.keepsBlobs (s.own library) read.policy library (s.labels library) e content

/-- The task has no turn in the queue. -/
def turnDone (i : ℕ) : Bool := s.turns.all fun turn => turn.owner ≠ i

/-- What a task does up to its next await. -/
structure Move where
  /-- Where it goes on, unless it ends. -/
  goes : Option (BlobStage × List BlobCall)
  turn : Option (String × TurnJob) := none
  kept : List (String × ℕ × String) := []
  wants : List (String × String) := []
  /-- The CID whose attempt has landed. -/
  lands : Option String := none

/-- The blobs a hold left unpinned. -/
def unpinned (library : String) (cids : List String) : List (String × String) :=
  (cids.filter fun cid => !(s.pins library).has cid).map fun cid => (cid, library)

/-- The next call of a handler. -/
def call : List BlobCall → Move
  | [] => { goes := none }
  | .redecideLive library _ :: calls =>
    { goes := some (.redeciding library (s.readPolicy library) (s.live library) (s.live library) [], calls) }
  | .redecideTracks library tracks :: calls =>
    let entries := tracks.filterMap (s.liveTrack library)
    if entries.isEmpty then { goes := some (.next, calls) }
    else { goes := some (.redeciding library (s.readPolicy library) entries entries [], calls) }
  | .keepEntries library entries :: calls => { goes := some (.keeping library (s.readPolicy library) entries, calls) }
  | .keepAvatar library :: calls =>
    match s.avatars library with
    | none => { goes := some (.next, calls) }
    | some avatar =>
      if EffectivePolicy.keepsAvatar (s.policies library) then
        { goes := some (.holdingAvatar library (s.generation library) avatar, calls)
          turn := some (library, .hold [avatar])
          kept := [(library, s.generation library, avatar)] }
      else { goes := some (.next, calls) }

/-- The move of a task, where its await is over. -/
def move (i : ℕ) (task : BlobTask) : Option Move :=
  match task.stage with
  | .next => some (s.call task.calls)
  | .awaitsAvatar => if s.turnDone i then some { goes := some (.next, task.calls) } else none
  | .redeciding library read all (e :: left) released =>
    some { goes := some (.judging library read all e (s.storedItem6 e) left released, task.calls) }
  | .redeciding library _ all [] released =>
    some { goes := some (.releasing library all, task.calls), turn := some (library, .release released) }
  | .judging library read all _ none left released =>
    some { goes := some (.redeciding library read all left released, task.calls) }
  | .judging library read all e (some (content, blobs)) left released =>
    if s.keeps library read e content then
      some { goes := some (.redeciding library read all left released, task.calls)
             kept := blobs.map fun cid => (library, read.generation, cid) }
    else some { goes := some (.redeciding library read all left (released ++ blobs), task.calls) }
  | .releasing library all =>
    if s.turnDone i then some { goes := some (.next, .keepEntries library all :: task.calls) } else none
  | .keeping _ _ [] => some { goes := some (.next, task.calls) }
  | .keeping library read (e :: left) =>
    if hasItem6 e && s.isLive library e then
      some { goes := some (.offering library read e (s.storedItem6 e) left, task.calls) }
    else some { goes := some (.keeping library read left, task.calls) }
  | .offering library read _ none left => some { goes := some (.keeping library read left, task.calls) }
  | .offering library read e (some (content, blobs)) left =>
    if !s.keeps library read e content then some { goes := some (.keeping library read left, task.calls) }
    -- A change made meanwhile wins, and the call returns.
    else if s.generation library ≠ read.generation then some { goes := some (.next, task.calls) }
    else some { goes := some (.holding library read blobs left, task.calls)
                turn := some (library, .hold blobs)
                kept := blobs.map fun cid => (library, read.generation, cid) }
  | .holding library read cids left =>
    if s.turnDone i then
      some { goes := some (.keeping library read left, task.calls), wants := s.unpinned library cids }
    else none
  | .holdingAvatar library _ avatar =>
    if s.turnDone i then some { goes := some (.next, task.calls), wants := s.unpinned library [avatar] } else none
  | .landing found =>
    let libraries := found.libraries.items.filter fun asked => s.generation asked.1 = asked.2
    some { goes := some (.landingLibraries found.cid libraries, task.calls) }
  | .landingLibraries cid [] => some { goes := none, lands := some cid }
  | .landingLibraries cid ((library, _) :: libraries) =>
    some { goes := some (.landingHold cid libraries, task.calls), turn := some (library, .hold [cid]) }
  | .landingHold cid libraries =>
    if s.turnDone i then some { goes := some (.landingLibraries cid libraries, task.calls) } else none
  | .registering library read e => some { goes := some (.registered library read e (s.storedItem6 e), task.calls) }
  | .registered _ _ _ none => some { goes := none }
  | .registered library read e (some (content, blobs)) =>
    if s.keeps library read e content then
      some { goes := some (.pinning library read blobs, task.calls)
             kept := blobs.map fun cid => (library, read.generation, cid) }
    else some { goes := none }
  | .pinning _ _ [] => some { goes := none }
  | .pinning _ _ (_ :: _) => none

def setTask (i : ℕ) (task : Option BlobTask) : BlobHolds := { s with tasks := Function.update s.tasks i task }

def setPins (library : String) (pins : OrderedSet String) : BlobHolds :=
  { s with pins := Function.update s.pins library pins }

/-- A handler begins. -/
def startTask (handler : BlobHandler) (stage : BlobStage) (calls : List BlobCall) : BlobHolds :=
  { s.setTask s.nextTask (some ⟨handler, stage, calls⟩) with nextTask := s.nextTask + 1 }

/-- The attempt of a CID has landed, or its landing has thrown. -/
def landed (keeper : BlobKeeper) : Option String → BlobKeeper
  | none => keeper
  | some cid => ((keeper.step 0 (.lands cid)).getD keeper)

def makeMove (i : ℕ) (task : BlobTask) (m : Move) : BlobHolds :=
  { s.setTask i (m.goes.map fun (stage, calls) => { task with stage := stage, calls := calls }) with
    turns := s.turns ++ m.turn.toList.map fun (library, job) => ⟨i, task.handler, library, job⟩
    kept := s.kept ++ m.kept
    keeper := landed (m.wants.foldl (fun keeper (cid, library) => keeper.wants cid (some library) false) s.keeper)
      m.lands }

/-- The CID whose attempt a stage lands. -/
def attempt : BlobStage → Option String
  | .landing found => some found.cid
  | .landingLibraries cid _ | .landingHold cid _ => some cid
  | _ => none

/-- A task throws. -/
def abandon (i : ℕ) : BlobHolds :=
  { s.setTask i none with keeper := landed s.keeper ((s.tasks i).bind fun task => attempt task.stage) }

/-- The change bumps the generation and releases the avatar a policy no longer keeps. -/
def changePolicy (library : String) (policy : Option EffectivePolicy) : BlobHolds :=
  let generation := s.generation library + 1
  let calls := [.redecideLive library generation, .keepAvatar library]
  let changed := { s with
    policies := Function.update s.policies library policy
    keeper := { s.keeper with generations := Function.update s.keeper.generations library generation } }
  match s.avatars library with
  | none => changed.startTask .policyChanged .next calls
  | some avatar =>
    if EffectivePolicy.keepsAvatar policy then
      { changed.startTask .policyChanged .next calls with kept := s.kept ++ [(library, generation, avatar)] }
    else { changed.startTask .policyChanged .awaitsAvatar calls with
      turns := s.turns ++ [⟨s.nextTask, .policyChanged, library, .release [avatar]⟩] }

/-- A registration pins a blob. -/
def pinsNext (i : ℕ) (isLocal : Bool) (task : BlobTask) : Option BlobHolds :=
  match task.stage with
  | .pinning library read (cid :: cids) =>
    let s := if isLocal then s.setPins library ((s.pins library).add cid) else s
    some (s.setTask i (some { task with stage := .pinning library read cids }))
  | _ => none

/-- The first turn pins or releases a blob, begins a release with what is pinned of it, or ends. -/
def takeTurn (isLocal : Bool) (turn : PinTurn) (turns : List PinTurn) : BlobHolds :=
  let pins := s.pins turn.library
  match turn.job with
  | .hold [] => { s with turns := turns }
  | .hold (cid :: cids) =>
    { s.setPins turn.library (if isLocal then pins.add cid else pins) with
      turns := { turn with job := .hold cids } :: turns }
  | .release cids => { s with turns := { turn with job := .releasing (cids.filter pins.has) } :: turns }
  | .releasing [] => { s with turns := turns }
  | .releasing (cid :: cids) =>
    { s.setPins turn.library (pins.delete cid) with turns := { turn with job := .releasing cids } :: turns }

def step (concurrency : ℕ) : Label → Option BlobHolds
  | .merges library live => some { s with live := Function.update s.live library live }
  | .stores entry content =>
    some { s with content := fun e => (s.content e).or (if e.multihash = entry.multihash then some content else none) }
  | .labelled library track labels =>
    some { s with labels := Function.update s.labels library (Function.update (s.labels library) track labels) }
  | .announces library avatar => some { s with avatars := Function.update s.avatars library avatar }
  | .entries library entries => some (s.startTask .entries .next [.keepEntries library entries])
  | .policyChanged library policy => some (s.changePolicy library policy)
  | .keepAvatar library => some (s.startTask .keepAvatar .next [.keepAvatar library])
  | .labelsChanged libraries tracks =>
    some (s.startTask .labelsChanged .next (libraries.map fun library => .redecideTracks library tracks))
  | .registers library entry =>
    some (s.startTask .registration (.registering library (s.readPolicy library) entry) [])
  | .advance i => (s.tasks i).bind fun task => (s.move i task).map (s.makeMove i task)
  | .pins i isLocal => (s.tasks i).bind (s.pinsNext i isLocal)
  | .fails i => if s.turnDone i then some (s.abandon i) else none
  | .turn isLocal =>
    match s.turns with
    | [] => none
    | turn :: turns => some (s.takeTurn isLocal turn turns)
  | .turnFails =>
    match s.turns with
    | [] => none
    | turn :: turns => some { s.abandon turn.owner with turns := turns }
  | .keeper label =>
    match label with
    | .want _ (some _) _ | .policyChanged _ | .lands _ => none
    | .fetched cid => (s.keeper.attempts cid).bind fun attempt =>
      (s.keeper.step concurrency label).map fun keeper =>
        { s.startTask .landing (.landing (s.keeper.records attempt.job)) [] with keeper := keeper }
    | _ => (s.keeper.step concurrency label).map fun keeper => { s with keeper := keeper }

/-! ## Decisions under an earlier policy -/

/-- No decision under the policy now in force keeps the blob. -/
def IsFree (library cid : String) : Prop := (library, s.generation library, cid) ∉ s.kept

def Holds (library cid : String) (turn : PinTurn) : Prop :=
  turn.library = library ∧ ∃ cids, turn.job = .hold cids ∧ cid ∈ cids

/-- The blob is pinned, or a hold of it waits for its turn. -/
def IsHeld (library cid : String) : Prop := cid ∈ s.pins library ∨ ∃ turn ∈ s.turns, Holds library cid turn

def Names (item : StoredItem) (cid : String) : Prop := ∃ content blobs, item = some (content, blobs) ∧ cid ∈ blobs

/-- Where the source does not look at the generation again, it has not changed: a hold comes back that left
a blob to want, or a landing goes on to its next library. When the live entries are redecided, the stored
ones among them name every blob held so far that the new policy is not known to keep. -/
def CarefulMove (task : BlobTask) : Prop :=
  match task.stage, task.calls with
  | .holding library read cids _, _ => s.unpinned library cids ≠ [] → s.generation library = read.generation
  | .holdingAvatar library generation avatar, _ =>
    s.unpinned library [avatar] ≠ [] → s.generation library = generation
  | .landingLibraries _ ((library, generation) :: _), _ => s.generation library = generation
  | .next, .redecideLive library generation :: _ => generation = s.generation library →
    ∀ cid, s.IsFree library cid → s.IsHeld library cid → ∃ e ∈ s.live library, Names (s.storedItem6 e) cid
  | _, _ => True

/-- Besides, a registration pins under the policy it read, and no step of a policy change throws. -/
def Careful : Label → Prop
  | .advance i => ∀ task, s.tasks i = some task → s.CarefulMove task
  | .pins i _ => ∀ task library read cids, s.tasks i = some task → task.stage = .pinning library read cids →
    s.generation library = read.generation
  | .fails i => ∀ task, s.tasks i = some task → task.handler ≠ .policyChanged
  | .turnFails => ∀ turn ∈ s.turns.head?, turn.handler ≠ .policyChanged
  | _ => True

/-- The keeper has just been made, with the libraries and their pins as they are. -/
def Initial : Prop := s.keeper = .create ∧ s.turns = [] ∧ (∀ i, s.tasks i = none) ∧ s.kept = []

/-- No handler, landing, hold or release is in flight. -/
def Settled : Prop := s.turns = [] ∧ ∀ i, s.tasks i = none

/-! ## How a release is under way -/

/-- The redecision of a policy change will release every blob held that the policy is not known to keep. -/
def CoversTask (library : String) (task : BlobTask) : Prop :=
  task.handler = .policyChanged ∧
    match task.stage with
    | .next | .awaitsAvatar => task.calls.head? = some (.redecideLive library (s.generation library))
    | .redeciding address read _ left released => address = library ∧ read.generation = s.generation library ∧
      ∀ cid, s.IsFree library cid → s.IsHeld library cid →
        cid ∈ released ∨ ∃ e ∈ left, Names (s.storedItem6 e) cid
    | .judging address read _ _ item left released => address = library ∧ read.generation = s.generation library ∧
      ∀ cid, s.IsFree library cid → s.IsHeld library cid →
        cid ∈ released ∨ Names item cid ∨ ∃ e ∈ left, Names (s.storedItem6 e) cid
    | _ => False

/-- The turn of such a release waits behind every hold of what it releases, or is on. -/
def CoversTurn (library : String) : Prop :=
  ∃ before turn after, s.turns = before ++ turn :: after ∧ turn.handler = .policyChanged ∧ turn.library = library ∧
    (∀ later ∈ after, ∀ cid, s.IsFree library cid → ¬ Holds library cid later) ∧
    match turn.job with
    | .hold _ => False
    | .release cids => ∀ cid, s.IsFree library cid →
      cid ∈ s.pins library ∨ (∃ earlier ∈ before, Holds library cid earlier) → cid ∈ cids
    | .releasing cids => before = [] ∧ ∀ cid, s.IsFree library cid → cid ∈ s.pins library → cid ∈ cids

/-- What the policy is not known to keep is about to be released, or no longer held. -/
def Releasing (library : String) : Prop :=
  (∃ i task, s.tasks i = some task ∧ s.CoversTask library task) ∨ s.CoversTurn library ∨
    ∀ cid, s.IsFree library cid → ¬ s.IsHeld library cid

/-- A stage's blobs are decided under the policy it has read, whose generation has been. -/
def StageFits (generation : String → ℕ) (kept : List (String × ℕ × String)) : BlobStage → Prop
  | .next | .awaitsAvatar | .releasing .. => True
  | .redeciding library read .. | .judging library read .. | .keeping library read _ | .offering library read ..
  | .registering library read _ | .registered library read .. => read.generation ≤ generation library
  | .holding library read cids _ | .pinning library read cids =>
    read.generation ≤ generation library ∧ ∀ cid ∈ cids, (library, read.generation, cid) ∈ kept
  | .holdingAvatar library asked avatar => (library, asked, avatar) ∈ kept
  | .landing found => ∀ library asked, found.libraries.get library = some asked → (library, asked, found.cid) ∈ kept
  | .landingLibraries cid libraries | .landingHold cid libraries =>
    ∀ p ∈ libraries, (p.1, p.2, cid) ∈ kept

/-- The handlers between their moves. -/
structure Fenced (s : BlobHolds) : Prop where
  kept_le : ∀ library generation cid, (library, generation, cid) ∈ s.kept → generation ≤ s.generation library
  keeper : s.keeper.Asks fun library generation cid => (library, generation, cid) ∈ s.kept
  tasks_lt : ∀ i task, s.tasks i = some task → i < s.nextTask
  turns_lt : ∀ turn ∈ s.turns, turn.owner < s.nextTask
  handlers : ∀ turn ∈ s.turns, ∀ task, s.tasks turn.owner = some task → task.handler = turn.handler
  stages : ∀ i task, s.tasks i = some task → StageFits s.generation s.kept task.stage
  released : ∀ library, 0 < s.generation library → s.Releasing library

theorem StageFits.mono {generation later : String → ℕ} {kept more : List (String × ℕ × String)} {stage : BlobStage}
    (h : StageFits generation kept stage) (hg : ∀ library, generation library ≤ later library)
    (hk : ∀ p ∈ kept, p ∈ more) : StageFits later more stage := by
  cases stage with
  | next | awaitsAvatar | releasing => trivial
  | redeciding library | judging library | keeping library | offering library | registering library
  | registered library => exact Nat.le_trans h (hg library)
  | holding library | pinning library => exact ⟨Nat.le_trans h.1 (hg library), fun cid hc => hk _ (h.2 cid hc)⟩
  | holdingAvatar => exact hk _ h
  | landing => exact fun library asked ha => hk _ (h library asked ha)
  | landingLibraries | landingHold => exact fun p hp => hk _ (h p hp)

variable {s}
variable {t : BlobHolds} {library cid : String} {i : ℕ} {task : BlobTask}

/-- A step that holds nothing more of what a library's policy is not known to keep. -/
structure Frame (s t : BlobHolds) (library : String) : Prop where
  generation : t.generation library = s.generation library
  free : ∀ cid, t.IsFree library cid → s.IsFree library cid
  pins : ∀ cid, t.IsFree library cid → cid ∈ t.pins library → cid ∈ s.pins library
  turns : ∃ later, t.turns = s.turns ++ later ∧ ∀ turn ∈ later, ∀ cid, t.IsFree library cid → ¬ Holds library cid turn
  items : ∀ e cid, Names (s.storedItem6 e) cid → Names (t.storedItem6 e) cid

theorem Frame.held (f : Frame s t library) (hf : t.IsFree library cid) (h : t.IsHeld library cid) :
    s.IsHeld library cid := by
  obtain ⟨later, hturns, hlater⟩ := f.turns
  rcases h with hp | ⟨turn, hm, hh⟩
  · exact .inl (f.pins cid hf hp)
  · rw [hturns, List.mem_append] at hm
    rcases hm with hm | hm
    · exact .inr ⟨turn, hm, hh⟩
    · exact absurd hh (hlater turn hm cid hf)

/-- A redecision under way stays so while it holds nothing more. -/
theorem CoversTask.of_held (h : s.CoversTask library task) (hg : t.generation library = s.generation library)
    (hf : ∀ cid, t.IsFree library cid → s.IsFree library cid)
    (hh : ∀ cid, t.IsFree library cid → t.IsHeld library cid → s.IsHeld library cid)
    (hi : ∀ e cid, Names (s.storedItem6 e) cid → Names (t.storedItem6 e) cid) : t.CoversTask library task := by
  obtain ⟨hhandler, h⟩ := h
  refine ⟨hhandler, ?_⟩
  cases hstage : task.stage with
  | next | awaitsAvatar =>
    rw [hstage] at h
    simpa only [hg] using h
  | redeciding address read all left released =>
    rw [hstage] at h
    obtain ⟨ha, hr, h⟩ := h
    refine ⟨ha, hr.trans hg.symm, fun cid hc hheld => ?_⟩
    exact (h cid (hf cid hc) (hh cid hc hheld)).imp_right fun ⟨e, he, hn⟩ => ⟨e, he, hi e cid hn⟩
  | judging address read all entry item left released =>
    rw [hstage] at h
    obtain ⟨ha, hr, h⟩ := h
    refine ⟨ha, hr.trans hg.symm, fun cid hc hheld => ?_⟩
    exact (h cid (hf cid hc) (hh cid hc hheld)).imp_right (Or.imp_right fun ⟨e, he, hn⟩ => ⟨e, he, hi e cid hn⟩)
  | releasing | keeping | offering | holding | holdingAvatar | landing | landingLibraries | landingHold
  | registering | registered | pinning =>
    rw [hstage] at h
    exact h

theorem CoversTask.frame (h : s.CoversTask library task) (f : Frame s t library) : t.CoversTask library task :=
  h.of_held f.generation f.free (fun _ => f.held) f.items

theorem CoversTurn.frame (h : s.CoversTurn library) (f : Frame s t library) : t.CoversTurn library := by
  obtain ⟨before, turn, after, hturns, hhandler, hl, hafter, hjob⟩ := h
  obtain ⟨later, hmore, hlater⟩ := f.turns
  refine ⟨before, turn, after ++ later, by rw [hmore, hturns, List.append_assoc, List.cons_append], hhandler, hl, ?_, ?_⟩
  · intro turn hm cid hc
    rcases List.mem_append.mp hm with hm | hm
    · exact hafter turn hm cid (f.free cid hc)
    · exact hlater turn hm cid hc
  · cases hj : turn.job with
    | hold cids =>
      rw [hj] at hjob
      exact hjob
    | release cids =>
      rw [hj] at hjob
      exact fun cid hc hheld => hjob cid (f.free cid hc) (hheld.imp_left (f.pins cid hc))
    | releasing cids =>
      rw [hj] at hjob
      exact ⟨hjob.1, fun cid hc hp => hjob.2 cid (f.free cid hc) (f.pins cid hc hp)⟩

/-- A step that holds nothing more of what is not known to be kept keeps the release under way, if it
keeps or carries on the redecision. -/
theorem Releasing.frame (h : s.Releasing library) (f : Frame s t library)
    (htask : ∀ i task, s.tasks i = some task → s.CoversTask library task → t.Releasing library) :
    t.Releasing library := by
  rcases h with ⟨i, task, hi, hc⟩ | hturn | hnone
  · exact htask i task hi hc
  · exact .inr (.inl (hturn.frame f))
  · exact .inr (.inr fun cid hc hh => hnone cid (f.free cid hc) (f.held hc hh))

/-- The tasks stay as they are, but one that redecides nothing. -/
theorem Releasing.frame_tasks (h : s.Releasing library) (f : Frame s t library)
    (htask : ∀ i task, s.tasks i = some task → s.CoversTask library task → t.tasks i = some task) :
    t.Releasing library :=
  h.frame f fun i task hi hc => .inl ⟨i, task, htask i task hi hc, hc.frame f⟩

/-! ## Moves -/

/-- What a move may do: it holds and wants what the policy now in force keeps. -/
structure Move.Fits (s : BlobHolds) (m : Move) : Prop where
  holds : ∀ library cids, m.turn = some (library, .hold cids) →
    ∀ cid ∈ cids, (library, s.generation library, cid) ∈ s.kept ++ m.kept
  wants : ∀ p ∈ m.wants, (p.2, s.generation p.2, p.1) ∈ s.kept
  kept : ∀ p ∈ m.kept, p.2.1 ≤ s.generation p.1
  goes : ∀ stage calls, m.goes = some (stage, calls) → StageFits s.generation (s.kept ++ m.kept) stage

/-- A move that only goes on. -/
theorem Move.Fits.of_goes {stage : BlobStage} {calls : List BlobCall} (h : StageFits s.generation s.kept stage) :
    Move.Fits s { goes := some (stage, calls) } where
  holds _ _ ht := by cases ht
  wants _ hp := by cases hp
  kept _ hp := by cases hp
  goes stage calls hg := by
    cases hg
    exact h.mono (fun _ => Nat.le_refl _) fun p => List.mem_append_left _

theorem Move.Fits.of_ends {lands : Option String} : Move.Fits s { goes := none, lands := lands } where
  holds _ _ ht := by cases ht
  wants _ hp := by cases hp
  kept _ hp := by cases hp
  goes _ _ hg := by cases hg

theorem mem_unpinned {cids : List String} {p : String × String} (h : p ∈ s.unpinned library cids) :
    p.1 ∈ cids ∧ p.2 = library := by
  obtain ⟨cid, hcid, rfl⟩ := List.mem_map.mp h
  exact ⟨(List.mem_filter.mp hcid).1, rfl⟩

theorem mem_map_kept {generation : ℕ} {cids : List String} (h : cid ∈ cids) :
    (library, generation, cid) ∈ cids.map fun cid => (library, generation, cid) :=
  List.mem_map.mpr ⟨cid, h, rfl⟩

theorem call_fits (calls : List BlobCall) : Move.Fits s (s.call calls) := by
  match calls with
  | [] => exact .of_ends
  | .redecideLive library generation :: calls => exact .of_goes (Nat.le_refl (s.generation library))
  | .redecideTracks library tracks :: calls =>
    simp only [call]
    split
    · exact .of_goes trivial
    · exact .of_goes (Nat.le_refl (s.generation library))
  | .keepEntries library entries :: calls => exact .of_goes (Nat.le_refl (s.generation library))
  | .keepAvatar library :: calls =>
    simp only [call]
    split
    case h_1 => exact .of_goes trivial
    case h_2 avatar havatar =>
      split
      · refine ⟨?_, nofun, ?_, ?_⟩
        · rintro _ _ ⟨⟩ cid hc
          rw [List.mem_singleton.mp hc]
          exact List.mem_append_right _ List.mem_cons_self
        · intro p hp
          rw [List.mem_singleton.mp hp]
        · rintro _ _ ⟨⟩
          exact List.mem_append_right _ List.mem_cons_self
      · exact .of_goes trivial

/-- The moves of a careful run. -/
theorem move_fits (hstage : StageFits s.generation s.kept task.stage) (hc : s.CarefulMove task) {m : Move}
    (hm : s.move i task = some m) : m.Fits s := by
  obtain ⟨handler, stage, calls⟩ := task
  match stage with
  | .next =>
    cases hm
    exact call_fits calls
  | .awaitsAvatar =>
    obtain ⟨-, ⟨⟩⟩ := Option.ite_none_right_eq_some.mp hm
    exact .of_goes trivial
  | .redeciding library read all (e :: left) released =>
    cases hm
    exact .of_goes hstage
  | .redeciding library read all [] released =>
    cases hm
    refine ⟨?_, nofun, nofun, ?_⟩
    · rintro _ _ ⟨⟩
    · rintro _ _ ⟨⟩
      trivial
  | .judging library read all e none left released =>
    cases hm
    exact .of_goes hstage
  | .judging library read all e (some (content, blobs)) left released =>
    simp only [move] at hm
    split at hm <;> cases hm
    · refine ⟨nofun, nofun, ?_, ?_⟩
      · intro p hp
        obtain ⟨cid, -, rfl⟩ := List.mem_map.mp hp
        exact hstage
      · rintro _ _ ⟨⟩
        exact hstage
    · exact .of_goes hstage
  | .releasing library all =>
    obtain ⟨-, ⟨⟩⟩ := Option.ite_none_right_eq_some.mp hm
    exact .of_goes trivial
  | .keeping library read [] =>
    cases hm
    exact .of_goes trivial
  | .keeping library read (e :: left) =>
    simp only [move] at hm
    split at hm <;> cases hm <;> exact .of_goes hstage
  | .offering library read e none left =>
    cases hm
    exact .of_goes hstage
  | .offering library read e (some (content, blobs)) left =>
    simp only [move] at hm
    split at hm
    · cases hm
      exact .of_goes hstage
    split at hm
    · cases hm
      exact .of_goes trivial
    case isFalse hsame =>
      cases hm
      rw [not_not] at hsame
      refine ⟨?_, nofun, ?_, ?_⟩
      · rintro _ _ ⟨⟩ cid hcid
        rw [hsame]
        exact List.mem_append_right _ (mem_map_kept hcid)
      · intro p hp
        obtain ⟨cid, -, rfl⟩ := List.mem_map.mp hp
        exact hstage
      · rintro _ _ ⟨⟩
        exact ⟨hstage, fun cid hcid => List.mem_append_right _ (mem_map_kept hcid)⟩
  | .holding library read cids left =>
    obtain ⟨-, ⟨⟩⟩ := Option.ite_none_right_eq_some.mp hm
    refine ⟨nofun, ?_, nofun, ?_⟩
    · intro p hp
      obtain ⟨hcid, hl⟩ := mem_unpinned hp
      rw [hl, hc (List.ne_nil_of_mem hp)]
      exact hstage.2 p.1 hcid
    · rintro _ _ ⟨⟩
      exact hstage.1
  | .holdingAvatar library generation avatar =>
    obtain ⟨-, ⟨⟩⟩ := Option.ite_none_right_eq_some.mp hm
    refine ⟨nofun, ?_, nofun, ?_⟩
    · intro p hp
      obtain ⟨hcid, hl⟩ := mem_unpinned hp
      rw [hl, hc (List.ne_nil_of_mem hp), List.mem_singleton.mp hcid]
      exact hstage
    · rintro _ _ ⟨⟩
      trivial
  | .landing found =>
    cases hm
    refine .of_goes fun p hp => ?_
    obtain ⟨library, asked⟩ := p
    exact hstage library asked ((found.libraries.get_eq_some_iff library asked).mpr (List.mem_filter.mp hp).1)
  | .landingLibraries cid [] =>
    cases hm
    exact .of_ends
  | .landingLibraries cid ((library, generation) :: libraries) =>
    cases hm
    refine ⟨?_, nofun, nofun, ?_⟩
    · rintro _ _ ⟨⟩ b hb
      rw [List.mem_singleton.mp hb, show s.generation library = generation from hc]
      exact List.mem_append_left _ (hstage (library, generation) List.mem_cons_self)
    · rintro _ _ ⟨⟩ p hp
      exact List.mem_append_left _ (hstage p (List.mem_cons_of_mem _ hp))
  | .landingHold cid libraries =>
    obtain ⟨-, ⟨⟩⟩ := Option.ite_none_right_eq_some.mp hm
    exact .of_goes hstage
  | .registering library read e =>
    cases hm
    exact .of_goes hstage
  | .registered library read e none =>
    cases hm
    exact .of_ends
  | .registered library read e (some (content, blobs)) =>
    simp only [move] at hm
    split at hm <;> cases hm
    · refine ⟨nofun, nofun, ?_, ?_⟩
      · intro p hp
        obtain ⟨cid, -, rfl⟩ := List.mem_map.mp hp
        exact hstage
      · rintro _ _ ⟨⟩
        exact ⟨hstage, fun cid hcid => List.mem_append_right _ (mem_map_kept hcid)⟩
    · exact .of_ends
  | .pinning library read [] =>
    cases hm
    exact .of_ends
  | .pinning library read (cid :: cids) => cases hm

theorem generations_landed (keeper : BlobKeeper) (lands : Option String) :
    (landed keeper lands).generations = keeper.generations := by
  cases lands with
  | none => rfl
  | some cid =>
    rw [landed]
    cases hl : keeper.step 0 (.lands cid) with
    | none => rfl
    | some t => exact BlobKeeper.generations_step (by rintro _ ⟨⟩) hl

theorem asks_landed {asked : String → ℕ → String → Prop} {keeper : BlobKeeper} (h : keeper.Asks asked)
    (lands : Option String) : (landed keeper lands).Asks asked := by
  cases lands with
  | none => exact h
  | some cid =>
    rw [landed]
    cases hl : keeper.step 0 (.lands cid) with
    | none => exact h
    | some t => exact h.step (by rintro _ _ _ ⟨⟩) hl

theorem generations_foldl_wants (wants : List (String × String)) (keeper : BlobKeeper) :
    (wants.foldl (fun keeper (cid, library) => keeper.wants cid (some library) false) keeper).generations =
      keeper.generations := by
  induction wants generalizing keeper with
  | nil => rfl
  | cons p rest ih => exact (ih _).trans (BlobKeeper.generations_wants keeper p.1 (some p.2) false)

theorem asks_foldl_wants {asked : String → ℕ → String → Prop} (wants : List (String × String)) {keeper : BlobKeeper}
    (h : keeper.Asks asked) (hw : ∀ p ∈ wants, asked p.2 (keeper.generations p.2) p.1) :
    (wants.foldl (fun keeper (cid, library) => keeper.wants cid (some library) false) keeper).Asks asked := by
  induction wants generalizing keeper with
  | nil => exact h
  | cons p rest ih =>
    refine ih (h.wants fun address heq => ?_) fun q hq => ?_
    · rw [← Option.some_inj.mp heq]
      exact hw p List.mem_cons_self
    · rw [BlobKeeper.generations_wants]
      exact hw q (List.mem_cons_of_mem _ hq)

theorem generation_makeMove (s : BlobHolds) (i : ℕ) (task : BlobTask) (m : Move) :
    (s.makeMove i task m).generation = s.generation :=
  (generations_landed _ m.lands).trans (generations_foldl_wants m.wants s.keeper)

theorem isFree_of_append {kept : List (String × ℕ × String)} (hk : t.kept = s.kept ++ kept)
    (hg : t.generation library = s.generation library) (h : t.IsFree library cid) : s.IsFree library cid := by
  intro hm
  rw [IsFree, hk, hg] at h
  exact h (List.mem_append_left _ hm)

theorem frame_makeMove {m : Move} (hm : m.Fits s) : Frame s (s.makeMove i task m) library := by
  have hg : (s.makeMove i task m).generation library = s.generation library :=
    congrFun (generation_makeMove s i task m) library
  refine ⟨hg, fun cid => isFree_of_append rfl hg, fun _ _ => id, ⟨_, rfl, ?_⟩, fun _ _ => id⟩
  rintro turn hturn cid hf ⟨hl, cids, hjob, hcid⟩
  obtain ⟨⟨address, job⟩, hmturn, rfl⟩ := List.mem_map.mp hturn
  rw [Option.mem_toList] at hmturn
  cases hjob
  have hk := hm.holds address cids hmturn cid hcid
  rw [IsFree, hg] at hf
  exact hf (hl ▸ hk)

/-- A redecision goes on until its release is queued. -/
theorem CoversTask.move {m : Move} (h : s.CoversTask library task) (hc : s.CarefulMove task) (hi : s.tasks i = some task)
    (hm : s.move i task = some m) (hfits : m.Fits s) : (s.makeMove i task m).Releasing library := by
  have f : Frame s (s.makeMove i task m) library := frame_makeMove hfits
  have hgoes : ∀ stage calls, m.goes = some (stage, calls) →
      (s.makeMove i task m).tasks i = some { task with stage := stage, calls := calls } := by
    intro stage calls hg
    change Function.update s.tasks i _ i = _
    rw [Function.update_self, hg]
    rfl
  obtain ⟨hhandler, h⟩ := h
  obtain ⟨handler, stage, calls⟩ := task
  cases stage with
  | next =>
    cases hm
    obtain ⟨calls, rfl⟩ := List.head?_eq_some_iff.mp h
    refine .inl ⟨i, _, hgoes _ _ rfl, hhandler, rfl, f.generation.symm, fun cid hf hh => .inr ?_⟩
    obtain ⟨e, he, hn⟩ := hc rfl cid (f.free cid hf) (f.held hf hh)
    exact ⟨e, he, f.items e cid hn⟩
  | awaitsAvatar =>
    obtain ⟨-, ⟨⟩⟩ := Option.ite_none_right_eq_some.mp hm
    refine .inl ⟨i, _, hgoes _ _ rfl, hhandler, ?_⟩
    rw [f.generation]
    exact h
  | redeciding address read all left released =>
    obtain ⟨rfl, hr, h⟩ := h
    cases left with
    | nil =>
      cases hm
      refine .inr (.inl ⟨s.turns, _, [], rfl, hhandler, rfl, nofun, fun cid hf hh => ?_⟩)
      rcases h cid (f.free cid hf) hh with hrel | ⟨e, he, -⟩
      · exact hrel
      · cases he
    | cons e left =>
      cases hm
      refine .inl ⟨i, _, hgoes _ _ rfl, hhandler, rfl, hr.trans f.generation.symm, fun cid hf hh => ?_⟩
      rcases h cid (f.free cid hf) (f.held hf hh) with hrel | ⟨e', he, hn⟩
      · exact .inl hrel
      · rcases List.mem_cons.mp he with rfl | he
        · exact .inr (.inl hn)
        · exact .inr (.inr ⟨e', he, f.items e' cid hn⟩)
  | judging address read all e item left released =>
    obtain ⟨rfl, hr, h⟩ := h
    cases item with
    | none =>
      cases hm
      refine .inl ⟨i, _, hgoes _ _ rfl, hhandler, rfl, hr.trans f.generation.symm, fun cid hf hh => ?_⟩
      rcases h cid (f.free cid hf) (f.held hf hh) with hrel | ⟨_, _, hn, -⟩ | ⟨e', he, hn⟩
      · exact .inl hrel
      · cases hn
      · exact .inr ⟨e', he, f.items e' cid hn⟩
    | some item =>
      obtain ⟨content, blobs⟩ := item
      simp only [BlobHolds.move] at hm
      split at hm <;> cases hm
      · refine .inl ⟨i, _, hgoes _ _ rfl, hhandler, rfl, hr.trans f.generation.symm, fun cid hf hh => ?_⟩
        rcases h cid (f.free cid hf) (f.held hf hh) with hrel | ⟨_, _, hn, hcid⟩ | ⟨e', he, hn⟩
        · exact .inl hrel
        · cases hn
          rw [IsFree, f.generation, ← hr] at hf
          exact absurd (List.mem_append_right _ (mem_map_kept hcid)) hf
        · exact .inr ⟨e', he, f.items e' cid hn⟩
      · refine .inl ⟨i, _, hgoes _ _ rfl, hhandler, rfl, hr.trans f.generation.symm, fun cid hf hh => ?_⟩
        rcases h cid (f.free cid hf) (f.held hf hh) with hrel | ⟨_, _, hn, hcid⟩ | ⟨e', he, hn⟩
        · exact .inl (List.mem_append_left _ hrel)
        · cases hn
          exact .inl (List.mem_append_right _ hcid)
        · exact .inr ⟨e', he, f.items e' cid hn⟩
  | releasing | keeping | offering | holding | holdingAvatar | landing | landingLibraries | landingHold
  | registering | registered | pinning => exact absurd h id

theorem Fenced.makeMove (h : s.Fenced) (hi : s.tasks i = some task) (hc : s.CarefulMove task) {m : Move}
    (hm : s.move i task = some m) : (s.makeMove i task m).Fenced := by
  have hfits := move_fits (h.stages i task hi) hc hm
  have hg := generation_makeMove s i task m
  have hold : ∀ j later, (s.makeMove i task m).tasks j = some later →
      j = i ∧ later.handler = task.handler ∧ m.goes = some (later.stage, later.calls) ∨
        j ≠ i ∧ s.tasks j = some later := by
    intro j later hj
    change Function.update s.tasks i _ j = some later at hj
    by_cases heq : j = i
    · rw [heq, Function.update_self] at hj
      obtain ⟨⟨stage, calls⟩, hgoes, rfl⟩ := Option.map_eq_some_iff.mp hj
      exact .inl ⟨heq, rfl, hgoes⟩
    · rw [Function.update_of_ne heq] at hj
      exact .inr ⟨heq, hj⟩
  have hturns : ∀ turn ∈ (s.makeMove i task m).turns,
      turn ∈ s.turns ∨ turn.owner = i ∧ turn.handler = task.handler := by
    intro turn hturn
    rcases List.mem_append.mp hturn with hold | hnew
    · exact .inl hold
    · obtain ⟨p, -, rfl⟩ := List.mem_map.mp hnew
      exact .inr ⟨rfl, rfl⟩
  refine ⟨?_, ?_, ?_, ?_, ?_, ?_, ?_⟩
  · intro library generation cid hk
    rw [hg]
    rcases List.mem_append.mp hk with hk | hk
    · exact h.kept_le library generation cid hk
    · exact hfits.kept _ hk
  · refine asks_landed (asks_foldl_wants m.wants (h.keeper.mono fun library generation cid => ?_) ?_) m.lands
    · exact List.mem_append_left _
    · exact fun p hp => List.mem_append_left _ (hfits.wants p hp)
  · intro j later hj
    rcases hold j later hj with ⟨rfl, -⟩ | ⟨-, hj⟩
    · exact h.tasks_lt j task hi
    · exact h.tasks_lt j later hj
  · intro turn hturn
    rcases hturns turn hturn with hturn | ⟨howner, -⟩
    · exact h.turns_lt turn hturn
    · rw [howner]
      exact h.tasks_lt i task hi
  · intro turn hturn later hlater
    rcases hturns turn hturn with hturn | ⟨howner, hhandler⟩ <;> rcases hold _ later hlater with ⟨hj, hl, -⟩ | ⟨hj, hlater⟩
    · rw [hl]
      exact h.handlers turn hturn task (hj ▸ hi)
    · exact h.handlers turn hturn later hlater
    · rw [hl, hhandler]
    · exact absurd howner hj
  · intro j later hj
    rw [hg]
    rcases hold j later hj with ⟨-, -, hgoes⟩ | ⟨-, hj⟩
    · exact hfits.goes _ _ hgoes
    · exact (h.stages j later hj).mono (fun _ => Nat.le_refl _) fun p => List.mem_append_left _
  · intro library hpos
    rw [hg] at hpos
    refine (h.released library hpos).frame (frame_makeMove hfits) fun j other hj hcovers => ?_
    by_cases heq : j = i
    · subst heq
      cases hi.symm.trans hj
      exact hcovers.move hc hi hm hfits
    · refine .inl ⟨j, other, ?_, hcovers.frame (frame_makeMove hfits)⟩
      change Function.update s.tasks i _ j = some other
      rw [Function.update_of_ne heq, hj]

/-! ## The other steps -/

/-- A step that decides nothing, begins no handler and queues no turn. -/
theorem Fenced.keep (h : s.Fenced) (hg : t.generation = s.generation) (hk : t.kept = s.kept)
    (ha : t.keeper.Asks fun library generation cid => (library, generation, cid) ∈ s.kept)
    (hn : t.nextTask = s.nextTask)
    (hturns : ∀ turn ∈ t.turns, ∃ earlier ∈ s.turns, earlier.owner = turn.owner ∧ earlier.handler = turn.handler)
    (htasks : ∀ i task, t.tasks i = some task → ∃ earlier, s.tasks i = some earlier ∧
      earlier.handler = task.handler ∧ StageFits s.generation s.kept task.stage)
    (hr : ∀ library, s.Releasing library → t.Releasing library) : t.Fenced := by
  refine ⟨?_, hk ▸ ha, ?_, ?_, ?_, ?_, fun library hpos => hr library (h.released library (hg ▸ hpos))⟩
  · rw [hk, hg]
    exact h.kept_le
  · intro i task hi
    obtain ⟨earlier, hi, -⟩ := htasks i task hi
    exact hn ▸ h.tasks_lt i earlier hi
  · intro turn hturn
    obtain ⟨earlier, hm, howner, -⟩ := hturns turn hturn
    exact hn ▸ howner ▸ h.turns_lt earlier hm
  · intro turn hturn task hi
    obtain ⟨earlier, hm, howner, hhandler⟩ := hturns turn hturn
    obtain ⟨before, hi, hsame, -⟩ := htasks turn.owner task hi
    rw [← hsame, ← hhandler]
    exact h.handlers earlier hm before (howner ▸ hi)
  · intro i task hi
    obtain ⟨-, -, -, hfits⟩ := htasks i task hi
    rw [hk, hg]
    exact hfits

theorem Fenced.fits (h : s.Fenced) (i : ℕ) (task : BlobTask) (hi : s.tasks i = some task) :
    ∃ earlier, s.tasks i = some earlier ∧ earlier.handler = task.handler ∧
      StageFits s.generation s.kept task.stage :=
  ⟨task, hi, rfl, h.stages i task hi⟩

/-- What the handlers read may change, and content be stored. -/
theorem Fenced.world (h : s.Fenced) {live : String → List VerifiedEntry} {content : VerifiedEntry → Option Fields}
    {labels : String → String → List String} {avatars : String → Option String}
    (hi : ∀ e fields, s.content e = some fields → content e = some fields) :
    Fenced { s with live := live, content := content, labels := labels, avatars := avatars } := by
  refine h.keep rfl rfl h.keeper rfl (fun turn ht => ⟨turn, ht, rfl, rfl⟩) h.fits fun library hr => ?_
  refine hr.frame_tasks ⟨rfl, fun _ => id, fun _ _ => id, ⟨[], (List.append_nil _).symm, nofun⟩, ?_⟩ fun _ _ hi _ => hi
  rintro e cid ⟨found, blobs, hitem, hcid⟩
  refine ⟨found, blobs, ?_, hcid⟩
  simp only [storedItem6, PinSource.storedItem6] at hitem ⊢
  split at hitem
  case h_1 avatar havatar => exact hitem
  case h_2 havatar =>
    split at hitem
    case isTrue hput =>
      obtain ⟨fields, hf, heq⟩ := Option.map_eq_some_iff.mp hitem
      rw [if_pos hput, hi e fields hf]
      exact congrArg some heq
    case isFalse => cases hitem

/-- The keeper takes a step of its own. -/
theorem Fenced.setKeeper (h : s.Fenced) {keeper : BlobKeeper} (hg : keeper.generations = s.keeper.generations)
    (ha : keeper.Asks fun library generation cid => (library, generation, cid) ∈ s.kept) :
    Fenced { s with keeper := keeper } := by
  refine h.keep hg rfl ha rfl (fun turn ht => ⟨turn, ht, rfl, rfl⟩) h.fits fun library hr => ?_
  have hlib : BlobHolds.generation { s with keeper := keeper } library = s.generation library := congrFun hg library
  refine hr.frame_tasks ⟨hlib, fun cid hf => ?_, fun _ _ => id, ⟨[], (List.append_nil _).symm, nofun⟩, fun _ _ => id⟩
    fun _ _ hi _ => hi
  rw [IsFree, hlib] at hf
  exact hf

/-- A handler begins. -/
theorem Fenced.startTask (h : s.Fenced) (handler : BlobHandler) {stage : BlobStage} (calls : List BlobCall)
    (hf : StageFits s.generation s.kept stage) : (s.startTask handler stage calls).Fenced := by
  have hold : ∀ i task, (s.startTask handler stage calls).tasks i = some task →
      i = s.nextTask ∧ task = ⟨handler, stage, calls⟩ ∨ s.tasks i = some task := by
    intro i task hi
    change Function.update s.tasks s.nextTask _ i = some task at hi
    by_cases heq : i = s.nextTask
    · rw [heq, Function.update_self] at hi
      exact .inl ⟨heq, (Option.some_inj.mp hi).symm⟩
    · rw [Function.update_of_ne heq] at hi
      exact .inr hi
  refine ⟨h.kept_le, h.keeper, ?_, fun turn ht => Nat.lt_succ_of_lt (h.turns_lt turn ht), ?_, ?_, ?_⟩
  · intro i task hi
    rcases hold i task hi with ⟨rfl, -⟩ | hi
    · exact Nat.lt_succ_self _
    · exact Nat.lt_succ_of_lt (h.tasks_lt i task hi)
  · intro turn ht task hi
    rcases hold turn.owner task hi with ⟨heq, -⟩ | hi
    · exact absurd (h.turns_lt turn ht) (heq ▸ Nat.lt_irrefl _)
    · exact h.handlers turn ht task hi
  · intro i task hi
    rcases hold i task hi with ⟨-, rfl⟩ | hi
    · exact hf
    · exact h.stages i task hi
  · intro library hpos
    refine (h.released library hpos).frame_tasks
      ⟨rfl, fun _ => id, fun _ _ => id, ⟨[], (List.append_nil _).symm, nofun⟩, fun _ _ => id⟩ fun i task hi _ => ?_
    change Function.update s.tasks s.nextTask _ i = some task
    rw [Function.update_of_ne (Nat.ne_of_lt (h.tasks_lt i task hi)), hi]

/-- A step of the first turn leaves a later release under way, and holds nothing that was not held. -/
theorem Releasing.pop (h : s.Releasing library) {turn : PinTurn} (first : List PinTurn) {rest : List PinTurn}
    (hs : s.turns = turn :: rest) (ht : t.turns = first ++ rest) (hg : t.generation = s.generation)
    (hk : t.kept = s.kept) (hc : t.content = s.content)
    (htasks : ∀ i task, s.tasks i = some task → s.CoversTask library task → t.tasks i = some task)
    (hp : ∀ cid, cid ∈ t.pins library ∨ (∃ turn ∈ first, Holds library cid turn) →
      cid ∈ s.pins library ∨ Holds library cid turn)
    (hfirst : turn.handler = .policyChanged → turn.library = library →
      (∀ later ∈ rest, ∀ cid, s.IsFree library cid → ¬ Holds library cid later) →
      (∀ cids, turn.job = .release cids ∨ turn.job = .releasing cids →
        ∀ cid, s.IsFree library cid → cid ∈ s.pins library → cid ∈ cids) →
      (∀ cids, turn.job ≠ .hold cids) → t.Releasing library) : t.Releasing library := by
  have hfree : ∀ cid, t.IsFree library cid ↔ s.IsFree library cid := by
    intro cid
    rw [IsFree, IsFree, hg, hk]
  have hheld : ∀ cid, t.IsFree library cid → t.IsHeld library cid → s.IsHeld library cid := by
    rintro cid - hh
    have hsplit : (cid ∈ t.pins library ∨ ∃ turn ∈ first, Holds library cid turn) ∨ ∃ later ∈ rest, Holds library cid later := by
      rcases hh with hh | ⟨later, hm, hl⟩
      · exact .inl (.inl hh)
      · rw [ht, List.mem_append] at hm
        exact hm.elim (fun hm => .inl (.inr ⟨later, hm, hl⟩)) fun hm => .inr ⟨later, hm, hl⟩
    rw [IsHeld, hs]
    rcases hsplit with hh | ⟨later, hm, hl⟩
    · exact (hp cid hh).imp_right fun hl => ⟨turn, List.mem_cons_self, hl⟩
    · exact .inr ⟨later, List.mem_cons_of_mem _ hm, hl⟩
  have hitems : ∀ e cid, Names (s.storedItem6 e) cid → Names (t.storedItem6 e) cid := by
    intro e cid hn
    rw [storedItem6, hc]
    exact hn
  rcases h with ⟨i, task, hi, hcovers⟩ | ⟨before, covering, after, hturns, hhandler, hl, hafter, hjob⟩ | hnone
  · exact .inl ⟨i, task, htasks i task hi hcovers,
      hcovers.of_held (congrFun hg library) (fun cid => (hfree cid).mp) hheld hitems⟩
  · rw [hs] at hturns
    cases before with
    | nil =>
      obtain ⟨rfl, rfl⟩ := List.cons.inj hturns
      refine hfirst hhandler hl hafter ?_ ?_
      · rintro cids (hj | hj) cid hf hpin
        · rw [hj] at hjob
          exact hjob cid hf (.inl hpin)
        · rw [hj] at hjob
          exact hjob.2 cid hf hpin
      · intro cids hj
        rw [hj] at hjob
        exact hjob
    | cons head before =>
      obtain ⟨rfl, rfl⟩ := List.cons.inj hturns
      refine .inr (.inl ⟨first ++ before, covering, after, ht.trans (List.append_assoc _ _ _).symm, hhandler, hl,
        fun later hm cid hf => hafter later hm cid ((hfree cid).mp hf), ?_⟩)
      cases hj : covering.job with
      | hold cids =>
        rw [hj] at hjob
        exact hjob
      | release cids =>
        rw [hj] at hjob
        intro cid hf hh
        refine hjob cid ((hfree cid).mp hf) ?_
        have hsplit : (cid ∈ t.pins library ∨ ∃ turn ∈ first, Holds library cid turn) ∨
            ∃ earlier ∈ before, Holds library cid earlier := by
          rcases hh with hh | ⟨earlier, hm, hl⟩
          · exact .inl (.inl hh)
          · exact (List.mem_append.mp hm).elim (fun hm => .inl (.inr ⟨earlier, hm, hl⟩)) fun hm => .inr ⟨earlier, hm, hl⟩
        rcases hsplit with hh | ⟨earlier, hm, hl⟩
        · exact (hp cid hh).imp_right fun hl => ⟨turn, List.mem_cons_self, hl⟩
        · exact .inr ⟨earlier, List.mem_cons_of_mem _ hm, hl⟩
      | releasing cids =>
        rw [hj] at hjob
        cases hjob.1
  · exact .inr (.inr fun cid hf hh => hnone cid ((hfree cid).mp hf) (hheld cid hf hh))

/-- A step of the first turn keeps the rest of the queue. -/
theorem turns_of_pop {turn : PinTurn} {rest : List PinTurn} (hs : s.turns = turn :: rest) :
    ∀ later ∈ rest, ∃ earlier ∈ s.turns, earlier.owner = later.owner ∧ earlier.handler = later.handler :=
  fun later hm => ⟨later, hs ▸ List.mem_cons_of_mem _ hm, rfl, rfl⟩

/-- A turn that goes on keeps its owner. -/
theorem turns_of_first {turn : PinTurn} {rest : List PinTurn} (hs : s.turns = turn :: rest) (job : TurnJob) :
    ∀ later ∈ { turn with job := job } :: rest,
      ∃ earlier ∈ s.turns, earlier.owner = later.owner ∧ earlier.handler = later.handler := by
  intro later hm
  rcases List.mem_cons.mp hm with rfl | hm
  · exact ⟨turn, hs ▸ List.mem_cons_self, rfl, rfl⟩
  · exact turns_of_pop hs later hm

theorem mem_setPins {pins : OrderedSet String} (address : String) :
    cid ∈ (s.setPins address pins).pins library ↔ if library = address then cid ∈ pins else cid ∈ s.pins library := by
  change cid ∈ Function.update s.pins address pins library ↔ _
  by_cases h : library = address
  · subst h
    simp
  · simp [h]

theorem Fenced.takeTurn (h : s.Fenced) {turn : PinTurn} {rest : List PinTurn} (hs : s.turns = turn :: rest)
    (isLocal : Bool) : (s.takeTurn isLocal turn rest).Fenced := by
  obtain ⟨owner, handler, address, job⟩ := turn
  match job with
  | .hold [] =>
    refine h.keep rfl rfl h.keeper rfl (turns_of_pop hs) h.fits fun library hr => ?_
    refine hr.pop [] hs rfl rfl rfl rfl (fun _ _ hi _ => hi) ?_ fun _ _ _ _ hj => absurd rfl (hj _)
    rintro cid (hp | ⟨turn, hm, -⟩)
    · exact .inl hp
    · cases hm
  | .hold (held :: cids) =>
    refine h.keep rfl rfl h.keeper rfl (turns_of_first hs _) h.fits fun library hr => ?_
    refine hr.pop [_] hs rfl rfl rfl rfl (fun _ _ hi _ => hi) ?_ fun _ _ _ _ hj => absurd rfl (hj _)
    rintro cid (hp | ⟨turn, hm, hl, left, hjob, hcid⟩)
    · have hp := (mem_setPins address).mp hp
      split at hp
      case isTrue hl =>
        subst hl
        cases isLocal with
        | false => exact .inl hp
        | true =>
          rcases (OrderedSet.mem_add _ _ _).mp hp with rfl | hp
          · exact .inr ⟨rfl, _, rfl, List.mem_cons_self⟩
          · exact .inl hp
      case isFalse => exact .inl hp
    · rw [List.mem_singleton.mp hm] at hl hjob
      cases hjob
      exact .inr ⟨hl, _, rfl, List.mem_cons_of_mem _ hcid⟩
  | .release cids =>
    refine h.keep rfl rfl h.keeper rfl (turns_of_first hs _) h.fits fun library hr => ?_
    refine hr.pop [_] hs rfl rfl rfl rfl (fun _ _ hi _ => hi) ?_ ?_
    · rintro cid (hp | ⟨turn, hm, -, left, hjob, -⟩)
      · exact .inl hp
      · rw [List.mem_singleton.mp hm] at hjob
        cases hjob
    · rintro hhandler hl hafter hcids -
      refine .inr (.inl ⟨[], _, rest, rfl, hhandler, hl, hafter, rfl, fun cid hf hp => ?_⟩)
      subst hl
      exact List.mem_filter.mpr ⟨hcids cids (.inl rfl) cid hf hp, (OrderedSet.has_iff _ _).mpr hp⟩
  | .releasing [] =>
    refine h.keep rfl rfl h.keeper rfl (turns_of_pop hs) h.fits fun library hr => ?_
    refine hr.pop [] hs rfl rfl rfl rfl (fun _ _ hi _ => hi) ?_ ?_
    · rintro cid (hp | ⟨turn, hm, -⟩)
      · exact .inl hp
      · cases hm
    · rintro hhandler hl hafter hcids -
      refine .inr (.inr ?_)
      rintro cid hf (hp | ⟨later, hm, hheld⟩)
      · cases hcids [] (.inr rfl) cid hf hp
      · exact hafter later hm cid hf hheld
  | .releasing (freed :: cids) =>
    refine h.keep rfl rfl h.keeper rfl (turns_of_first hs _) h.fits fun library hr => ?_
    have hsub : ∀ cid, cid ∈ (s.setPins address ((s.pins address).delete freed)).pins library →
        cid ∈ s.pins library ∧ (library = address → cid ≠ freed) := by
      intro cid hp
      have hp := (mem_setPins address).mp hp
      split at hp
      case isTrue hl =>
        subst hl
        obtain ⟨hp, hne⟩ := (OrderedSet.mem_delete _ _ _).mp hp
        exact ⟨hp, fun _ => hne⟩
      case isFalse hl => exact ⟨hp, fun heq => absurd heq hl⟩
    refine hr.pop [_] hs rfl rfl rfl rfl (fun _ _ hi _ => hi) ?_ ?_
    · rintro cid (hp | ⟨turn, hm, -, left, hjob, -⟩)
      · exact .inl (hsub cid hp).1
      · rw [List.mem_singleton.mp hm] at hjob
        cases hjob
    · rintro hhandler hl hafter hcids -
      refine .inr (.inl ⟨[], _, rest, rfl, hhandler, hl, hafter, rfl, fun cid hf hp => ?_⟩)
      obtain ⟨hp, hne⟩ := hsub cid hp
      exact (List.mem_cons.mp (hcids _ (.inr rfl) cid hf hp)).resolve_left (hne hl.symm)

/-- A task that is not a policy change's ends. -/
theorem tasks_abandon {library : String} (hi : ∀ task, s.tasks i = some task → task.handler ≠ .policyChanged)
    (j : ℕ) (task : BlobTask) (hj : s.tasks j = some task) (hc : s.CoversTask library task) :
    (s.abandon i).tasks j = some task := by
  change Function.update s.tasks i none j = some task
  rw [Function.update_of_ne, hj]
  rintro rfl
  exact hi task hj hc.1

theorem fits_abandon (h : s.Fenced) (j : ℕ) (task : BlobTask) (hj : (s.abandon i).tasks j = some task) :
    ∃ earlier, s.tasks j = some earlier ∧ earlier.handler = task.handler ∧
      StageFits s.generation s.kept task.stage := by
  change Function.update s.tasks i none j = some task at hj
  rw [Function.update_apply] at hj
  exact h.fits j task (Option.ite_none_left_eq_some.mp hj).2

theorem generation_abandon (s : BlobHolds) (i : ℕ) : (s.abandon i).generation = s.generation :=
  generations_landed s.keeper _

theorem Fenced.abandon (h : s.Fenced) (hi : ∀ task, s.tasks i = some task → task.handler ≠ .policyChanged) :
    (s.abandon i).Fenced := by
  refine h.keep (generation_abandon s i) rfl (asks_landed h.keeper _) rfl (fun turn ht => ⟨turn, ht, rfl, rfl⟩)
    (fits_abandon h) fun library hr => ?_
  have hg := congrFun (generation_abandon s i) library
  refine hr.frame_tasks ⟨hg, fun cid => isFree_of_append (List.append_nil _).symm hg, fun _ _ => id,
    ⟨[], (List.append_nil _).symm, nofun⟩, fun _ _ => id⟩ (tasks_abandon hi)

theorem Fenced.turnFails (h : s.Fenced) {turn : PinTurn} {rest : List PinTurn} (hs : s.turns = turn :: rest)
    (hc : turn.handler ≠ .policyChanged) : Fenced { s.abandon turn.owner with turns := rest } := by
  have howner : ∀ task, s.tasks turn.owner = some task → task.handler ≠ .policyChanged := by
    intro task hi
    rw [h.handlers turn (hs ▸ List.mem_cons_self) task hi]
    exact hc
  refine h.keep (generation_abandon s turn.owner) rfl (asks_landed h.keeper _) rfl (turns_of_pop hs)
    (fits_abandon h) fun library hr => ?_
  refine hr.pop [] hs rfl (generation_abandon s turn.owner) rfl rfl (tasks_abandon howner) ?_
    fun hhandler => absurd hhandler hc
  rintro cid (hp | ⟨turn, hm, -⟩)
  · exact .inl hp
  · cases hm

/-- A registration pins what it decided under the policy now in force. -/
theorem Fenced.pinsNext {isLocal : Bool} (h : s.Fenced) (hi : s.tasks i = some task)
    (hc : ∀ library read cids, task.stage = .pinning library read cids → s.generation library = read.generation)
    (hs : s.pinsNext i isLocal task = some t) : t.Fenced := by
  have hfits := h.stages i task hi
  rw [BlobHolds.pinsNext] at hs
  split at hs
  case h_1 address read cid cids hstage =>
    rw [hstage] at hfits
    have hsame := hc address read _ hstage
    have hpins : ∀ other library, other ∈ t.pins library → other ∈ s.pins library ∨ other = cid ∧ library = address := by
      intro other library hp
      cases isLocal with
      | false =>
        cases hs
        exact .inl hp
      | true =>
        cases hs
        have hp := (mem_setPins address).mp hp
        split at hp
        case isTrue hl =>
          subst hl
          exact ((OrderedSet.mem_add _ _ _).mp hp).symm.imp_right fun heq => ⟨heq, rfl⟩
        case isFalse => exact .inl hp
    have htasks : t.tasks = Function.update s.tasks i (some { task with stage := .pinning address read cids }) := by
      cases isLocal <;> cases hs <;> rfl
    have hrest : t.generation = s.generation ∧ t.kept = s.kept ∧ t.keeper = s.keeper ∧ t.nextTask = s.nextTask ∧
        t.turns = s.turns ∧ t.content = s.content := by
      cases isLocal <;> cases hs <;> exact ⟨rfl, rfl, rfl, rfl, rfl, rfl⟩
    obtain ⟨hg, hk, hkeeper, hn, hturns, hcontent⟩ := hrest
    refine h.keep hg hk (hkeeper ▸ h.keeper) hn (fun turn ht => ⟨turn, hturns ▸ ht, rfl, rfl⟩) ?_ fun library hr => ?_
    · intro j later hj
      rw [htasks] at hj
      by_cases heq : j = i
      · rw [heq, Function.update_self] at hj
        cases hj
        exact ⟨task, heq ▸ hi, rfl, hfits.1, fun cid hcid => hfits.2 cid (List.mem_cons_of_mem _ hcid)⟩
      · rw [Function.update_of_ne heq] at hj
        exact h.fits j later hj
    · refine hr.frame_tasks ⟨congrFun hg library, ?_, ?_, ⟨[], ?_, nofun⟩, ?_⟩ ?_
      · exact fun cid => isFree_of_append (hk.trans (List.append_nil _).symm) (congrFun hg library)
      · rintro other hf hp
        refine (hpins other library hp).resolve_right ?_
        rintro ⟨rfl, rfl⟩
        rw [IsFree, hg, hk, hsame] at hf
        exact hf (hfits.2 other List.mem_cons_self)
      · rw [hturns, List.append_nil]
      · intro e cid hn
        rw [storedItem6, hcontent]
        exact hn
      · intro j other hj hcovers
        rw [htasks, Function.update_of_ne, hj]
        rintro rfl
        cases hi.symm.trans hj
        have hnot := hcovers.2
        rw [hstage] at hnot
        exact hnot
  case h_2 => cases hs

/-- A policy change bumps the generation, so nothing is known to be kept but its avatar, and its
redecision is to come. -/
theorem Fenced.bump (h : s.Fenced) {stage : BlobStage} {turns : List PinTurn} {kept : List (String × ℕ × String)}
    {calls : List BlobCall}
    (hkeeper : t.keeper = { s.keeper with
      generations := Function.update s.keeper.generations library (s.generation library + 1) })
    (htasks : t.tasks = Function.update s.tasks s.nextTask (some ⟨.policyChanged, stage,
      .redecideLive library (s.generation library + 1) :: calls⟩))
    (hstage : stage = .next ∨ stage = .awaitsAvatar) (hn : t.nextTask = s.nextTask + 1)
    (hturns : t.turns = s.turns ++ turns)
    (hnew : ∀ turn ∈ turns, turn.owner = s.nextTask ∧ turn.handler = .policyChanged ∧ ∀ cids, turn.job ≠ .hold cids)
    (hk : t.kept = s.kept ++ kept)
    (hkept : ∀ p ∈ kept, p.1 = library ∧ p.2.1 = s.generation library + 1)
    (hpins : t.pins = s.pins) (hcontent : t.content = s.content) : t.Fenced := by
  have hg : ∀ other, t.generation other = if other = library then s.generation library + 1 else s.generation other := by
    intro other
    rw [generation, hkeeper]
    exact Function.update_apply _ _ _ _
  have hle : ∀ other, s.generation other ≤ t.generation other := by
    intro other
    rw [hg]
    split
    case isTrue heq => exact heq ▸ Nat.le_succ _
    case isFalse => exact Nat.le_refl _
  have hold : ∀ i task, t.tasks i = some task →
      i = s.nextTask ∧ task.handler = .policyChanged ∧ task.stage = stage ∨ s.tasks i = some task := by
    intro i task hi
    rw [htasks] at hi
    by_cases heq : i = s.nextTask
    · rw [heq, Function.update_self] at hi
      cases hi
      exact .inl ⟨heq, rfl, rfl⟩
    · rw [Function.update_of_ne heq] at hi
      exact .inr hi
  refine ⟨?_, ?_, ?_, ?_, ?_, ?_, ?_⟩
  · intro other generation cid hm
    rw [hk, List.mem_append] at hm
    rcases hm with hm | hm
    · exact Nat.le_trans (h.kept_le other generation cid hm) (hle other)
    · obtain ⟨hl, heq⟩ := hkept _ hm
      rw [hg, if_pos hl]
      exact Nat.le_of_eq heq
  · rw [hkeeper, hk]
    exact ⟨h.keeper.named, fun j other generation hj => List.mem_append_left _ (h.keeper.libraries j other generation hj)⟩
  · intro i task hi
    rw [hn]
    rcases hold i task hi with ⟨rfl, -⟩ | hi
    · exact Nat.lt_succ_self _
    · exact Nat.lt_succ_of_lt (h.tasks_lt i task hi)
  · intro turn hm
    rw [hturns, List.mem_append] at hm
    rw [hn]
    rcases hm with hm | hm
    · exact Nat.lt_succ_of_lt (h.turns_lt turn hm)
    · rw [(hnew turn hm).1]
      exact Nat.lt_succ_self _
  · intro turn hm task hi
    rw [hturns, List.mem_append] at hm
    rcases hm with hm | hm
    · rcases hold turn.owner task hi with ⟨heq, -⟩ | hi
      · exact absurd (h.turns_lt turn hm) (heq ▸ Nat.lt_irrefl _)
      · exact h.handlers turn hm task hi
    · rcases hold turn.owner task hi with ⟨-, hhandler, -⟩ | hi
      · rw [hhandler, (hnew turn hm).2.1]
      · exact absurd (h.tasks_lt _ task hi) ((hnew turn hm).1 ▸ Nat.lt_irrefl _)
  · intro i task hi
    rcases hold i task hi with ⟨-, -, heq⟩ | hi
    · rw [heq]
      rcases hstage with rfl | rfl <;> trivial
    · exact (h.stages i task hi).mono hle fun p hp => hk ▸ List.mem_append_left _ hp
  · intro other hpos
    by_cases hl : other = library
    · refine .inl ⟨s.nextTask, _, by rw [htasks, Function.update_self], rfl, ?_⟩
      rw [hg, if_pos hl, hl]
      rcases hstage with rfl | rfl <;> rfl
    · have hsame : t.generation other = s.generation other := by rw [hg, if_neg hl]
      refine (h.released other (hsame ▸ hpos)).frame_tasks ⟨hsame, fun cid => isFree_of_append hk hsame, ?_,
        ⟨turns, hturns, ?_⟩, ?_⟩ ?_
      · rw [hpins]
        exact fun _ _ => id
      · rintro turn hm cid - ⟨-, cids, hjob, -⟩
        exact (hnew turn hm).2.2 cids hjob
      · intro e cid hn
        rw [storedItem6, hcontent]
        exact hn
      · intro i task hi _
        rw [htasks, Function.update_of_ne (Nat.ne_of_lt (h.tasks_lt i task hi)), hi]

theorem Fenced.changePolicy (h : s.Fenced) (library : String) (policy : Option EffectivePolicy) :
    (s.changePolicy library policy).Fenced := by
  rw [BlobHolds.changePolicy]
  split
  case h_1 => exact h.bump rfl rfl (.inl rfl) rfl (List.append_nil _).symm nofun (List.append_nil _).symm nofun rfl rfl
  case h_2 avatar havatar =>
    split
    · refine h.bump rfl rfl (.inl rfl) rfl (List.append_nil _).symm nofun rfl ?_ rfl rfl
      intro p hp
      rw [List.mem_singleton.mp hp]
      exact ⟨rfl, rfl⟩
    · refine h.bump rfl rfl (.inr rfl) rfl rfl ?_ (List.append_nil _).symm nofun rfl rfl
      intro turn hm
      rw [List.mem_singleton.mp hm]
      exact ⟨rfl, rfl, nofun⟩

theorem Fenced.step {concurrency : ℕ} {l : Label} (h : s.Fenced) (hl : s.Careful l)
    (hs : s.step concurrency l = some t) : t.Fenced := by
  cases l with
  | merges library live | labelled library track labels | announces library avatar =>
    cases hs
    exact h.world fun _ _ => id
  | stores entry content =>
    cases hs
    refine h.world fun e fields hf => ?_
    rw [hf]
    rfl
  | entries library entries | keepAvatar library | labelsChanged libraries tracks =>
    cases hs
    exact h.startTask _ _ trivial
  | policyChanged library policy =>
    cases hs
    exact h.changePolicy library policy
  | registers library entry =>
    cases hs
    exact h.startTask _ _ (Nat.le_refl (s.generation library))
  | advance i =>
    obtain ⟨task, hi, hs⟩ := Option.bind_eq_some_iff.mp hs
    obtain ⟨m, hm, rfl⟩ := Option.map_eq_some_iff.mp hs
    exact h.makeMove hi (hl task hi) hm
  | pins i isLocal =>
    obtain ⟨task, hi, hs⟩ := Option.bind_eq_some_iff.mp hs
    exact h.pinsNext hi (fun library read cids => hl task library read cids hi) hs
  | fails i =>
    obtain ⟨-, ⟨⟩⟩ := Option.ite_none_right_eq_some.mp hs
    exact h.abandon hl
  | turn isLocal =>
    simp only [BlobHolds.step] at hs
    split at hs
    case h_1 => cases hs
    case h_2 turn turns hturns =>
      cases hs
      exact h.takeTurn hturns isLocal
  | turnFails =>
    simp only [BlobHolds.step] at hs
    split at hs
    case h_1 => cases hs
    case h_2 turn turns hturns =>
      cases hs
      refine h.turnFails hturns (hl turn ?_)
      rw [hturns]
      rfl
  | keeper label =>
    simp only [BlobHolds.step] at hs
    split at hs
    case h_1 | h_2 | h_3 => cases hs
    case h_4 cid =>
      obtain ⟨attempt, ha, hs⟩ := Option.bind_eq_some_iff.mp hs
      obtain ⟨keeper, hkeeper, rfl⟩ := Option.map_eq_some_iff.mp hs
      have hfound : StageFits s.generation s.kept (.landing (s.keeper.records attempt.job)) :=
        h.keeper.libraries attempt.job
      refine (h.startTask .landing [] hfound).setKeeper ?_ ?_
      · exact BlobKeeper.generations_step (by rintro _ ⟨⟩) hkeeper
      · exact h.keeper.step (by rintro _ _ _ ⟨⟩) hkeeper
    case h_5 hwant hpolicy hlands hfetched =>
      obtain ⟨keeper, hkeeper, rfl⟩ := Option.map_eq_some_iff.mp hs
      refine h.setKeeper ?_ ?_
      · exact BlobKeeper.generations_step hpolicy hkeeper
      · exact h.keeper.step (fun cid address pinned heq => absurd heq (hwant cid address pinned)) hkeeper

theorem fenced_initial (h : s.Initial) : s.Fenced := by
  obtain ⟨hkeeper, hturns, htasks, hkept⟩ := h
  refine ⟨?_, hkeeper ▸ BlobKeeper.Asks.create, ?_, ?_, ?_, ?_, ?_⟩
  · simp [hkept]
  · simp [htasks]
  · simp [hturns]
  · simp [hturns]
  · simp [htasks]
  · intro library hpos
    rw [generation, hkeeper] at hpos
    exact absurd hpos (Nat.lt_irrefl 0)

/-- Once a policy has changed and everything has settled, a careful run has pinned no blob that no decision
under the policy now in force keeps. -/
theorem earlier_policy_pins_nothing {concurrency : ℕ} {s : BlobHolds}
    (h : Run (fun s => step s concurrency) Initial Careful s) (hsettled : s.Settled) {library cid : String}
    (hchanged : 0 < s.generation library) (hfree : s.IsFree library cid) : cid ∉ s.pins library := by
  have hfenced : s.Fenced := h.invariant (fun _ => fenced_initial) fun _ _ _ ih hl hs => ih.step hl hs
  rcases hfenced.released library hchanged with ⟨i, task, hi, -⟩ | ⟨before, turn, after, hturns, -⟩ | hnone
  · rw [hsettled.2] at hi
    cases hi
  · rw [hsettled.1] at hturns
    cases before <;> cases hturns
  · exact fun hp => hnone cid hfree (.inl hp)

/-! ## Runs that show both -/

theorem length_zeros : (List.replicate 64 (0 : UInt8)).length = 64 :=
  List.length_replicate

def linkedTrack : VerifiedEntry where
  digest := ⟨List.replicate 64 0, length_zeros⟩
  bytes := []
  entry := ⟨"linked", .null, [], [], ⟨"owner", 1⟩, "owner", "sig"⟩
  operation := .track ⟨⟨bytesToHex (List.replicate 32 0), isHex64_bytesToHex ⟨_, List.length_replicate⟩⟩, 1, "bafycontent"⟩ none

/-- A linked library in full, with one track whose content is stored. -/
def linked (pins : OrderedSet String) : BlobHolds where
  keeper := .create
  own _ := false
  policies _ := some ⟨.full, none⟩
  live _ := [linkedTrack]
  content _ := some [("hash", .string "bafkaudio"), ("artwork", .array [])]
  labels _ _ := []
  avatars _ := none
  pins _ := pins
  turns := []
  tasks _ := none
  nextTask := 0
  kept := []

theorem initial_linked (pins : OrderedSet String) : (linked pins).Initial := ⟨rfl, rfl, fun _ => rfl, rfl⟩

/-- The policy changes while the hold of a track is in its turn, and the hold comes back to want the blob. -/
def lateWant : List Label :=
  [.entries "linked" [linkedTrack], .advance 0, .advance 0, .advance 0, .turn false,
    .policyChanged "linked" (some ⟨.indexOnly, none⟩), .advance 1, .turn false, .advance 0, .advance 0, .advance 0,
    .keeper .pump, .advance 1, .advance 1, .advance 1, .turn false, .turn false, .advance 1, .advance 1, .advance 1,
    .advance 1, .advance 1, .advance 1, .advance 1]

/-- The fetch of the blob is found complete and lands. -/
def lateLanding : List Label :=
  [.keeper (.fetched "bafkaudio"), .advance 2, .advance 2, .turn true, .turn true, .advance 2, .advance 2,
    .keeper (.settles "bafkaudio")]

/-- The late want is of the new generation, and pins a blob that the new policy never kept. -/
theorem earlier_policy_pins_after_change :
    ∃ s, runLabels (fun s => step s 4) (linked .empty) (lateWant ++ lateLanding) = some s ∧ s.Settled ∧
      s.keeper.running.items = [] ∧ s.generation "linked" = 1 ∧ s.IsFree "linked" "bafkaudio" ∧
      "bafkaudio" ∈ s.pins "linked" := by
  refine ⟨_, rfl, ⟨rfl, ?_⟩, rfl, rfl, ?_, ?_⟩
  · rintro (_ | _ | _ | i) <;> rfl
  · change ("linked", 1, "bafkaudio") ∉ [("linked", 0, "bafkaudio")]
    decide
  · exact List.mem_singleton_self _

/-- A policy change to the index only, from its first step to its last. -/
def indexOnly : List Label :=
  [.policyChanged "linked" (some ⟨.indexOnly, none⟩), .advance 0, .advance 0, .advance 0, .advance 0, .turn true,
    .turn true, .turn true, .advance 0, .advance 0, .advance 0, .advance 0, .advance 0, .advance 0, .advance 0]

/-- A change to the index only releases the pinned blob of a track. -/
theorem earlier_policy_pins_nothing_index_only :
    ∃ s, runLabels (fun s => step s 4) (linked (OrderedSet.empty.add "bafkaudio")) indexOnly = some s ∧
      s.Settled ∧ s.generation "linked" = 1 ∧ s.IsFree "linked" "bafkaudio" ∧ "bafkaudio" ∉ s.pins "linked" := by
  have hchanged : Run (fun s => step s 4) Initial Careful _ :=
    .next (.policyChanged "linked" (some ⟨.indexOnly, none⟩))
      (.start (initial_linked (OrderedSet.empty.add "bafkaudio"))) trivial rfl
  have hlive := hchanged.next (.advance 0) (by
    rintro task ⟨⟩ - cid - (hp | ⟨turn, hm, -⟩)
    · exact ⟨linkedTrack, List.mem_singleton_self _, _, _, rfl, hp⟩
    · cases hm) rfl
  have hread := hlive.next (.advance 0) (by rintro task ⟨⟩; trivial) rfl
  have hjudged := hread.next (.advance 0) (by rintro task ⟨⟩; trivial) rfl
  have hqueued := hjudged.next (.advance 0) (by rintro task ⟨⟩; trivial) rfl
  have hbegun := hqueued.next (.turn true) (by exact trivial) rfl
  have hfreed := hbegun.next (.turn true) (by exact trivial) rfl
  have hreleased := hfreed.next (.turn true) (by exact trivial) rfl
  have hcall := hreleased.next (.advance 0) (by rintro task ⟨⟩; trivial) rfl
  have hkeeping := hcall.next (.advance 0) (by rintro task ⟨⟩; trivial) rfl
  have hoffering := hkeeping.next (.advance 0) (by rintro task ⟨⟩; trivial) rfl
  have hrefused := hoffering.next (.advance 0) (by rintro task ⟨⟩; trivial) rfl
  have hkept := hrefused.next (.advance 0) (by rintro task ⟨⟩; trivial) rfl
  have havatar := hkept.next (.advance 0) (by rintro task ⟨⟩; trivial) rfl
  have hended := havatar.next (.advance 0) (by rintro task ⟨⟩; trivial) rfl
  refine ⟨_, rfl, ⟨rfl, ?_⟩, rfl, List.not_mem_nil, ?_⟩
  · rintro (_ | i) <;> rfl
  · refine earlier_policy_pins_nothing hended ⟨rfl, ?_⟩ Nat.one_pos List.not_mem_nil
    rintro (_ | i) <;> rfl

end BlobHolds

end RecordNode
