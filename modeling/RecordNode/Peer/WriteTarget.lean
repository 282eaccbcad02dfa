import RecordNode.Encoding.Base58Buffers
import RecordNode.Entry.Records

/-! # Write targets and label writes

Which library a write goes to, and the label record a label write appends there. A
write that names no library has a default, and the defaults of a label write and of a
track write differ. What an oplog applies, what the index holds and what append
verification answers are read from the handle of the library. -/

namespace RecordNode

open Foundation

inductive PeerErrorCode where
  | invalid
  | notFound
  | conflict
  | forbidden
  | capabilityExpired
  | capabilityRevoked
deriving DecidableEq, Repr

/-- What a method of the peer throws. -/
inductive PeerFailure where
  | peer (code : PeerErrorCode) (message : String)
  | protocol (error : ProtocolError)
  | other (message : String)
deriving DecidableEq, Repr

abbrev PeerResult (α : Type*) := Except PeerFailure α

/-- The pairs one label record sets and unsets. -/
structure LabelDiff where
  set : List (String × String)
  unset : List (String × String)
deriving DecidableEq

def LabelDiff.isEmpty (diff : LabelDiff) : Bool := diff.set.length + diff.unset.length == 0

/-- An open library. -/
structure LibraryHandle where
  type : LibraryType
  writeList : List String
  /-- The current entry for a pair of a track id and a label is a label record that sets it. -/
  applied : String → String → Bool
  /-- The index's label rows for a track id. -/
  indexed : String → List String
  /-- Whether a label record under a capability verifies, as append does it. -/
  verifies : LabelDiff → Option String → Checked Unit

structure PeerContext where
  /-- The identity's key, once the peer is started. -/
  publicKey : Option String
  /-- The identity library's records of own libraries, with whether each is retired; `none` while it is not open. -/
  recorded : Option (OrderedMap String Bool)
  libraries : String → Option LibraryHandle
  stopping : Bool

structure OwnLibrary where
  address : String
  type : LibraryType
  retired : Bool

inductive WriteKind where
  | label
  | about
  | track
deriving DecidableEq

def WriteKind.describe : WriteKind → String
  | .track => "this write"
  | .label => "a label write"
  | .about => "a about write"

structure WriteTarget where
  address : String
  handle : LibraryHandle
  capabilityId : Option String

namespace PeerContext

def requireIdentity (context : PeerContext) : PeerResult String :=
  match context.publicKey with
  | some key => .ok key
  | none => .error (.other "the peer is not started")

def identityState (context : PeerContext) : PeerResult (OrderedMap String Bool) := do
  let _ ← context.requireIdentity
  match context.recorded with
  | some recorded => .ok recorded
  | none => .error (.other "the identity library is not open")

/-- A recorded library counts once it is open and lists the key. -/
def ownLibraries (context : PeerContext) : PeerResult (List OwnLibrary) := do
  let key ← context.requireIdentity
  let recorded ← context.identityState
  .ok (recorded.items.filterMap fun (address, retired) =>
    match context.libraries address with
    | some handle => if handle.writeList.contains key then some ⟨address, handle.type, retired⟩ else none
    | none => none)

def findOwnLibrary (context : PeerContext) (address : String) : PeerResult (Option OwnLibrary) := do
  .ok ((← context.ownLibraries).find? (·.address = address))

def activeOwnLibraries (context : PeerContext) (type : LibraryType) : PeerResult (List OwnLibrary) := do
  .ok ((← context.ownLibraries).filter fun library => library.type = type && !library.retired)

/-- The only active own recordstore. -/
def defaultWriteTarget (context : PeerContext) : PeerResult (Option String) := do
  match ← context.activeOwnLibraries .recordstore with
  | [library] => .ok (some library.address)
  | _ => .ok none

def labelsLibrary (context : PeerContext) : PeerResult (Option String) := do
  .ok ((← context.activeOwnLibraries .labels).head?.map OwnLibrary.address)

/-- Where a write of a kind goes that names no library. -/
def defaultAddress (context : PeerContext) (kind : WriteKind) : PeerResult (Option String) :=
  if kind = .label then context.labelsLibrary else context.defaultWriteTarget

/-- An own library, once retired, refuses new local writes. -/
def assertWritable (context : PeerContext) (address : String) : PeerResult Unit := do
  match ← context.findOwnLibrary address with
  | some library =>
    if library.retired then .error (.peer .conflict s!"library is retired: {address}") else .ok ()
  | none => .ok ()

def takes (type : LibraryType) (kind : WriteKind) : Bool :=
  type = .recordstore || (type = .labels && kind ≠ .track)

def resolveAddress (context : PeerContext) (libraryAddress : Option String) (kind : WriteKind) :
    PeerResult (Option String) :=
  match libraryAddress with
  | some address => .ok (some address)
  | none => context.defaultAddress kind

def resolveWriteTarget (context : PeerContext) (libraryAddress capabilityId : Option String) (kind : WriteKind) :
    PeerResult WriteTarget := do
  match ← context.resolveAddress libraryAddress kind with
  | none => .error (.peer .invalid (if kind = .label
      then "library_address is required: the identity has no active labels library"
      else "library_address is required: the identity has no single active own recordstore library"))
  | some address =>
    match context.libraries address with
    | none => .error (.peer .notFound s!"library not open: {address}")
    | some handle =>
      if takes handle.type kind then
        context.assertWritable address
        if handle.writeList.contains (← context.requireIdentity) then .ok ⟨address, handle, none⟩
        else match capabilityId with
          | none => .error (.peer .forbidden s!"not an owner of {address}, and no capability_id was given")
          | some id => .ok ⟨address, handle, some id⟩
      else .error (.peer .invalid s!"a {handle.type.name} library does not take {kind.describe}: {address}")

end PeerContext

/-! ## Label changes -/

structure LabelChange where
  add : Option (List String)
  remove : Option (List String)
  set : Option (List String)

section Labels
variable (E : Environment)

/-- A label normalised, then held to its bounds. -/
def normalLabel (label : String) : PeerResult String :=
  match assertLabel E (.string (E.normalizeNfc label)) with
  | .ok text => .ok text
  | .error error => .error (.peer .invalid error.message)

def normalLabels : Option (List String) → PeerResult (Option (List String))
  | none => .ok none
  | some labels => do .ok (some (← labels.mapM (normalLabel E)).eraseDups)

def checkedTrackId (trackId : String) : PeerResult String :=
  if isHex64 trackId then .ok trackId
  else .error (.peer .invalid s!"a track id is 64 lowercase hex chars: {trackId}")

def checkedLabelChange (change : LabelChange) : PeerResult LabelChange := do
  if change.add.isNone && change.remove.isNone && change.set.isNone then
    throw (.peer .invalid "a label change gives add, remove, or set")
  if change.set.isSome && (change.add.isSome || change.remove.isSome) then
    throw (.peer .invalid "set replaces the labels, so it excludes add and remove")
  let add ← normalLabels E change.add
  let remove ← normalLabels E change.remove
  let set ← normalLabels E change.set
  match (add.getD []).find? fun label => (remove.getD []).contains label with
  | some both => .error (.peer .invalid s!"a label is both added and removed: {both}")
  | none => .ok ⟨add, remove, set⟩

end Labels

/-- The labels a library applies to a track id, among the index's and those a change names. -/
def currentLabels (handle : LibraryHandle) (trackId : String) (change : LabelChange) : List String :=
  let candidates := handle.indexed trackId ++ change.add.getD [] ++ change.remove.getD [] ++ change.set.getD []
  candidates.eraseDups.filter (handle.applied trackId)

def nextLabels (current : List String) (change : LabelChange) : List String :=
  match change.set with
  | some labels => labels.eraseDups
  | none => ((current.filter fun label => !(change.remove.getD []).contains label) ++ change.add.getD []).eraseDups

def labelDiff (trackId : String) (before after : List String) : LabelDiff where
  set := (after.filter fun label => !before.contains label).map (trackId, ·)
  unset := (before.filter fun label => !after.contains label).map (trackId, ·)

/-- In the order of their UTF-16 code units. -/
def sorted (labels : List String) : List String :=
  labels.insertionSort fun a b => Base58.charCodes a ≤ Base58.charCodes b

inductive LabelBatchResult where
  | unchanged (trackId : String) (tags : List String)
  | updated (trackId : String) (tags : List String)
  | failed (trackId : String) (code message : String)

/-- A capability refusal from append verification, as the API reports it. -/
def asWriteRefusal (error : ProtocolError) : PeerFailure :=
  match error.code with
  | .capabilityExpired => .peer .capabilityExpired error.message
  | .capabilityRevoked => .peer .capabilityRevoked error.message
  | .capabilityDenied | .unauthorisedWriter => .peer .forbidden error.message
  | _ => .protocol error

/-- The API code a failed item of a batch is reported under, for the refusals that fail one item alone. -/
def batchItemCode : PeerErrorCode → Option String
  | .forbidden => some "FORBIDDEN"
  | .capabilityExpired => some "CAPABILITY_EXPIRED"
  | .capabilityRevoked => some "CAPABILITY_REVOKED"
  | .invalid => some "VALIDATION_ERROR"
  | .notFound | .conflict => none

def batchItemFailure (trackId : String) (error : ProtocolError) : PeerResult LabelBatchResult :=
  match asWriteRefusal error with
  | .protocol refusal => .ok (.failed trackId "VALIDATION_ERROR" refusal.message)
  | .peer code message =>
    match batchItemCode code with
    | some api => .ok (.failed trackId api message)
    | none => .error (.peer code message)
  | .other message => .error (.other message)

/-- The label sets a batch has come to, by track id. -/
structure LabelBatch where
  before : OrderedMap String (List String)
  after : OrderedMap String (List String)
  results : List LabelBatchResult

namespace LabelBatch

def create : LabelBatch := ⟨.empty, .empty, []⟩

/-- One item, on what the items before it left; where several are made under a capability, each is checked alone. -/
def item (target : WriteTarget) (checked : Bool) (batch : LabelBatch) (trackId : String) (change : LabelChange) :
    PeerResult LabelBatch := do
  let current := (batch.after.get trackId).getD (currentLabels target.handle trackId change)
  let before := if batch.before.has trackId then batch.before else batch.before.set trackId current
  let next := nextLabels current change
  let diff := labelDiff trackId current next
  if diff.isEmpty then
    return ⟨before, batch.after.set trackId current, batch.results ++ [.unchanged trackId (sorted current)]⟩
  if checked then
    match target.handle.verifies diff target.capabilityId with
    | .error error =>
      let failed ← batchItemFailure trackId error
      return ⟨before, batch.after.set trackId current, batch.results ++ [failed]⟩
    | .ok () => pure ()
  return ⟨before, batch.after.set trackId next, batch.results ++ [.updated trackId (sorted next)]⟩

/-- The one record the batch comes to. -/
def diff (batch : LabelBatch) : LabelDiff :=
  let diffs := batch.after.items.map fun (trackId, labels) =>
    labelDiff trackId ((batch.before.get trackId).getD []) labels
  ⟨diffs.flatMap LabelDiff.set, diffs.flatMap LabelDiff.unset⟩

end LabelBatch

/-- A label write up to its append: the target, the record and the answers. -/
def writeLabels (context : PeerContext) (items : List (String × LabelChange)) (libraryAddress capabilityId : Option String) :
    PeerResult (WriteTarget × LabelDiff × List LabelBatchResult) := do
  let target ← context.resolveWriteTarget libraryAddress capabilityId .label
  let checked := target.capabilityId.isSome && items.length > 1
  let batch ← items.foldlM (fun batch item => batch.item target checked item.1 item.2) LabelBatch.create
  .ok (target, batch.diff, batch.results)

/-! ## Where a write ends up -/

theorem resolveWriteTarget_address {context : PeerContext} {libraryAddress capabilityId : Option String} {kind : WriteKind}
    {target : WriteTarget} (h : context.resolveWriteTarget libraryAddress capabilityId kind = .ok target) :
    context.resolveAddress libraryAddress kind = .ok (some target.address) := by
  unfold PeerContext.resolveWriteTarget at h
  cases ha : context.resolveAddress libraryAddress kind with
  | error failure => simp [ha, bind, Except.bind] at h
  | ok resolved =>
    cases resolved with
    | none => simp [ha, bind, Except.bind] at h
    | some address =>
      simp only [ha, bind, Except.bind] at h
      split at h
      · simp at h
      · split at h
        · split at h
          · simp at h
          · split at h
            · simp at h
            · split at h
              · obtain rfl := Except.ok.inj h
                rfl
              · split at h
                · simp at h
                · obtain rfl := Except.ok.inj h
                  rfl
        · simp at h

theorem writeLabels_target {context : PeerContext} {items : List (String × LabelChange)}
    {libraryAddress capabilityId : Option String} {target : WriteTarget} {diff : LabelDiff} {results : List LabelBatchResult}
    (h : writeLabels context items libraryAddress capabilityId = .ok (target, diff, results)) :
    context.resolveAddress libraryAddress .label = .ok (some target.address) := by
  unfold writeLabels at h
  cases ht : context.resolveWriteTarget libraryAddress capabilityId .label with
  | error failure => simp [ht, bind, Except.bind] at h
  | ok resolved =>
    simp only [ht, bind, Except.bind] at h
    split at h
    · simp at h
    · obtain rfl : resolved = target := (Prod.mk.inj (Except.ok.inj h)).1
      exact resolveWriteTarget_address ht

end RecordNode
