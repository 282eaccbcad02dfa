import RecordNode.Foundation.Json
import RecordNode.Api.Authenticator
import RecordNode.Peer.WriteTarget

/-! # Node-managed label libraries

A configuration names libraries whose labels only one access token may write. The
routes that write labels check the address a request names; the library the write
goes to is resolved later, from the identity's state. Between the steps of a request
the identity, the open libraries and their oplogs may change in any way: by other
requests, by replication, by a retirement. A label write waits for its turn in the
queue of writes and a track with labels for its turn among the ingests; the turns are
left open here. -/

namespace RecordNode

open Foundation

/-! ## The configuration -/

/-- `/^[0-9a-f]{12}$/`. -/
def isTokenId (text : String) : Bool := text.toList.length == 12 && text.toList.all isLowerHex

/-- One entry of `managed_label_libraries`. -/
def managedEntry (E : Environment) : String × Json → Except String (String × String)
  | (address, tokenId) =>
    if isLibraryAddress E address then
      match tokenId with
      | .string id =>
        if isTokenId id then .ok (address, id)
        else .error s!"managed_label_libraries[{address}] must be an access-token id"
      | _ => .error s!"managed_label_libraries[{address}] must be an access-token id"
    else .error s!"managed_label_libraries names an invalid library address: {address}"

/-- The map the configuration gives, or what refuses the configuration. -/
def managedLabelLibrariesOf (E : Environment) : Option Json → Except String (OrderedMap String String)
  | none => .ok .empty
  | some (.object fields) => do
    -- Of two properties with one name the last counts.
    let object : OrderedMap String Json := fields.foldl (fun object field => object.set field.1 field.2) .empty
    let entries ← object.items.mapM (managedEntry E)
    .ok (entries.foldl (fun managed entry => managed.set entry.1 entry.2) .empty)
  | some _ => .error "managed_label_libraries must map library addresses to access-token ids"

/-! ## The middleware -/

/-- `/^Bearer (.+)$/i`, on a header. -/
def bearerToken (header : Option String) : Option String :=
  let text := (header.getD "").toList
  if (text.take 7).map Char.toLower = "bearer ".toList ∧ text.drop 7 ≠ [] then some (String.ofList (text.drop 7)) else none

/-- A request on a listener, and the hashes its checks of the token read. -/
structure ApiRequest where
  /-- The remote listener requires a token; the loopback one does not. -/
  remote : Bool
  authorization : Option String
  authenticateHashes : List (String × String)
  identifyHashes : List (String × String)

namespace ApiRequest
variable (E : Environment)

/-- The token's id, `none` for a request that presents none, or a refusal. -/
def authenticateRequests (request : ApiRequest) : Except String (Option String) :=
  let token := bearerToken request.authorization
  if request.remote && !(Authenticator.answer E request.authenticateHashes (.authenticate token)).accepts then
    .error "a valid bearer token is required"
  else match token with
    | none => .ok none
    | some token =>
      match Authenticator.identify E token request.identifyHashes with
      | none => .error "the bearer token is not a valid access token"
      | some id => .ok (some id)

/-- The request presents the access token with this id. -/
def Presents (request : ApiRequest) (id : String) : Prop :=
  ∃ token, bearerToken request.authorization = some token ∧ Authenticator.identify E token request.identifyHashes = some id

end ApiRequest

/-- A label write to a managed library is let through only with the library's token. -/
def assertLabelWriter (managed : OrderedMap String String) (tokenId libraryAddress : Option String) : Except String Unit :=
  match libraryAddress with
  | none => .ok ()
  | some address =>
    match managed.get address with
    | none => .ok ()
    | some id =>
      if tokenId = some id then .ok ()
      else .error s!"the node manages the labels of {address}; only its access token may write them"

/-! ## The routes -/

/-- The routes that write labels. -/
inductive LabelRoute where
  /-- `POST /tracks`. -/
  | addTrack (contentCid : String) (tags : Option (List String)) (libraryAddress capabilityId : Option String)
  /-- `PATCH /tracks/:id/tags`. -/
  | changeLabels (trackId : String) (change : LabelChange) (libraryAddress capabilityId : Option String)
  /-- `POST /tags/batch`. -/
  | changeLabelsBatch (items : List (String × LabelChange)) (libraryAddress capabilityId : Option String)
  /-- `POST /tags`. -/
  | addTag (trackId tag : String) (libraryAddress capabilityId : Option String)
  /-- `DELETE /tags`. -/
  | removeTag (trackId tag : String) (libraryAddress capabilityId : Option String)

namespace LabelRoute

def libraryAddress : LabelRoute → Option String
  | addTrack _ _ libraryAddress _ | changeLabels _ _ libraryAddress _ | changeLabelsBatch _ libraryAddress _
  | addTag _ _ libraryAddress _ | removeTag _ _ libraryAddress _ => libraryAddress

def capabilityId : LabelRoute → Option String
  | addTrack _ _ _ capabilityId | changeLabels _ _ _ capabilityId | changeLabelsBatch _ _ capabilityId
  | addTag _ _ _ capabilityId | removeTag _ _ _ capabilityId => capabilityId

/-- The route asks the guard; a track without tags writes no labels. -/
def guarded : LabelRoute → Bool
  | addTrack _ tags _ _ => tags.isSome
  | _ => true

/-- The checked items of a label write. -/
def items (E : Environment) : LabelRoute → PeerResult (List (String × LabelChange))
  | addTrack .. => .ok []
  | changeLabels trackId change _ _ => do .ok [(← checkedTrackId trackId, ← checkedLabelChange E change)]
  | changeLabelsBatch items _ _ =>
    items.mapM fun item => do .ok (← checkedTrackId item.1, ← checkedLabelChange E item.2)
  | addTag trackId tag _ _ => do .ok [(← checkedTrackId trackId, ← checkedLabelChange E ⟨some [tag], none, none⟩)]
  | removeTag trackId tag _ _ => do .ok [(← checkedTrackId trackId, ← checkedLabelChange E ⟨none, some [tag], none⟩)]

end LabelRoute

/-- The label change `tags` of a track asks for. -/
def tagsChange (E : Environment) : Option (List String) → PeerResult (Option LabelChange)
  | none => .ok none
  | some tags => do .ok (some (← checkedLabelChange E ⟨none, none, some tags⟩))

inductive LabelPhase where
  /-- In the queue of writes, its target not yet resolved. -/
  | queued (items : List (String × LabelChange)) (libraryAddress capabilityId : Option String)
  /-- Among the ingests, with its target and the labels it sets. -/
  | ingesting (target : WriteTarget) (change : Option LabelChange)
  /-- Its record is on its way to the target's oplog. -/
  | appending (target : WriteTarget) (diff : LabelDiff)

structure LabelWrite where
  request : ApiRequest
  phase : LabelPhase

/-- A label record in an oplog, and the request that appended it. -/
structure AppendedLabels where
  library : String
  diff : LabelDiff
  request : ApiRequest

structure LabelApi where
  context : PeerContext
  writes : ℕ → Option LabelWrite
  appended : List AppendedLabels

namespace LabelApi

inductive Label where
  /-- The identity, the libraries and what they hold come to be these. -/
  | changes (context : PeerContext)
  | request (i : ℕ) (request : ApiRequest) (route : LabelRoute)
  /-- A queued write has its turn. -/
  | resolves (i : ℕ)
  /-- An ingest has its turn: its target's oplog by then, and the id of the track the content names. -/
  | commits (i : ℕ) (handle : LibraryHandle) (trackId : String)
  | appends (i : ℕ)
  /-- Append verification, the content or the store fails the write. -/
  | fails (i : ℕ)

section Step
variable (E : Environment) (managed : OrderedMap String String)

def setWrite (s : LabelApi) (i : ℕ) (write : Option LabelWrite) : LabelApi :=
  { s with writes := Function.update s.writes i write }

/-- The middleware, the guard and the handler up to its first wait. -/
def handle (s : LabelApi) (request : ApiRequest) (route : LabelRoute) : Option LabelPhase :=
  match request.authenticateRequests E with
  | .error _ => none
  | .ok tokenId =>
    match if route.guarded then assertLabelWriter managed tokenId route.libraryAddress else .ok () with
    | .error _ => none
    | .ok () =>
      match route with
      | .addTrack _ tags libraryAddress capabilityId =>
        match tagsChange E tags with
        | .error _ => none
        | .ok change =>
          match s.context.resolveWriteTarget libraryAddress capabilityId .track with
          | .error _ => none
          | .ok target => if s.context.stopping then none else some (.ingesting target change)
      | _ =>
        match route.items E with
        | .error _ => none
        | .ok items => if s.context.stopping then none else some (.queued items route.libraryAddress route.capabilityId)

def step (s : LabelApi) : Label → Option LabelApi
  | .changes context => some { s with context := context }
  | .request i request route =>
    match s.writes i with
    | some _ => none
    | none => some (s.setWrite i ((s.handle E managed request route).map fun phase => ⟨request, phase⟩))
  | .resolves i => (s.writes i).bind fun write =>
    match write.phase with
    | .queued items libraryAddress capabilityId =>
      match writeLabels s.context items libraryAddress capabilityId with
      | .ok (target, diff, _) =>
        some (s.setWrite i (if diff.isEmpty then none else some { write with phase := .appending target diff }))
      | .error _ => some (s.setWrite i none)
    | _ => none
  | .commits i handle trackId => (s.writes i).bind fun write =>
    match write.phase with
    | .ingesting target change =>
      match s.context.assertWritable target.address, change with
      | .ok (), some change =>
        let current := currentLabels handle trackId change
        let diff := labelDiff trackId current (nextLabels current change)
        some (s.setWrite i (if diff.isEmpty then none else some { write with phase := .appending target diff }))
      | _, _ => some (s.setWrite i none)
    | _ => none
  | .appends i => (s.writes i).bind fun write =>
    match write.phase with
    | .appending target diff =>
      some { s.setWrite i none with appended := s.appended ++ [⟨target.address, diff, write.request⟩] }
    | _ => none
  | .fails i => (s.writes i).map fun _ => s.setWrite i none

/-- The library is not managed, or the request presents its token. -/
def Allowed (request : ApiRequest) (address : String) : Prop :=
  ∀ id, managed.get address = some id → request.Presents E id

/-- A request that writes labels and names no library comes, where it defaults to one, to a library it
may write: one that is not managed, or that it presents the token of. -/
def Careful (s : LabelApi) : Label → Prop
  | .request _ request (.addTrack _ (some _) none _) =>
    ∀ address, s.context.defaultWriteTarget = .ok (some address) → Allowed E managed request address
  | .resolves i => ∀ write items capabilityId, s.writes i = some write → write.phase = .queued items none capabilityId →
    ∀ address, s.context.labelsLibrary = .ok (some address) → Allowed E managed write.request address
  | _ => True

end Step

/-- A node that has handled no request. -/
def Initial (s : LabelApi) : Prop := (∀ i, s.writes i = none) ∧ s.appended = []

variable {E : Environment} {managed : OrderedMap String String} {s t : LabelApi}

/-! ## The guard -/

theorem presents_of_authenticated {request : ApiRequest} {id : String}
    (h : request.authenticateRequests E = .ok (some id)) : request.Presents E id := by
  unfold ApiRequest.authenticateRequests at h
  simp only at h
  split at h
  · simp at h
  · split at h
    · simp at h
    · rename_i token htoken
      split at h
      · simp at h
      · rename_i named hnamed
        obtain rfl : named = id := Option.some_inj.mp (Except.ok.inj h)
        exact ⟨token, htoken, hnamed⟩

/-- Past the guard, the library the request names is one it may write. -/
theorem allowed_of_asserted {request : ApiRequest} {tokenId : Option String} {address : String}
    (ha : request.authenticateRequests E = .ok tokenId)
    (h : assertLabelWriter managed tokenId (some address) = .ok ()) : Allowed E managed request address := by
  intro id hid
  simp only [assertLabelWriter, hid] at h
  split at h
  · rename_i htoken
    subst htoken
    exact presents_of_authenticated ha
  · simp at h

/-! ## What a write in progress may do -/

/-- A write that can append a label record goes to a library its request may write. -/
def Fenced (E : Environment) (managed : OrderedMap String String) (write : LabelWrite) : Prop :=
  match write.phase with
  | .queued _ libraryAddress _ => ∀ address, libraryAddress = some address → Allowed E managed write.request address
  | .ingesting target change => change.isSome = true → Allowed E managed write.request target.address
  | .appending target _ => Allowed E managed write.request target.address

structure Guarded (E : Environment) (managed : OrderedMap String String) (s : LabelApi) : Prop where
  writes : ∀ i write, s.writes i = some write → Fenced E managed write
  appended : ∀ record ∈ s.appended, Allowed E managed record.request record.library

theorem Guarded.setWrite (k : Guarded E managed s) (i : ℕ) {write : Option LabelWrite}
    (h : ∀ w, write = some w → Fenced E managed w) : Guarded E managed (s.setWrite i write) where
  writes j w hj := by
    simp only [LabelApi.setWrite, Function.update_apply] at hj
    split at hj
    · exact h w hj
    · exact k.writes j w hj
  appended := k.appended

/-- A track on its way to be ingested with labels was let through by the guard, or was careful. -/
theorem fenced_addTrack {request : ApiRequest} {tokenId : Option String} {tags : Option (List String)}
    {libraryAddress capabilityId : Option String} {change : Option LabelChange} {target : WriteTarget} {contentCid : String}
    (i : ℕ) (hcareful : Careful E managed s (.request i request (.addTrack contentCid tags libraryAddress capabilityId)))
    (ha : request.authenticateRequests E = .ok tokenId)
    (hguard : (if tags.isSome then assertLabelWriter managed tokenId libraryAddress else .ok ()) = .ok ())
    (hchange : tagsChange E tags = .ok change)
    (ht : s.context.resolveWriteTarget libraryAddress capabilityId .track = .ok target) :
    Fenced E managed ⟨request, .ingesting target change⟩ := by
  intro hsome
  have htarget := resolveWriteTarget_address ht
  cases tags with
  | none =>
    obtain rfl := Except.ok.inj hchange
    simp at hsome
  | some tags =>
    cases libraryAddress with
    | some address =>
      obtain rfl : address = target.address := Option.some_inj.mp (Except.ok.inj htarget)
      exact allowed_of_asserted ha hguard
    | none => exact hcareful target.address htarget

theorem fenced_of_handled {request : ApiRequest} {route : LabelRoute} {phase : LabelPhase} (i : ℕ)
    (hcareful : Careful E managed s (.request i request route)) (h : s.handle E managed request route = some phase) :
    Fenced E managed ⟨request, phase⟩ := by
  unfold LabelApi.handle at h
  split at h
  · simp at h
  · rename_i tokenId ha
    split at h
    · simp at h
    · rename_i hguard
      split at h
      · rename_i contentCid tags libraryAddress capabilityId
        split at h
        · simp at h
        · rename_i change hchange
          split at h
          · simp at h
          · rename_i target ht
            obtain ⟨-, ⟨⟩⟩ := Option.ite_none_left_eq_some.mp h
            exact fenced_addTrack i hcareful ha hguard hchange ht
      · rename_i hroute
        split at h
        · simp at h
        · obtain ⟨-, ⟨⟩⟩ := Option.ite_none_left_eq_some.mp h
          intro address haddress
          refine allowed_of_asserted ha ?_
          have hguarded : route.guarded = true := by
            cases route with
            | addTrack contentCid tags libraryAddress capabilityId => exact absurd rfl (hroute _ _ _ _)
            | _ => rfl
          rw [hguarded, if_pos rfl, haddress] at hguard
          exact hguard

/-- A queued write comes to the library it names, or to the labels library. -/
theorem fenced_of_resolved {write : LabelWrite} {items : List (String × LabelChange)}
    {libraryAddress capabilityId : Option String} {target : WriteTarget} {diff : LabelDiff}
    {results : List LabelBatchResult} (i : ℕ) (hwrite : s.writes i = some write)
    (hp : write.phase = .queued items libraryAddress capabilityId) (hf : Fenced E managed write)
    (hcareful : Careful E managed s (.resolves i))
    (h : writeLabels s.context items libraryAddress capabilityId = .ok (target, diff, results)) :
    Fenced E managed { write with phase := .appending target diff } := by
  have htarget := writeLabels_target h
  simp only [Fenced, hp] at hf
  cases libraryAddress with
  | some address =>
    obtain rfl : address = target.address := Option.some_inj.mp (Except.ok.inj htarget)
    exact hf _ rfl
  | none => exact hcareful write items capabilityId hwrite hp target.address htarget

theorem step_guarded {l : Label} (k : Guarded E managed s) (hl : Careful E managed s l)
    (hs : step E managed s l = some t) : Guarded E managed t := by
  cases l with
  | changes context =>
    obtain rfl := Option.some_inj.mp hs
    exact ⟨k.writes, k.appended⟩
  | request i request route =>
    simp only [step] at hs
    split at hs
    · simp at hs
    · obtain rfl := Option.some_inj.mp hs
      refine k.setWrite i fun w hw => ?_
      obtain ⟨phase, hphase, rfl⟩ := Option.map_eq_some_iff.mp hw
      exact fenced_of_handled i hl hphase
  | resolves i =>
    obtain ⟨write, hwrite, hs⟩ := Option.bind_eq_some_iff.mp hs
    split at hs
    · rename_i items libraryAddress capabilityId hp
      split at hs
      · rename_i target diff results hresolved
        obtain rfl := Option.some_inj.mp hs
        refine k.setWrite i fun w hw => ?_
        obtain ⟨-, ⟨⟩⟩ := Option.ite_none_left_eq_some.mp hw
        exact fenced_of_resolved i hwrite hp (k.writes i write hwrite) hl hresolved
      · obtain rfl := Option.some_inj.mp hs
        exact k.setWrite i (by simp)
    · simp at hs
  | commits i handle trackId =>
    obtain ⟨write, hwrite, hs⟩ := Option.bind_eq_some_iff.mp hs
    split at hs
    · rename_i target change hp
      have hf := k.writes i write hwrite
      simp only [Fenced, hp] at hf
      split at hs
      · obtain rfl := Option.some_inj.mp hs
        refine k.setWrite i fun w hw => ?_
        obtain ⟨-, ⟨⟩⟩ := Option.ite_none_left_eq_some.mp hw
        exact hf rfl
      · obtain rfl := Option.some_inj.mp hs
        exact k.setWrite i (by simp)
    · simp at hs
  | appends i =>
    obtain ⟨write, hwrite, hs⟩ := Option.bind_eq_some_iff.mp hs
    split at hs
    · rename_i target diff hp
      obtain rfl := Option.some_inj.mp hs
      have kw : Guarded E managed (s.setWrite i none) := k.setWrite i (by simp)
      have hf := k.writes i write hwrite
      simp only [Fenced, hp] at hf
      refine ⟨kw.writes, fun record hr => ?_⟩
      rcases List.mem_append.mp hr with hr | hr
      · exact k.appended record hr
      · rw [List.mem_singleton.mp hr]
        exact hf
    · simp at hs
  | fails i =>
    obtain ⟨write, -, rfl⟩ := Option.map_eq_some_iff.mp hs
    exact k.setWrite i (by simp)

/-- Whatever libraries are managed, in every state of every run in which each label write that names no
library comes to one it may write: a label record in a managed library was appended by a request that
presents the library's access token. -/
theorem managed_labels_written_by_token (h : Run (step E managed) Initial (Careful E managed) s) :
    ∀ record ∈ s.appended, ∀ id, managed.get record.library = some id → record.request.Presents E id := by
  have k : Guarded E managed s := by
    refine h.invariant ?_ fun _ _ _ k hl hs => step_guarded k hl hs
    rintro s ⟨hwrites, happended⟩
    exact ⟨fun i write hw => by simp [hwrites i] at hw, fun record hr => by simp [happended] at hr⟩
  exact k.appended

namespace Facets

def address : String := String.ofList ("/record/".toList ++ (List.replicate 95 'z' ++ "/facets".toList))

def library : LibraryHandle := ⟨.recordstore, ["key"], fun _ _ => false, fun _ => [], fun _ _ => .ok ()⟩

def context : PeerContext := ⟨some "key", some (.set .empty address false), fun _ => some library, false⟩

def before : LabelApi := ⟨context, fun _ => none, []⟩

/-- The one own recordstore is managed. -/
def tokens : OrderedMap String String := .set .empty address "0123456789ab"

def trackId : String := String.ofList (List.replicate 64 'a')

theorem isLibraryAddress_address : isLibraryAddress plainEnvironment address = true := by
  have hcid (l : List Char) : plainEnvironment.parsesCid (String.ofList l) = decide (l.length = 95) := by
    simp [plainEnvironment]
  have hlist : address.toList = "/record/".toList ++ (List.replicate 95 'z' ++ "/facets".toList) := String.toList_ofList
  unfold isLibraryAddress
  rw [hlist]
  generalize hl : "/record/".toList ++ (List.replicate 95 'z' ++ "/facets".toList) = l
  simp only [hcid]
  subst hl
  rfl

theorem tokens_accepted :
    managedLabelLibrariesOf plainEnvironment (some (.object [(address, .string "0123456789ab")])) = .ok tokens := by
  have hentry : managedEntry plainEnvironment (address, .string "0123456789ab") = .ok (address, "0123456789ab") := by
    rw [managedEntry, if_pos isLibraryAddress_address]
    rfl
  have hitems : [(address, Json.string "0123456789ab")].mapM (managedEntry plainEnvironment) =
      .ok [(address, "0123456789ab")] := by
    rw [List.mapM_cons, hentry]
    rfl
  simp only [managedLabelLibrariesOf, List.foldl_cons, List.foldl_nil]
  rw [show (OrderedMap.set .empty address (Json.string "0123456789ab")).items = [(address, .string "0123456789ab")] from rfl,
    hitems]
  rfl

def after (s : LabelApi) (labels : List Label) : LabelApi := (runLabels (step plainEnvironment tokens) s labels).getD s

/-- On the loopback listener, with the library's token. -/
def presented : ApiRequest :=
  ⟨false, some "Bearer secret", [], [("0123456789ab", Authenticator.tokenHash plainEnvironment "secret")]⟩

def queued : LabelApi :=
  before.setWrite 0 (some ⟨presented, .queued [(trackId, ⟨some ["house"], none, none⟩)] (some address) none⟩)

theorem authenticate_presented : presented.authenticateRequests plainEnvironment = .ok (some "0123456789ab") := by
  have htoken : bearerToken presented.authorization = some "secret" := rfl
  have hid : Authenticator.identify plainEnvironment "secret" presented.identifyHashes = some "0123456789ab" := by
    simp [Authenticator.identify, presented]
  unfold ApiRequest.authenticateRequests
  simp only [htoken, hid]
  rfl

theorem handle_presented : before.handle plainEnvironment tokens presented (.addTag trackId "house" (some address) none) =
    some (.queued [(trackId, ⟨some ["house"], none, none⟩)] (some address) none) := by
  have hhex : checkedTrackId trackId = .ok trackId := by
    have hlist : trackId.toList = List.replicate 64 'a' := String.toList_ofList
    rw [checkedTrackId, isHex64, hlist]
    rfl
  have hitems : LabelRoute.items plainEnvironment (.addTag trackId "house" (some address) none) =
      .ok [(trackId, ⟨some ["house"], none, none⟩)] := by
    rw [LabelRoute.items, hhex]
    rfl
  unfold LabelApi.handle
  rw [authenticate_presented]
  simp only [hitems]
  rfl

def tokenless : ApiRequest := ⟨false, none, [], []⟩

/-- A track that names no library, with labels and without a token. -/
def labels : List Label :=
  [.request 0 tokenless (.addTrack "c" (some ["house"]) none none), .commits 0 library trackId, .appends 0]

end Facets

open Facets in
/-- A request with its token writes a label to the managed library. -/
theorem managed_labels_written_by_token_facets : ∃ s record, Run (step plainEnvironment tokens) Initial
    (Careful plainEnvironment tokens) s ∧ record ∈ s.appended ∧ tokens.get record.library = some "0123456789ab" ∧
      record.request.Presents plainEnvironment "0123456789ab" := by
  have hstart : Run (step plainEnvironment tokens) Initial (Careful plainEnvironment tokens) before :=
    .start ⟨fun _ => rfl, rfl⟩
  have hqueued : Run (step plainEnvironment tokens) Initial (Careful plainEnvironment tokens) queued := by
    refine .next (.request 0 presented (.addTag trackId "house" (some address) none)) hstart trivial ?_
    simp only [step, handle_presented]
    rfl
  have hresolved : Run (step plainEnvironment tokens) Initial (Careful plainEnvironment tokens)
      (after queued [.resolves 0]) := by
    refine .next (.resolves 0) hqueued ?_ rfl
    intro write items capabilityId hwrite hphase
    obtain rfl := Option.some_inj.mp hwrite
    simp at hphase
  have happends : Run (step plainEnvironment tokens) Initial (Careful plainEnvironment tokens)
      (after (after queued [.resolves 0]) [.appends 0]) := .next (.appends 0) hresolved trivial rfl
  have happended : (after (after queued [.resolves 0]) [.appends 0]).appended =
      [⟨address, ⟨[(trackId, "house")], []⟩, presented⟩] := rfl
  have hmem : ⟨address, ⟨[(trackId, "house")], []⟩, presented⟩ ∈ (after (after queued [.resolves 0]) [.appends 0]).appended :=
    happended ▸ List.mem_cons_self
  have hmanaged : tokens.get address = some "0123456789ab" := by simp [tokens]
  exact ⟨_, _, happends, hmem, hmanaged, managed_labels_written_by_token happends _ hmem _ hmanaged⟩

open Facets in
/-- The configuration is accepted, and a request without a token writes a label to the managed library. -/
theorem managed_labels_written_by_default : ∃ json s record, managedLabelLibrariesOf plainEnvironment json = .ok tokens ∧
    Run (step plainEnvironment tokens) Initial anyLabel s ∧ record ∈ s.appended ∧
      tokens.get record.library = some "0123456789ab" ∧ ¬ record.request.Presents plainEnvironment "0123456789ab" := by
  have hrun : Run (step plainEnvironment tokens) Initial anyLabel (after before labels) :=
    (Run.start ⟨fun _ => rfl, rfl⟩ : Run (step plainEnvironment tokens) Initial anyLabel before).of_runLabels
      (fun _ _ _ => trivial) (show runLabels (step plainEnvironment tokens) before labels = some (after before labels) from rfl)
  have happended : (after before labels).appended = [⟨address, ⟨[(trackId, "house")], []⟩, tokenless⟩] := rfl
  refine ⟨_, _, _, tokens_accepted, hrun, happended ▸ List.mem_cons_self, ?_, ?_⟩
  · simp [tokens]
  · rintro ⟨token, htoken, -⟩
    simp [tokenless, bearerToken] at htoken

end LabelApi

end RecordNode
