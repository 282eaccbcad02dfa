import RecordNode.Foundation.Run
import RecordNode.QueryDb.EntryBlocks

/-! # The file state store

One JSON file keeps the heads of every library, the libraries whose unlink has
begun and the configured policies. Updates run one after another over a state
cached in memory: each changes the cached state, makes the directory, writes a
temporary file and renames it over the state file, and any of the three may fail.
The store is compared with the fold of the updates that were fulfilled. -/

namespace RecordNode

open Foundation

inductive ReplicationMode where
  | full
  | selective
  | indexOnly

structure StoredPolicy where
  mode : ReplicationMode
  filter : Option Fields

structure LibraryState where
  heads : OrderedMap String (List Hash)
  unlinking : OrderedSet String
  policies : OrderedMap String StoredPolicy

namespace LibraryState

def empty : LibraryState := ⟨.empty, .empty, .empty⟩

def applyHeads (state : LibraryState) (libraryAddress : String) : Option (List Hash) → LibraryState
  | none => { state with heads := state.heads.delete libraryAddress }
  | some heads => { state with heads := state.heads.set libraryAddress (sortHeads heads) }

def applyUnlinking (state : LibraryState) (libraryAddress : String) (unlinking : Bool) : LibraryState :=
  if unlinking then { state with unlinking := state.unlinking.add libraryAddress }
  else { state with unlinking := state.unlinking.delete libraryAddress }

def applyPolicy (state : LibraryState) (libraryAddress : String) : Option StoredPolicy → LibraryState
  | none => { state with policies := state.policies.delete libraryAddress }
  | some policy => { state with policies := state.policies.set libraryAddress policy }

/-- Two states are the same as maps and sets, in whatever order they list their keys. -/
structure Same (a b : LibraryState) : Prop where
  heads : ∀ k, a.heads.get k = b.heads.get k
  unlinking : ∀ k, k ∈ a.unlinking ↔ k ∈ b.unlinking
  policies : ∀ k, a.policies.get k = b.policies.get k

namespace Same

variable {a b c : LibraryState}

theorem refl (a : LibraryState) : Same a a := ⟨fun _ => rfl, fun _ => Iff.rfl, fun _ => rfl⟩

theorem symm (h : Same a b) : Same b a :=
  ⟨fun k => (h.heads k).symm, fun k => (h.unlinking k).symm, fun k => (h.policies k).symm⟩

theorem trans (h : Same a b) (h' : Same b c) : Same a c :=
  ⟨fun k => (h.heads k).trans (h'.heads k), fun k => (h.unlinking k).trans (h'.unlinking k),
    fun k => (h.policies k).trans (h'.policies k)⟩

end Same

end LibraryState

/-- The calls that change the state. -/
inductive StateUpdate where
  | saveHeads (libraryAddress : String) (heads : Option (List Hash))
  | setUnlinking (libraryAddress : String) (unlinking : Bool)
  | savePolicy (libraryAddress : String) (policy : Option StoredPolicy)

def StateUpdate.change : StateUpdate → LibraryState → LibraryState
  | .saveHeads libraryAddress heads, current => current.applyHeads libraryAddress heads
  | .setUnlinking libraryAddress unlinking, current => current.applyUnlinking libraryAddress unlinking
  | .savePolicy libraryAddress policy, current => current.applyPolicy libraryAddress policy

theorem StateUpdate.change_same {a b : LibraryState} (h : a.Same b) (u : StateUpdate) :
    (u.change a).Same (u.change b) := by
  cases u with
  | saveHeads address heads =>
    cases heads <;> refine ⟨fun k => ?_, h.unlinking, h.policies⟩
    · simp [change, LibraryState.applyHeads, h.heads k]
    · simp [change, LibraryState.applyHeads, h.heads k]
  | setUnlinking address unlinking =>
    cases unlinking <;> refine ⟨h.heads, fun k => ?_, h.policies⟩
    · simp [change, LibraryState.applyUnlinking, h.unlinking k]
    · simp [change, LibraryState.applyUnlinking, h.unlinking k]
  | savePolicy address policy =>
    cases policy <;> refine ⟨h.heads, h.unlinking, fun k => ?_⟩
    · simp [change, LibraryState.applyPolicy, h.policies k]
    · simp [change, LibraryState.applyPolicy, h.policies k]

/-- The JSON of the file. Files written before policies were kept have none. -/
structure StoredState where
  heads : OrderedMap String (List Hash)
  unlinking : List String
  policies : Option (OrderedMap String StoredPolicy)

/-- What `read` makes of the file, which is empty when there is none. -/
def parseStored : Option StoredState → LibraryState
  | none => .empty
  | some stored => ⟨stored.heads, .ofList stored.unlinking, stored.policies.getD .empty⟩

def toStored (current : LibraryState) : StoredState :=
  ⟨current.heads, sortBy compareText current.unlinking.items, some current.policies⟩

theorem parseStored_toStored (current : LibraryState) : (parseStored (some (toStored current))).Same current := by
  refine ⟨fun _ => rfl, fun k => ?_, fun _ => rfl⟩
  simp [parseStored, toStored, mem_sortBy, OrderedSet.mem_items]

/-- How far a running update has come after its change: the call it awaits. -/
inductive WriteStep where
  | mkdir
  | writeFile
  | rename

/-- The update at work. Past its read it holds the state object it has changed; what it
found there is kept beside it. -/
inductive RunningUpdate where
  | reading (update : StateUpdate)
  | changed (update : StateUpdate) (found current : LibraryState) (awaited : WriteStep)

/-- What callers saw, in the order they saw it. -/
inductive StateEvent where
  | fulfilled (update : StateUpdate)
  | rejected (update : StateUpdate)
  | loaded (state : LibraryState)

structure FileStateStore where
  file : Option StoredState
  /-- The cached state, once something has read the file. -/
  state : Option LibraryState
  /-- The updates waiting for their turn. -/
  tail : List StateUpdate
  running : Option RunningUpdate
  /-- The `load` calls reading the file, with what they have read of it. -/
  loads : List (Option (Option StoredState))
  history : List StateEvent

namespace FileStateStore

def create (file : Option StoredState) : FileStateStore := ⟨file, none, [], none, [], []⟩

inductive Label where
  | update (update : StateUpdate)
  /-- The next waiting update begins. -/
  | start
  /-- Its read of the file ends. -/
  | readDone
  | readFailed
  /-- The awaited call is fulfilled, or fails. -/
  | advance
  | fail
  | load
  /-- A loading `readFile` sees the file, then ends. -/
  | loadReads (load : ℕ)
  | loadDone (load : ℕ)
  | loadFailed (load : ℕ)
  /-- The process ends and another one creates the store on the same path. -/
  | restart

/-- `change(current)`: the cached object is changed before anything is written. -/
def beginWrite (s : FileStateStore) (u : StateUpdate) (found : LibraryState) : FileStateStore :=
  { s with state := some (u.change found), running := some (.changed u found (u.change found) .mkdir) }

def endUpdate (s : FileStateStore) (event : StateEvent) : FileStateStore :=
  { s with running := none, history := s.history ++ [event] }

def step (s : FileStateStore) : Label → Option FileStateStore
  | .update u => some { s with tail := s.tail ++ [u] }
  | .start =>
    match s.running, s.tail with
    | none, u :: rest =>
      match s.state with
      | some found => some ({ s with tail := rest }.beginWrite u found)
      | none => some { s with tail := rest, running := some (.reading u) }
    | _, _ => none
  | .readDone =>
    match s.running with
    | some (.reading u) => some (s.beginWrite u (parseStored s.file))
    | _ => none
  | .readFailed =>
    match s.running with
    | some (.reading u) => some (s.endUpdate (.rejected u))
    | _ => none
  | .advance =>
    match s.running with
    | some (.changed u found current .mkdir) =>
      some { s with running := some (.changed u found current .writeFile) }
    | some (.changed u found current .writeFile) =>
      some { s with running := some (.changed u found current .rename) }
    | some (.changed u _ current .rename) =>
      some ({ s with file := some (toStored current) }.endUpdate (.fulfilled u))
    | _ => none
  | .fail =>
    match s.running with
    | some (.changed u _ _ _) => some (s.endUpdate (.rejected u))
    | _ => none
  | .load =>
    match s.state with
    | some current => some { s with history := s.history ++ [.loaded current] }
    | none => some { s with loads := s.loads ++ [none] }
  | .loadReads i =>
    match s.loads[i]? with
    | some none => some { s with loads := s.loads.set i (some s.file) }
    | _ => none
  | .loadDone i =>
    match s.loads[i]? with
    | some (some content) => some { s with
        state := some (parseStored content)
        loads := s.loads.eraseIdx i
        history := s.history ++ [.loaded (parseStored content)] }
    | _ => none
  | .loadFailed i =>
    match s.loads[i]? with
    | some _ => some { s with loads := s.loads.eraseIdx i }
    | none => none
  | .restart => some { s with state := none, tail := [], running := none, loads := [] }

def fulfilled (history : List StateEvent) : List StateUpdate :=
  history.filterMap fun
    | .fulfilled u => some u
    | _ => none

/-- The fold of the fulfilled updates over the file the store was created on. -/
def expected (initial : Option StoredState) (history : List StateEvent) : LibraryState :=
  (fulfilled history).foldl (fun current u => u.change current) (parseStored initial)

/-- The file, and every answer of `load` when it was given, is the fold of the updates
fulfilled by then. -/
structure Exact (initial : Option StoredState) (s : FileStateStore) : Prop where
  file : (parseStored s.file).Same (expected initial s.history)
  loads : ∀ before after l, s.history = before ++ .loaded l :: after → l.Same (expected initial before)

/-- The update at work, if it is past its read, has left the state as it found it. -/
def Idle (s : FileStateStore) : Prop :=
  ∀ u found current awaited, s.running = some (.changed u found current awaited) → found.Same current

/-- Nothing is cached, or what the load has read of the file is what is cached. -/
def Fresh (s : FileStateStore) (i : ℕ) : Prop :=
  ∀ content cached, s.loads[i]? = some (some content) → s.state = some cached →
    (parseStored content).Same cached

/-- No update fails after it has altered the cached state, no `load` is answered between such
a change and its rename, and no `load` ends its reading with anything else than what
is cached. -/
def Orderly (s : FileStateStore) : Label → Prop
  | .fail => s.Idle
  | .load => s.Idle
  | .loadDone i => s.Idle ∧ s.Fresh i
  | _ => True

section Invariant
variable {initial : Option StoredState} {s t : FileStateStore}

@[simp] theorem expected_fulfilled (history : List StateEvent) (u : StateUpdate) :
    expected initial (history ++ [.fulfilled u]) = u.change (expected initial history) := by
  simp [expected, fulfilled]

@[simp] theorem expected_rejected (history : List StateEvent) (u : StateUpdate) :
    expected initial (history ++ [.rejected u]) = expected initial history := by
  simp [expected, fulfilled]

@[simp] theorem expected_loaded (history : List StateEvent) (l : LibraryState) :
    expected initial (history ++ [.loaded l]) = expected initial history := by
  simp [expected, fulfilled]

/-- An answer in a longer history was given earlier or is the last event. -/
theorem answer_append {history before after : List StateEvent} {event : StateEvent} {l : LibraryState}
    (h : history ++ [event] = before ++ .loaded l :: after) :
    (∃ rest, history = before ++ .loaded l :: rest) ∨ (event = .loaded l ∧ history = before) := by
  rcases List.eq_nil_or_concat after with rfl | ⟨rest, last, rfl⟩
  · obtain ⟨hb, he⟩ := List.append_inj' h rfl
    exact Or.inr ⟨List.head_eq_of_cons_eq he, hb⟩
  · rw [List.concat_eq_append, ← List.cons_append, ← List.append_assoc] at h
    exact Or.inl ⟨rest, (List.append_inj' h rfl).1⟩

/-- What holds of the store along an orderly run. -/
structure Faithful (initial : Option StoredState) (s : FileStateStore) : Prop where
  exact : Exact initial s
  /-- Between two changes the cached state is the fold. -/
  settled : ∀ cached, s.state = some cached →
    (∀ u found current awaited, s.running ≠ some (.changed u found current awaited)) →
    cached.Same (expected initial s.history)
  /-- A running update found the fold, and its change of it is cached. -/
  changed : ∀ u found current awaited, s.running = some (.changed u found current awaited) →
    found.Same (expected initial s.history) ∧ current = u.change found ∧
      ∃ cached, s.state = some cached ∧ cached.Same current
  /-- Until something is cached nothing is written, so a load has read the fold. -/
  unread : s.state = none → ∀ content, some content ∈ s.loads →
    (parseStored content).Same (expected initial s.history)

theorem faithful_create (initial : Option StoredState) : Faithful initial (create initial) where
  exact := ⟨.refl _, fun before after l h => by simp [create] at h⟩
  settled := by simp [create]
  changed := by simp [create]
  unread := by simp [create]

/-- While the update at work has altered nothing, what is cached is the fold. -/
theorem Faithful.cached (h : Faithful initial s) (hi : s.Idle) {cached : LibraryState}
    (hc : s.state = some cached) : cached.Same (expected initial s.history) := by
  by_cases hr : ∃ u found current awaited, s.running = some (.changed u found current awaited)
  · obtain ⟨u, found, current, awaited, hr⟩ := hr
    obtain ⟨hf, -, x, hx, hxc⟩ := h.changed u found current awaited hr
    obtain rfl : x = cached := Option.some_inj.mp (hx.symm.trans hc)
    exact (hxc.trans (hi u found current awaited hr).symm).trans hf
  · exact h.settled cached hc fun u found current awaited hn => hr ⟨u, found, current, awaited, hn⟩

theorem Exact.append (h : Exact initial s) (event : StateEvent) (file : Option StoredState)
    (hfile : (parseStored file).Same (expected initial (s.history ++ [event])))
    (hl : ∀ l, event = .loaded l → l.Same (expected initial s.history)) :
    Exact initial { s with file := file, history := s.history ++ [event] } where
  file := hfile
  loads := by
    intro before after l hb
    rcases answer_append hb with ⟨rest, hrest⟩ | ⟨he, rfl⟩
    · exact h.loads before rest l hrest
    · exact hl l he

theorem Faithful.beginWrite (h : Faithful initial s) {u : StateUpdate} {found : LibraryState}
    (hf : found.Same (expected initial s.history)) (tail : List StateUpdate) :
    Faithful initial ({ s with tail := tail }.beginWrite u found) where
  exact := ⟨h.exact.file, h.exact.loads⟩
  settled := fun _ _ hr => absurd rfl (hr u found (u.change found) .mkdir)
  changed := by
    rintro v f c a ⟨⟩
    exact ⟨hf, rfl, _, rfl, .refl _⟩
  unread := by simp [FileStateStore.beginWrite]

/-- The update at work ends, and what is cached is the fold of the longer history. -/
theorem Faithful.endUpdate (h : Faithful initial s) {file : Option StoredState} {event : StateEvent}
    (he : ∀ l, event ≠ .loaded l)
    (hfile : (parseStored file).Same (expected initial (s.history ++ [event])))
    (hc : ∀ cached, s.state = some cached → cached.Same (expected initial (s.history ++ [event])))
    (hu : s.state = none → expected initial (s.history ++ [event]) = expected initial s.history) :
    Faithful initial ({ s with file := file }.endUpdate event) where
  exact :=
    have hx := h.exact.append event file hfile fun l hl => absurd hl (he l)
    ⟨hx.file, hx.loads⟩
  settled := fun cached hs _ => hc cached hs
  changed := by simp [FileStateStore.endUpdate]
  unread := by
    intro hs content hm
    have hx := h.unread hs content hm
    rw [← hu hs] at hx
    exact hx

theorem Faithful.advance (h : Faithful initial s) (ht : s.step .advance = some t) : Faithful initial t := by
  simp only [step] at ht
  have hwait : ∀ {u found current a b}, s.running = some (.changed u found current a) →
      Faithful initial { s with running := some (.changed u found current b) } := by
    intro u found current a b hr
    refine ⟨⟨h.exact.file, h.exact.loads⟩, fun _ _ hn => absurd rfl (hn u found current b), ?_, h.unread⟩
    rintro _ _ _ _ ⟨⟩
    exact h.changed u found current a hr
  split at ht
  case h_1 hr => exact Option.some_inj.mp ht ▸ hwait hr
  case h_2 hr => exact Option.some_inj.mp ht ▸ hwait hr
  case h_3 u found current hr =>
    obtain ⟨hf, rfl, cached, hc, hsame⟩ := h.changed u found current .rename hr
    have hnext : (u.change found).Same (expected initial (s.history ++ [.fulfilled u])) := by
      rw [expected_fulfilled]
      exact u.change_same hf
    refine Option.some_inj.mp ht ▸ h.endUpdate (by simp) ((parseStored_toStored _).trans hnext) ?_ ?_
    · intro c hc'
      obtain rfl : cached = c := Option.some_inj.mp (hc.symm.trans hc')
      exact hsame.trans hnext
    · simp [hc]
  case h_4 => simp at ht

theorem Faithful.step (h : Faithful initial s) {l : Label} (hl : s.Orderly l) (ht : s.step l = some t) :
    Faithful initial t := by
  cases l with
  | update u =>
    obtain rfl := Option.some_inj.mp ht
    exact ⟨⟨h.exact.file, h.exact.loads⟩, h.settled, h.changed, h.unread⟩
  | start =>
    simp only [FileStateStore.step] at ht
    split at ht
    case h_2 => simp at ht
    case h_1 u rest hr _ =>
      split at ht
      case h_1 found hs =>
        exact Option.some_inj.mp ht ▸ h.beginWrite (h.settled found hs (by simp [hr])) rest
      case h_2 hs =>
        obtain rfl := Option.some_inj.mp ht
        exact ⟨⟨h.exact.file, h.exact.loads⟩, by simp [hs], by simp, h.unread⟩
  | readDone =>
    simp only [FileStateStore.step] at ht
    split at ht
    case h_1 u hr => exact Option.some_inj.mp ht ▸ h.beginWrite h.exact.file s.tail
    case h_2 => simp at ht
  | readFailed =>
    simp only [FileStateStore.step] at ht
    split at ht
    case h_2 => simp at ht
    case h_1 u hr =>
      refine Option.some_inj.mp ht ▸ h.endUpdate (by simp) ?_ ?_ ?_
      · simpa using h.exact.file
      · intro cached hc
        simpa using h.settled cached hc (by simp [hr])
      · simp
  | advance => exact h.advance ht
  | fail =>
    simp only [FileStateStore.step] at ht
    split at ht
    case h_2 => simp at ht
    case h_1 u found current awaited hr =>
      refine Option.some_inj.mp ht ▸ h.endUpdate (by simp) ?_ ?_ ?_
      · simpa using h.exact.file
      · intro cached hc
        simpa using h.cached hl hc
      · simp
  | load =>
    simp only [FileStateStore.step] at ht
    split at ht
    case h_1 current hs =>
      obtain rfl := Option.some_inj.mp ht
      have hx := h.exact.append (.loaded current) s.file (by simpa using h.exact.file)
        (by rintro _ ⟨⟩; exact h.cached hl hs)
      exact ⟨hx, by simpa using h.settled, by simpa using h.changed, by simp [hs]⟩
    case h_2 hs =>
      obtain rfl := Option.some_inj.mp ht
      exact ⟨⟨h.exact.file, h.exact.loads⟩, h.settled, h.changed, by simpa using h.unread⟩
  | loadReads i =>
    simp only [FileStateStore.step] at ht
    split at ht
    case h_2 => simp at ht
    case h_1 =>
      obtain rfl := Option.some_inj.mp ht
      refine ⟨⟨h.exact.file, h.exact.loads⟩, h.settled, h.changed, fun hs content hm => ?_⟩
      rcases List.mem_or_eq_of_mem_set hm with hm | heq
      · exact h.unread hs content hm
      · exact Option.some_inj.mp heq ▸ h.exact.file
  | loadDone i =>
    simp only [FileStateStore.step] at ht
    split at ht
    case h_2 => simp at ht
    case h_1 content hi =>
      obtain rfl := Option.some_inj.mp ht
      -- what was read is the fold: it is what is cached, or nothing was ever written
      have hread : (parseStored content).Same (expected initial s.history) := by
        cases hs : s.state with
        | none => exact h.unread hs content (List.mem_of_getElem? hi)
        | some cached => exact (hl.2 content cached hi hs).trans (h.cached hl.1 hs)
      have hx := h.exact.append (.loaded (parseStored content)) s.file
        (by simpa using h.exact.file) (by rintro _ ⟨⟩; exact hread)
      refine ⟨⟨hx.file, hx.loads⟩, ?_, ?_, by simp⟩
      · rintro _ ⟨⟩ -
        simpa using hread
      · intro u found current awaited hr
        obtain ⟨hf, hc, -⟩ := h.changed u found current awaited hr
        refine ⟨by simpa using hf, hc, _, rfl, ?_⟩
        exact (hread.trans hf.symm).trans (hl.1 u found current awaited hr)
  | loadFailed i =>
    simp only [FileStateStore.step] at ht
    split at ht
    case h_2 => simp at ht
    case h_1 =>
      obtain rfl := Option.some_inj.mp ht
      exact ⟨⟨h.exact.file, h.exact.loads⟩, h.settled, h.changed,
        fun hs content hm => h.unread hs content (List.mem_of_mem_eraseIdx hm)⟩
  | restart =>
    obtain rfl := Option.some_inj.mp ht
    exact ⟨⟨h.exact.file, h.exact.loads⟩, by simp, by simp, by simp⟩

end Invariant

/-- The states of a store created on a file, along steps that the guard allows. -/
def Reached (allowed : FileStateStore → Label → Prop) (initial : Option StoredState) : FileStateStore → Prop :=
  Run step (· = create initial) allowed

/-- The first update reads an absent file, changes the empty state and awaits its directory. -/
theorem runLabels_first (u : StateUpdate) :
    runLabels step (create none) [.update u, .start, .readDone] =
      some ⟨none, some (u.change .empty), [], some (.changed u .empty (u.change .empty) .mkdir), [], []⟩ := rfl

/-- An update that follows over the cached state is written. -/
theorem runLabels_second (u : StateUpdate) (file : Option StoredState) (cached : LibraryState)
    (history : List StateEvent) :
    runLabels step ⟨file, some cached, [], none, [], history⟩ [.update u, .start, .advance, .advance, .advance] =
      some ⟨some (toStored (u.change cached)), some (u.change cached), [], none, [],
        history ++ [.fulfilled u]⟩ := rfl

end FileStateStore

end RecordNode
