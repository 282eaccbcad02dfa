import Mathlib.Data.List.Induction
import RecordNode.Foundation.Run
import RecordNode.Foundation.OrderedMap

/-! # A library's pin set and its record

The manager holds the pin set of an open library in memory and records it beside
the pin index, so that the next open can take it back. Registrations, reindexing,
holds, releases and the pass of the open change the set pin by pin; a call that
pins writes what it added to the record when it returns. The record is marked
dirty when a change begins and clean when the last one ends, once the pass of the
open has filled the set. -/

namespace RecordNode

open Foundation

/-- CID to whether the pin is recursive. -/
abbrev PinSet := OrderedMap String Bool

structure RecordedPins where
  clean : Bool
  pins : PinSet

/-- A library's row of the record with its pins, if it has one. -/
abbrev LibraryPinRecord := Option RecordedPins

namespace LibraryPinRecord

def pins (r : LibraryPinRecord) : PinSet := (r.map RecordedPins.pins).getD .empty

/-- The recorded set, or none unless it is clean. -/
def load (r : LibraryPinRecord) : Option PinSet :=
  (r.filter RecordedPins.clean).map RecordedPins.pins

def begin (r : LibraryPinRecord) : LibraryPinRecord := r.map fun set => { set with clean := false }

def upsert (pins : PinSet) (added : List (String × Bool)) : PinSet :=
  added.foldl (fun pins p => pins.set p.1 p.2) pins

def set (r : LibraryPinRecord) (added : List (String × Bool)) : LibraryPinRecord :=
  if added.isEmpty then r else some ⟨(r.map RecordedPins.clean).getD false, upsert r.pins added⟩

def delete (r : LibraryPinRecord) (cid : String) : LibraryPinRecord :=
  r.map fun set => { set with pins := set.pins.delete cid }

def settle (r : LibraryPinRecord) : LibraryPinRecord := some ⟨true, r.pins⟩

@[simp] theorem pins_begin (r : LibraryPinRecord) : (begin r).pins = r.pins := by cases r <;> rfl

@[simp] theorem pins_settle (r : LibraryPinRecord) : (settle r).pins = r.pins := rfl

@[simp] theorem pins_set (r : LibraryPinRecord) (added : List (String × Bool)) :
    (set r added).pins = upsert r.pins added := by
  unfold set
  split
  case isTrue h => rw [List.isEmpty_iff.mp h, upsert, List.foldl_nil]
  case isFalse => rfl

@[simp] theorem get_pins_delete (r : LibraryPinRecord) (cid x : String) :
    (delete r cid).pins.get x = if x = cid then none else r.pins.get x := by
  cases r with
  | none => simp [delete, pins]
  | some set => exact OrderedMap.get_delete set.pins cid x

theorem pins_of_load {r : LibraryPinRecord} {recorded : PinSet} (h : r.load = some recorded) :
    r.pins = recorded := by
  obtain ⟨set, hset, rfl⟩ := Option.map_eq_some_iff.mp h
  rw [Option.filter_eq_some_iff] at hset
  rw [pins, hset.1]
  rfl

/-- What a list of pins leaves recorded for a CID: the last of its pins. -/
def lastPin (added : List (String × Bool)) (cid : String) : Option Bool := (upsert .empty added).get cid

theorem get_upsert (pins : PinSet) (added : List (String × Bool)) (cid : String) :
    (upsert pins added).get cid = (lastPin added cid).or (pins.get cid) := by
  induction added using List.reverseRecOn with
  | nil => simp [upsert, lastPin]
  | append_singleton rest p ih =>
    have hsplit : ∀ start : PinSet, upsert start (rest ++ [p]) = (upsert start rest).set p.1 p.2 := by
      intro start
      rw [upsert, List.foldl_append]
      rfl
    rw [lastPin, hsplit, hsplit, OrderedMap.get_set, OrderedMap.get_set]
    split
    · rfl
    · exact ih

theorem lastPin_append (added : List (String × Bool)) (p : String × Bool) (cid : String) :
    lastPin (added ++ [p]) cid = if cid = p.1 then some p.2 else lastPin added cid := by
  rw [lastPin, upsert, List.foldl_append]
  exact OrderedMap.get_set _ _ _ _

end LibraryPinRecord

/-- A `pin_into` in flight: the pins still to make, whether the pin of the first is awaited, and
those it has added. -/
structure PinInto where
  job : ℕ
  rest : List (String × Bool)
  awaiting : Bool
  added : List (String × Bool)
  ended : Bool

/-- What runs inside `changing_pins`: the pins of entries or blobs, the pass of the open, or a
release of these CIDs. -/
inductive PinJobKind where
  | pin
  | pass
  | release (cids : List String)

/-- A job that throws leaves `changing_pins` later; its other calls go on meanwhile and after. -/
inductive PinJobStatus where
  | running
  | throwing
  | thrown
  | finished
deriving DecidableEq

structure PinJob where
  kind : PinJobKind
  /-- It has the turn of `exclusive_pins`, as every job but a registration and a reindexing. -/
  exclusive : Bool
  status : PinJobStatus

namespace PinJob

/-- The job is inside `changing_pins`. -/
def isChanging (job : PinJob) : Bool := job.status = .running ∨ job.status = .throwing

end PinJob

structure LibraryPins where
  pins : PinSet
  record : LibraryPinRecord
  /-- The record when the open commit batch began. -/
  committed : LibraryPinRecord
  changing : ℕ
  complete : Bool
  stopped : Bool
  /-- The chain's pins, made before the handle. -/
  chainHeld : List (String × Bool)
  loaded : Bool
  /-- The pass the open has queued: the pins it has to record, and whether it has entries to pin. -/
  queued : Option (List (String × Bool) × Bool)
  jobs : List PinJob
  calls : List PinInto

namespace LibraryPins

/-- The open has listed the library, with the pins of the chain objects that are stored and the
record of the last run. -/
def create (chain : List String) (record : LibraryPinRecord) : LibraryPins :=
  let chainHeld := chain.map fun cid => (cid, false)
  ⟨LibraryPinRecord.upsert .empty chainHeld, record, record, 0, false, false, chainHeld, false, none, [], []⟩

inductive Label where
  /-- The open takes the record back or drops it, and queues its pass. -/
  | load (entries : Bool)
  | startPass
  /-- A registration or a reindexing, or a hold in its turn. -/
  | startPin (exclusive : Bool)
  | startRelease (cids : List String)
  /-- A job calls `pin_into` with what an entry pins. -/
  | call (job : ℕ) (items : List (String × Bool))
  /-- The call looks at its next pin. -/
  | next (call : ℕ)
  | pinned (call : ℕ)
  | unavailable (call : ℕ)
  | pinFailed (call : ℕ)
  /-- It returns, and its job records what it added. -/
  | returned (call : ℕ)
  | entryFailed (job : ℕ)
  | released (job : ℕ)
  | unpinFailed (job : ℕ)
  | finish (job : ℕ)
  /-- A job that threw leaves `changing_pins`. -/
  | abort (job : ℕ)
  | stop
  /-- The commit batch is committed, or a transaction throws in it and it is rolled back. -/
  | flush
  | rollback

/-- The entry of `changing_pins`. -/
def startJob (s : LibraryPins) (job : PinJob) : LibraryPins :=
  { s with
    record := if s.changing = 0 then s.record.begin else s.record
    changing := s.changing + 1
    jobs := s.jobs ++ [job] }

/-- Its `finally`. -/
def endJob (s : LibraryPins) (j : ℕ) (job : PinJob) (status : PinJobStatus) : LibraryPins :=
  { s with
    record := if s.changing - 1 = 0 ∧ s.complete then s.record.settle else s.record
    changing := s.changing - 1
    jobs := s.jobs.set j { job with status := status } }

def setJob (s : LibraryPins) (j : ℕ) (job : PinJob) : LibraryPins := { s with jobs := s.jobs.set j job }

def setCall (s : LibraryPins) (k : ℕ) (call : PinInto) : LibraryPins := { s with calls := s.calls.set k call }

/-- The turn of `exclusive_pins` is free. -/
def turnFree (s : LibraryPins) : Bool := s.jobs.all fun job => !job.exclusive || !job.isChanging

def load (s : LibraryPins) (entries : Bool) : LibraryPins :=
  match s.record.load with
  | none => { s with record := none, loaded := true, queued := some (s.chainHeld, entries) }
  | some recorded => { s with
      pins := recorded.items.foldl (fun pins p => if pins.get p.1 = some true then pins else pins.set p.1 p.2) s.pins
      loaded := true
      queued := some (s.chainHeld.filter fun p => recorded.get p.1 ≠ some p.2, entries) }

/-- The queued pass takes its turn. With nothing to pin or record the set is complete. -/
def startPass (s : LibraryPins) : Option LibraryPins :=
  match s.queued with
  | none => none
  | some (unrecorded, entries) =>
    if !s.turnFree then none
    else if !entries ∧ unrecorded.isEmpty then some { s with queued := none, complete := true }
    else
      let s := s.startJob ⟨.pass, true, .running⟩
      some { s with queued := none, record := s.record.set unrecorded }

def withCall (s : LibraryPins) (k : ℕ) (f : PinInto → Option LibraryPins) : Option LibraryPins :=
  match s.calls[k]? with
  | some call => if call.ended then none else f call
  | none => none

def withJob (s : LibraryPins) (j : ℕ) (f : PinJob → Option LibraryPins) : Option LibraryPins :=
  s.jobs[j]?.bind f

/-- A job that is at work throws; one that has thrown already stays so. -/
def throwIn (s : LibraryPins) (j : ℕ) : LibraryPins :=
  match s.jobs[j]? with
  | some job => if job.status = .running then s.setJob j { job with status := .throwing } else s
  | none => s

def next (s : LibraryPins) (k : ℕ) : Option LibraryPins :=
  s.withCall k fun call =>
    match call.rest, call.awaiting with
    | (cid, recursive) :: rest, false =>
      if s.pins.get cid = some true ∨ s.pins.get cid = some recursive then
        some (s.setCall k { call with rest := rest })
      else some (s.setCall k { call with awaiting := true })
    | _, _ => none

def pinned (s : LibraryPins) (k : ℕ) : Option LibraryPins :=
  s.withCall k fun call =>
    match call.rest, call.awaiting with
    | (cid, recursive) :: rest, true =>
      some ({ s with pins := s.pins.set cid recursive }.setCall k
        { call with rest := rest, awaiting := false, added := call.added ++ [(cid, recursive)] })
    | _, _ => none

/-- `content_unavailable`: the CID is left out. -/
def unavailable (s : LibraryPins) (k : ℕ) : Option LibraryPins :=
  s.withCall k fun call =>
    match call.rest, call.awaiting with
    | _ :: rest, true => some (s.setCall k { call with rest := rest, awaiting := false })
    | _, _ => none

def pinFailed (s : LibraryPins) (k : ℕ) : Option LibraryPins :=
  s.withCall k fun call =>
    if call.awaiting then some ((s.setCall k { call with ended := true }).throwIn call.job) else none

def returned (s : LibraryPins) (k : ℕ) : Option LibraryPins :=
  s.withCall k fun call =>
    if call.rest.isEmpty then
      some ({ s with record := s.record.set call.added }.setCall k { call with ended := true })
    else none

/-- The CID is unpinned, or held elsewhere, and leaves the set and the record. -/
def released (s : LibraryPins) (j : ℕ) : Option LibraryPins :=
  s.withJob j fun job =>
    match job.kind, job.status with
    | .release (cid :: rest), .running =>
      let s := s.setJob j { job with kind := .release rest }
      if s.pins.has cid then some { s with pins := s.pins.delete cid, record := s.record.delete cid } else some s
    | _, _ => none

/-- Every call of the job has returned and nothing is left to release. The pass has then filled
the set, unless it was cut short. -/
def finish (s : LibraryPins) (j : ℕ) : Option LibraryPins :=
  s.withJob j fun job =>
    if job.status = .running ∧ s.calls.all (fun call => call.job ≠ j || call.ended) then
      match job.kind with
      | .pin => some (s.endJob j job .finished)
      | .pass => some ({ s with complete := s.complete || !s.stopped }.endJob j job .finished)
      | .release [] => some (s.endJob j job .finished)
      | .release _ => none
    else none

def step (s : LibraryPins) : Label → Option LibraryPins
  | .load entries => if s.loaded then none else some (s.load entries)
  | .startPass => s.startPass
  | .startPin exclusive =>
    if exclusive ∧ !s.turnFree then none else some (s.startJob ⟨.pin, exclusive, .running⟩)
  | .startRelease cids =>
    if !s.turnFree then none
    else some (s.startJob ⟨.release (cids.filter fun cid => s.pins.get cid = some true), true, .running⟩)
  | .call j items =>
    s.withJob j fun job =>
      match job.kind with
      | .release _ => none
      | _ => if job.status = .finished then none
        else some { s with calls := s.calls ++ [⟨j, items, false, [], false⟩] }
  | .next k => s.next k
  | .pinned k => s.pinned k
  | .unavailable k => s.unavailable k
  | .pinFailed k => s.pinFailed k
  | .returned k => s.returned k
  | .entryFailed j => s.withJob j fun _ => some (s.throwIn j)
  | .released j => s.released j
  | .unpinFailed j => s.withJob j fun _ => some (s.throwIn j)
  | .finish j => s.finish j
  | .abort j => s.withJob j fun job =>
      if job.status = .throwing then some (s.endJob j job .thrown) else none
  | .stop => some { s with stopped := true }
  | .flush => some { s with committed := s.record }
  | .rollback => some { s with record := s.committed }

/-- Nothing is in flight: the open's pass has had its turn, no job is inside `changing_pins`,
and no call of any job is left. -/
def quiet (s : LibraryPins) : Bool :=
  s.loaded && s.queued.isNone && s.jobs.all (fun job => !job.isChanging) && s.calls.all PinInto.ended

/-- A clean record is the pin set whenever nothing is in flight. -/
def Exact (s : LibraryPins) : Prop :=
  s.quiet = true → ∀ recorded, s.record.load = some recorded → ∀ cid, recorded.get cid = s.pins.get cid

/-- No other call in flight has added this CID with another flag. -/
def Unshared (s : LibraryPins) (k : ℕ) (cid : String) (flag : Option Bool) : Prop :=
  ∀ j call kind, j ≠ k → s.calls[j]? = some call → call.ended = false →
    LibraryPinRecord.lastPin call.added cid = some kind → flag = some kind

/-- The steps that keep the record true: no `pin_into` throws after it has added a pin; between a
pin and its recording no other call sets the CID otherwise and no release removes it; when the open
drops the record, no call has recorded a pin of the handle before; no chain CID is held
recursively when the pass records the chain; and no transaction throws in a batch that holds a
change of the record. -/
def Orderly (s : LibraryPins) : Label → Prop
  | .load _ => s.record.load = none → ∀ cid kind, s.pins.get cid = some kind →
      LibraryPinRecord.lastPin s.chainHeld cid ≠ none ∨ ∃ call ∈ s.calls, call.ended = false ∧
        LibraryPinRecord.lastPin call.added cid ≠ none
  | .startPass => ∀ unrecorded entries, s.queued = some (unrecorded, entries) →
      ∀ cid kind, LibraryPinRecord.lastPin unrecorded cid = some kind → s.pins.get cid = some kind
  | .pinned k => ∀ call cid recursive rest, s.calls[k]? = some call → call.rest = (cid, recursive) :: rest →
      s.Unshared k cid (some recursive)
  | .pinFailed k => ∀ call, s.calls[k]? = some call → call.added = []
  | .released j => ∀ job cid rest, s.jobs[j]? = some job → job.kind = .release (cid :: rest) →
      ∀ call ∈ s.calls, call.ended = false → LibraryPinRecord.lastPin call.added cid = none
  | .rollback => s.committed = s.record
  | _ => True

section Invariant
variable {s t : LibraryPins}

open LibraryPinRecord

/-- A call that has not returned has added a pin of this CID. -/
def InFlight (s : LibraryPins) (cid : String) : Prop :=
  ∃ call ∈ s.calls, call.ended = false ∧ lastPin call.added cid ≠ none

/-- The queued pass still has to record this CID. -/
def Queued (s : LibraryPins) (cid : String) : Prop :=
  ∃ unrecorded entries, s.queued = some (unrecorded, entries) ∧ lastPin unrecorded cid ≠ none

structure Faithful (s : LibraryPins) : Prop where
  chain : ∀ p ∈ s.chainHeld, p.2 = false
  /-- Until the open has looked at it, a record that is still clean has seen no change. -/
  untouched : s.loaded = false → s.complete = false ∧ s.queued = none ∧
    (s.record.load ≠ none → s.changing = 0 ∧ s.jobs = [] ∧ s.calls = [] ∧ s.pins = upsert .empty s.chainHeld)
  passes : s.loaded = false → ∀ job ∈ s.jobs, job.kind ≠ .pass
  added : ∀ call ∈ s.calls, call.ended = false → ∀ cid kind, lastPin call.added cid = some kind →
    s.pins.get cid = some kind
  recorded : s.loaded = true → ∀ cid, ¬ s.InFlight cid → ¬ s.Queued cid →
    s.record.pins.get cid = s.pins.get cid

theorem lastPin_eq_none {l : List (String × Bool)} {cid : String} :
    lastPin l cid = none ↔ ∀ p ∈ l, p.1 ≠ cid := by
  induction l using List.reverseRecOn with
  | nil => simp [lastPin, upsert]
  | append_singleton rest p ih =>
    rw [lastPin_append]
    split
    case isTrue heq =>
      constructor
      · intro h
        cases h
      · exact fun h => absurd heq.symm (h p (List.mem_append_right _ (List.mem_singleton_self p)))
    case isFalse hne =>
      rw [ih]
      constructor
      · intro h q hq
        rcases List.mem_append.mp hq with hq | hq
        · exact h q hq
        · exact List.mem_singleton.mp hq ▸ Ne.symm hne
      · exact fun h q hq => h q (List.mem_append_left _ hq)

theorem mem_of_lastPin {l : List (String × Bool)} {cid : String} {kind : Bool} (h : lastPin l cid = some kind) :
    (cid, kind) ∈ l := by
  induction l using List.reverseRecOn with
  | nil => cases h
  | append_singleton rest p ih =>
    rw [lastPin_append] at h
    split at h
    case isTrue heq =>
      obtain rfl := Option.some_inj.mp h
      exact List.mem_append_right _ (List.mem_singleton.mpr (Prod.ext heq rfl))
    case isFalse => exact List.mem_append_left _ (ih h)

/-- The open adds the recorded pins to those of the chain, none of which is recursive. -/
theorem get_takeBack (l : List (String × Bool)) (hl : (l.map Prod.fst).Nodup) (pins : PinSet)
    (hp : ∀ cid, pins.get cid ≠ some true) (x : String) :
    (l.foldl (fun pins p => if pins.get p.1 = some true then pins else pins.set p.1 p.2) pins).get x =
      (l.lookup x).or (pins.get x) := by
  have h : ∀ (l : List (String × Bool)), (l.map Prod.fst).Nodup → ∀ pins : PinSet,
      (∀ p ∈ l, pins.get p.1 ≠ some true) →
      (l.foldl (fun pins p => if pins.get p.1 = some true then pins else pins.set p.1 p.2) pins).get x =
        (l.lookup x).or (pins.get x) := by
    intro l
    induction l with
    | nil => exact fun _ _ _ => rfl
    | cons p rest ih =>
      intro hn pins hp
      rw [List.map_cons, List.nodup_cons] at hn
      rw [List.foldl_cons, if_neg (hp p List.mem_cons_self), ih hn.2]
      · obtain ⟨k, v⟩ := p
        rw [OrderedMap.get_set]
        by_cases hx : x = k
        · subst hx
          have hnone : rest.lookup x = none := by
            rw [List.lookup_eq_none_iff]
            intro q hq
            simpa using fun heq : x = q.1 => hn.1 (List.mem_map.mpr ⟨q, hq, heq.symm⟩)
          simp [hnone]
        · have hb : (x == k) = false := by simpa using hx
          simp [List.lookup_cons, hb, hx]
      · intro q hq
        rw [OrderedMap.get_set, if_neg]
        · exact hp q (List.mem_cons_of_mem _ hq)
        · intro heq
          exact hn.1 (List.mem_map.mpr ⟨q, hq, heq⟩)
  exact h l hl pins fun p _ => hp p.1

theorem load_set_eq_none {r : LibraryPinRecord} (h : r.load = none) (added : List (String × Bool)) :
    LibraryPinRecord.load (r.set added) = none := by
  unfold LibraryPinRecord.set
  split
  · exact h
  · cases r with
    | none => rfl
    | some set =>
      cases hc : set.clean
      · simp [LibraryPinRecord.load, hc]
      · simp [LibraryPinRecord.load, hc] at h

theorem load_begin (r : LibraryPinRecord) : LibraryPinRecord.load r.begin = none := by
  cases r <;> simp [LibraryPinRecord.load, begin]

theorem load_delete_eq_none {r : LibraryPinRecord} (h : r.load = none) (cid : String) :
    LibraryPinRecord.load (r.delete cid) = none := by
  cases r with
  | none => rfl
  | some set =>
    cases hc : set.clean
    · simp [LibraryPinRecord.load, LibraryPinRecord.delete, hc]
    · simp [LibraryPinRecord.load, hc] at h

/-- The calls in flight after one of them has moved on. -/
theorem mem_set_calls {k : ℕ} {old new call : PinInto} (hold : s.calls[k]? = some old)
    (h : call ∈ s.calls.set k new) : call = new ∨ ∃ j, j ≠ k ∧ s.calls[j]? = some call := by
  obtain ⟨j, hj⟩ := List.mem_iff_getElem?.mp h
  rw [List.getElem?_set] at hj
  by_cases hkj : k = j
  · subst hkj
    rw [if_pos rfl, if_pos (List.getElem?_eq_some_iff.mp hold).1] at hj
    exact Or.inl (Option.some_inj.mp hj).symm
  · rw [if_neg hkj] at hj
    exact Or.inr ⟨j, Ne.symm hkj, hj⟩

theorem mem_of_set_calls {k : ℕ} {old new call : PinInto} (hold : s.calls[k]? = some old) {j : ℕ} (hj : j ≠ k)
    (h : s.calls[j]? = some call) : call ∈ s.calls.set k new ∧ new ∈ s.calls.set k new := by
  have hlt := (List.getElem?_eq_some_iff.mp hold).1
  refine ⟨List.mem_iff_getElem?.mpr ⟨j, ?_⟩, List.mem_iff_getElem?.mpr ⟨k, ?_⟩⟩
  · rw [List.getElem?_set, if_neg (Ne.symm hj), h]
  · rw [List.getElem?_set, if_pos rfl, if_pos hlt]

/-- A call moves on with what it has added: in flight are the same CIDs. -/
theorem inFlight_set_calls {k : ℕ} {old new : PinInto} (hold : s.calls[k]? = some old)
    (hcalls : t.calls = s.calls.set k new) (hsame : new.ended = old.ended ∧ new.added = old.added ∨
      old.added = [] ∧ new.added = []) (cid : String) : t.InFlight cid ↔ s.InFlight cid := by
  have hlt := (List.getElem?_eq_some_iff.mp hold).1
  constructor
  · rintro ⟨call, hm, he, hp⟩
    rw [hcalls] at hm
    rcases mem_set_calls hold hm with rfl | ⟨j, -, hj⟩
    · rcases hsame with ⟨hen, had⟩ | ⟨-, had⟩
      · exact ⟨old, List.mem_of_getElem? hold, hen ▸ he, had ▸ hp⟩
      · rw [had] at hp
        exact absurd rfl hp
    · exact ⟨call, List.mem_of_getElem? hj, he, hp⟩
  · rintro ⟨call, hm, he, hp⟩
    rw [InFlight, hcalls]
    obtain ⟨j, hj⟩ := List.mem_iff_getElem?.mp hm
    by_cases hjk : j = k
    · subst hjk
      obtain rfl := Option.some_inj.mp (hold.symm.trans hj)
      rcases hsame with ⟨hen, had⟩ | ⟨had, -⟩
      · refine ⟨new, List.mem_iff_getElem?.mpr ⟨j, ?_⟩, hen.trans he, had.symm ▸ hp⟩
        rw [List.getElem?_set, if_pos rfl, if_pos hlt]
      · rw [had] at hp
        exact absurd rfl hp
    · exact ⟨call, (mem_of_set_calls hold hjk hj).1, he, hp⟩

/-- A step that leaves the set, the record and what is in flight as they are. -/
theorem Faithful.frame (h : Faithful s) (hpins : t.pins = s.pins) (hrec : t.record.pins = s.record.pins)
    (hchain : t.chainHeld = s.chainHeld) (hloaded : t.loaded = s.loaded) (hqueued : t.queued = s.queued)
    (hadded : ∀ call ∈ t.calls, call.ended = false → ∀ cid kind, lastPin call.added cid = some kind →
      s.pins.get cid = some kind)
    (hflight : ∀ cid, ¬ t.InFlight cid → ¬ s.InFlight cid)
    (hun : s.loaded = false → t.complete = false ∧ (t.record.load ≠ none → t.changing = 0 ∧ t.jobs = [] ∧
      t.calls = [] ∧ t.pins = upsert .empty t.chainHeld))
    (hpass : s.loaded = false → ∀ job ∈ t.jobs, job.kind ≠ .pass) : Faithful t where
  chain := by
    rw [hchain]
    exact h.chain
  passes := fun hl => hpass (hloaded ▸ hl)
  untouched := by
    intro hl
    rw [hloaded] at hl
    exact ⟨(hun hl).1, hqueued.trans (h.untouched hl).2.1, (hun hl).2⟩
  added := by
    rw [hpins]
    exact hadded
  recorded := by
    intro hl cid hf hq
    rw [hpins, hrec]
    refine h.recorded (hloaded ▸ hl) cid (hflight cid hf) ?_
    rintro ⟨unrecorded, entries, hu, hp⟩
    exact hq ⟨unrecorded, entries, hqueued.trans hu, hp⟩

theorem Faithful.dirty_of_call (h : Faithful s) (hl : s.loaded = false) {k : ℕ} {call : PinInto}
    (hc : s.calls[k]? = some call) : s.record.load = none := by
  by_contra hn
  rw [((h.untouched hl).2.2 hn).2.2.1] at hc
  cases hc

theorem Faithful.dirty_of_job (h : Faithful s) (hl : s.loaded = false) {j : ℕ} {job : PinJob}
    (hj : s.jobs[j]? = some job) : s.record.load = none := by
  by_contra hn
  rw [((h.untouched hl).2.2 hn).2.1] at hj
  cases hj

theorem Faithful.startJob (h : Faithful s) (job : PinJob) (hjob : s.loaded = false → job.kind ≠ .pass) :
    Faithful (s.startJob job) := by
  refine h.frame rfl ?_ rfl rfl rfl h.added (fun _ hf => hf) (fun hl => ⟨(h.untouched hl).1, fun hn => ?_⟩) ?_
  · simp only [LibraryPins.startJob]
    split
    · exact pins_begin s.record
    · rfl
  · simp only [LibraryPins.startJob] at hn
    split at hn
    case isTrue => exact absurd (load_begin s.record) hn
    case isFalse hc => exact absurd ((h.untouched hl).2.2 hn).1 hc
  · intro hl a ha
    rcases List.mem_append.mp ha with ha | ha
    · exact h.passes hl a ha
    · exact List.mem_singleton.mp ha ▸ hjob hl

/-- The jobs change, but not what kind they are, and the record is at most marked. -/
theorem Faithful.setJob (h : Faithful s) {j : ℕ} {old new : PinJob} (hold : s.jobs[j]? = some old)
    (hjobs : t.jobs = s.jobs.set j new) (hkind : old.kind ≠ .pass → new.kind ≠ .pass) (hpins : t.pins = s.pins)
    (hrec : t.record.pins = s.record.pins) (hload : s.loaded = false → t.record = s.record)
    (hchain : t.chainHeld = s.chainHeld) (hloaded : t.loaded = s.loaded) (hqueued : t.queued = s.queued)
    (hcalls : t.calls = s.calls) (hcomplete : s.loaded = false → t.complete = false) : Faithful t := by
  refine h.frame hpins hrec hchain hloaded hqueued ?_ ?_ (fun hl => ⟨hcomplete hl, fun hn => ?_⟩) ?_
  · rw [hcalls]
    exact h.added
  · intro cid hf
    rw [InFlight, hcalls] at hf
    exact hf
  · rw [hload hl] at hn
    exact absurd (h.dirty_of_job hl hold) hn
  · intro hl a ha
    rw [hjobs] at ha
    rcases List.mem_or_eq_of_mem_set ha with ha | rfl
    · exact h.passes hl a ha
    · exact hkind (h.passes hl old (List.mem_of_getElem? hold))

theorem Faithful.endJob (h : Faithful s) {j : ℕ} {job : PinJob} (hj : s.jobs[j]? = some job)
    (status : PinJobStatus) : Faithful (s.endJob j job status) := by
  refine h.setJob hj rfl id rfl ?_ ?_ rfl rfl rfl rfl fun hl => (h.untouched hl).1
  · simp only [LibraryPins.endJob]
    split
    · exact pins_settle s.record
    · rfl
  · intro hl
    simp [LibraryPins.endJob, (h.untouched hl).1]

theorem Faithful.throwIn (h : Faithful s) (j : ℕ) : Faithful (s.throwIn j) := by
  unfold LibraryPins.throwIn
  split
  case h_1 job hj =>
    split
    · exact h.setJob hj rfl id rfl rfl (fun _ => rfl) rfl rfl rfl rfl fun hl => (h.untouched hl).1
    · exact h
  case h_2 => exact h

/-- A call moves on with what it has added. -/
theorem Faithful.setCall (h : Faithful s) {k : ℕ} {old new : PinInto} (hold : s.calls[k]? = some old)
    (hsame : new.ended = old.ended ∧ new.added = old.added ∨ old.added = [] ∧ new.added = []) :
    Faithful (s.setCall k new) := by
  refine h.frame rfl rfl rfl rfl rfl ?_ ?_ (fun hl => ⟨(h.untouched hl).1, fun hn => ?_⟩) h.passes
  · intro call hm he cid kind hp
    rcases mem_set_calls hold hm with rfl | ⟨j, -, hj⟩
    · rcases hsame with ⟨hen, had⟩ | ⟨-, had⟩
      · exact h.added old (List.mem_of_getElem? hold) (hen ▸ he) cid kind (had ▸ hp)
      · rw [had] at hp
        cases hp
    · exact h.added call (List.mem_of_getElem? hj) he cid kind hp
  · exact fun cid hf hf' => hf ((inFlight_set_calls hold rfl hsame cid).mpr hf')
  · exact absurd (h.dirty_of_call hl hold) hn

theorem Faithful.load (h : Faithful s) {entries : Bool} (hl : s.loaded = false) (ho : s.Orderly (.load entries)) :
    Faithful (s.load entries) := by
  obtain ⟨hcomplete, hqueued, hclean⟩ := h.untouched hl
  unfold LibraryPins.load
  split
  case h_1 hnone =>
    refine ⟨h.chain, (fun hf => by cases hf), (fun hf => by cases hf), h.added, fun _ cid hf hq => ?_⟩
    have hchain : lastPin s.chainHeld cid = none := by
      by_contra hn
      exact hq ⟨s.chainHeld, entries, rfl, hn⟩
    cases hp : s.pins.get cid with
    | none => simp [LibraryPinRecord.pins]
    | some kind =>
      rcases ho hnone cid kind hp with hc | hc
      · exact absurd hchain hc
      · exact absurd hc hf
  case h_2 recorded hsome =>
    obtain ⟨-, -, hcalls, hpins⟩ := hclean (by simp [hsome])
    have hrec := pins_of_load hsome
    have hdirect : ∀ cid, s.pins.get cid ≠ some true := by
      intro cid hg
      rw [hpins] at hg
      cases h.chain (cid, true) (mem_of_lastPin hg)
    refine ⟨h.chain, (fun hf => by cases hf), (fun hf => by cases hf), by simp [hcalls], fun _ cid hf hq => ?_⟩
    rw [get_takeBack _ recorded.keys_nodup _ hdirect]
    change s.record.pins.get cid = (recorded.get cid).or (s.pins.get cid)
    rw [hrec]
    cases hg : recorded.get cid with
    | some kind => rfl
    | none =>
      cases hp : s.pins.get cid with
      | none => rfl
      | some kind =>
        -- a chain pin that is not recorded is left to the pass
        have hmem : (cid, kind) ∈ s.chainHeld.filter fun p => recorded.get p.1 ≠ some p.2 := by
          rw [hpins] at hp
          exact List.mem_filter.mpr ⟨mem_of_lastPin hp, by simp [hg]⟩
        exact absurd ⟨_, entries, rfl, fun hn => lastPin_eq_none.mp hn _ hmem rfl⟩ hq

theorem Faithful.startPass (h : Faithful s) (ho : s.Orderly .startPass) (ht : s.startPass = some t) :
    Faithful t := by
  unfold LibraryPins.startPass at ht
  split at ht
  case h_1 => cases ht
  case h_2 unrecorded entries hq =>
    have hloaded : s.loaded = true := by
      by_contra hl
      rw [(h.untouched (by simpa using hl)).2.1] at hq
      cases hq
    split at ht
    · cases ht
    · split at ht
      case isTrue hempty =>
        obtain rfl := Option.some_inj.mp ht
        refine ⟨h.chain, fun hl => by simp [hloaded] at hl, fun hl => by simp [hloaded] at hl, h.added, ?_⟩
        intro _ cid hf _
        refine h.recorded hloaded cid hf ?_
        rintro ⟨u, e, hu, hp⟩
        obtain ⟨rfl, -⟩ := Prod.mk.inj (Option.some_inj.mp (hq.symm.trans hu))
        rw [List.isEmpty_iff.mp hempty.2] at hp
        exact hp rfl
      case isFalse =>
        obtain rfl := Option.some_inj.mp ht
        have hjob := h.startJob ⟨.pass, true, .running⟩ fun hl => by simp [hloaded] at hl
        refine ⟨h.chain, fun hl => ?_, fun hl => ?_, h.added, ?_⟩
        · change s.loaded = false at hl
          simp [hloaded] at hl
        · change s.loaded = false at hl
          simp [hloaded] at hl
        · intro _ cid hf _
          change (LibraryPinRecord.pins (LibraryPinRecord.set _ unrecorded)).get cid = s.pins.get cid
          rw [pins_set, get_upsert]
          cases hp : lastPin unrecorded cid with
          | some kind => exact (ho unrecorded entries hq cid kind hp).symm
          | none =>
            refine hjob.recorded hloaded cid hf ?_
            rintro ⟨u, e, hu, hn⟩
            obtain ⟨rfl, -⟩ := Prod.mk.inj (Option.some_inj.mp (hq.symm.trans hu))
            exact hn hp

theorem withCall_eq_some {k : ℕ} {f : PinInto → Option LibraryPins} (h : s.withCall k f = some t) :
    ∃ call, s.calls[k]? = some call ∧ call.ended = false ∧ f call = some t := by
  unfold withCall at h
  split at h
  case h_1 call hc =>
    split at h
    case isTrue => cases h
    case isFalse he => exact ⟨call, hc, by simpa using he, h⟩
  case h_2 => cases h

theorem withJob_eq_some {j : ℕ} {f : PinJob → Option LibraryPins} (h : s.withJob j f = some t) :
    ∃ job, s.jobs[j]? = some job ∧ f job = some t :=
  Option.bind_eq_some_iff.mp h

theorem Faithful.call (h : Faithful s) (j : ℕ) (items : List (String × Bool)) {job : PinJob}
    (hj : s.jobs[j]? = some job) : Faithful { s with calls := s.calls ++ [⟨j, items, false, [], false⟩] } := by
  refine h.frame rfl rfl rfl rfl rfl ?_ ?_ (fun hl => ⟨(h.untouched hl).1, fun hn => ?_⟩) h.passes
  · intro call hm he cid kind hp
    rcases List.mem_append.mp hm with hm | hm
    · exact h.added call hm he cid kind hp
    · rw [List.mem_singleton.mp hm] at hp
      cases hp
  · rintro cid hf ⟨call, hm, he, hp⟩
    exact hf ⟨call, List.mem_append_left _ hm, he, hp⟩
  · exact absurd (h.dirty_of_job hl hj) hn

theorem Faithful.next (h : Faithful s) {k : ℕ} (ht : s.next k = some t) : Faithful t := by
  obtain ⟨call, hc, -, hf⟩ := withCall_eq_some ht
  split at hf
  case h_2 => cases hf
  case h_1 =>
    split at hf <;> obtain rfl := Option.some_inj.mp hf <;> exact h.setCall hc (Or.inl ⟨rfl, rfl⟩)

theorem Faithful.unavailable (h : Faithful s) {k : ℕ} (ht : s.unavailable k = some t) : Faithful t := by
  obtain ⟨call, hc, -, hf⟩ := withCall_eq_some ht
  split at hf
  case h_2 => cases hf
  case h_1 =>
    obtain rfl := Option.some_inj.mp hf
    exact h.setCall hc (Or.inl ⟨rfl, rfl⟩)

theorem Faithful.pinFailed (h : Faithful s) {k : ℕ} (ho : s.Orderly (.pinFailed k))
    (ht : s.pinFailed k = some t) : Faithful t := by
  obtain ⟨call, hc, -, hf⟩ := withCall_eq_some ht
  split at hf
  case isFalse => cases hf
  case isTrue =>
    obtain rfl := Option.some_inj.mp hf
    have hnone := ho call hc
    have hset : Faithful (s.setCall k { call with ended := true }) := h.setCall hc (Or.inr ⟨hnone, hnone⟩)
    exact hset.throwIn call.job

theorem Faithful.pinned (h : Faithful s) {k : ℕ} (ho : s.Orderly (.pinned k)) (ht : s.pinned k = some t) :
    Faithful t := by
  obtain ⟨call, hc, hopen, hf⟩ := withCall_eq_some ht
  split at hf
  case h_2 => cases hf
  case h_1 cid recursive rest hrest _ =>
    obtain rfl := Option.some_inj.mp hf
    have hlt := (List.getElem?_eq_some_iff.mp hc).1
    refine ⟨h.chain, fun hl => ⟨(h.untouched hl).1, (h.untouched hl).2.1, fun hn => ?_⟩, h.passes, ?_, ?_⟩
    · exact absurd (h.dirty_of_call hl hc) hn
    · intro other hm he x kind hp
      change (s.pins.set cid recursive).get x = some kind
      rw [OrderedMap.get_set]
      rcases mem_set_calls hc hm with rfl | ⟨j, hjk, hj⟩
      · rw [lastPin_append] at hp
        split at hp
        case isTrue hx => rw [if_pos hx, hp]
        case isFalse hx =>
          rw [if_neg hx]
          exact h.added call (List.mem_of_getElem? hc) hopen x kind hp
      · split
        case isTrue hx =>
          subst hx
          exact ho call x recursive rest hc hrest j other kind hjk hj he hp
        case isFalse => exact h.added other (List.mem_of_getElem? hj) he x kind hp
    · intro hl x hf hq
      have hself : (⟨call.job, rest, false, call.added ++ [(cid, recursive)], call.ended⟩ : PinInto) ∈
          s.calls.set k ⟨call.job, rest, false, call.added ++ [(cid, recursive)], call.ended⟩ :=
        List.mem_iff_getElem?.mpr ⟨k, by rw [List.getElem?_set, if_pos rfl, if_pos hlt]⟩
      have hx : x ≠ cid := by
        rintro rfl
        exact hf ⟨_, hself, hopen, by simp [lastPin_append]⟩
      change s.record.pins.get x = (s.pins.set cid recursive).get x
      rw [OrderedMap.get_set, if_neg hx]
      refine h.recorded hl x ?_ hq
      rintro ⟨other, hm, he, hp⟩
      obtain ⟨j, hj⟩ := List.mem_iff_getElem?.mp hm
      by_cases hjk : j = k
      · subst hjk
        obtain rfl := Option.some_inj.mp (hc.symm.trans hj)
        exact hf ⟨_, hself, hopen, by simpa [lastPin_append, hx] using hp⟩
      · exact hf ⟨other, (mem_of_set_calls hc hjk hj).1, he, hp⟩

theorem Faithful.returned (h : Faithful s) {k : ℕ} (ht : s.returned k = some t) : Faithful t := by
  obtain ⟨call, hc, hopen, hf⟩ := withCall_eq_some ht
  split at hf
  case isFalse => cases hf
  case isTrue =>
    obtain rfl := Option.some_inj.mp hf
    refine ⟨h.chain, fun hl => ⟨(h.untouched hl).1, (h.untouched hl).2.1, fun hn => ?_⟩, h.passes, ?_, ?_⟩
    · exact absurd (load_set_eq_none (h.dirty_of_call hl hc) call.added) hn
    · intro other hm he x kind hp
      rcases mem_set_calls hc hm with rfl | ⟨j, -, hj⟩
      · cases he
      · exact h.added other (List.mem_of_getElem? hj) he x kind hp
    · intro hl x hf hq
      change (LibraryPinRecord.pins (s.record.set call.added)).get x = s.pins.get x
      rw [pins_set, get_upsert]
      cases hp : lastPin call.added x with
      | some kind => exact (h.added call (List.mem_of_getElem? hc) hopen x kind hp).symm
      | none =>
        refine h.recorded hl x ?_ hq
        rintro ⟨other, hm, he, hn⟩
        obtain ⟨j, hj⟩ := List.mem_iff_getElem?.mp hm
        by_cases hjk : j = k
        · subst hjk
          obtain rfl := Option.some_inj.mp (hc.symm.trans hj)
          exact hn hp
        · exact hf ⟨other, (mem_of_set_calls hc hjk hj).1, he, hn⟩

theorem Faithful.released (h : Faithful s) {j : ℕ} (ho : s.Orderly (.released j)) (ht : s.released j = some t) :
    Faithful t := by
  obtain ⟨job, hj, hf⟩ := withJob_eq_some ht
  split at hf
  case h_2 => cases hf
  case h_1 cid rest hkind _ =>
    have hset : Faithful (s.setJob j { job with kind := .release rest }) :=
      h.setJob hj rfl (fun _ => nofun) rfl rfl (fun _ => rfl) rfl rfl rfl rfl fun hl => (h.untouched hl).1
    have hnone := ho job cid rest hj hkind
    simp only at hf
    split at hf
    case isFalse =>
      obtain rfl := Option.some_inj.mp hf
      exact hset
    case isTrue =>
      obtain rfl := Option.some_inj.mp hf
      refine ⟨h.chain, fun hl => ⟨(h.untouched hl).1, (h.untouched hl).2.1, fun hn => ?_⟩, hset.passes, ?_, ?_⟩
      · exact absurd (load_delete_eq_none (h.dirty_of_job hl hj) cid) hn
      · intro call hm he x kind hp
        change (s.pins.delete cid).get x = some kind
        rw [OrderedMap.get_delete, if_neg]
        · exact h.added call hm he x kind hp
        · rintro rfl
          rw [hnone call hm he] at hp
          cases hp
      · intro hl x hf hq
        change (LibraryPinRecord.pins (s.record.delete cid)).get x = (s.pins.delete cid).get x
        rw [get_pins_delete, OrderedMap.get_delete]
        split
        · rfl
        · exact h.recorded hl x hf hq

theorem Faithful.finish (h : Faithful s) {j : ℕ} (ht : s.finish j = some t) : Faithful t := by
  obtain ⟨job, hj, hf⟩ := withJob_eq_some ht
  split at hf
  case isFalse => cases hf
  case isTrue =>
    split at hf
    case h_1 => exact Option.some_inj.mp hf ▸ h.endJob hj .finished
    case h_2 hkind =>
      have hloaded : s.loaded = true := by
        by_contra hl
        exact h.passes (by simpa using hl) job (List.mem_of_getElem? hj) hkind
      have hcomplete : Faithful { s with complete := s.complete || !s.stopped } :=
        ⟨h.chain, fun hl => by simp [hloaded] at hl, h.passes, h.added, h.recorded⟩
      obtain rfl := Option.some_inj.mp hf
      exact hcomplete.endJob hj .finished
    case h_3 => exact Option.some_inj.mp hf ▸ h.endJob hj .finished
    case h_4 => cases hf

theorem Faithful.step (h : Faithful s) {l : Label} (ho : s.Orderly l) (ht : s.step l = some t) : Faithful t := by
  cases l with
  | load entries =>
    simp only [LibraryPins.step] at ht
    split at ht
    case isTrue => cases ht
    case isFalse hl =>
      obtain rfl := Option.some_inj.mp ht
      exact h.load (by simpa using hl) ho
  | startPass => exact h.startPass ho ht
  | startPin exclusive =>
    simp only [LibraryPins.step] at ht
    split at ht
    · cases ht
    · exact Option.some_inj.mp ht ▸ h.startJob _ fun _ hp => by cases hp
  | startRelease cids =>
    simp only [LibraryPins.step] at ht
    split at ht
    · cases ht
    · exact Option.some_inj.mp ht ▸ h.startJob _ fun _ hp => by cases hp
  | call j items =>
    obtain ⟨job, hj, hf⟩ := withJob_eq_some ht
    split at hf
    · cases hf
    · split at hf
      · cases hf
      · exact Option.some_inj.mp hf ▸ h.call j items hj
  | next k => exact h.next ht
  | pinned k => exact h.pinned ho ht
  | unavailable k => exact h.unavailable ht
  | pinFailed k => exact h.pinFailed ho ht
  | returned k => exact h.returned ht
  | entryFailed j =>
    obtain ⟨job, -, hf⟩ := withJob_eq_some ht
    exact Option.some_inj.mp hf ▸ h.throwIn j
  | released j => exact h.released ho ht
  | unpinFailed j =>
    obtain ⟨job, -, hf⟩ := withJob_eq_some ht
    exact Option.some_inj.mp hf ▸ h.throwIn j
  | finish j => exact h.finish ht
  | abort j =>
    obtain ⟨job, hj, hf⟩ := withJob_eq_some ht
    split at hf
    · exact Option.some_inj.mp hf ▸ h.endJob hj .thrown
    · cases hf
  | stop =>
    obtain rfl := Option.some_inj.mp ht
    exact ⟨h.chain, h.untouched, h.passes, h.added, h.recorded⟩
  | flush =>
    obtain rfl := Option.some_inj.mp ht
    exact ⟨h.chain, h.untouched, h.passes, h.added, h.recorded⟩
  | rollback =>
    have hback : s.committed = s.record := ho
    obtain rfl := Option.some_inj.mp ht
    rw [hback]
    exact ⟨h.chain, h.untouched, h.passes, h.added, h.recorded⟩

theorem faithful_create (chain : List String) (record : LibraryPinRecord) : Faithful (create chain record) where
  chain := by simp [create]
  untouched := fun _ => ⟨rfl, rfl, fun _ => ⟨rfl, rfl, rfl, rfl⟩⟩
  passes := by simp [create]
  added := by simp [create]
  recorded := by simp [create]

theorem Faithful.exact (h : Faithful s) : Exact s := by
  intro hq recorded hr cid
  simp only [quiet, Bool.and_eq_true, List.all_eq_true] at hq
  obtain ⟨⟨⟨hloaded, hnone⟩, -⟩, hended⟩ := hq
  rw [← pins_of_load hr]
  refine h.recorded hloaded cid ?_ ?_
  · rintro ⟨call, hm, he, -⟩
    simp [hended call hm] at he
  · rintro ⟨u, e, hu, -⟩
    simp [hu] at hnone

end Invariant

/-- The states of an open library, along steps that the guard allows. -/
def Reached (allowed : LibraryPins → Label → Prop) (chain : List String) (record : LibraryPinRecord) :
    LibraryPins → Prop :=
  Run step (· = create chain record) allowed

/-- Along every orderly run a clean record equals the pin set whenever nothing is in flight. -/
theorem pin_record_fidelity {chain : List String} {record : LibraryPinRecord} {s : LibraryPins}
    (h : Reached Orderly chain record s) : Exact s := by
  have hs : Faithful s := by
    refine Run.invariant h ?_ fun s l t hs hl ht => hs.step hl ht
    rintro _ rfl
    exact faithful_create chain record
  exact hs.exact

namespace Sample

def overlappedPins : PinSet :=
  (((OrderedMap.empty.set "m" false).set "c" false).set "a" false).set "d" true

/-- The pass of the open has pinned "a" and "b" while a registration pinned "c"; before the registration
returned, "b" was released, and a hold of "d" began. -/
def overlapped : LibraryPins where
  pins := overlappedPins
  record := some ⟨true, (((OrderedMap.empty.set "m" false).set "a" false).set "c" false).set "d" true⟩
  committed := none
  changing := 0
  complete := true
  stopped := false
  chainHeld := [("m", false)]
  loaded := true
  queued := none
  jobs := [⟨.pass, true, .finished⟩, ⟨.pin, false, .finished⟩, ⟨.release [], true, .finished⟩, ⟨.pin, true, .finished⟩]
  calls := [⟨0, [], false, [("a", false), ("b", true)], true⟩, ⟨1, [], false, [("c", false)], true⟩,
    ⟨3, [], false, [("d", true)], true⟩]

/-- The pin of a second CID throws. -/
def thrown : LibraryPins :=
  ⟨OrderedMap.empty.set "a" false, some ⟨true, .empty⟩, none, 0, true, false, [], true, none,
    [⟨.pin, false, .thrown⟩], [⟨0, [("b", false)], true, [("a", false)], true⟩]⟩

theorem run_thrown : runLabels step (create [] none) [.load false, .startPass, .startPin false,
    .call 0 [("a", false), ("b", false)], .next 0, .pinned 0, .next 0, .pinFailed 0, .abort 0] = some thrown := rfl

end Sample

theorem unshared_of_absent {s : LibraryPins} {k : ℕ} {cid : String} {flag : Option Bool}
    (h : ∀ call ∈ s.calls.eraseIdx k, call.ended = false → LibraryPinRecord.lastPin call.added cid = none) :
    s.Unshared k cid flag := by
  intro j call kind hjk hj hopen hp
  rw [h call (List.mem_eraseIdx_iff_getElem?.mpr ⟨j, hjk, hj⟩) hopen] at hp
  cases hp

/-- A registration overlaps the pass of the open, a release and a hold. Once all of them have ended the record is
clean and says what is pinned. -/
theorem pin_record_fidelity_overlapped :
    Reached Orderly ["m"] none Sample.overlapped ∧ Sample.overlapped.quiet = true ∧
      ∃ recorded, Sample.overlapped.record.load = some recorded ∧
        ∀ cid, recorded.get cid = Sample.overlappedPins.get cid := by
  have h1 : Reached Orderly ["m"] none _ := .next (.load true) (.start rfl) (by
    intro _ cid kind hp
    refine .inl ?_
    change LibraryPinRecord.lastPin [("m", false)] cid = some kind at hp
    simp [create, hp]) rfl
  have h2 : Reached Orderly ["m"] none _ := .next .startPass h1 (by
    rintro _ _ ⟨⟩ cid kind hp
    exact hp) rfl
  have h3 : Reached Orderly ["m"] none _ := Run.of_runLabels h2 (by simp [Orderly])
    (show runLabels step _ [.call 0 [("a", false), ("b", true)], .startPin false, .call 1 [("c", false)], .next 0, .next 1] =
      some _ from rfl)
  have h4 : Reached Orderly ["m"] none _ := .next (.pinned 1) h3 (by
    rintro _ _ _ _ ⟨⟩ ⟨⟩
    exact unshared_of_absent (by decide)) rfl
  have h5 : Reached Orderly ["m"] none _ := .next (.pinned 0) h4 (by
    rintro _ _ _ _ ⟨⟩ ⟨⟩
    exact unshared_of_absent (by decide)) rfl
  have h6 : Reached Orderly ["m"] none _ := .next (.next 0) h5 trivial rfl
  have h7 : Reached Orderly ["m"] none _ := .next (.pinned 0) h6 (by
    rintro _ _ _ _ ⟨⟩ ⟨⟩
    exact unshared_of_absent (by decide)) rfl
  have h8 : Reached Orderly ["m"] none _ := Run.of_runLabels h7 (by simp [Orderly])
    (show runLabels step _ [.returned 0, .finish 0, .startRelease ["b", "c"]] = some _ from rfl)
  have h9 : Reached Orderly ["m"] none _ := .next (.released 2) h8 (by
    rintro _ _ _ ⟨⟩ ⟨⟩
    decide) rfl
  have h10 : Reached Orderly ["m"] none _ := Run.of_runLabels h9 (by simp [Orderly])
    (show runLabels step _ [.finish 2, .startPin true, .call 3 [("d", true)], .next 2] = some _ from rfl)
  have h11 : Reached Orderly ["m"] none _ := .next (.pinned 2) h10 (by
    rintro _ _ _ _ ⟨⟩ ⟨⟩
    exact unshared_of_absent (by decide)) rfl
  have h12 : Reached Orderly ["m"] none Sample.overlapped := Run.of_runLabels h11 (by simp [Orderly])
    (show runLabels step _ [.returned 1, .finish 1, .returned 2, .finish 3] = some _ from rfl)
  exact ⟨h12, rfl, _, rfl, pin_record_fidelity h12 rfl _ rfl⟩

/-- The second pin of a registration throws: the record is marked clean without the first. -/
theorem pin_record_fidelity_thrown :
    Reached anyLabel [] none Sample.thrown ∧ Sample.thrown.quiet = true ∧
      Sample.thrown.pins.get "a" = some false ∧ Sample.thrown.record.load = some .empty ∧
      ¬ Exact Sample.thrown := by
  refine ⟨Run.of_runLabels (.start rfl) (fun _ _ _ => trivial) Sample.run_thrown, rfl, rfl, rfl, fun hx => ?_⟩
  cases hx rfl .empty rfl "a"

end LibraryPins

end RecordNode
