import Mathlib.Algebra.Group.Nat.Defs
import RecordNode.Foundation.OrderedMap
import RecordNode.Foundation.Run

/-! # The blob keeper's jobs

A blob that a library's policy or a pin record wants is a job, until its fetch is found
complete. A job is due and in the ready queue, waits out a retry, or runs; the attempt
holds on to its job's record, which the map of jobs may no longer name, and is marked
running until it has settled. The handlers want blobs at any time, so wants are steps
of their own here, and so is each turn of the pump, which the source takes at the end
of its handlers. The keeper is not stopped. -/

namespace RecordNode

open Foundation

/-- Who wants a blob kept: libraries, each at the policy generation that asked, or a pin record. -/
structure BlobJob where
  cid : String
  libraries : OrderedMap String ℕ
  pinned : Bool
  attempts : ℕ
  retryAt : ℕ

inductive AttemptPhase where
  | fetching
  /-- The fetch was found complete, with the job as it was then. -/
  | landing (found : BlobJob)
  /-- It has landed, failed or thrown, and is still marked running. -/
  | settling

structure BlobAttempt where
  job : ℕ
  phase : AttemptPhase

structure BlobKeeper where
  /-- The record of every job ever made. -/
  records : ℕ → BlobJob
  nextJob : ℕ
  jobs : OrderedMap String ℕ
  /-- The queue from `ready_at` on. -/
  ready : List String
  waiting : OrderedSet String
  running : OrderedSet String
  attempts : String → Option BlobAttempt
  timerDue : Option ℕ
  generations : String → ℕ
  /-- The libraries whose replication is paused. -/
  paused : String → Bool
  /-- The jobs forgotten for want of an owner. -/
  forgotten : List ℕ
  /-- The jobs a fetch found complete took out of the map, with the job the fetch was for. -/
  discharged : List (ℕ × ℕ)

namespace BlobKeeper

def retryFirstMs : ℕ := 30000
def retryMaxMs : ℕ := 30 * 60000

def create : BlobKeeper where
  records _ := ⟨"", .empty, false, 0, 0⟩
  nextJob := 0
  jobs := .empty
  ready := []
  waiting := .empty
  running := .empty
  attempts _ := none
  timerDue := none
  generations _ := 0
  paused _ := false
  forgotten := []
  discharged := []

inductive Label where
  /-- A library's policy, at its generation now, or a pin record wants the blob. -/
  | want (cid : String) (library : Option String) (pinned : Bool)
  /-- A policy change. -/
  | policyChanged (library : String)
  | pauses (library : String) (paused : Bool)
  /-- A pin record is removed. -/
  | unpin (cid : String)
  /-- The pump looks at one CID of the ready queue. -/
  | pump
  | fetched (cid : String)
  | fetchFails (cid : String) (now : ℕ)
  /-- The read fails for another reason than the protocol. -/
  | fetchThrows (cid : String)
  /-- The blob is pinned and held, or a pin or a hold throws. -/
  | lands (cid : String)
  /-- The attempt is marked running no longer. -/
  | settles (cid : String)
  | timer (now : ℕ)
  | retry

section Step
variable (concurrency : ℕ)

/-- The libraries whose policy still wants the blob at the generation that asked. -/
def currentLibraries (s : BlobKeeper) (job : BlobJob) : List String :=
  (job.libraries.items.filter fun asked => s.generations asked.1 = asked.2).map Prod.fst

/-- A paused library suspends its fetches; a pin applies regardless. -/
def wantedNow (s : BlobKeeper) (job : BlobJob) : Bool :=
  job.pinned || (s.currentLibraries job).any fun address => !s.paused address

def setRecord (s : BlobKeeper) (j : ℕ) (job : BlobJob) : BlobKeeper :=
  { s with records := Function.update s.records j job }

def setAttempt (s : BlobKeeper) (cid : String) (attempt : Option BlobAttempt) : BlobKeeper :=
  { s with attempts := Function.update s.attempts cid attempt }

def isUnowned (s : BlobKeeper) (job : BlobJob) : Bool := !job.pinned && (s.currentLibraries job).isEmpty

/-- The job of a CID leaves the map and the waiting set. -/
def forget (s : BlobKeeper) (cid : String) (j : ℕ) : BlobKeeper :=
  { s with jobs := s.jobs.delete cid, waiting := s.waiting.delete cid, forgotten := s.forgotten ++ [j] }

/-- The timer is armed for a retry, unless it is armed sooner. -/
def schedule (s : BlobKeeper) (due : ℕ) : BlobKeeper :=
  if s.timerDue.any (· ≤ due) then s else { s with timerDue := some due }

def newJob (cid : String) (libraries : OrderedMap String ℕ) (pinned : Bool) : BlobJob := ⟨cid, libraries, pinned, 0, 0⟩

/-- A job with one more want. -/
def addWant (s : BlobKeeper) (job : BlobJob) (library : Option String) (pinned : Bool) : BlobJob :=
  { job with
    libraries := library.elim job.libraries fun address => job.libraries.set address (s.generations address)
    pinned := job.pinned || pinned }

def wants (s : BlobKeeper) (cid : String) (library : Option String) (pinned : Bool) : BlobKeeper :=
  match s.jobs.get cid with
  | some j => s.setRecord j (s.addWant (s.records j) library pinned)
  | none => { s.setRecord s.nextJob (s.addWant (newJob cid .empty false) library pinned) with
      nextJob := s.nextJob + 1
      jobs := s.jobs.set cid s.nextJob
      ready := s.ready ++ [cid] }

def run (s : BlobKeeper) (cid : String) (j : ℕ) : BlobKeeper :=
  { s.setAttempt cid (some ⟨j, .fetching⟩) with running := s.running.add cid }

/-- The pump with a CID just taken from the queue. -/
def pumpCid (s : BlobKeeper) (cid : String) : BlobKeeper :=
  match s.jobs.get cid with
  | none => s
  | some j =>
    if s.running.has cid then s
    else if s.isUnowned (s.records j) then s.forget cid j
    else if s.wantedNow (s.records j) then s.run cid j
    else { s with waiting := s.waiting.add cid }

/-- A waiting job that is due and wanted. -/
def isDue (s : BlobKeeper) (now : ℕ) (cid : String) : Bool :=
  (s.jobs.get cid).any fun j => (s.records j).retryAt ≤ now && s.wantedNow (s.records j)

/-- The timer's pass: waiting CIDs without a job go, due ones are ready. -/
def timerPass (s : BlobKeeper) (now : ℕ) : BlobKeeper :=
  let next := s.waiting.items.filterMap fun cid => (s.jobs.get cid).bind fun j =>
    if (s.records j).retryAt ≤ now then none else some (s.records j).retryAt
  let moved := { s with
    timerDue := none
    ready := s.ready ++ s.waiting.items.filter (s.isDue now)
    waiting := ⟨s.waiting.items.filter fun cid => s.jobs.has cid && !s.isDue now cid, s.waiting.nodup.filter _⟩ }
  match next.min? with
  | some due => moved.schedule due
  | none => moved

def step (s : BlobKeeper) : Label → Option BlobKeeper
  | .want cid library pinned => some (s.wants cid library pinned)
  | .policyChanged library =>
    some { s with generations := Function.update s.generations library (s.generations library + 1) }
  | .pauses library paused => some { s with paused := Function.update s.paused library paused }
  | .unpin cid =>
    match s.jobs.get cid with
    | none => some s
    | some j =>
      let unpinned := s.setRecord j { s.records j with pinned := false }
      some (if unpinned.isUnowned (unpinned.records j) then unpinned.forget cid j else unpinned)
  | .pump =>
    match s.ready with
    | [] => none
    | cid :: rest => if s.running.size < concurrency then some (pumpCid { s with ready := rest } cid) else none
  | .fetched cid => (s.attempts cid).bind fun attempt =>
    match attempt.phase with
    | .fetching => some { s.setAttempt cid (some { attempt with phase := .landing (s.records attempt.job) }) with
        jobs := s.jobs.delete cid
        discharged := s.discharged ++ (s.jobs.get cid).toList.map fun j => (j, attempt.job) }
    | _ => none
  | .fetchFails cid now => (s.attempts cid).bind fun attempt =>
    match attempt.phase with
    | .fetching =>
      let job := s.records attempt.job
      let due := now + min (retryFirstMs * 2 ^ job.attempts) retryMaxMs
      some (schedule { (s.setRecord attempt.job { job with attempts := job.attempts + 1, retryAt := due }).setAttempt
          cid (some { attempt with phase := .settling }) with waiting := s.waiting.add cid } due)
    | _ => none
  | .fetchThrows cid => (s.attempts cid).bind fun attempt =>
    match attempt.phase with
    | .fetching => some (s.setAttempt cid (some { attempt with phase := .settling }))
    | _ => none
  | .lands cid => (s.attempts cid).bind fun attempt =>
    match attempt.phase with
    | .landing _ => some (s.setAttempt cid (some { attempt with phase := .settling }))
    | _ => none
  | .settles cid => (s.attempts cid).bind fun attempt =>
    match attempt.phase with
    | .settling => some { s.setAttempt cid none with running := s.running.delete cid }
    | _ => none
  | .timer now =>
    match s.timerDue with
    | some due => if due ≤ now then some (s.timerPass now) else none
    | none => none
  | .retry => some { s with
      records := fun j => if s.waiting.items.any fun cid => s.jobs.get cid = some j
        then { s.records j with retryAt := 0 } else s.records j
      ready := s.ready ++ s.waiting.items
      waiting := .empty }

end Step

/-- The CID is in the ready queue or waits. -/
def IsQueued (s : BlobKeeper) (cid : String) : Prop := cid ∈ s.ready ∨ cid ∈ s.waiting

/-- The attempt's fetch is over, and it is still marked running. -/
def IsPast (s : BlobKeeper) (cid : String) : Prop :=
  ∃ attempt, s.attempts cid = some attempt ∧ match attempt.phase with
    | .fetching => False
    | _ => True

/-- A fetch found complete finds its own job in the map or none; a fetch throws only where the CID has no
job or one that is queued again; and the pump does not throw out the last place of a job while an
attempt whose fetch is over is still marked running. -/
def Careful (s : BlobKeeper) : Label → Prop
  | .fetched cid => ∀ attempt j, s.attempts cid = some attempt → s.jobs.get cid = some j → j = attempt.job
  | .fetchThrows cid => s.jobs.get cid = none ∨ s.IsQueued cid
  | .pump => ∀ cid rest, s.ready = cid :: rest → s.IsPast cid → s.jobs.get cid = none ∨ cid ∈ rest ∨ cid ∈ s.waiting
  | _ => True

/-- Every job in the map is queued or runs; every job there was is in the map, was forgotten for want of
an owner or was discharged by a fetch of its own; and what lands is the job as its fetch found it. -/
structure KeepsWants (s : BlobKeeper) : Prop where
  queued : ∀ cid j, s.jobs.get cid = some j → s.IsQueued cid ∨ cid ∈ s.running
  kept : ∀ j < s.nextJob, s.jobs.get (s.records j).cid = some j ∨ j ∈ s.forgotten ∨ (j, j) ∈ s.discharged
  landing : ∀ cid attempt found, s.attempts cid = some attempt → attempt.phase = .landing found →
    s.records attempt.job = found

/-- The keeper between its steps. -/
structure Sound (s : BlobKeeper) : Prop where
  queued : ∀ cid j, s.jobs.get cid = some j → s.IsQueued cid ∨ cid ∈ s.running
  kept : ∀ j < s.nextJob, s.jobs.get (s.records j).cid = some j ∨ j ∈ s.forgotten ∨ (j, j) ∈ s.discharged
  runs : ∀ cid, cid ∈ s.running ↔ ∃ attempt, s.attempts cid = some attempt
  past : ∀ cid j, s.IsPast cid → s.jobs.get cid = some j → s.IsQueued cid
  named : ∀ cid j, s.jobs.get cid = some j → j < s.nextJob ∧ (s.records j).cid = cid
  attempted : ∀ cid attempt, s.attempts cid = some attempt →
    attempt.job < s.nextJob ∧ (s.records attempt.job).cid = cid
  /-- The record of a job that lands is no longer in the map and no longer written. -/
  landing : ∀ cid attempt found, s.attempts cid = some attempt → attempt.phase = .landing found →
    s.records attempt.job = found ∧ ∀ other, s.jobs.get other ≠ some attempt.job

theorem Sound.keepsWants {s : BlobKeeper} (h : s.Sound) : s.KeepsWants :=
  ⟨h.queued, h.kept, fun cid attempt found ha hp => (h.landing cid attempt found ha hp).1⟩

theorem sound_create : create.Sound := by
  constructor <;> simp [create, IsPast]

variable {s : BlobKeeper} {cid : String} {j : ℕ} {job : BlobJob} {attempt : BlobAttempt}

/-- Jobs may be queued anew, and lose no place but those whose fetch is under way. -/
theorem Sound.requeue (h : s.Sound) (ready : List String) (waiting : OrderedSet String) (timerDue : Option ℕ)
    (hq : ∀ cid j, s.jobs.get cid = some j → s.IsQueued cid →
      (cid ∈ ready ∨ cid ∈ waiting) ∨ cid ∈ s.running ∧ ¬ s.IsPast cid) :
    Sound { s with ready := ready, waiting := waiting, timerDue := timerDue } where
  queued cid j hj := by
    rcases h.queued cid j hj with hold | hr
    · exact (hq cid j hj hold).imp_right And.left
    · exact .inr hr
  kept := h.kept
  runs := h.runs
  past cid j hp hj := (hq cid j hj (h.past cid j hp hj)).resolve_right fun hr => hr.2 hp
  named := h.named
  attempted := h.attempted
  landing := h.landing

theorem Sound.queue (h : s.Sound) (ready : List String) (waiting : OrderedSet String) (timerDue : Option ℕ)
    (hq : ∀ cid j, s.jobs.get cid = some j → s.IsQueued cid → cid ∈ ready ∨ cid ∈ waiting) :
    Sound { s with ready := ready, waiting := waiting, timerDue := timerDue } :=
  h.requeue ready waiting timerDue fun cid j hj hold => .inl (hq cid j hj hold)

/-- Records may be written that keep their CIDs and that no attempt lands. -/
theorem Sound.setRecords (h : s.Sound) {records : ℕ → BlobJob} (hcid : ∀ i, (records i).cid = (s.records i).cid)
    (hl : ∀ cid attempt found, s.attempts cid = some attempt → attempt.phase = .landing found →
      records attempt.job = s.records attempt.job) : Sound { s with records := records } := by
  refine ⟨h.queued, ?_, h.runs, h.past, ?_, ?_, ?_⟩
  · intro i hi
    change s.jobs.get (records i).cid = some i ∨ _
    rw [hcid]
    exact h.kept i hi
  · intro cid i hi
    change _ ∧ (records i).cid = cid
    rw [hcid]
    exact h.named cid i hi
  · intro cid attempt ha
    change _ ∧ (records attempt.job).cid = cid
    rw [hcid]
    exact h.attempted cid attempt ha
  · intro cid attempt found ha hp
    exact ⟨(hl cid attempt found ha hp).trans (h.landing cid attempt found ha hp).1,
      (h.landing cid attempt found ha hp).2⟩

theorem Sound.setRecord (h : s.Sound) (hcid : job.cid = (s.records j).cid)
    (hl : ∀ cid attempt found, s.attempts cid = some attempt → attempt.phase = .landing found → attempt.job ≠ j) :
    (s.setRecord j job).Sound := by
  refine h.setRecords (fun i => ?_) fun cid attempt found ha hp => Function.update_of_ne (hl cid attempt found ha hp) _ _
  by_cases hi : i = j
  · rw [hi, Function.update_self, hcid]
  · rw [Function.update_of_ne hi]

/-- The record of a job in the map is no attempt's that lands. -/
theorem Sound.setRecord_of_get (h : s.Sound) (hj : s.jobs.get cid = some j) (hcid : job.cid = (s.records j).cid) :
    (s.setRecord j job).Sound :=
  h.setRecord hcid fun other attempt found ha hp heq => (h.landing other attempt found ha hp).2 cid (heq ▸ hj)

/-- A job may be forgotten. -/
theorem Sound.forget (h : s.Sound) (hj : s.jobs.get cid = some j) : (s.forget cid j).Sound := by
  have hget : ∀ other i, (s.jobs.delete cid).get other = some i → other ≠ cid ∧ s.jobs.get other = some i :=
    fun other i => s.jobs.get_delete_eq_some.mp
  have hqueued : ∀ other, other ≠ cid → s.IsQueued other → (s.forget cid j).IsQueued other :=
    fun other hne => Or.imp_right fun hw => (OrderedSet.mem_delete _ _ _).mpr ⟨hw, hne⟩
  refine ⟨?_, ?_, h.runs, ?_, ?_, h.attempted, ?_⟩
  · intro other i hi
    obtain ⟨hne, hi⟩ := hget other i hi
    exact (h.queued other i hi).imp_left (hqueued other hne)
  · intro i hi
    change (s.jobs.delete cid).get (s.records i).cid = some i ∨ i ∈ s.forgotten ++ [j] ∨ (i, i) ∈ s.discharged
    by_cases hij : i = j
    · exact .inr (.inl (by simp [hij]))
    · refine (h.kept i hi).imp (fun hk => ?_) (Or.imp_left (List.mem_append_left _))
      rw [OrderedMap.get_delete, if_neg, hk]
      intro hcid
      exact hij (Option.some_inj.mp (hk.symm.trans (hcid ▸ hj)))
  · intro other i hp hi
    obtain ⟨hne, hi⟩ := hget other i hi
    exact hqueued other hne (h.past other i hp hi)
  · intro other i hi
    exact h.named other i (hget other i hi).2
  · intro other attempt found ha hp
    exact ⟨(h.landing other attempt found ha hp).1,
      fun o ho => (h.landing other attempt found ha hp).2 o (hget o _ ho).2⟩

/-- A want of a CID without a job makes one, and queues it. -/
theorem Sound.newJob (h : s.Sound) (hj : s.jobs.get cid = none) (hcid : job.cid = cid) :
    Sound { s.setRecord s.nextJob job with
      nextJob := s.nextJob + 1
      jobs := s.jobs.set cid s.nextJob
      ready := s.ready ++ [cid] } := by
  have hold : ∀ i < s.nextJob, Function.update s.records s.nextJob job i = s.records i :=
    fun i hi => Function.update_of_ne (Nat.ne_of_lt hi) _ _
  have hget : ∀ other i, (s.jobs.set cid s.nextJob).get other = some i →
      other = cid ∧ i = s.nextJob ∨ other ≠ cid ∧ s.jobs.get other = some i := by
    intro other i hi
    rw [OrderedMap.get_set] at hi
    split at hi
    case isTrue heq => exact .inl ⟨heq, (Option.some_inj.mp hi).symm⟩
    case isFalse hne => exact .inr ⟨hne, hi⟩
  have hqueued : ∀ other, s.IsQueued other → other ∈ s.ready ++ [cid] ∨ other ∈ s.waiting :=
    fun other => Or.imp_left (List.mem_append_left _)
  refine ⟨?_, ?_, h.runs, ?_, ?_, ?_, ?_⟩
  · intro other i hi
    rcases hget other i hi with ⟨rfl, -⟩ | ⟨-, hi⟩
    · exact .inl (.inl (by simp))
    · exact (h.queued other i hi).imp_left (hqueued other)
  · intro i hi
    change (s.jobs.set cid s.nextJob).get (Function.update s.records s.nextJob job i).cid = some i ∨ _
    rcases Nat.lt_succ_iff_lt_or_eq.mp hi with hi | rfl
    · rw [hold i hi, OrderedMap.get_set]
      refine (h.kept i hi).imp_left fun hk => ?_
      rw [if_neg, hk]
      intro heq
      rw [heq, hj] at hk
      cases hk
    · rw [Function.update_self, hcid, OrderedMap.get_set, if_pos rfl]
      exact .inl rfl
  · intro other i hp hi
    rcases hget other i hi with ⟨rfl, -⟩ | ⟨-, hi⟩
    · exact .inl (by simp)
    · exact hqueued other (h.past other i hp hi)
  · intro other i hi
    change i < s.nextJob + 1 ∧ (Function.update s.records s.nextJob job i).cid = other
    rcases hget other i hi with ⟨rfl, rfl⟩ | ⟨-, hi⟩
    · exact ⟨Nat.lt_succ_self _, by rw [Function.update_self, hcid]⟩
    · obtain ⟨hlt, hname⟩ := h.named other i hi
      exact ⟨Nat.lt_succ_of_lt hlt, by rw [hold i hlt, hname]⟩
  · intro other attempt ha
    obtain ⟨hlt, hname⟩ := h.attempted other attempt ha
    exact ⟨Nat.lt_succ_of_lt hlt, by rw [← hname]; exact congrArg BlobJob.cid (hold _ hlt)⟩
  · intro other attempt found ha hp
    have hlt := (h.attempted other attempt ha).1
    refine ⟨(hold _ hlt).trans (h.landing other attempt found ha hp).1, fun o ho => ?_⟩
    rcases hget o _ ho with ⟨-, heq⟩ | ⟨-, ho⟩
    · exact absurd heq (Nat.ne_of_lt hlt)
    · exact (h.landing other attempt found ha hp).2 o ho

theorem Sound.wants (h : s.Sound) (library : Option String) (pinned : Bool) : (s.wants cid library pinned).Sound := by
  rw [BlobKeeper.wants]
  split
  case h_1 j hj => exact h.setRecord_of_get hj rfl
  case h_2 hj => exact h.newJob hj rfl

theorem attempts_setAttempt (s : BlobKeeper) (cid other : String) (attempt : Option BlobAttempt) :
    (s.setAttempt cid attempt).attempts other = if other = cid then attempt else s.attempts other := by
  rw [setAttempt, ← Function.update_apply]

/-- An attempt settles where the CID has no job or one that is queued. -/
theorem Sound.setSettling (h : s.Sound) (ha : s.attempts cid = some attempt)
    (hq : ∀ j, s.jobs.get cid = some j → s.IsQueued cid) :
    (s.setAttempt cid (some { attempt with phase := .settling })).Sound := by
  refine ⟨h.queued, h.kept, ?_, ?_, h.named, ?_, ?_⟩
  · intro other
    rw [attempts_setAttempt]
    split
    case isTrue heq => simp [BlobKeeper.setAttempt, h.runs, heq, ha]
    case isFalse => exact h.runs other
  · intro other i hp hi
    by_cases heq : other = cid
    · subst heq
      exact hq i hi
    · refine h.past other i ?_ hi
      rw [IsPast, attempts_setAttempt, if_neg heq] at hp
      exact hp
  · intro other found ho
    rw [attempts_setAttempt] at ho
    split at ho
    case isTrue heq =>
      cases ho
      exact heq ▸ h.attempted cid attempt ha
    case isFalse => exact h.attempted other found ho
  · intro other later found ho hp
    rw [attempts_setAttempt] at ho
    split at ho
    case isTrue =>
      cases ho
      cases hp
    case isFalse => exact h.landing other later found ho hp

/-- An attempt is marked running no longer. -/
theorem Sound.settles (h : s.Sound) (ha : s.attempts cid = some attempt) (hp : attempt.phase = .settling) :
    Sound { s.setAttempt cid none with running := s.running.delete cid } := by
  have hpast : s.IsPast cid := ⟨attempt, ha, by rw [hp]; trivial⟩
  have hold : ∀ other later, (s.setAttempt cid none).attempts other = some later →
      other ≠ cid ∧ s.attempts other = some later := by
    intro other later ho
    rw [attempts_setAttempt] at ho
    exact Option.ite_none_left_eq_some.mp ho
  refine ⟨?_, h.kept, ?_, ?_, h.named, ?_, ?_⟩
  · intro other i hi
    by_cases heq : other = cid
    · exact .inl (h.past other i (heq ▸ hpast) hi)
    · exact (h.queued other i hi).imp_right fun hr => (OrderedSet.mem_delete _ _ _).mpr ⟨hr, heq⟩
  · intro other
    change other ∈ s.running.delete cid ↔ ∃ later, (s.setAttempt cid none).attempts other = some later
    rw [OrderedSet.mem_delete, h.runs, attempts_setAttempt]
    by_cases heq : other = cid <;> simp [heq]
  · rintro other i ⟨later, ho, hlater⟩ hi
    exact h.past other i ⟨later, (hold other later ho).2, hlater⟩ hi
  · intro other later ho
    exact h.attempted other later (hold other later ho).2
  · intro other later found ho
    exact h.landing other later found (hold other later ho).2

/-- A job in the map runs that did not. -/
theorem Sound.run (h : s.Sound) (hj : s.jobs.get cid = some j) : (s.run cid j).Sound := by
  have hold : ∀ other later, (s.setAttempt cid (some ⟨j, .fetching⟩)).attempts other = some later →
      other = cid ∧ later = ⟨j, .fetching⟩ ∨ s.attempts other = some later := by
    intro other later ho
    rw [attempts_setAttempt] at ho
    split at ho
    case isTrue heq => exact .inl ⟨heq, (Option.some_inj.mp ho).symm⟩
    case isFalse => exact .inr ho
  refine ⟨?_, h.kept, ?_, ?_, h.named, ?_, ?_⟩
  · intro other i hi
    exact (h.queued other i hi).imp_right fun hr => (OrderedSet.mem_add _ _ _).mpr (.inr hr)
  · intro other
    change other ∈ s.running.add cid ↔ ∃ later, (s.setAttempt cid _).attempts other = some later
    rw [OrderedSet.mem_add, h.runs, attempts_setAttempt]
    by_cases heq : other = cid <;> simp [heq]
  · rintro other i ⟨later, ho, hlater⟩ hi
    rcases hold other later ho with ⟨-, rfl⟩ | ho
    · exact absurd hlater id
    · exact h.past other i ⟨later, ho, hlater⟩ hi
  · intro other later ho
    rcases hold other later ho with ⟨rfl, rfl⟩ | ho
    · exact h.named other j hj
    · exact h.attempted other later ho
  · intro other later found ho hp
    rcases hold other later ho with ⟨-, rfl⟩ | ho
    · cases hp
    · exact h.landing other later found ho hp

/-- A fetch found complete takes its own job out of the map, and no later want is in the job it lands. -/
theorem Sound.fetched (h : s.Sound) (ha : s.attempts cid = some attempt)
    (hown : ∀ j, s.jobs.get cid = some j → j = attempt.job) :
    Sound { s.setAttempt cid (some { attempt with phase := .landing (s.records attempt.job) }) with
      jobs := s.jobs.delete cid
      discharged := s.discharged ++ (s.jobs.get cid).toList.map fun j => (j, attempt.job) } := by
  have hget : ∀ other i, (s.jobs.delete cid).get other = some i → other ≠ cid ∧ s.jobs.get other = some i :=
    fun other i => s.jobs.get_delete_eq_some.mp
  have hattempts : ∀ other later,
      (s.setAttempt cid (some { attempt with phase := .landing (s.records attempt.job) })).attempts other =
        some later →
      other = cid ∧ later = { attempt with phase := .landing (s.records attempt.job) } ∨
        other ≠ cid ∧ s.attempts other = some later := by
    intro other later ho
    rw [attempts_setAttempt] at ho
    split at ho
    case isTrue heq => exact .inl ⟨heq, (Option.some_inj.mp ho).symm⟩
    case isFalse hne => exact .inr ⟨hne, ho⟩
  refine ⟨?_, ?_, ?_, ?_, ?_, ?_, ?_⟩
  · intro other i hi
    exact h.queued other i (hget other i hi).2
  · intro i hi
    change (s.jobs.delete cid).get (s.records i).cid = some i ∨ i ∈ s.forgotten ∨
      (i, i) ∈ s.discharged ++ (s.jobs.get cid).toList.map fun j => (j, attempt.job)
    rcases h.kept i hi with hk | hk | hk
    · by_cases hcid : (s.records i).cid = cid
      · rw [hcid] at hk
        have hi := hown i hk
        exact .inr (.inr (by simp [hk, ← hi]))
      · exact .inl (by rw [OrderedMap.get_delete, if_neg hcid, hk])
    · exact .inr (.inl hk)
    · exact .inr (.inr (List.mem_append_left _ hk))
  · intro other
    change other ∈ s.running ↔ ∃ later, (s.setAttempt cid _).attempts other = some later
    rw [attempts_setAttempt]
    split
    case isTrue heq => simp [h.runs, heq, ha]
    case isFalse => exact h.runs other
  · rintro other i ⟨later, ho, hp⟩ hi
    obtain ⟨hne, hi⟩ := hget other i hi
    rcases hattempts other later ho with ⟨heq, -⟩ | ⟨-, ho⟩
    · exact absurd heq hne
    · exact h.past other i ⟨later, ho, hp⟩ hi
  · intro other i hi
    exact h.named other i (hget other i hi).2
  · intro other later ho
    rcases hattempts other later ho with ⟨rfl, rfl⟩ | ⟨-, ho⟩
    · exact h.attempted other attempt ha
    · exact h.attempted other later ho
  · intro other later found ho hp
    rcases hattempts other later ho with ⟨rfl, rfl⟩ | ⟨-, ho⟩
    · refine ⟨by cases hp; rfl, fun o hj => ?_⟩
      obtain ⟨hne, hj⟩ := hget o _ hj
      exact hne ((h.named o _ hj).2.symm.trans (h.attempted other attempt ha).2)
    · exact ⟨(h.landing other later found ho hp).1,
        fun o hj => (h.landing other later found ho hp).2 o (hget o _ hj).2⟩

theorem Sound.schedule (h : s.Sound) (due : ℕ) : (s.schedule due).Sound := by
  rw [BlobKeeper.schedule]
  split
  · exact h
  · exact h.queue s.ready s.waiting (some due) fun _ _ _ => id

/-- A fetch that fails queues whatever job the CID has now. -/
theorem Sound.fetchFails (h : s.Sound) (ha : s.attempts cid = some attempt) (hp : attempt.phase = .fetching)
    (hcid : job.cid = (s.records attempt.job).cid) :
    Sound { (s.setRecord attempt.job job).setAttempt cid (some { attempt with phase := .settling }) with
      waiting := s.waiting.add cid } := by
  have hrecord : (s.setRecord attempt.job job).Sound := by
    refine h.setRecord hcid fun other later found ho hl heq => ?_
    have hsame : other = cid := by
      rw [← (h.attempted other later ho).2, heq, (h.attempted cid attempt ha).2]
    subst hsame
    rw [Option.some_inj.mp (ho.symm.trans ha), hp] at hl
    cases hl
  have hwaits := hrecord.queue s.ready (s.waiting.add cid) s.timerDue
    fun other _ _ => Or.imp_right fun hw => (OrderedSet.mem_add _ _ _).mpr (.inr hw)
  exact hwaits.setSettling ha fun _ _ => .inr ((OrderedSet.mem_add _ _ _).mpr (.inl rfl))

theorem Sound.timerPass (h : s.Sound) (now : ℕ) : (s.timerPass now).Sound := by
  have hmoved := h.queue (s.ready ++ s.waiting.items.filter (s.isDue now))
    ⟨s.waiting.items.filter fun cid => s.jobs.has cid && !s.isDue now cid, s.waiting.nodup.filter _⟩ none (by
      rintro cid j hj (hr | hw)
      · exact .inl (List.mem_append_left _ hr)
      · by_cases hd : s.isDue now cid = true
        · exact .inl (List.mem_append_right _ (List.mem_filter.mpr ⟨hw, hd⟩))
        · refine .inr (List.mem_filter.mpr ⟨hw, ?_⟩)
          simp [(s.jobs.has_iff cid).mpr ⟨j, hj⟩, hd])
  rw [BlobKeeper.timerPass]
  split
  · exact hmoved.schedule _
  · exact hmoved

theorem Sound.retry (h : s.Sound) :
    Sound { s with
      records := fun j => if s.waiting.items.any fun cid => s.jobs.get cid = some j
        then { s.records j with retryAt := 0 } else s.records j
      ready := s.ready ++ s.waiting.items
      waiting := .empty } := by
  have hqueued := h.queue (s.ready ++ s.waiting.items) .empty s.timerDue
    fun cid _ _ hq => .inl (List.mem_append.mpr hq)
  refine hqueued.setRecords (fun i => ?_) fun cid attempt found ha hp => ?_
  · split <;> rfl
  · rw [if_neg]
    intro hany
    obtain ⟨other, -, hj⟩ := List.any_eq_true.mp hany
    exact (h.landing cid attempt found ha hp).2 other (of_decide_eq_true hj)

/-- The pump may throw out a CID without a job, with a fetch under way, or queued again. -/
theorem Sound.pumpCid {rest : List String} (h : s.Sound) (hready : s.ready = cid :: rest)
    (hout : s.IsPast cid → s.jobs.get cid = none ∨ cid ∈ rest ∨ cid ∈ s.waiting) :
    (BlobKeeper.pumpCid { s with ready := rest } cid).Sound := by
  have hrest : ∀ other, other ≠ cid → other ∈ s.ready → other ∈ rest := by
    intro other hne hr
    rw [hready, List.mem_cons] at hr
    exact hr.resolve_left hne
  have hother : ∀ other, other ≠ cid → s.IsQueued other → other ∈ rest ∨ other ∈ s.waiting :=
    fun other hne => Or.imp_left (hrest other hne)
  rw [BlobKeeper.pumpCid]
  split
  case h_1 hj =>
    refine h.queue rest s.waiting s.timerDue fun other i hi => hother other ?_
    rintro rfl
    cases hj.symm.trans hi
  case h_2 j hj =>
    change s.jobs.get cid = some j at hj
    split
    case isTrue hr =>
      refine h.requeue rest s.waiting s.timerDue fun other i hi hq => ?_
      by_cases hne : other = cid
      · subst hne
        by_cases hp : s.IsPast other
        · exact .inl ((hout hp).resolve_left fun hnone => by cases hnone.symm.trans hi)
        · exact .inr ⟨(s.running.has_iff other).mp hr, hp⟩
      · exact .inl (hother other hne hq)
    case isFalse =>
      split
      case isTrue =>
        refine (h.forget hj).queue rest (s.waiting.delete cid) s.timerDue fun other i hi hq => ?_
        exact hq.imp_left (hrest other (s.jobs.get_delete_eq_some.mp hi).1)
      case isFalse =>
        split
        case isTrue =>
          refine (h.run hj).requeue rest s.waiting s.timerDue fun other i hi hq => ?_
          by_cases hne : other = cid
          · refine .inr ⟨(OrderedSet.mem_add _ _ _).mpr (.inl hne), ?_⟩
            rintro ⟨later, ho, hp⟩
            change (s.setAttempt cid _).attempts other = some later at ho
            rw [attempts_setAttempt, if_pos hne] at ho
            cases ho
            exact hp
          · exact .inl (hother other hne hq)
        case isFalse =>
          refine h.queue rest (s.waiting.add cid) s.timerDue fun other i hi hq => ?_
          by_cases hne : other = cid
          · exact .inr ((OrderedSet.mem_add _ _ _).mpr (.inl hne))
          · exact (hother other hne hq).imp_right fun hw => (OrderedSet.mem_add _ _ _).mpr (.inr hw)

theorem Sound.step {concurrency : ℕ} {t : BlobKeeper} {l : Label} (h : s.Sound) (hl : s.Careful l)
    (hs : s.step concurrency l = some t) : t.Sound := by
  cases l with
  | want cid library pinned =>
    cases hs
    exact h.wants library pinned
  | policyChanged library =>
    cases hs
    exact ⟨h.queued, h.kept, h.runs, h.past, h.named, h.attempted, h.landing⟩
  | pauses library paused =>
    cases hs
    exact ⟨h.queued, h.kept, h.runs, h.past, h.named, h.attempted, h.landing⟩
  | unpin cid =>
    simp only [BlobKeeper.step] at hs
    split at hs
    case h_1 =>
      cases hs
      exact h
    case h_2 j hj =>
      have hunpinned : (s.setRecord j { s.records j with pinned := false }).Sound := h.setRecord_of_get hj rfl
      cases hs
      split
      · exact hunpinned.forget hj
      · exact hunpinned
  | pump =>
    simp only [BlobKeeper.step] at hs
    split at hs
    case h_1 => cases hs
    case h_2 cid rest hready =>
      obtain ⟨-, ⟨⟩⟩ := Option.ite_none_right_eq_some.mp hs
      exact h.pumpCid hready (hl cid rest hready)
  | fetched cid =>
    obtain ⟨attempt, ha, hs⟩ := Option.bind_eq_some_iff.mp hs
    split at hs
    case h_1 =>
      cases hs
      exact h.fetched ha fun j => hl attempt j ha
    case h_2 => cases hs
  | fetchFails cid now =>
    obtain ⟨attempt, ha, hs⟩ := Option.bind_eq_some_iff.mp hs
    split at hs
    case h_1 hp =>
      cases hs
      refine Sound.schedule ?_ _
      exact h.fetchFails ha hp rfl
    case h_2 => cases hs
  | fetchThrows cid =>
    obtain ⟨attempt, ha, hs⟩ := Option.bind_eq_some_iff.mp hs
    split at hs
    case h_1 =>
      cases hs
      refine h.setSettling ha fun j hj => hl.resolve_left ?_
      rw [hj]
      exact Option.some_ne_none j
    case h_2 => cases hs
  | lands cid =>
    obtain ⟨attempt, ha, hs⟩ := Option.bind_eq_some_iff.mp hs
    split at hs
    case h_1 found hp =>
      cases hs
      exact h.setSettling ha fun j hj => h.past cid j ⟨attempt, ha, by rw [hp]; trivial⟩ hj
    case h_2 => cases hs
  | settles cid =>
    obtain ⟨attempt, ha, hs⟩ := Option.bind_eq_some_iff.mp hs
    split at hs
    case h_1 hp =>
      cases hs
      exact h.settles ha hp
    case h_2 => cases hs
  | timer now =>
    simp only [BlobKeeper.step] at hs
    split at hs
    case h_1 =>
      obtain ⟨-, ⟨⟩⟩ := Option.ite_none_right_eq_some.mp hs
      exact h.timerPass now
    case h_2 => cases hs
  | retry =>
    cases hs
    exact h.retry

/-- While the steps are careful, the keeper loses no want. -/
theorem wants_never_lost (concurrency : ℕ) {s : BlobKeeper} (h : Run (step concurrency) (· = create) Careful s) :
    s.KeepsWants :=
  (h.invariant (fun _ h0 => h0 ▸ sound_create) fun _ _ _ ih hl hs => ih.step hl hs).keepsWants

/-- The pump is careful with a CID that has no attempt. -/
theorem careful_pump {rest : List String} (hready : s.ready = cid :: rest) (ha : s.attempts cid = none) :
    s.Careful .pump := by
  rintro other rest' heq ⟨attempt, hother, -⟩
  rw [hready, List.cons.injEq] at heq
  rw [← heq.1, ha] at hother
  cases hother

/-- Another library wants a blob while it lands, and the later want runs once the landing has settled. -/
theorem wants_never_lost_while_landing :
    ∃ s, runLabels (step 4) create [.want "bafkaudio" (some "mine") false, .pump, .fetched "bafkaudio",
        .want "bafkaudio" (some "theirs") false, .lands "bafkaudio", .settles "bafkaudio", .pump] = some s ∧
      s.KeepsWants ∧ s.jobs.get "bafkaudio" = some 1 ∧ "bafkaudio" ∈ s.running := by
  have hwanted : Run (step 4) (· = create) Careful _ :=
    .next (.want "bafkaudio" (some "mine") false) (.start rfl) trivial rfl
  have hruns := Run.next .pump hwanted (careful_pump rfl rfl) rfl
  have hfound := hruns.next (.fetched "bafkaudio") (by rintro attempt j ⟨⟩ ⟨⟩; rfl) rfl
  have hagain := hfound.next (.want "bafkaudio" (some "theirs") false) (by exact trivial) rfl
  have hlands := hagain.next (.lands "bafkaudio") (by exact trivial) rfl
  have hsettles := hlands.next (.settles "bafkaudio") (by exact trivial) rfl
  have hlast := Run.next .pump hsettles (careful_pump rfl rfl) rfl
  exact ⟨_, rfl, wants_never_lost 4 hlast, rfl, by decide⟩

/-- The pump throws out the later want while the earlier attempt lands, and nothing runs it again. -/
theorem want_lost_while_landing :
    ∃ s, runLabels (step 4) create [.want "bafkaudio" (some "mine") false, .pump, .fetched "bafkaudio",
        .want "bafkaudio" (some "theirs") false, .pump, .lands "bafkaudio", .settles "bafkaudio"] = some s ∧
      s.jobs.get "bafkaudio" = some 1 ∧ ¬ s.IsQueued "bafkaudio" ∧ "bafkaudio" ∉ s.running ∧ ¬ s.KeepsWants := by
  refine ⟨_, rfl, rfl, ?_, by decide, fun h => ?_⟩
  · rintro (hr | hw)
    · cases hr
    · cases hw
  · rcases h.queued "bafkaudio" 1 rfl with (hr | hw) | hr
    · cases hr
    · cases hw
    · cases hr

/-! ## What the records of the jobs ask for -/

/-- Every job in the map has its CID, and whatever generation a record gives a library was asked for. -/
structure Asks (asked : String → ℕ → String → Prop) (s : BlobKeeper) : Prop where
  named : ∀ cid j, s.jobs.get cid = some j → j < s.nextJob ∧ (s.records j).cid = cid
  libraries : ∀ j library generation, (s.records j).libraries.get library = some generation →
    asked library generation (s.records j).cid

namespace Asks

variable {asked : String → ℕ → String → Prop}

theorem create : Asks asked BlobKeeper.create := by
  constructor <;> simp [BlobKeeper.create]

theorem mono {later : String → ℕ → String → Prop} (h : Asks asked s)
    (hl : ∀ library generation cid, asked library generation cid → later library generation cid) : Asks later s :=
  ⟨h.named, fun j library generation hg => hl _ _ _ (h.libraries j library generation hg)⟩

/-- Nothing is asked for by what keeps the records and takes jobs out of the map. -/
theorem of_records {t : BlobKeeper} (h : Asks asked s) (hn : t.nextJob = s.nextJob)
    (hj : ∀ cid j, t.jobs.get cid = some j → s.jobs.get cid = some j)
    (hr : ∀ j, (t.records j).cid = (s.records j).cid ∧ (t.records j).libraries = (s.records j).libraries) :
    Asks asked t := by
  refine ⟨fun cid j hget => ?_, fun j library generation hg => ?_⟩
  · rw [hn, (hr j).1]
    exact h.named cid j (hj cid j hget)
  · rw [(hr j).2] at hg
    rw [(hr j).1]
    exact h.libraries j library generation hg

theorem setRecord_same {t : BlobKeeper} (h : Asks asked s) (hr : t.records = Function.update s.records j job)
    (hcid : job.cid = (s.records j).cid) (hl : job.libraries = (s.records j).libraries)
    (hn : t.nextJob = s.nextJob) (hj : ∀ cid i, t.jobs.get cid = some i → s.jobs.get cid = some i) : Asks asked t := by
  refine h.of_records hn hj fun i => ?_
  rw [hr]
  by_cases hi : i = j
  · rw [hi, Function.update_self]
    exact ⟨hcid, hl⟩
  · rw [Function.update_of_ne hi]
    exact ⟨rfl, rfl⟩

theorem addWant {library : Option String} (pinned : Bool)
    (h : ∀ address generation, job.libraries.get address = some generation → asked address generation cid)
    (hw : ∀ address, library = some address → asked address (s.generations address) cid) :
    ∀ address generation, (s.addWant job library pinned).libraries.get address = some generation →
      asked address generation cid := by
  intro address generation hg
  cases library with
  | none => exact h address generation hg
  | some wanting =>
    change (job.libraries.set wanting _).get address = some generation at hg
    rw [OrderedMap.get_set] at hg
    split at hg
    case isTrue heq =>
      rw [← Option.some_inj.mp hg, heq]
      exact hw wanting rfl
    case isFalse => exact h address generation hg

theorem wants {library : Option String} {pinned : Bool} (h : Asks asked s)
    (hw : ∀ address, library = some address → asked address (s.generations address) cid) :
    Asks asked (s.wants cid library pinned) := by
  rw [BlobKeeper.wants]
  split
  case h_1 j hj =>
    have hcid := (h.named cid j hj).2
    refine ⟨fun other i hi => ⟨(h.named other i hi).1, ?_⟩, fun i => ?_⟩
    · change (Function.update s.records j _ i).cid = other
      by_cases hij : i = j
      · rw [hij, Function.update_self]
        exact (h.named other j (hij ▸ hi)).2
      · rw [Function.update_of_ne hij]
        exact (h.named other i hi).2
    · change ∀ address generation, (Function.update s.records j _ i).libraries.get address = some generation →
        asked address generation (Function.update s.records j _ i).cid
      by_cases hij : i = j
      · rw [hij, Function.update_self, show (s.addWant (s.records j) library pinned).cid = cid from hcid]
        exact addWant pinned (fun address generation => hcid ▸ h.libraries j address generation) hw
      · rw [Function.update_of_ne hij]
        exact h.libraries i
  case h_2 hj =>
    refine ⟨fun other i hi => ?_, fun i => ?_⟩
    · change i < s.nextJob + 1 ∧ (Function.update s.records s.nextJob _ i).cid = other
      change (s.jobs.set cid s.nextJob).get other = some i at hi
      rw [OrderedMap.get_set] at hi
      split at hi
      case isTrue heq =>
        rw [← Option.some_inj.mp hi, Function.update_self]
        exact ⟨Nat.lt_succ_self _, heq.symm⟩
      case isFalse =>
        obtain ⟨hlt, hname⟩ := h.named other i hi
        rw [Function.update_of_ne (Nat.ne_of_lt hlt)]
        exact ⟨Nat.lt_succ_of_lt hlt, hname⟩
    · change ∀ address generation,
        (Function.update s.records s.nextJob _ i).libraries.get address = some generation →
          asked address generation (Function.update s.records s.nextJob _ i).cid
      by_cases hi : i = s.nextJob
      · rw [hi, Function.update_self]
        exact addWant pinned (fun address generation hg => by simp [BlobKeeper.newJob] at hg) hw
      · rw [Function.update_of_ne hi]
        exact h.libraries i

theorem schedule {due : ℕ} (h : Asks asked s) : Asks asked (s.schedule due) := by
  rw [BlobKeeper.schedule]
  split <;> exact ⟨h.named, h.libraries⟩

theorem forget (h : Asks asked s) : Asks asked (s.forget cid j) :=
  h.of_records rfl (fun _ _ hi => (s.jobs.get_delete_eq_some.mp hi).2) fun _ => ⟨rfl, rfl⟩

/-- Only wants ask for anything. -/
theorem step {concurrency : ℕ} {t : BlobKeeper} {l : Label} (h : Asks asked s)
    (hw : ∀ cid address pinned, l = .want cid (some address) pinned → asked address (s.generations address) cid)
    (hs : s.step concurrency l = some t) : Asks asked t := by
  cases l with
  | want cid library pinned =>
    cases hs
    exact h.wants fun address heq => hw cid address pinned (by rw [heq])
  | policyChanged library =>
    cases hs
    exact ⟨h.named, h.libraries⟩
  | pauses library paused =>
    cases hs
    exact ⟨h.named, h.libraries⟩
  | unpin cid =>
    simp only [BlobKeeper.step] at hs
    split at hs
    case h_1 =>
      cases hs
      exact h
    case h_2 j hj =>
      have hunpinned : Asks asked (s.setRecord j { s.records j with pinned := false }) :=
        h.setRecord_same rfl rfl rfl rfl fun _ _ => id
      cases hs
      split
      · exact hunpinned.forget
      · exact hunpinned
  | pump =>
    simp only [BlobKeeper.step] at hs
    split at hs
    case h_1 => cases hs
    case h_2 cid rest hready =>
      obtain ⟨-, ⟨⟩⟩ := Option.ite_none_right_eq_some.mp hs
      have hrest : Asks asked { s with ready := rest } := ⟨h.named, h.libraries⟩
      rw [pumpCid]
      split
      case h_1 => exact hrest
      case h_2 j hj =>
        split
        · exact hrest
        split
        · exact hrest.forget
        split
        · exact ⟨h.named, h.libraries⟩
        · exact ⟨h.named, h.libraries⟩
  | fetched cid =>
    obtain ⟨attempt, -, hs⟩ := Option.bind_eq_some_iff.mp hs
    split at hs
    case h_1 =>
      cases hs
      exact h.of_records rfl (fun _ _ hi => (s.jobs.get_delete_eq_some.mp hi).2) fun _ => ⟨rfl, rfl⟩
    case h_2 => cases hs
  | fetchFails cid now =>
    obtain ⟨attempt, -, hs⟩ := Option.bind_eq_some_iff.mp hs
    split at hs
    case h_1 =>
      cases hs
      refine schedule ?_
      exact h.setRecord_same rfl rfl rfl rfl fun _ _ => id
    case h_2 => cases hs
  | fetchThrows cid =>
    obtain ⟨attempt, -, hs⟩ := Option.bind_eq_some_iff.mp hs
    split at hs
    case h_1 =>
      cases hs
      exact ⟨h.named, h.libraries⟩
    case h_2 => cases hs
  | lands cid =>
    obtain ⟨attempt, -, hs⟩ := Option.bind_eq_some_iff.mp hs
    split at hs
    case h_1 =>
      cases hs
      exact ⟨h.named, h.libraries⟩
    case h_2 => cases hs
  | settles cid =>
    obtain ⟨attempt, -, hs⟩ := Option.bind_eq_some_iff.mp hs
    split at hs
    case h_1 =>
      cases hs
      exact ⟨h.named, h.libraries⟩
    case h_2 => cases hs
  | timer now =>
    simp only [BlobKeeper.step] at hs
    split at hs
    case h_1 =>
      obtain ⟨-, ⟨⟩⟩ := Option.ite_none_right_eq_some.mp hs
      rw [timerPass]
      split
      · exact schedule ⟨h.named, h.libraries⟩
      · exact ⟨h.named, h.libraries⟩
    case h_2 => cases hs
  | retry =>
    cases hs
    refine h.of_records rfl (fun _ _ => id) fun j => ?_
    dsimp only
    split <;> exact ⟨rfl, rfl⟩

end Asks

theorem generations_schedule (s : BlobKeeper) (due : ℕ) : (s.schedule due).generations = s.generations := by
  rw [schedule]
  split <;> rfl

theorem generations_wants (s : BlobKeeper) (cid : String) (library : Option String) (pinned : Bool) :
    (s.wants cid library pinned).generations = s.generations := by
  rw [wants]
  split <;> rfl

/-- Only a policy change bumps a generation. -/
theorem generations_step {concurrency : ℕ} {t : BlobKeeper} {l : Label} (hl : ∀ library, l ≠ .policyChanged library)
    (hs : s.step concurrency l = some t) : t.generations = s.generations := by
  cases l with
  | want cid library pinned =>
    cases hs
    exact generations_wants s cid library pinned
  | policyChanged library => exact absurd rfl (hl library)
  | pauses library paused =>
    cases hs
    rfl
  | unpin cid =>
    simp only [step] at hs
    split at hs
    · cases hs
      rfl
    · cases hs
      split <;> rfl
  | pump =>
    simp only [step] at hs
    split at hs
    case h_1 => cases hs
    case h_2 cid rest hready =>
      obtain ⟨-, ⟨⟩⟩ := Option.ite_none_right_eq_some.mp hs
      rw [pumpCid]
      split
      · rfl
      · split
        · rfl
        split
        · rfl
        split <;> rfl
  | fetched cid | fetchThrows cid | lands cid | settles cid =>
    obtain ⟨attempt, -, hs⟩ := Option.bind_eq_some_iff.mp hs
    split at hs <;> cases hs
    rfl
  | fetchFails cid now =>
    obtain ⟨attempt, -, hs⟩ := Option.bind_eq_some_iff.mp hs
    split at hs
    · cases hs
      exact generations_schedule _ _
    · cases hs
  | timer now =>
    simp only [step] at hs
    split at hs
    case h_1 =>
      obtain ⟨-, ⟨⟩⟩ := Option.ite_none_right_eq_some.mp hs
      rw [timerPass]
      split
      · exact generations_schedule _ _
      · rfl
    case h_2 => cases hs
  | retry =>
    cases hs
    rfl

end BlobKeeper

end RecordNode
