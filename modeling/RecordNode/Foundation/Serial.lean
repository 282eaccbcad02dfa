import Mathlib.Data.List.Basic
import Mathlib.Data.List.Perm.Basic
import Mathlib.Tactic.Ring

/-! # Serial queues

Jobs chained one behind the other: a job may start once the one before it has settled.
Then jobs start in the order they were queued, no two run at once, and unless all have
settled one of them can go on. -/

namespace RecordNode.Foundation

inductive JobState where
  | queued
  | running
  | settled
deriving DecidableEq

structure Serial (α : Type*) where
  jobs : List (α × JobState)

namespace Serial

variable {α : Type*} (q : Serial α)

def empty : Serial α := ⟨[]⟩

def items : List α := q.jobs.map Prod.fst

def push (a : α) : Serial α := ⟨q.jobs ++ [(a, .queued)]⟩

/-- The job before this one has settled, or there is none. -/
def ready (k : ℕ) : Bool := k = 0 || (q.jobs[k - 1]?.map Prod.snd) = some .settled

def start (k : ℕ) : Option (Serial α) :=
  match q.jobs[k]? with
  | some (a, .queued) => if q.ready k then some ⟨q.jobs.set k (a, .running)⟩ else none
  | _ => none

def settle (k : ℕ) : Option (Serial α) :=
  match q.jobs[k]? with
  | some (a, .running) => some ⟨q.jobs.set k (a, .settled)⟩
  | _ => none

/-- Before a job that has started, all have settled. -/
def Ordered : Prop := q.jobs.Pairwise fun a b => b.2 ≠ .queued → a.2 = .settled

/-- What is left to do: two steps for a queued job, one for a running one. -/
def left : ℕ := (q.jobs.map fun p => match p.2 with
  | .queued => 2
  | .running => 1
  | .settled => 0).sum

variable {q} {r : Serial α} {k : ℕ}

theorem ordered_empty : (empty : Serial α).Ordered := List.Pairwise.nil

theorem Ordered.push (h : q.Ordered) (a : α) : (q.push a).Ordered := by
  refine List.pairwise_append.mpr ⟨h, List.pairwise_singleton _ _, ?_⟩
  intro b _ c hc hstarted
  rw [List.mem_singleton.mp hc] at hstarted
  exact absurd rfl hstarted

/-- A queue split at one of its jobs. -/
theorem exists_split {p : α × JobState} (h : q.jobs[k]? = some p) :
    ∃ before after, q.jobs = before ++ p :: after ∧ before.length = k ∧ ∀ s, q.jobs.set k s = before ++ s :: after := by
  obtain ⟨hlt, rfl⟩ := List.getElem?_eq_some_iff.mp h
  refine ⟨q.jobs.take k, q.jobs.drop (k + 1), ?_, ?_, ?_⟩
  · rw [← List.drop_eq_getElem_cons hlt, List.take_append_drop]
  · rw [List.length_take]
    omega
  · intro s
    exact List.set_eq_take_append_cons_drop.trans (if_pos hlt)

theorem start_cases (h : q.start k = some r) : ∃ a before after, q.jobs = before ++ (a, .queued) :: after ∧
    (∀ p, before.getLast? = some p → p.2 = .settled) ∧ r.jobs = before ++ (a, .running) :: after := by
  unfold start at h
  split at h
  · next a hjob =>
    split at h
    · next hready =>
      obtain rfl := Option.some_inj.mp h
      obtain ⟨before, after, hsplit, hlength, hset⟩ := exists_split hjob
      refine ⟨a, before, after, hsplit, ?_, hset _⟩
      intro p hp
      obtain ⟨front, rfl⟩ := List.getLast?_eq_some_iff.mp hp
      have hk : k = front.length + 1 := by simpa using hlength.symm
      have hprevious : q.jobs[k - 1]? = some p := by
        rw [hsplit, hk]
        simp
      rw [ready, hprevious, hk] at hready
      simpa using hready
    · cases h
  · cases h

theorem settle_cases (h : q.settle k = some r) : ∃ a before after, q.jobs = before ++ (a, .running) :: after ∧
    r.jobs = before ++ (a, .settled) :: after := by
  unfold settle at h
  split at h
  · next a hjob =>
    obtain rfl := Option.some_inj.mp h
    obtain ⟨before, after, hsplit, -, hset⟩ := exists_split hjob
    exact ⟨a, before, after, hsplit, hset _⟩
  · cases h

theorem Ordered.start (h : q.Ordered) (hr : q.start k = some r) : r.Ordered := by
  obtain ⟨a, before, after, hq, hlast, hjobs⟩ := start_cases hr
  unfold Ordered at h ⊢
  rw [hq, List.pairwise_append, List.pairwise_cons] at h
  obtain ⟨hbefore, ⟨hafter, hrest⟩, hcross⟩ := h
  -- everything before the job that starts has settled
  have hsettled : ∀ p ∈ before, p.2 = .settled := by
    rcases List.eq_nil_or_concat before with rfl | ⟨front, last, rfl⟩
    · simp
    · rw [List.concat_eq_append] at hlast hbefore ⊢
      have hstate := hlast last (by simp)
      intro p hp
      rcases List.mem_append.mp hp with hp | hp
      · refine (List.pairwise_append.mp hbefore).2.2 p hp last (List.mem_singleton_self _) ?_
        rw [hstate]
        exact JobState.noConfusion
      · rw [List.mem_singleton.mp hp]
        exact hstate
  have hqueued : ∀ p ∈ after, p.2 = .queued := by
    intro p hp
    by_contra hne
    cases hafter p hp hne
  rw [hjobs, List.pairwise_append, List.pairwise_cons]
  refine ⟨hbefore, ⟨fun p hp hne => absurd (hqueued p hp) hne, hrest⟩, ?_⟩
  intro p hp _ _ _
  exact hsettled p hp

theorem Ordered.settle (h : q.Ordered) (hr : q.settle k = some r) : r.Ordered := by
  obtain ⟨a, before, after, hq, hjobs⟩ := settle_cases hr
  unfold Ordered at h ⊢
  rw [hq, List.pairwise_append, List.pairwise_cons] at h
  obtain ⟨hbefore, ⟨hafter, hrest⟩, hcross⟩ := h
  rw [hjobs, List.pairwise_append, List.pairwise_cons]
  refine ⟨hbefore, ⟨fun p _ _ => rfl, hrest⟩, ?_⟩
  intro p hp s hs hstarted
  rcases List.mem_cons.mp hs with rfl | hs
  · exact hcross p hp (a, .running) List.mem_cons_self JobState.noConfusion
  · exact hcross p hp s (List.mem_cons_of_mem _ hs) hstarted

theorem items_push (a : α) : (q.push a).items = q.items ++ [a] := by
  simp [items, push]

theorem items_start (hr : q.start k = some r) : r.items = q.items := by
  obtain ⟨a, before, after, hq, -, hjobs⟩ := start_cases hr
  simp [items, hq, hjobs]

theorem items_settle (hr : q.settle k = some r) : r.items = q.items := by
  obtain ⟨a, before, after, hq, hjobs⟩ := settle_cases hr
  simp [items, hq, hjobs]

theorem left_push (a : α) : (q.push a).left = q.left + 2 := by
  simp [left, push]

theorem left_start (hr : q.start k = some r) : r.left + 1 = q.left := by
  obtain ⟨a, before, after, hq, -, hjobs⟩ := start_cases hr
  simp only [left, hq, hjobs, List.map_append, List.map_cons, List.sum_append, List.sum_cons]
  omega

theorem left_settle (hr : q.settle k = some r) : r.left + 1 = q.left := by
  obtain ⟨a, before, after, hq, hjobs⟩ := settle_cases hr
  simp only [left, hq, hjobs, List.map_append, List.map_cons, List.sum_append, List.sum_cons]
  omega

/-- Unless every job has settled, one of them can start or settle. -/
theorem can_go_on (hopen : ∃ p ∈ q.jobs, p.2 ≠ .settled) : ∃ k r, q.start k = some r ∨ q.settle k = some r := by
  obtain ⟨p, hp, hne⟩ := hopen
  have hsome : (q.jobs.find? fun p => p.2 ≠ .settled).isSome = true :=
    List.find?_isSome.mpr ⟨p, hp, by simpa using hne⟩
  obtain ⟨⟨a, state⟩, hfirst⟩ := Option.isSome_iff_exists.mp hsome
  obtain ⟨hstate, before, after, hjobs, hbefore⟩ := List.find?_eq_some_iff_append.mp hfirst
  have hget : q.jobs[before.length]? = some (a, state) := by simp [hjobs]
  refine ⟨before.length, ?_⟩
  cases state with
  | queued =>
    have hready : q.ready before.length = true := by
      rcases List.eq_nil_or_concat before with rfl | ⟨front, last, rfl⟩
      · simp [ready]
      · have hlast : last.2 = .settled := by simpa using hbefore last (by simp)
        simp [ready, hjobs, hlast]
    exact ⟨⟨q.jobs.set before.length (a, .running)⟩, .inl (by simp only [start, hget, hready, if_true])⟩
  | running => exact ⟨⟨q.jobs.set before.length (a, .settled)⟩, .inr (by simp only [settle, hget])⟩
  | settled => simp at hstate

/-- Where no job can start or settle, all have settled. -/
theorem settled_of_stuck (hstart : ∀ k, q.start k = none) (hsettle : ∀ k, q.settle k = none) :
    ∀ p ∈ q.jobs, p.2 = .settled := by
  intro p hp
  by_contra hne
  obtain ⟨k, r, hr | hr⟩ := can_go_on ⟨p, hp, hne⟩
  · rw [hstart] at hr
    cases hr
  · rw [hsettle] at hr
    cases hr

end Serial

end RecordNode.Foundation
