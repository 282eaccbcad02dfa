import Mathlib.Data.List.Basic
import Mathlib.Data.List.Perm.Basic

/-! # Worker pools

A batch of items worked on by a bounded number of workers. Each worker takes the next item when
it is done with one, until none is left; one whose item throws takes no more. Every item is
in one place at a time, and unless a worker threw none is left behind: an item is lost when it
throws, or when it is still queued and every worker has. -/

namespace RecordNode.Foundation

structure WorkerPool (α : Type*) where
  queue : List α
  running : List α
  finished : List α
  thrown : List α

namespace WorkerPool

open scoped List

variable {α : Type*}

def start (limit : ℕ) (items : List α) : WorkerPool α := ⟨items.drop limit, items.take limit, [], []⟩

/-- A worker is done with its item and takes the next. -/
def finish (p : WorkerPool α) (k : ℕ) : Option (WorkerPool α) :=
  match p.running[k]? with
  | none => none
  | some a =>
    match p.queue with
    | [] => some { p with running := p.running.eraseIdx k, finished := p.finished ++ [a] }
    | next :: rest => some ⟨rest, p.running.eraseIdx k ++ [next], p.finished ++ [a], p.thrown⟩

def throws (p : WorkerPool α) (k : ℕ) : Option (WorkerPool α) :=
  match p.running[k]? with
  | none => none
  | some a => some { p with running := p.running.eraseIdx k, thrown := p.thrown ++ [a] }

/-- With a worker, or queued while some worker runs. -/
def Pending (p : WorkerPool α) (a : α) : Prop := a ∈ p.running ∨ a ∈ p.queue ∧ p.running ≠ []

/-- It threw, or is queued and no worker runs that would take it. -/
def Lost (p : WorkerPool α) (a : α) : Prop := a ∈ p.thrown ∨ a ∈ p.queue ∧ p.running = []

/-- The pool holds the items of its batch, each in one place, and its workers are busy while any waits. -/
structure Works (limit : ℕ) (items : List α) (p : WorkerPool α) : Prop where
  bound : p.running.length ≤ limit
  perm : (p.queue ++ (p.running ++ (p.finished ++ p.thrown))).Perm items
  busy : p.queue ≠ [] → p.running.length + p.thrown.length = limit

variable {limit : ℕ} {items : List α} {p q : WorkerPool α} {k : ℕ}

theorem works_start (limit : ℕ) (items : List α) : (start limit items).Works limit items where
  bound := List.length_take_le _ _
  perm := by
    simp only [start, List.append_nil]
    exact List.perm_append_comm.trans (List.Perm.of_eq (List.take_append_drop limit items))
  busy h := by
    have hlong : limit < items.length := by simpa [start] using h
    simp only [start, List.length_take, List.length_nil]
    omega

/-- Every item of a batch is on its way at once. -/
theorem pending_start (hlimit : 0 < limit) {a : α} (ha : a ∈ items) : (start limit items).Pending a := by
  have hmem : a ∈ items.take limit ++ items.drop limit := (List.take_append_drop limit items).symm ▸ ha
  rcases List.mem_append.mp hmem with hrunning | hqueue
  · exact .inl hrunning
  · refine .inr ⟨hqueue, fun hnone => ?_⟩
    rcases List.take_eq_nil_iff.mp hnone with hzero | hempty
    · omega
    · exact absurd (hempty ▸ ha) List.not_mem_nil

theorem perm_eraseIdx {l : List α} {a : α} (h : l[k]? = some a) : l.Perm (a :: l.eraseIdx k) := by
  obtain ⟨hlt, rfl⟩ := List.getElem?_eq_some_iff.mp h
  exact (List.getElem_cons_eraseIdx_perm hlt).symm

/-- An item that leaves the running ones stays among all. -/
theorem perm_leave {l m n : List α} {a : α} (h : l[k]? = some a) : (l.eraseIdx k ++ (m ++ a :: n)).Perm (l ++ (m ++ n)) :=
  calc
    l.eraseIdx k ++ (m ++ a :: n) ~ l.eraseIdx k ++ a :: (m ++ n) := List.perm_middle.append_left _
    _ ~ a :: (l.eraseIdx k ++ (m ++ n)) := List.perm_middle
    _ ~ l ++ (m ++ n) := (perm_eraseIdx h).symm.append_right (m ++ n)

theorem Works.finish (h : p.Works limit items) (hf : p.finish k = some q) : q.Works limit items := by
  unfold WorkerPool.finish at hf
  split at hf
  · cases hf
  · next a ha =>
    have hlength := (perm_eraseIdx ha).length_eq
    have hleave : (p.running.eraseIdx k ++ (p.finished ++ [a] ++ p.thrown)).Perm (p.running ++ (p.finished ++ p.thrown)) := by
      rw [List.append_assoc, List.singleton_append]
      exact perm_leave ha
    have hbound := h.bound
    rw [List.length_cons] at hlength
    split at hf
    · next hempty =>
      obtain rfl := Option.some_inj.mp hf
      refine ⟨?_, (hleave.append_left _).trans h.perm, fun hne => absurd hempty hne⟩
      simp only
      omega
    · next next rest hqueue =>
      obtain rfl := Option.some_inj.mp hf
      have hbusy := h.busy (by simp [hqueue])
      have hperm := h.perm
      rw [hqueue, List.cons_append] at hperm
      refine ⟨?_, ?_, fun _ => ?_⟩
      · simp only [List.length_append, List.length_singleton]
        omega
      · refine List.Perm.trans ?_ hperm
        rw [List.append_assoc, List.singleton_append]
        calc
          rest ++ (p.running.eraseIdx k ++ next :: (p.finished ++ [a] ++ p.thrown))
            ~ rest ++ next :: (p.running.eraseIdx k ++ (p.finished ++ [a] ++ p.thrown)) := List.perm_middle.append_left _
          _ ~ next :: (rest ++ (p.running.eraseIdx k ++ (p.finished ++ [a] ++ p.thrown))) := List.perm_middle
          _ ~ next :: (rest ++ (p.running ++ (p.finished ++ p.thrown))) := (hleave.append_left rest).cons next
      · simp only [List.length_append, List.length_singleton]
        omega

theorem Works.throws (h : p.Works limit items) (hf : p.throws k = some q) : q.Works limit items := by
  unfold WorkerPool.throws at hf
  split at hf
  · cases hf
  · next a ha =>
    obtain rfl := Option.some_inj.mp hf
    have hlength := (perm_eraseIdx ha).length_eq
    have hbound := h.bound
    rw [List.length_cons] at hlength
    refine ⟨?_, ?_, fun hne => ?_⟩
    · simp only
      omega
    · refine List.Perm.trans (List.Perm.append_left _ ?_) h.perm
      have hleave := perm_leave (m := p.finished ++ p.thrown) (n := []) ha
      rwa [List.append_nil, List.append_assoc] at hleave
    · have hbusy := h.busy hne
      simp only [List.length_append, List.length_singleton]
      omega

theorem finished_finish {a : α} (ha : p.running[k]? = some a) (hf : p.finish k = some q) : q.finished = p.finished ++ [a] := by
  unfold WorkerPool.finish at hf
  rw [ha] at hf
  simp only at hf
  split at hf
  all_goals
    obtain rfl := Option.some_inj.mp hf
    rfl

theorem finished_throws (hf : p.throws k = some q) : q.finished = p.finished := by
  unfold WorkerPool.throws at hf
  split at hf
  · cases hf
  · obtain rfl := Option.some_inj.mp hf
    rfl

theorem Works.mem_running (h : p.Works limit items) {a : α} (ha : a ∈ p.running) : a ∈ items :=
  h.perm.mem_iff.mp (List.mem_append_right _ (List.mem_append_left _ ha))

/-- A batch whose workers are all done has nothing left, if none of them threw. -/
theorem Works.drained (h : p.Works limit items) (hlimit : 0 < limit) (hrunning : p.running = []) (hthrown : p.thrown = []) :
    p.queue = [] ∧ p.finished.Perm items := by
  have hqueue : p.queue = [] := by
    by_contra hne
    have hbusy := h.busy hne
    rw [hrunning, hthrown, List.length_nil] at hbusy
    omega
  have hperm := h.perm
  rw [hqueue, hrunning, hthrown, List.append_nil] at hperm
  exact ⟨hqueue, hperm⟩

/-- Every item of the batch is pending, finished or lost. -/
theorem Works.mem (h : p.Works limit items) {a : α} (ha : a ∈ items) : p.Pending a ∨ a ∈ p.finished ∨ p.Lost a := by
  have hmem := h.perm.mem_iff.mpr ha
  simp only [List.mem_append] at hmem
  obtain hqueue | hrunning | hfinished | hthrown := hmem
  · by_cases hidle : p.running = []
    · exact .inr (.inr (.inr ⟨hqueue, hidle⟩))
    · exact .inl (.inr ⟨hqueue, hidle⟩)
  · exact .inl (.inl hrunning)
  · exact .inr (.inl hfinished)
  · exact .inr (.inr (.inl hthrown))

/-- Only its own throw loses an item, or a throw of each of the workers. -/
theorem Works.lost (h : p.Works limit items) {a : α} (ha : p.Lost a) : a ∈ p.thrown ∨ p.thrown.length = limit := by
  obtain hthrown | ⟨hqueue, hidle⟩ := ha
  · exact .inl hthrown
  · have hbusy := h.busy (List.ne_nil_of_mem hqueue)
    rw [hidle, List.length_nil, Nat.zero_add] at hbusy
    exact .inr hbusy

end WorkerPool

end RecordNode.Foundation
