import RecordNode.Foundation.OrderedMap
import Mathlib.Logic.Relation
import Mathlib.Algebra.BigOperators.Group.List.Basic
import Mathlib.Algebra.GroupWithZero.Nat

/-! # Bounded graph search

A work-list search over a graph given by its successor lists, with a set of the
nodes already expanded. The fuel counts iterations of the loop: every node is
expanded at most once, so a search over a graph whose only nodes with
successors are listed in `nodes` ends within `searchBound` iterations and then
decides reachability. -/

namespace RecordNode.Foundation

open Relation

variable {α : Type*} [DecidableEq α]

/-- One loop: take the next node, stop at the target, expand it unless seen. -/
def search (expand : α → List α) (target : α) : ℕ → List α → OrderedSet α → Bool
  | 0, _, _ => false
  | _ + 1, [], _ => false
  | n + 1, x :: work, seen =>
    if x = target then true
    else if x ∈ seen then search expand target n work seen
    else search expand target n (expand x ++ work) (seen.add x)

/-- The same loop, with running out of fuel told apart from an answer. -/
def searchLoop (expand : α → List α) (target : α) : ℕ → List α → OrderedSet α → Option Bool
  | 0, _, _ => none
  | _ + 1, [], _ => some false
  | n + 1, x :: work, seen =>
    if x = target then some true
    else if x ∈ seen then searchLoop expand target n work seen
    else searchLoop expand target n (expand x ++ work) (seen.add x)

/-- The successors of the nodes not expanded yet, counted over a list of nodes. -/
def unexpanded (expand : α → List α) (seen : OrderedSet α) : List α → ℕ
  | [] => 0
  | x :: nodes => (if x ∈ seen then 0 else (expand x).length) + unexpanded expand seen nodes

/-- Iterations a search from `work` can take when `nodes` lists every node with successors. -/
def searchBound (expand : α → List α) (nodes work : List α) : ℕ :=
  work.length + (nodes.map fun x => (expand x).length).sum + 1

abbrev Edge (expand : α → List α) (x y : α) : Prop := y ∈ expand x

theorem search_sound (expand : α → List α) (target : α) (n : ℕ) (work : List α)
    (seen : OrderedSet α) (h : search expand target n work seen = true) :
    ∃ s ∈ work, ReflTransGen (Edge expand) s target := by
  induction n generalizing work seen with
  | zero => simp [search] at h
  | succ n ih =>
    cases work with
    | nil => simp [search] at h
    | cons x work =>
      by_cases hx : x = target
      · exact ⟨x, List.mem_cons_self, hx ▸ ReflTransGen.refl⟩
      · by_cases hs : x ∈ seen
        · rw [search, if_neg hx, if_pos hs] at h
          obtain ⟨s, hw, hr⟩ := ih work seen h
          exact ⟨s, List.mem_cons_of_mem x hw, hr⟩
        · rw [search, if_neg hx, if_neg hs] at h
          obtain ⟨s, hw, hr⟩ := ih _ _ h
          rcases List.mem_append.mp hw with he | hw
          · exact ⟨x, List.mem_cons_self, ReflTransGen.head he hr⟩
          · exact ⟨s, List.mem_cons_of_mem x hw, hr⟩

theorem unexpanded_add_le (expand : α → List α) (seen : OrderedSet α) (x : α) (nodes : List α) :
    unexpanded expand (seen.add x) nodes ≤ unexpanded expand seen nodes := by
  induction nodes with
  | nil => exact Nat.le_refl 0
  | cons a nodes ih =>
    simp only [unexpanded, OrderedSet.mem_add]
    by_cases ha : a ∈ seen
    · simpa [ha] using ih
    · simp only [ha, or_false, if_false]
      split <;> omega

/-- Expanding a fresh node pays for the successors it adds to the work list. -/
theorem unexpanded_add (expand : α → List α) (nodes : List α)
    (hnodes : ∀ x, x ∉ nodes → expand x = []) (seen : OrderedSet α) (x : α) (hx : x ∉ seen) :
    (expand x).length + unexpanded expand (seen.add x) nodes ≤ unexpanded expand seen nodes := by
  by_cases hm : x ∈ nodes
  · clear hnodes
    induction nodes with
    | nil => simp at hm
    | cons a nodes ih =>
      have hle := unexpanded_add_le expand seen x nodes
      by_cases ha : a = x
      · subst ha
        simp only [unexpanded, OrderedSet.mem_add, true_or, if_true, hx, if_false]
        omega
      · have hr := ih ((List.mem_cons.mp hm).resolve_left (Ne.symm ha))
        simp only [unexpanded, OrderedSet.mem_add, ha, false_or]
        omega
  · rw [hnodes x hm, List.length_nil, Nat.zero_add]
    exact unexpanded_add_le expand seen x nodes

theorem unexpanded_le (expand : α → List α) (seen : OrderedSet α) (nodes : List α) :
    unexpanded expand seen nodes ≤ (nodes.map fun x => (expand x).length).sum := by
  induction nodes with
  | nil => exact Nat.le_refl 0
  | cons a nodes ih =>
    rw [unexpanded, List.map_cons, List.sum_cons]
    split <;> omega

/-- A loop that could still expand everything left ends with an answer. -/
theorem searchLoop_of_lt (expand : α → List α) (target : α) (nodes : List α)
    (hnodes : ∀ x, x ∉ nodes → expand x = []) (n : ℕ) (work : List α) (seen : OrderedSet α)
    (hn : work.length + unexpanded expand seen nodes < n) :
    searchLoop expand target n work seen = some (search expand target n work seen) := by
  induction n generalizing work seen with
  | zero => omega
  | succ n ih =>
    cases work with
    | nil => rfl
    | cons x work =>
      rw [List.length_cons] at hn
      rw [searchLoop, search]
      by_cases hx : x = target
      · rw [if_pos hx, if_pos hx]
      · rw [if_neg hx, if_neg hx]
        by_cases hm : x ∈ seen
        · rw [if_pos hm, if_pos hm]
          exact ih work seen (by omega)
        · rw [if_neg hm, if_neg hm]
          have hu := unexpanded_add expand nodes hnodes seen x hm
          exact ih _ _ (by rw [List.length_append]; omega)

/-- Every expanded node missed the target and has its successors expanded or still to do. -/
def Explored (expand : α → List α) (target : α) (work : List α) (seen : OrderedSet α) : Prop :=
  ∀ x ∈ seen, x ≠ target ∧ ∀ y ∈ expand x, y ∈ seen ∨ y ∈ work

omit [DecidableEq α] in
theorem Explored.unreachable {expand : α → List α} {target : α} {seen : OrderedSet α}
    (h : Explored expand target [] seen) {s : α} (hs : s ∈ seen) :
    ¬ ReflTransGen (Edge expand) s target := by
  intro hr
  induction hr using ReflTransGen.head_induction_on with
  | refl => exact (h target hs).1 rfl
  | head he _ ih =>
    rcases (h _ hs).2 _ he with hy | hy
    · exact ih hy
    · simp at hy

theorem search_complete (expand : α → List α) (target : α) (nodes : List α)
    (hnodes : ∀ x, x ∉ nodes → expand x = []) (n : ℕ) (work : List α) (seen : OrderedSet α)
    (hn : work.length + unexpanded expand seen nodes < n)
    (hinv : Explored expand target work seen) (h : search expand target n work seen = false)
    (s : α) (hs : s ∈ seen ∨ s ∈ work) : ¬ ReflTransGen (Edge expand) s target := by
  induction n generalizing work seen with
  | zero => omega
  | succ n ih =>
    cases work with
    | nil =>
      rcases hs with hs | hs
      · exact hinv.unreachable hs
      · simp at hs
    | cons x work =>
      by_cases hx : x = target
      · simp [search, hx] at h
      · rw [List.length_cons] at hn
        by_cases hm : x ∈ seen
        · rw [search, if_neg hx, if_pos hm] at h
          apply ih work seen (by omega) ?_ h
          · rcases hs with hs | hs
            · exact Or.inl hs
            · rcases List.mem_cons.mp hs with rfl | hs
              · exact Or.inl hm
              · exact Or.inr hs
          · intro y hy
            refine ⟨(hinv y hy).1, fun z hz => ?_⟩
            rcases (hinv y hy).2 z hz with hz | hz
            · exact Or.inl hz
            · rcases List.mem_cons.mp hz with rfl | hz
              · exact Or.inl hm
              · exact Or.inr hz
        · rw [search, if_neg hx, if_neg hm] at h
          have hu := unexpanded_add expand nodes hnodes seen x hm
          apply ih (expand x ++ work) (seen.add x) (by rw [List.length_append]; omega) ?_ h
          · rcases hs with hs | hs
            · exact Or.inl ((seen.mem_add x s).mpr (Or.inr hs))
            · rcases List.mem_cons.mp hs with rfl | hs
              · exact Or.inl ((seen.mem_add s s).mpr (Or.inl rfl))
              · exact Or.inr (List.mem_append_right _ hs)
          · intro y hy
            rw [OrderedSet.mem_add] at hy
            rcases hy with rfl | hy
            · exact ⟨hx, fun z hz => Or.inr (List.mem_append_left _ hz)⟩
            · refine ⟨(hinv y hy).1, fun z hz => ?_⟩
              rcases (hinv y hy).2 z hz with hz | hz
              · exact Or.inl ((seen.mem_add x z).mpr (Or.inr hz))
              · rcases List.mem_cons.mp hz with rfl | hz
                · exact Or.inl ((seen.mem_add z z).mpr (Or.inl rfl))
                · exact Or.inr (List.mem_append_right _ hz)

theorem searchLoop_eq (expand : α → List α) (target : α) (nodes : List α)
    (hnodes : ∀ x, x ∉ nodes → expand x = []) (n : ℕ) (work : List α)
    (hn : searchBound expand nodes work ≤ n) :
    searchLoop expand target n work OrderedSet.empty = some (search expand target n work OrderedSet.empty) := by
  have hu := unexpanded_le expand OrderedSet.empty nodes
  refine searchLoop_of_lt expand target nodes hnodes n work OrderedSet.empty ?_
  unfold searchBound at hn
  omega

/-- With enough fuel the search decides reachability of the target from the work list. -/
theorem search_iff (expand : α → List α) (target : α) (nodes : List α)
    (hnodes : ∀ x, x ∉ nodes → expand x = []) (n : ℕ) (work : List α)
    (hn : searchBound expand nodes work ≤ n) :
    search expand target n work OrderedSet.empty = true ↔
      ∃ s ∈ work, ReflTransGen (Edge expand) s target := by
  refine ⟨search_sound expand target n work OrderedSet.empty, ?_⟩
  rintro ⟨s, hs, hr⟩
  by_contra hf
  rw [Bool.not_eq_true] at hf
  have hu := unexpanded_le expand OrderedSet.empty nodes
  refine search_complete expand target nodes hnodes n work OrderedSet.empty ?_ ?_ hf s (Or.inr hs) hr
  · unfold searchBound at hn
    omega
  · intro x hx
    simp at hx

end RecordNode.Foundation
