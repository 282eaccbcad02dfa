import RecordNode.Foundation.OrderedMap
import Mathlib.Logic.Relation

/-! # Collecting walks

A first-in-first-out walk over stored nodes that name further nodes. Each node is
visited once, a node that is not stored is skipped. The walk ends because the
store is finite, and it collects every stored node that stored nodes lead to. -/

namespace RecordNode.Foundation

open Relation

variable {α β : Type*} [DecidableEq α]

/-- The stored keys a walk has still to visit. -/
def unvisited (nodes : OrderedMap α β) (seen : OrderedSet α) : ℕ :=
  (nodes.keys.filter fun x => decide (x ∉ seen)).length

theorem length_unseen_add_le (l : List α) (seen : OrderedSet α) (x : α) :
    (l.filter fun y => decide (y ∉ seen.add x)).length ≤ (l.filter fun y => decide (y ∉ seen)).length := by
  apply List.Sublist.length_le
  apply List.monotone_filter_right
  intro y hy
  simp only [OrderedSet.mem_add, decide_eq_true_eq, not_or] at hy ⊢
  exact hy.2

theorem length_unseen_add_lt {l : List α} {seen : OrderedSet α} {x : α} (hx : x ∉ seen) (hl : x ∈ l) :
    (l.filter fun y => decide (y ∉ seen.add x)).length < (l.filter fun y => decide (y ∉ seen)).length := by
  have hsplit : (l.filter fun y => decide (y ∉ seen.add x)) =
      (l.filter fun y => decide (y ∉ seen)).filter fun y => decide (y ≠ x) := by
    rw [List.filter_filter]
    apply List.filter_congr
    intro y _
    simp [OrderedSet.mem_add, not_or]
  rw [hsplit]
  exact List.length_filter_lt_length_iff_exists.mpr ⟨x, List.mem_filter.mpr ⟨hl, by simpa using hx⟩, by simp⟩

theorem unvisited_add_le (nodes : OrderedMap α β) (seen : OrderedSet α) (x : α) :
    unvisited nodes (seen.add x) ≤ unvisited nodes seen :=
  length_unseen_add_le nodes.keys seen x

theorem unvisited_add_lt (nodes : OrderedMap α β) {seen : OrderedSet α} {x : α} {b : β} (hx : x ∉ seen)
    (hb : nodes.get x = some b) : unvisited nodes (seen.add x) < unvisited nodes seen :=
  length_unseen_add_lt hx ((nodes.mem_keys_iff x).mpr ⟨b, hb⟩)

/-- Take the first of the queue; unless seen, collect what is stored under it and queue
what that names. -/
def collect (nodes : OrderedMap α β) (links : β → List α) : List α → OrderedSet α → List β
  | [], _ => []
  | x :: queue, seen =>
    if _hx : x ∈ seen then collect nodes links queue seen
    else
      match _hb : nodes.get x with
      | none => collect nodes links queue (seen.add x)
      | some b => b :: collect nodes links (queue ++ links b) (seen.add x)
termination_by queue seen => (unvisited nodes seen, queue.length)
decreasing_by
  · exact Prod.Lex.right _ (by simp)
  · apply Prod.Lex.right' _ (unvisited_add_le nodes seen x)
    exact Nat.lt_succ_self _
  · exact Prod.Lex.left _ _ (unvisited_add_lt nodes _hx _hb)

variable (nodes : OrderedMap α β) (links : β → List α)

/-- `x` is stored and what is stored names `y`. -/
def Leads (x y : α) : Prop := ∃ b, nodes.get x = some b ∧ y ∈ links b

theorem exists_get_of_mem_collect {queue : List α} {seen : OrderedSet α} {b : β}
    (h : b ∈ collect nodes links queue seen) : ∃ x, nodes.get x = some b := by
  fun_induction collect nodes links queue seen with
  | case1 => simp at h
  | case2 _ _ _ _ ih => exact ih h
  | case3 _ _ _ _ _ ih => exact ih h
  | case4 x queue seen _ b' hb ih =>
    rcases List.mem_cons.mp h with rfl | h
    · exact ⟨x, hb⟩
    · exact ih h

/-- A walk ends with a set of visited keys that holds what it started from, is closed
under what stored nodes name, and of which everything new was collected. -/
theorem exists_visited (queue : List α) (seen : OrderedSet α)
    (hseen : ∀ x ∈ seen, ∀ y, Leads nodes links x y → y ∈ seen ∨ y ∈ queue) :
    ∃ visited : Set α, (∀ x ∈ seen, x ∈ visited) ∧ (∀ x ∈ queue, x ∈ visited) ∧
      (∀ x ∈ visited, ∀ y, Leads nodes links x y → y ∈ visited) ∧
      ∀ x ∈ visited, x ∈ seen ∨ ∀ b, nodes.get x = some b → b ∈ collect nodes links queue seen := by
  fun_induction collect nodes links queue seen with
  | case1 seen =>
    refine ⟨{ x | x ∈ seen }, fun x hx => hx, by simp, fun x hx y hy => ?_, fun x hx => Or.inl hx⟩
    exact (hseen x hx y hy).resolve_right List.not_mem_nil
  | case2 x queue seen hx ih =>
    obtain ⟨visited, h1, h2, h3, h4⟩ := ih fun z hz y hy => by
      rcases hseen z hz y hy with hy | hy
      · exact Or.inl hy
      · rcases List.mem_cons.mp hy with rfl | hy
        · exact Or.inl hx
        · exact Or.inr hy
    refine ⟨visited, h1, fun z hz => ?_, h3, h4⟩
    rcases List.mem_cons.mp hz with rfl | hz
    · exact h1 z hx
    · exact h2 z hz
  | case3 x queue seen hx hb ih =>
    obtain ⟨visited, h1, h2, h3, h4⟩ := ih fun z hz y hy => by
      rcases (seen.mem_add x z).mp hz with rfl | hz
      · obtain ⟨b, hb', -⟩ := hy
        simp [hb] at hb'
      · rcases hseen z hz y hy with hy | hy
        · exact Or.inl ((seen.mem_add x y).mpr (Or.inr hy))
        · exact (List.mem_cons.mp hy).imp (fun h => (seen.mem_add x y).mpr (Or.inl h)) id
    refine ⟨visited, fun z hz => h1 z ((seen.mem_add x z).mpr (Or.inr hz)), fun z hz => ?_, h3,
      fun z hz => ?_⟩
    · rcases List.mem_cons.mp hz with rfl | hz
      · exact h1 z ((seen.mem_add z z).mpr (Or.inl rfl))
      · exact h2 z hz
    · rcases h4 z hz with hz | hz
      · rcases (seen.mem_add x z).mp hz with rfl | hz
        · exact Or.inr fun b hb' => by simp [hb] at hb'
        · exact Or.inl hz
      · exact Or.inr hz
  | case4 x queue seen hx b hb ih =>
    obtain ⟨visited, h1, h2, h3, h4⟩ := ih fun z hz y hy => by
      rcases (seen.mem_add x z).mp hz with rfl | hz
      · obtain ⟨b', hb', hm⟩ := hy
        obtain rfl := Option.some_inj.mp (hb.symm.trans hb')
        exact Or.inr (List.mem_append_right _ hm)
      · rcases hseen z hz y hy with hy | hy
        · exact Or.inl ((seen.mem_add x y).mpr (Or.inr hy))
        · exact (List.mem_cons.mp hy).imp (fun h => (seen.mem_add x y).mpr (Or.inl h))
            (List.mem_append_left _)
    refine ⟨visited, fun z hz => h1 z ((seen.mem_add x z).mpr (Or.inr hz)), fun z hz => ?_, h3,
      fun z hz => ?_⟩
    · rcases List.mem_cons.mp hz with rfl | hz
      · exact h1 z ((seen.mem_add z z).mpr (Or.inl rfl))
      · exact h2 z (List.mem_append_left _ hz)
    · rcases h4 z hz with hz | hz
      · rcases (seen.mem_add x z).mp hz with rfl | hz
        · refine Or.inr fun b' hb' => ?_
          obtain rfl := Option.some_inj.mp (hb.symm.trans hb')
          exact List.mem_cons_self
        · exact Or.inl hz
      · exact Or.inr fun b' hb' => List.mem_cons_of_mem _ (hz b' hb')

/-- Whatever the start leads to is collected if it is stored. -/
theorem mem_collect_of_leads {queue : List α} {s x : α} {b : β} (hs : s ∈ queue)
    (hr : ReflTransGen (Leads nodes links) s x) (hb : nodes.get x = some b) :
    b ∈ collect nodes links queue .empty := by
  obtain ⟨visited, -, hstart, hclosed, hcollected⟩ := exists_visited nodes links queue .empty (by simp)
  have hx : x ∈ visited := by
    clear hb
    induction hr with
    | refl => exact hstart s hs
    | tail _ hstep ih => exact hclosed _ ih _ hstep
  exact (hcollected x hx).resolve_left (by simp) b hb

end RecordNode.Foundation
