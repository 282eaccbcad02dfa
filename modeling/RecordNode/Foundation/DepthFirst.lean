import Mathlib.Data.List.Basic
import Mathlib.Logic.Function.Iterate

/-! # Depth-first walks

Nodes put out some items and name further nodes. A visit puts out a node's own items
before those of the nodes it names, in their order. A walk that keeps the nodes still to
visit on a stack puts out the same, one node opened at a time. -/

namespace RecordNode.Foundation

variable {α β : Type*}

/-- What the nodes of a list put out, one after the other, when each of them and each node
below them opens. -/
inductive Emits (opens : α → Option (List β × List α)) : List α → List β → Prop
  | nil : Emits opens [] []
  | cons {a : α} {rest children : List α} {own inner outer : List β} (h : opens a = some (own, children))
      (hinner : Emits opens children inner) (houter : Emits opens rest outer) :
      Emits opens (a :: rest) (own ++ inner ++ outer)

namespace Emits

variable {opens : α → Option (List β × List α)} {a : α} {l m rest children : List α} {own x y z : List β}

theorem append (hx : Emits opens l x) (hy : Emits opens m y) : Emits opens (l ++ m) (x ++ y) := by
  induction hx with
  | nil => exact hy
  | cons h hinner _ _ ih =>
    rw [List.append_assoc]
    exact .cons h hinner ih

theorem split (h : Emits opens (l ++ m) z) : ∃ x y, z = x ++ y ∧ Emits opens l x ∧ Emits opens m y := by
  induction l generalizing z with
  | nil => exact ⟨[], z, rfl, .nil, h⟩
  | cons a l ih =>
    cases h with
    | cons ha hinner houter =>
      obtain ⟨x, y, rfl, hx, hy⟩ := ih houter
      exact ⟨_, y, (List.append_assoc ..).symm, .cons ha hinner hx, hy⟩

theorem nil_iff : Emits opens [] z ↔ z = [] := by
  constructor
  · rintro ⟨⟩
    rfl
  · rintro rfl
    exact .nil

/-- Opening the first node moves what it names to the front. -/
theorem cons_iff (h : opens a = some (own, children)) :
    Emits opens (a :: rest) z ↔ ∃ w, z = own ++ w ∧ Emits opens (children ++ rest) w := by
  constructor
  · intro hz
    cases hz with
    | cons ha hinner houter =>
      obtain ⟨rfl, rfl⟩ := Prod.mk.inj (Option.some_inj.mp (h.symm.trans ha))
      exact ⟨_, List.append_assoc .., hinner.append houter⟩
  · rintro ⟨w, rfl, hw⟩
    obtain ⟨x, y, rfl, hx, hy⟩ := hw.split
    rw [← List.append_assoc]
    exact .cons h hx hy

theorem opens_of_cons (h : Emits opens (a :: rest) z) : ∃ own children, opens a = some (own, children) := by
  cases h with
  | cons ha _ _ => exact ⟨_, _, ha⟩

end Emits

/-- With this much put out and these nodes on the stack, what is to be put out is settled. -/
def Walking (opens : α → Option (List β × List α)) (root : α) (stack : List α) (done : List β) : Prop :=
  ∀ z, Emits opens [root] z ↔ ∃ w, z = done ++ w ∧ Emits opens stack w

namespace Walking

variable {opens : α → Option (List β × List α)} {root a : α} {rest children : List α} {done own z : List β}

theorem start : Walking opens root [root] [] := fun z => by simp

theorem step (h : Walking opens root (a :: rest) done) (ha : opens a = some (own, children)) :
    Walking opens root (children ++ rest) (done ++ own) := by
  intro z
  rw [h z]
  constructor
  · rintro ⟨w, rfl, hw⟩
    obtain ⟨v, rfl, hv⟩ := (Emits.cons_iff ha).mp hw
    exact ⟨v, (List.append_assoc ..).symm, hv⟩
  · rintro ⟨v, rfl, hv⟩
    exact ⟨own ++ v, List.append_assoc .., (Emits.cons_iff ha).mpr ⟨v, rfl, hv⟩⟩

theorem finish (h : Walking opens root [] done) : Emits opens [root] z ↔ z = done := by
  rw [h z]
  simp only [Emits.nil_iff]
  constructor
  · rintro ⟨w, rfl, rfl⟩
    exact List.append_nil _
  · rintro rfl
    exact ⟨[], (List.append_nil _).symm, rfl⟩

end Walking

/-- Where every node ranks above the nodes it names, what holds of the empty stack and, for a
stack, follows from the stack with its first node opened, holds of every stack. -/
theorem stack_induction {opens : α → Option (List β × List α)} {rank : α → ℕ}
    (hrank : ∀ a own children, opens a = some (own, children) → ∀ c ∈ children, rank c < rank a) {P : List α → Prop}
    (hnil : P []) (hstuck : ∀ a rest, opens a = none → P (a :: rest))
    (hopen : ∀ a rest own children, opens a = some (own, children) → P (children ++ rest) → P (a :: rest))
    (stack : List α) : P stack := by
  have hcons : ∀ n a, rank a < n → ∀ rest, P rest → P (a :: rest) := by
    intro n
    induction n with
    | zero => intro a ha; omega
    | succ n ih =>
      intro a ha rest hrest
      cases h : opens a with
      | none => exact hstuck a rest h
      | some r =>
        obtain ⟨own, children⟩ := r
        refine hopen a rest own children h ?_
        have hsmall : ∀ c ∈ children, rank c < n := fun c hc => by
          have hlt := hrank a own children h c hc
          omega
        clear h
        induction children with
        | nil => exact hrest
        | cons c children ihc =>
          obtain ⟨hc, hchildren⟩ := List.forall_mem_cons.mp hsmall
          exact ih c hc _ (ihc hchildren)
  induction stack with
  | nil => exact hnil
  | cons a rest ih => exact hcons (rank a + 1) a (Nat.lt_succ_self _) rest ih

end RecordNode.Foundation
