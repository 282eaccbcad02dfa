import Mathlib.Data.List.Sort
import Mathlib.Data.Prod.Lex
import Mathlib.Order.WithBot

/-! # Ordered pages

A page is a stretch of a list, and pages one after the other make the list. A list
sorted by a key none of its elements share is the only one in that order, so it does not
matter where its elements were read from. With a key that may be missing, the elements
that have one come first in both directions; a page over them is read from each part in
turn. -/

namespace RecordNode
namespace Foundation

variable {α L M : Type*}

/-- `LIMIT limit OFFSET offset`. -/
def page (offset limit : ℕ) (l : List α) : List α := (l.drop offset).take limit

theorem length_page (offset limit : ℕ) (l : List α) : (page offset limit l).length = min limit (l.length - offset) := by
  simp [page]

/-- A page over two lists goes on in the second where the first ends. -/
theorem page_append (offset limit : ℕ) (l m : List α) : page offset limit (l ++ m) =
    page offset limit l ++ page (offset - l.length) (limit - (page offset limit l).length) m := by
  rw [length_page, page, page, page, List.drop_append, List.take_append, List.length_drop]
  congr 2
  omega

/-- Pages one after the other are the list, as far as they go. -/
theorem flatMap_page (limit n : ℕ) (l : List α) :
    ((List.range n).flatMap fun i => page (i * limit) limit l) = l.take (n * limit) := by
  induction n with
  | zero => simp
  | succ n ih =>
    rw [List.range_succ, List.flatMap_append, ih, Nat.succ_mul, List.take_add]
    simp [page]

/-! ## One key -/

section Order
variable [LinearOrder L] [LinearOrder M]

/-- The order of a direction. -/
def before (descending : Bool) (x y : L) : Prop := if descending then y ≤ x else x ≤ y

instance (descending : Bool) (x y : L) : Decidable (before descending x y) :=
  inferInstanceAs (Decidable (if descending then y ≤ x else x ≤ y))

theorem before_total (descending : Bool) (x y : L) : before descending x y ∨ before descending y x := by
  cases descending
  · exact le_total x y
  · exact le_total y x

theorem before_trans {descending : Bool} {x y z : L} (hxy : before descending x y) (hyz : before descending y z) :
    before descending x z := by
  cases descending
  · exact le_trans (α := L) hxy hyz
  · exact le_trans (α := L) hyz hxy

theorem before_antisymm {descending : Bool} {x y : L} (hxy : before descending x y) (hyx : before descending y x) :
    x = y := by
  cases descending
  · exact le_antisymm (α := L) hxy hyx
  · exact le_antisymm (α := L) hyx hxy

/-- `ORDER BY` a key, ascending or descending. -/
def orderBy (descending : Bool) (key : α → L) (l : List α) : List α :=
  l.insertionSort fun a b => before descending (key a) (key b)

theorem orderBy_perm (descending : Bool) (key : α → L) (l : List α) : (orderBy descending key l).Perm l :=
  List.perm_insertionSort _ l

theorem orderBy_pairwise (descending : Bool) (key : α → L) (l : List α) :
    (orderBy descending key l).Pairwise fun a b => before descending (key a) (key b) := by
  have htotal : Std.Total fun a b => before descending (key a) (key b) := ⟨fun a b => before_total _ _ _⟩
  have htrans : IsTrans α fun a b => before descending (key a) (key b) := ⟨fun a b c => before_trans⟩
  exact List.pairwise_insertionSort _ l

/-! ## A key that may be missing -/

/-- Elements with a key first, by key and then by id; the others by id. -/
def Precedes (descending : Bool) : Option L × M → Option L × M → Prop
  | (some x, i), (some y, j) => before descending (toLex (x, i)) (toLex (y, j))
  | (some _, _), (none, _) => True
  | (none, _), (some _, _) => False
  | (none, i), (none, j) => before descending i j

instance (descending : Bool) : DecidableRel (Precedes descending : Option L × M → Option L × M → Prop)
  | (some x, i), (some y, j) => inferInstanceAs (Decidable (before descending (toLex (x, i)) (toLex (y, j))))
  | (some _, _), (none, _) => inferInstanceAs (Decidable True)
  | (none, _), (some _, _) => inferInstanceAs (Decidable False)
  | (none, i), (none, j) => inferInstanceAs (Decidable (before descending i j))

theorem precedes_total (descending : Bool) :
    ∀ a b : Option L × M, Precedes descending a b ∨ Precedes descending b a
  | (some _, _), (some _, _) => before_total _ _ _
  | (some _, _), (none, _) => Or.inl trivial
  | (none, _), (some _, _) => Or.inr trivial
  | (none, _), (none, _) => before_total _ _ _

theorem precedes_trans (descending : Bool) :
    ∀ a b c : Option L × M, Precedes descending a b → Precedes descending b c → Precedes descending a c
  | (some _, _), (some _, _), (some _, _), hab, hbc => before_trans hab hbc
  | (some _, _), (some _, _), (none, _), _, _ => trivial
  | (some _, _), (none, _), (none, _), _, _ => trivial
  | (none, _), (none, _), (none, _), hab, hbc => before_trans hab hbc

theorem snd_eq_of_precedes (descending : Bool) :
    ∀ a b : Option L × M, Precedes descending a b → Precedes descending b a → a.2 = b.2
  | (some x, i), (some y, j), hab, hba =>
    have heq : toLex (x, i) = toLex (y, j) := before_antisymm hab hba
    (Prod.mk.inj (toLex.injective heq)).2
  | (none, _), (none, _), hab, hba => before_antisymm hab hba

/-- The whole list in this order. -/
def nullsLast (descending : Bool) (key : α → Option L × M) (l : List α) : List α :=
  l.insertionSort fun a b => Precedes descending (key a) (key b)

variable {descending : Bool} {key : α → Option L × M}

theorem nullsLast_perm (l : List α) : (nullsLast descending key l).Perm l := List.perm_insertionSort _ l

/-- Whatever is in this order and has the elements is the list. -/
theorem eq_nullsLast {l m : List α} (hid : (l.map fun a => (key a).2).Nodup) (hp : m.Perm l)
    (hm : m.Pairwise fun a b => Precedes descending (key a) (key b)) : m = nullsLast descending key l := by
  have htotal : Std.Total fun a b => Precedes descending (key a) (key b) := ⟨fun a b => precedes_total _ _ _⟩
  have htrans : IsTrans α fun a b => Precedes descending (key a) (key b) := ⟨fun a b c => precedes_trans _ _ _ _⟩
  refine (hp.trans (nullsLast_perm l).symm).eq_of_pairwise (fun a b ha hb hab hba => ?_) hm
    (List.pairwise_insertionSort _ l)
  exact List.inj_on_of_nodup_map hid (hp.mem_iff.mp ha) ((nullsLast_perm l).mem_iff.mp hb)
    (snd_eq_of_precedes _ _ _ hab hba)

/-- Two statements make the list: one over the elements with a key, one over the others. -/
theorem nullsLast_eq_append {l present absent : List α} (hid : (l.map fun a => (key a).2).Nodup)
    (hpresent : present.Perm (l.filter fun a => (key a).1.isSome))
    (habsent : absent.Perm (l.filter fun a => !(key a).1.isSome)) :
    nullsLast descending key l =
      orderBy descending (fun a => toLex ((key a).1.elim ⊤ fun x => (x : WithTop L), (key a).2)) present ++
        orderBy descending (fun a => (key a).2) absent := by
  symm
  have hsome : ∀ a ∈ orderBy descending (fun a => toLex ((key a).1.elim ⊤ fun x => (x : WithTop L), (key a).2)) present,
      ∃ x i, key a = (some x, i) := by
    intro a ha
    have hk := (List.mem_filter.mp (hpresent.mem_iff.mp ((orderBy_perm _ _ _).mem_iff.mp ha))).2
    obtain ⟨x, hx⟩ := Option.isSome_iff_exists.mp hk
    exact ⟨x, (key a).2, Prod.ext hx rfl⟩
  have hnone : ∀ a ∈ orderBy descending (fun a => (key a).2) absent, ∃ i, key a = (none, i) := by
    intro a ha
    have hk := (List.mem_filter.mp (habsent.mem_iff.mp ((orderBy_perm _ _ _).mem_iff.mp ha))).2
    exact ⟨(key a).2, Prod.ext (by simpa using hk) rfl⟩
  refine eq_nullsLast hid ?_ (List.pairwise_append.mpr ⟨?_, ?_, fun a ha b hb => ?_⟩)
  · refine (((orderBy_perm _ _ _).trans hpresent).append ((orderBy_perm _ _ _).trans habsent)).trans ?_
    exact List.filter_append_perm _ _
  · refine (orderBy_pairwise _ _ _).imp_of_mem fun {a b} ha hb hab => ?_
    obtain ⟨x, i, hx⟩ := hsome a ha
    obtain ⟨y, j, hy⟩ := hsome b hb
    rw [hx, hy] at hab ⊢
    simpa [Precedes, before, Prod.Lex.toLex_le_toLex] using hab
  · refine (orderBy_pairwise _ _ _).imp_of_mem fun {a b} ha hb hab => ?_
    obtain ⟨i, hx⟩ := hnone a ha
    obtain ⟨j, hy⟩ := hnone b hb
    rw [hx, hy] at hab ⊢
    exact hab
  · obtain ⟨x, i, hx⟩ := hsome a ha
    obtain ⟨j, hy⟩ := hnone b hb
    rw [hx, hy]
    trivial

end Order

end Foundation
end RecordNode
