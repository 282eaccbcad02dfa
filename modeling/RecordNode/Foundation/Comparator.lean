import Mathlib.Data.List.Sort
import Mathlib.Data.List.Lex
import Mathlib.Data.Rat.Defs
import Mathlib.Algebra.Order.Ring.Rat
import Mathlib.Data.Prod.Lex

/-! # Numeric comparators

A comparator returns a negative, zero or positive number, as sorting routines
take it. `Follows cmp key` says that its sign is the order of a key in a linear
order; a stable sort or a scan for the least element then depends only on which
elements are listed, as soon as distinct elements have distinct keys. -/

namespace RecordNode.Foundation

variable {α L : Type*} [LinearOrder L]

/-- The first comparison that is not a tie, written `x || y` on numbers. -/
def orElse (x y : ℚ) : ℚ := if x = 0 then y else x

/-- A stable ascending sort under a comparator. -/
def sortBy (cmp : α → α → ℚ) (l : List α) : List α := l.insertionSort fun a b => cmp a b ≤ 0

/-- Keep the current element unless the next one compares below it. -/
def keepLeast (cmp : α → α → ℚ) (current : Option α) (x : α) : Option α :=
  match current with
  | none => some x
  | some c => if cmp x c < 0 then some x else some c

def firstLeast (cmp : α → α → ℚ) (l : List α) : Option α := l.foldl (keepLeast cmp) none

structure Follows (cmp : α → α → ℚ) (key : α → L) : Prop where
  lt_iff : ∀ a b, cmp a b < 0 ↔ key a < key b
  le_iff : ∀ a b, cmp a b ≤ 0 ↔ key a ≤ key b

theorem Follows.eq_iff {cmp : α → α → ℚ} {key : α → L} (h : Follows cmp key) (a b : α) :
    cmp a b = 0 ↔ key a = key b := by
  have hlt := h.lt_iff a b
  have hle := h.le_iff a b
  constructor
  · intro h0
    exact eq_of_le_of_not_lt (hle.mp h0.le) fun hc => absurd (hlt.mpr hc) (by simp [h0])
  · intro he
    exact eq_of_le_of_not_lt (hle.mpr he.le) fun hc => (hlt.mp hc).ne he

theorem follows_sub (f : α → ℚ) : Follows (fun a b => f a - f b) f where
  lt_iff _ _ := sub_neg
  le_iff _ _ := sub_nonpos

/-- Subtracting the other way round orders downwards. -/
theorem follows_sub_desc (f : α → ℚ) : Follows (fun a b => f b - f a) (fun a => OrderDual.toDual (f a)) where
  lt_iff _ _ := sub_neg
  le_iff _ _ := sub_nonpos

/-- Breaking ties by a second comparator orders by the pair of keys. -/
theorem Follows.orElse {M : Type*} [LinearOrder M] {c d : α → α → ℚ} {key : α → L} {tie : α → M}
    (hc : Follows c key) (hd : Follows d tie) :
    Follows (fun a b => orElse (c a b) (d a b)) (fun a => toLex (key a, tie a)) where
  lt_iff a b := by
    rw [Prod.Lex.toLex_lt_toLex, ← hc.lt_iff, ← hd.lt_iff, ← hc.eq_iff]
    unfold RecordNode.Foundation.orElse
    split
    case isTrue h => simp [h]
    case isFalse h => simp [h]
  le_iff a b := by
    rw [Prod.Lex.toLex_le_toLex, ← hc.lt_iff, ← hd.le_iff, ← hc.eq_iff]
    unfold RecordNode.Foundation.orElse
    split
    case isTrue h => simp [h]
    case isFalse h => simpa [h] using (Ne.le_iff_lt h)

theorem sortBy_perm (cmp : α → α → ℚ) (l : List α) : (sortBy cmp l).Perm l :=
  List.perm_insertionSort _ l

theorem mem_sortBy (cmp : α → α → ℚ) (l : List α) (x : α) : x ∈ sortBy cmp l ↔ x ∈ l :=
  (sortBy_perm cmp l).mem_iff

theorem sortBy_pairwise {cmp : α → α → ℚ} {key : α → L} (h : Follows cmp key) (l : List α) :
    (sortBy cmp l).Pairwise fun a b => key a ≤ key b := by
  have : Std.Total fun a b => cmp a b ≤ 0 := ⟨fun a b => by
    rw [h.le_iff, h.le_iff]
    exact le_total (key a) (key b)⟩
  have : IsTrans α fun a b => cmp a b ≤ 0 := ⟨fun a b c hab hbc => by
    rw [h.le_iff] at *
    exact hab.trans hbc⟩
  exact (List.pairwise_insertionSort (fun a b => cmp a b ≤ 0) l).imp fun hab => (h.le_iff _ _).mp hab

theorem sortBy_sortBy {cmp : α → α → ℚ} {key : α → L} (h : Follows cmp key) (l : List α) :
    sortBy cmp (sortBy cmp l) = sortBy cmp l :=
  ((sortBy_pairwise h l).imp fun hab => (h.le_iff _ _).mpr hab).insertionSort_eq

/-- Sorting forgets the order of arrival when no two listed elements tie. -/
theorem sortBy_eq_of_perm {cmp : α → α → ℚ} {key : α → L} (h : Follows cmp key) {l m : List α}
    (hp : l.Perm m) (hinj : ∀ a ∈ l, ∀ b ∈ l, key a = key b → a = b) : sortBy cmp l = sortBy cmp m := by
  have hperm : (sortBy cmp l).Perm (sortBy cmp m) :=
    (sortBy_perm cmp l).trans (hp.trans (sortBy_perm cmp m).symm)
  refine hperm.eq_of_pairwise ?_ (sortBy_pairwise h l) (sortBy_pairwise h m)
  intro a b ha hb hab hba
  have hbl : b ∈ l := hp.mem_iff.mpr ((mem_sortBy cmp m b).mp hb)
  exact hinj a ((mem_sortBy cmp l a).mp ha) b hbl (le_antisymm hab hba)

theorem foldl_keepLeast_spec {cmp : α → α → ℚ} {key : α → L} (h : Follows cmp key) (l : List α)
    (c : α) : ∃ m, l.foldl (keepLeast cmp) (some c) = some m ∧ (m = c ∨ m ∈ l) ∧
      key m ≤ key c ∧ ∀ x ∈ l, key m ≤ key x := by
  induction l generalizing c with
  | nil => exact ⟨c, rfl, Or.inl rfl, le_rfl, by simp⟩
  | cons x rest ih =>
    rw [List.foldl_cons]
    by_cases hx : cmp x c < 0
    · obtain ⟨m, hm, hmem, hle, hall⟩ := ih x
      have hkx : key x < key c := (h.lt_iff x c).mp hx
      refine ⟨m, by simpa [keepLeast, hx] using hm, Or.inr ?_, hle.trans hkx.le, ?_⟩
      · rcases hmem with rfl | hmem
        · exact List.mem_cons_self
        · exact List.mem_cons_of_mem x hmem
      · exact List.forall_mem_cons.mpr ⟨hle, hall⟩
    · obtain ⟨m, hm, hmem, hle, hall⟩ := ih c
      have hkx : key c ≤ key x := not_lt.mp fun hlt => hx ((h.lt_iff x c).mpr hlt)
      refine ⟨m, by simpa [keepLeast, hx] using hm, ?_, hle, List.forall_mem_cons.mpr ⟨hle.trans hkx, hall⟩⟩
      rcases hmem with rfl | hmem
      · exact Or.inl rfl
      · exact Or.inr (List.mem_cons_of_mem x hmem)

/-- The scan returns a least listed element, and nothing only for an empty list. -/
theorem firstLeast_spec {cmp : α → α → ℚ} {key : α → L} (h : Follows cmp key) (l : List α) :
    (l = [] ∧ firstLeast cmp l = none) ∨
      ∃ m ∈ l, firstLeast cmp l = some m ∧ ∀ x ∈ l, key m ≤ key x := by
  cases l with
  | nil => exact Or.inl ⟨rfl, rfl⟩
  | cons c rest =>
    obtain ⟨m, hm, hmem, hle, hall⟩ := foldl_keepLeast_spec h rest c
    refine Or.inr ⟨m, ?_, hm, List.forall_mem_cons.mpr ⟨hle, hall⟩⟩
    rcases hmem with rfl | hmem
    · exact List.mem_cons_self
    · exact List.mem_cons_of_mem c hmem

/-- Without ties the scan's result is the one listed element below all others. -/
theorem firstLeast_eq_some_iff {cmp : α → α → ℚ} {key : α → L} (h : Follows cmp key) {l : List α}
    (hinj : ∀ a ∈ l, ∀ b ∈ l, key a = key b → a = b) (m : α) :
    firstLeast cmp l = some m ↔ m ∈ l ∧ ∀ x ∈ l, x = m ∨ cmp m x < 0 := by
  rcases firstLeast_spec h l with ⟨rfl, hn⟩ | ⟨n, hn, hs, hall⟩
  · simp [hn]
  · rw [hs, Option.some_inj]
    constructor
    · rintro rfl
      refine ⟨hn, fun x hx => ?_⟩
      rcases (hall x hx).eq_or_lt with he | hlt
      · exact Or.inl (hinj n hn x hx he).symm
      · exact Or.inr ((h.lt_iff n x).mpr hlt)
    · rintro ⟨hm, hleast⟩
      rcases hleast n hn with he | hlt
      · exact he
      · exact absurd ((h.lt_iff m n).mp hlt) (not_lt.mpr (hall m hm))

end RecordNode.Foundation
