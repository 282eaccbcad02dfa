import RecordNode.Foundation.Double
import RecordNode.Foundation.OrderedMap
import Mathlib.Algebra.BigOperators.Group.List.Basic
import Mathlib.Algebra.Order.BigOperators.Group.List
import Mathlib.Data.List.Perm.Subperm

/-! # Numbers and sums of an SQL engine

An integer of 64 bits stays one as long as a sum fits; a sum that does not is added
again in floating point, and what comes of it is an integer again only where a column
of integer affinity can hold it without loss. A sum over the rows of a table is that
of its parts, and counts by group add up to one count. -/

namespace RecordNode
namespace Foundation

/-- The nearest double of a number of either sign. -/
def nearestDouble (x : ℚ) : ℚ := if 0 < x then double x else -double (-x)

inductive SqlNumber where
  | integer (n : ℤ)
  | real (x : ℚ)
deriving DecidableEq

namespace SqlNumber

def value : SqlNumber → ℚ
  | integer n => n
  | real x => x

/-- Whether an integer fits 64 bits. -/
def Fits (n : ℤ) : Prop := -2 ^ 63 ≤ n ∧ n < 2 ^ 63

instance (n : ℤ) : Decidable (Fits n) := inferInstanceAs (Decidable (_ ∧ _))

def addReal (a b : SqlNumber) : SqlNumber :=
  .real (nearestDouble (nearestDouble a.value + nearestDouble b.value))

def add (a b : SqlNumber) : SqlNumber :=
  match a, b with
  | integer m, integer n => if Fits (m + n) then integer (m + n) else addReal a b
  | _, _ => addReal a b

def neg : SqlNumber → SqlNumber
  | integer n => integer (-n)
  | real x => real (-x)

/-- What a column of integer affinity stores. -/
def stored : SqlNumber → SqlNumber
  | integer n => integer n
  | real x => if x.den = 1 ∧ -2 ^ 63 < x.num ∧ x.num < 2 ^ 63 - 1 then integer x.num else real x

theorem add_integer {m n : ℤ} (h : Fits (m + n)) : (integer m).add (integer n) = integer (m + n) := if_pos h

theorem stored_natCast {n : ℕ} (h : n < 2 ^ 53) : stored (real n) = integer n := by
  have hnum : (n : ℚ).num = n := Rat.num_natCast n
  simp only [stored, Rat.den_natCast, hnum, true_and]
  rw [if_pos]
  omega

theorem value_stored (a : SqlNumber) : a.stored.value = a.value := by
  cases a with
  | integer n => rfl
  | real x =>
    simp only [stored]
    split
    case isTrue h => exact Rat.den_eq_one_iff x |>.mp h.1
    case isFalse => rfl

end SqlNumber

/-- From 2⁵³ on every double is even. -/
theorem exists_double_eq_two_mul {x : ℚ} (hx : 2 ^ 53 ≤ x) : ∃ n : ℤ, double x = 2 * n := by
  have hpos : 0 < x := lt_of_lt_of_le (by norm_num) hx
  have hlog : 53 ≤ Int.log 2 x := by
    rw [← Int.zpow_le_iff_le_log (by norm_num) hpos]
    exact_mod_cast hx
  obtain ⟨k, hk⟩ : ∃ k : ℕ, Int.log 2 x - 52 = k + 1 := ⟨(Int.log 2 x - 53).toNat, by omega⟩
  refine ⟨roundHalfEven (x / ulp x) * 2 ^ k, ?_⟩
  rw [double, ulp, hk, zpow_add₀ (by norm_num), zpow_natCast, zpow_one]
  push_cast
  ring

theorem nearestDouble_ge {x : ℚ} (hx : 0 ≤ x) : x / 2 ≤ nearestDouble x := by
  unfold nearestDouble
  split
  case isTrue h =>
    have herror := (abs_le.mp (double_error h)).1
    have hsmall : x / 2 ^ 53 ≤ x / 2 := div_le_div_of_nonneg_left hx (by norm_num) (by norm_num)
    linarith
  case isFalse h =>
    obtain rfl : x = 0 := le_antisymm (not_lt.mp h) hx
    simp [double, roundHalfEven]

/-- A sum of integers that does not fit comes out even. -/
theorem SqlNumber.exists_add_eq_two_mul {m n : ℤ} (hm : 0 ≤ m) (hn : 0 ≤ n) (h : 2 ^ 63 ≤ m + n) :
    ∃ k : ℤ, ((integer m).add (integer n)).value = 2 * k := by
  have hnot : ¬ Fits (m + n) := fun hf => absurd hf.2 (not_lt.mpr h)
  have hm' : (0 : ℚ) ≤ m := by exact_mod_cast hm
  have hn' : (0 : ℚ) ≤ n := by exact_mod_cast hn
  have hsum : (2 : ℚ) ^ 63 ≤ m + n := by exact_mod_cast h
  have hlow : (2 : ℚ) ^ 53 ≤ nearestDouble m + nearestDouble n := by
    have hdm := nearestDouble_ge hm'
    have hdn := nearestDouble_ge hn'
    have hpow : (2 : ℚ) ^ 53 ≤ 2 ^ 63 / 2 := by norm_num
    linarith
  have hvalue : ((integer m).add (integer n)).value = double (nearestDouble m + nearestDouble n) := by
    rw [add, if_neg hnot]
    exact if_pos (lt_of_lt_of_le (by norm_num) hlow)
  rw [hvalue]
  exact exists_double_eq_two_mul hlow

/-! ## Counts -/

section Counts
variable {α κ : Type*}

/-- A count is a sum of ones. -/
theorem sum_map_ite_eq_countP (p : α → Bool) (l : List α) :
    (l.map fun a => if p a then (1 : ℤ) else 0).sum = l.countP p := by
  induction l with
  | nil => rfl
  | cons a rest ih => cases h : p a <;> simp [h, ih, add_comm]

/-- Counts by group add up to the count over the groups. -/
theorem sum_map_countP [DecidableEq κ] (f : α → κ) {groups : List κ} (hn : groups.Nodup) (l : List α) :
    (groups.map fun k => ((l.countP fun a => f a = k : ℕ) : ℤ)).sum = l.countP fun a => f a ∈ groups := by
  induction groups with
  | nil => simp
  | cons k rest ih =>
    rw [List.map_cons, List.sum_cons, ih (List.nodup_cons.mp hn).2]
    have hk := (List.nodup_cons.mp hn).1
    clear ih hn
    induction l with
    | nil => rfl
    | cons a more ih =>
      rw [List.countP_cons, List.countP_cons, List.countP_cons]
      by_cases ha : f a = k
      · have hrest : f a ∉ rest := ha ▸ hk
        rw [if_pos (decide_eq_true ha), if_neg (by simpa using hrest), if_pos (by simp [ha])]
        omega
      · have hcons : decide (f a ∈ k :: rest) = decide (f a ∈ rest) := by simp [ha]
        rw [if_neg (by simpa using ha), hcons]
        omega

/-- A list with the elements of a set is as long as it only where none of them comes twice. -/
theorem length_eq_iff_nodup {l set : List α} (hs : set.Nodup) (h : ∀ a, a ∈ l ↔ a ∈ set) :
    l.length = set.length ↔ l.Nodup := by
  constructor
  · intro hlen
    have hsub : set.Subperm l := hs.subperm fun a ha => (h a).mpr ha
    exact (hsub.perm_of_length_le hlen.le).nodup_iff.mp hs
  · intro hl
    exact ((List.perm_ext_iff_of_nodup hl hs).mpr h).length_eq

end Counts

namespace OrderedMap

variable {κ ν M : Type*}

/-- The sum of a term over the rows. -/
def sumBy [AddCommMonoid M] (f : κ → ν → M) (m : OrderedMap κ ν) : M := (m.items.map fun p => f p.1 p.2).sum

section Monoid
variable [AddCommMonoid M] (f : κ → ν → M)

/-- The rows that go and the rows that stay make up the sum. -/
theorem sumBy_filterKeys (m : OrderedMap κ ν) (p : κ → Bool) :
    m.sumBy f = (m.filterKeys p).sumBy f + (m.filterKeys fun k => !p k).sumBy f := by
  simp only [sumBy, filterKeys]
  generalize m.items = items
  induction items with
  | nil => simp
  | cons q rest ih =>
    cases hp : p q.1 with
    | true => simp [hp, ih, add_assoc]
    | false => simp [hp, ih, add_left_comm]

theorem sumBy_mapValues (g : κ → ν → ν) (m : OrderedMap κ ν) :
    (m.mapValues g).sumBy f = m.sumBy fun k v => f k (g k v) := by
  simp [sumBy, mapValues, Function.comp_def]

variable [DecidableEq κ]

theorem sumBy_set {m : OrderedMap κ ν} {k : κ} (h : m.get k = none) (v : ν) :
    (m.set k v).sumBy f = m.sumBy f + f k v := by
  have hk : k ∉ m.keys := by
    rw [mem_keys_iff, h]
    simp
  change ((setItems k v m.items).map fun p => f p.1 p.2).sum = _
  rw [setItems_of_notMem k v m.items hk, List.map_append, List.sum_append]
  simp [sumBy]

/-- Terms that agree on the rows have the same sum. -/
theorem sumBy_congr {g : κ → ν → M} (m : OrderedMap κ ν) (h : ∀ k v, m.get k = some v → f k v = g k v) :
    m.sumBy f = m.sumBy g := by
  rw [sumBy, sumBy, List.map_congr_left]
  intro p hp
  exact h p.1 p.2 ((m.get_eq_some_iff p.1 p.2).mpr hp)

theorem sumBy_eq_zero {m : OrderedMap κ ν} (h : ∀ k v, m.get k = some v → f k v = 0) : m.sumBy f = 0 := by
  rw [sumBy_congr f m h]
  simp [sumBy]

end Monoid

theorem delete_eq_filterKeys [DecidableEq κ] (m : OrderedMap κ ν) (k : κ) :
    m.delete k = m.filterKeys fun x => !decide (x = k) := by
  simp only [delete, filterKeys, ne_eq, decide_not]

theorem sumBy_nonneg [DecidableEq κ] [AddCommMonoid M] [PartialOrder M] [IsOrderedAddMonoid M] {f : κ → ν → M}
    {m : OrderedMap κ ν} (h : ∀ k v, m.get k = some v → 0 ≤ f k v) : 0 ≤ m.sumBy f := by
  apply List.sum_nonneg
  intro x hx
  obtain ⟨p, hp, rfl⟩ := List.mem_map.mp hx
  exact h p.1 p.2 ((m.get_eq_some_iff p.1 p.2).mpr hp)

/-- A row for each number below a bound. -/
def tabulate (n : ℕ) (k : ℕ → κ) (v : ℕ → ν) (h : ∀ i < n, ∀ j < n, k i = k j → i = j) : OrderedMap κ ν :=
  ⟨(List.range n).map fun i => (k i, v i), by
    rw [List.map_map]
    exact List.nodup_range.map_on fun i hi j hj => h i (List.mem_range.mp hi) j (List.mem_range.mp hj)⟩

theorem get_tabulate [DecidableEq κ] {n i : ℕ} {k : ℕ → κ} (v : ℕ → ν) (h : ∀ i < n, ∀ j < n, k i = k j → i = j)
    (hi : i < n) : (tabulate n k v h).get (k i) = some (v i) :=
  (get_eq_some_iff _ _ _).mpr (List.mem_map.mpr ⟨i, List.mem_range.mpr hi, rfl⟩)

end OrderedMap

end Foundation
end RecordNode
