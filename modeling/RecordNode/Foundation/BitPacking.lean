import Mathlib.Data.List.Basic
import Mathlib.Data.Nat.Bitwise
import Mathlib.Tactic.Ring

/-! # Packed bits

Numbers of a fixed width laid end to end, least significant bit first, and cut into
bytes with the last one filled up with zeros. Reading a field back needs its position
alone; past the end every bit is zero. -/

namespace RecordNode
namespace Foundation

/-- The number with these low bits. -/
def natOfBits (width : ℕ) (bit : ℕ → Bool) : ℕ :=
  (List.range width).foldl (fun value i => value ||| (bit i).toNat <<< i) 0

theorem testBit_natOfBits (width : ℕ) (bit : ℕ → Bool) (i : ℕ) :
    (natOfBits width bit).testBit i = (decide (i < width) && bit i) := by
  induction width with
  | zero => simp [natOfBits]
  | succ width ih =>
    have hstep : natOfBits (width + 1) bit = natOfBits width bit ||| (bit width).toNat <<< width := by
      rw [natOfBits, List.range_succ, List.foldl_append, List.foldl_cons, List.foldl_nil, natOfBits]
    rw [hstep, Nat.testBit_or, ih, Nat.testBit_shiftLeft]
    by_cases hlt : i < width
    · have hle : ¬ width ≤ i := by omega
      simp [hlt, hle, Nat.lt_succ_of_lt hlt]
    · by_cases heq : i = width
      · subst heq
        cases bit i <;> simp
      · have hgt : ¬ i < width + 1 := by omega
        have hsub : i - width ≠ 0 := by omega
        have hbit : (bit width).toNat.testBit (i - width) = false := by
          apply Nat.testBit_lt_two_pow
          have hone : (bit width).toNat ≤ 1 := Bool.toNat_le _
          have hpow : 1 < 2 ^ (i - width) := Nat.one_lt_two_pow hsub
          omega
        simp [hlt, hgt, hbit]

theorem natOfBits_lt (width : ℕ) (bit : ℕ → Bool) : natOfBits width bit < 2 ^ width := by
  apply Nat.lt_pow_two_of_testBit
  intro i hi
  rw [testBit_natOfBits]
  simp [Nat.not_lt.mpr hi]

theorem natOfBits_testBit {width n : ℕ} (h : n < 2 ^ width) {bit : ℕ → Bool} (hbit : ∀ i < width, bit i = n.testBit i) :
    natOfBits width bit = n := by
  apply Nat.eq_of_testBit_eq
  intro i
  rw [testBit_natOfBits]
  by_cases hi : i < width
  · simp [hi, hbit i hi]
  · have hlarge : n < 2 ^ i := lt_of_lt_of_le h (Nat.pow_le_pow_right (by omega) (by omega))
    simp [hi, Nat.testBit_lt_two_pow hlarge]

/-! ## Reading -/

def bitAt (body : List UInt8) (position : ℕ) : Bool := (body.getD (position / 8) 0).toNat.testBit (position % 8)

def readBits (body : List UInt8) (position width : ℕ) : ℕ := natOfBits width fun i => bitAt body (position + i)

theorem bitAt_append_right (l m : List UInt8) (k : ℕ) : bitAt (l ++ m) (8 * l.length + k) = bitAt m k := by
  have hdiv : (8 * l.length + k) / 8 = l.length + k / 8 := by omega
  have hmod : (8 * l.length + k) % 8 = k % 8 := by omega
  rw [bitAt, bitAt, hdiv, hmod, List.getD_append_right _ _ _ _ (by omega), Nat.add_sub_cancel_left]

theorem readBits_append_right (l m : List UInt8) (position width : ℕ) :
    readBits (l ++ m) (8 * l.length + position) width = readBits m position width := by
  unfold readBits
  congr 1
  funext i
  rw [Nat.add_assoc, bitAt_append_right]

/-! ## Packing -/

def bitsOf (width n : ℕ) : List Bool := (List.range width).map n.testBit

def packBits (bits : List Bool) : List UInt8 :=
  (List.range ((bits.length + 7) / 8)).map fun i => UInt8.ofNat (natOfBits 8 fun j => bits.getD (8 * i + j) false)

theorem packBits_length (bits : List Bool) : (packBits bits).length = (bits.length + 7) / 8 := by
  rw [packBits, List.length_map, List.length_range]

theorem bitAt_packBits (bits : List Bool) (rest : List UInt8) {k : ℕ} (hk : k < bits.length) :
    bitAt (packBits bits ++ rest) k = bits.getD k false := by
  have hbyte : k / 8 < (packBits bits).length := by
    rw [packBits_length]
    omega
  have hget : (packBits bits ++ rest).getD (k / 8) 0 =
      UInt8.ofNat (natOfBits 8 fun j => bits.getD (8 * (k / 8) + j) false) := by
    rw [List.getD_append _ _ _ _ hbyte, List.getD_eq_getElem _ _ hbyte]
    simp only [packBits, List.getElem_map, List.getElem_range]
  have hlt : natOfBits 8 (fun j => bits.getD (8 * (k / 8) + j) false) < 256 := natOfBits_lt 8 _
  have hmod : k % 8 < 8 := Nat.mod_lt _ (by omega)
  rw [bitAt, hget, UInt8.toNat_ofNat', Nat.mod_eq_of_lt hlt, testBit_natOfBits, Nat.div_add_mod]
  simp [hmod]

theorem length_flatMap_bitsOf (width : ℕ) (values : List ℕ) :
    (values.flatMap (bitsOf width)).length = width * values.length := by
  induction values with
  | nil => simp
  | cons n rest ih =>
    simp only [List.flatMap_cons, List.length_append, ih, bitsOf, List.length_map, List.length_range, List.length_cons]
    ring

theorem getD_flatMap_bitsOf {width : ℕ} (values : List ℕ) {i j : ℕ} (hi : i < values.length) (hj : j < width) :
    (values.flatMap (bitsOf width)).getD (width * i + j) false = (values.getD i 0).testBit j := by
  induction values generalizing i with
  | nil => simp at hi
  | cons n rest ih =>
    have hlength : (bitsOf width n).length = width := by simp [bitsOf]
    rw [List.flatMap_cons]
    cases i with
    | zero =>
      rw [Nat.mul_zero, Nat.zero_add, List.getD_append _ _ _ _ (by omega), List.getD_eq_getElem _ _ (by omega)]
      simp [bitsOf]
    | succ i =>
      have hpos : width * (i + 1) + j = (bitsOf width n).length + (width * i + j) := by
        rw [hlength, Nat.mul_add, Nat.mul_one]
        omega
      rw [hpos, List.getD_append_right _ _ _ _ (by omega), Nat.add_sub_cancel_left, List.getD_cons_succ]
      exact ih (by simpa using hi)

/-- A packed field reads back, whatever follows the bytes. -/
theorem readBits_packBits {width : ℕ} {values : List ℕ} (hlt : ∀ n ∈ values, n < 2 ^ width) (rest : List UInt8) {i : ℕ}
    (hi : i < values.length) :
    readBits (packBits (values.flatMap (bitsOf width)) ++ rest) (width * i) width = values.getD i 0 := by
  have hn : values.getD i 0 < 2 ^ width := by
    rw [List.getD_eq_getElem _ _ hi]
    exact hlt _ (List.getElem_mem hi)
  refine natOfBits_testBit hn fun j hj => ?_
  rw [bitAt_packBits, getD_flatMap_bitsOf values hi hj]
  rw [length_flatMap_bitsOf]
  calc width * i + j < width * i + width := by omega
    _ = width * (i + 1) := by ring
    _ ≤ width * values.length := Nat.mul_le_mul_left _ hi

end Foundation
end RecordNode
