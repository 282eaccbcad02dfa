import Mathlib.Data.List.Basic
import Mathlib.Tactic.Linarith

/-! # Varints that need not be minimal

Seven bits a byte, the low ones first, with the high bit set on every byte but the
last. A reader that does not ask for the shortest spelling accepts a number with any
count of zero groups behind it. -/

namespace Varint

def read : List UInt8 → Option (ℕ × List UInt8)
  | [] => none
  | b :: rest =>
    if b.toNat < 128 then some (b.toNat, rest)
    else (read rest).map fun p => (b.toNat - 128 + 128 * p.1, p.2)

/-- A number below 128, with so many groups of zeros behind it. -/
def padded (n : ℕ) : ℕ → List UInt8
  | 0 => [UInt8.ofNat n]
  | pad + 1 => UInt8.ofNat (n + 128) :: padded 0 pad

theorem length_padded (n pad : ℕ) : (padded n pad).length = pad + 1 := by
  induction pad generalizing n with
  | zero => rfl
  | succ pad ih => rw [padded, List.length_cons, ih]

theorem read_padded {n : ℕ} (hn : n < 128) (pad : ℕ) (rest : List UInt8) :
    read (padded n pad ++ rest) = some (n, rest) := by
  induction pad generalizing n with
  | zero =>
    have hbyte : (UInt8.ofNat n).toNat = n := UInt8.toNat_ofNat_of_lt' (by norm_num [UInt8.size]; omega)
    simp [padded, read, hbyte, hn]
  | succ pad ih =>
    have hbyte : (UInt8.ofNat (n + 128)).toNat = n + 128 := UInt8.toNat_ofNat_of_lt' (by norm_num [UInt8.size]; omega)
    rw [padded, List.cons_append, read, hbyte, if_neg (by omega), ih (by norm_num)]
    simp

/-- The spellings of a number below 128 that the reader accepts. -/
theorem read_eq_some_iff {n : ℕ} (hn : n < 128) {bytes rest : List UInt8} :
    read bytes = some (n, rest) ↔ ∃ pad, bytes = padded n pad ++ rest := by
  constructor
  · intro h
    induction bytes generalizing n with
    | nil => simp [read] at h
    | cons b tail ih =>
      rw [read] at h
      split at h
      · obtain ⟨rfl, rfl⟩ := Prod.mk.inj (Option.some.inj h)
        exact ⟨0, by simp [padded]⟩
      · rename_i hb
        obtain ⟨⟨m, left⟩, hread, heq⟩ := Option.map_eq_some_iff.1 h
        obtain ⟨hvalue, rfl⟩ := Prod.mk.inj heq
        -- the value leaves no room for a group above the first
        obtain rfl : m = 0 := by
          dsimp only at hvalue
          omega
        obtain ⟨pad, rfl⟩ := ih (by norm_num) hread
        refine ⟨pad + 1, ?_⟩
        have hbyte : UInt8.ofNat (n + 128) = b := by
          apply UInt8.toNat_inj.1
          rw [UInt8.toNat_ofNat_of_lt' (by norm_num [UInt8.size]; omega)]
          dsimp only at hvalue
          omega
        rw [padded, hbyte, List.cons_append]
  · rintro ⟨pad, rfl⟩
    exact read_padded hn pad rest

end Varint
