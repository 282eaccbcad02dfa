import RecordNode.Encoding.Environment
import RecordNode.Foundation.Double

/-! # base58btc on its buffers

The codec as it runs: a buffer of bytes written in place, values that have to stay
signed 32-bit integers, quotients that are rounded to doubles and then truncated, and
text as UTF-16 code units. A value that does not fit and an index outside a buffer are
faults. No fault ever occurs, and both directions are the positional rebasing of the
digits, leading zeros kept. -/

namespace RecordNode.Base58

open Foundation

inductive Fault where
  | overflow
  | outOfBounds
  /-- A loop takes more turns than its model allows. -/
  | unfinished

def int32 (x : ℕ) : Except Fault ℕ := if x < 2 ^ 31 then .ok x else .error .overflow

/-- No difference here is negative. -/
def difference (x y : ℕ) : Except Fault ℕ := if y ≤ x then .ok (x - y) else .error .overflow

/-- `(x / y) | 0`. -/
def truncated (x y : ℕ) : Except Fault ℕ := int32 ⌊double ((x : ℚ) / y)⌋₊

def readByte (buffer : List ℕ) (index : ℕ) : Except Fault ℕ :=
  match buffer[index]? with
  | some byte => .ok byte
  | none => .error .outOfBounds

/-- A typed array keeps the low byte. -/
def writeByte (buffer : List ℕ) (index value : ℕ) : Except Fault (List ℕ) :=
  if index < buffer.length then .ok (buffer.set index (value % 256)) else .error .outOfBounds

def digitAt (d : ℕ) : Except Fault Char :=
  match alphabet[d]? with
  | some c => .ok c
  | none => .error .outOfBounds

/-! ## Encoding -/

/-- The turns of a pass that are left, from an index on. -/
def divideLoop : ℕ → List ℕ → ℕ → ℕ → Except Fault (List ℕ × ℕ)
  | 0, number, _, remainder => .ok (number, remainder)
  | turns + 1, number, index, remainder => do
    let accumulated ← int32 ((← int32 (remainder <<< 8)) ||| (← readByte number index))
    let quotient ← truncated accumulated chunkBase
    let number ← writeByte number index quotient
    let remainder ← difference accumulated (← int32 (quotient * chunkBase))
    divideLoop turns number (index + 1) remainder

def encodeLoop : ℕ → List ℕ → ℕ → List Char → Except Fault (List Char)
  | 0, number, start, digits => if start < number.length then .error .unfinished else .ok digits
  | fuel + 1, number, start, digits =>
    if start < number.length then do
      let (number, remainder) ← divideLoop (number.length - start) number start 0
      let start := start + ((number.drop start).takeWhile (· = 0)).length
      let low ← digitAt (remainder % 58)
      let middle ← digitAt ((← truncated remainder 58) % 58)
      let high ← digitAt (← truncated remainder 3364)
      encodeLoop fuel number start (digits ++ [low, middle, high])
    else .ok digits

def encodeBase58btc (bytes : Bytes) : Except Fault String := do
  let zeros := (bytes.takeWhile (· = 0)).length
  let number := (bytes.drop zeros).map UInt8.toNat
  let digits ← encodeLoop number.length number 0 []
  .ok (String.ofList (List.replicate zeros '1' ++ digits.reverse.dropWhile (· = '1')))

/-! ## Decoding -/

/-- `DIGIT_OF`, and `none` for a code outside the alphabet. -/
def digitOfCode (code : ℕ) : Option ℕ := if code < 128 then alphabet.findIdx? (·.toNat == code) else none

def chunkLoop : List ℕ → ℕ → Except Fault (Option ℕ)
  | [], value => .ok (some value)
  | code :: codes, value =>
    match digitOfCode code with
    | none => .ok none
    | some digit => do chunkLoop codes (← int32 (value * 58 + digit))

def multiplyLoop (multiplier : ℕ) : ℕ → List ℕ → ℕ → ℕ → Except Fault (List ℕ × ℕ)
  | 0, number, _, carry => .ok (number, carry)
  | turns + 1, number, index, carry => do
    let accumulated ← int32 ((← readByte number index) * multiplier + carry)
    let number ← writeByte number index (accumulated &&& 255)
    multiplyLoop multiplier turns number (index + 1) (accumulated >>> 8)

def carryLoop : ℕ → List ℕ → ℕ → ℕ → Except Fault (List ℕ × ℕ)
  | 0, number, length, carry => if 0 < carry then .error .unfinished else .ok (number, length)
  | fuel + 1, number, length, carry =>
    if 0 < carry then do
      let number ← writeByte number length (carry &&& 255)
      carryLoop fuel number (length + 1) (carry >>> 8)
    else .ok (number, length)

/-- The chunks of the text that is left, the next one of this width. -/
def decodeLoop : ℕ → ℕ → List ℕ → List ℕ → ℕ → Except Fault (Option (List ℕ × ℕ))
  | _, _, [], number, length => .ok (some (number, length))
  | 0, _, _ :: _, _, _ => .error .unfinished
  | fuel + 1, width, code :: codes, number, length => do
    match ← chunkLoop ((code :: codes).take width) 0 with
    | none => .ok none
    | some value =>
      let multiplier ← int32 (if width = 3 then chunkBase else 58 ^ width)
      let (number, carry) ← multiplyLoop multiplier length number 0 value
      let (number, length) ← carryLoop carry number length carry
      decodeLoop fuel 3 ((code :: codes).drop width) number length

/-- The bytes of the number, most significant first, behind the zeros. -/
def copyLoop : ℕ → List ℕ → List ℕ → ℕ → Except Fault (List ℕ)
  | 0, _, bytes, _ => .ok bytes
  | turns + 1, number, bytes, index => do
    let bytes ← writeByte bytes (bytes.length - 1 - index) (← readByte number index)
    copyLoop turns number bytes (index + 1)

/-- The size of the buffer for this many digits. -/
def bufferSize (digits : ℕ) : ℕ := ⌈double (digits * double 0.733)⌉₊ + 1

def chunkWidth (digits : ℕ) : ℕ := if digits % 3 = 0 then 3 else digits % 3

def decodeBase58btc (text : List ℕ) : Except Fault (Option Bytes) := do
  let zeros := (text.takeWhile (· = 49)).length
  let rest := text.drop zeros
  let number := List.replicate (bufferSize rest.length) 0
  match ← decodeLoop rest.length (chunkWidth rest.length) rest number 0 with
  | none => .ok none
  | some (number, length) =>
    let bytes ← copyLoop length number (List.replicate (zeros + length) 0) 0
    .ok (some (bytes.map fun byte => UInt8.ofNat byte))

/-- The UTF-16 code units of a text. -/
def charCodes (text : String) : List ℕ := text.toList.flatMap fun c =>
  if c.toNat < 0x10000 then [c.toNat]
  else [0xd800 + (c.toNat - 0x10000) / 0x400, 0xdc00 + (c.toNat - 0x10000) % 0x400]

/-! ## The positional definition -/

/-- The same number in another base, with the leading zeros it has. -/
def rebase (source target : ℕ) (l : List ℕ) : List ℕ :=
  List.replicate (l.takeWhile (· = 0)).length 0 ++ (Nat.digits target (bigEndian source l)).reverse

theorem takeWhile_append_dropZeros (l : List ℕ) :
    List.replicate (l.takeWhile (· = 0)).length 0 ++ dropZeros l = l := by
  have hz : l.takeWhile (· = 0) = List.replicate (l.takeWhile (· = 0)).length 0 := by
    apply List.eq_replicate_of_mem
    intro d hd
    simpa using List.mem_takeWhile_imp hd
  rw [← hz]
  exact List.takeWhile_append_dropWhile

/-- The leading zeros of a list whose rest has none. -/
theorem takeWhile_replicate_append (n : ℕ) {l : List ℕ} (h0 : ∀ h : l ≠ [], l.head h ≠ 0) :
    ((List.replicate n 0 ++ l).takeWhile (· = 0)).length = n ∧ dropZeros (List.replicate n 0 ++ l) = l := by
  have hstop : l.takeWhile (· = 0) = [] ∧ l.dropWhile (· = 0) = l := by
    cases l with
    | nil => exact ⟨rfl, rfl⟩
    | cons d l => simp [show d ≠ 0 from h0 (List.cons_ne_nil d l)]
  rw [dropZeros, List.takeWhile_append_of_pos (by simp), List.dropWhile_append_of_pos (by simp), hstop.1, hstop.2]
  simp

/-- The rest of a rebased list is the one spelling of the number without leading zeros. -/
theorem rebase_eq {source target : ℕ} (ht : 1 < target) {l m : List ℕ} (hm : ∀ d ∈ m, d < target)
    (hm0 : ∀ h : m ≠ [], m.head h ≠ 0) (hv : bigEndian target m = bigEndian source l) :
    rebase source target l = List.replicate (l.takeWhile (· = 0)).length 0 ++ m := by
  rw [rebase, ← hv, digits_bigEndian ht hm hm0, List.reverse_reverse]

theorem head_reverse_digits (base n : ℕ) (h : (Nat.digits base n).reverse ≠ []) :
    (Nat.digits base n).reverse.head h ≠ 0 := by
  rw [List.head_reverse]
  refine Nat.getLast_digit_ne_zero base fun hn => ?_
  simp [hn] at h

/-- Rebasing there and back changes nothing. -/
theorem rebase_rebase {source target : ℕ} (hs : 1 < source) {l : List ℕ}
    (hl : ∀ d ∈ l, d < source) : rebase target source (rebase source target l) = l := by
  have hhead := head_reverse_digits target (bigEndian source l)
  obtain ⟨hzeros, hrest⟩ := takeWhile_replicate_append (l.takeWhile (· = 0)).length hhead
  have hvalue : bigEndian source (dropZeros l) = bigEndian target (rebase source target l) := by
    rw [bigEndian_dropZeros, rebase, ← bigEndian_dropZeros target, hrest, bigEndian, bigEndian, List.reverse_reverse,
      Nat.ofDigits_digits]
  rw [rebase_eq hs (fun d hd => hl d (mem_of_mem_dropZeros hd)) (head_dropZeros_ne_zero l) hvalue]
  rw [rebase, hzeros]
  exact takeWhile_append_dropZeros l

/-! ## Turns of the loops -/

theorem ok_bind {α β : Type} (x : α) (f : α → Except Fault β) : (Except.ok x >>= f) = f x := rfl

theorem int32_ok {x : ℕ} (hx : x < 2 ^ 31) : int32 x = .ok x := if_pos hx

theorem truncated_ok {x y : ℕ} (hy : 0 < y) (hx : x < 2 ^ 31) (hxy : x * y < 2 ^ 53) : truncated x y = .ok (x / y) := by
  rw [truncated, floor_double_div hy hxy, int32_ok ((Nat.div_le_self x y).trans_lt hx)]

theorem readByte_append (before after : List ℕ) (byte : ℕ) :
    readByte (before ++ byte :: after) before.length = .ok byte := by
  rw [readByte, List.getElem?_append_right le_rfl, Nat.sub_self]
  rfl

theorem writeByte_append (before after : List ℕ) (byte : ℕ) {value : ℕ} (hv : value < 256) :
    writeByte (before ++ byte :: after) before.length value = .ok (before ++ value :: after) := by
  rw [writeByte, if_pos (by simp), List.set_append_right _ _ le_rfl, Nat.sub_self, List.set_cons_zero,
    Nat.mod_eq_of_lt hv]

theorem length_alphabet : alphabet.length = 58 := by decide

theorem getElem?_alphabet {d : ℕ} (hd : d < 58) : alphabet[d]? = some (digitChar d) := by
  rw [digitChar, List.getD_eq_getElem?_getD, List.getElem?_eq_getElem (length_alphabet.symm ▸ hd), Option.getD_some]

theorem digitAt_ok {d : ℕ} (hd : d < 58) : digitAt d = .ok (digitChar d) := by
  rw [digitAt, getElem?_alphabet hd]

/-- A pass over the rest of the buffer divides what it holds. -/
theorem divideLoop_eq (before number : List ℕ) (hn : ∀ b ∈ number, b < 256) (r : ℕ) (hr : r < chunkBase) :
    divideLoop number.length (before ++ number) before.length r =
      .ok (before ++ (divideChunk number r).1, (divideChunk number r).2) := by
  induction number generalizing before r with
  | nil => simp [divideLoop, divideChunk]
  | cons byte number ih =>
    have hbyte : byte < 256 := hn byte List.mem_cons_self
    have hshift : r <<< 8 = r * 256 := Nat.shiftLeft_eq r 8
    have hor : r <<< 8 ||| byte = r * 256 + byte := by
      rw [← Nat.shiftLeft_add_eq_or_of_lt hbyte, hshift]
    unfold chunkBase at hr
    have hq : (r * 256 + byte) / chunkBase < 256 := by
      apply Nat.div_lt_of_lt_mul
      unfold chunkBase
      omega
    have hle := Nat.div_mul_le_self (r * 256 + byte) chunkBase
    have hmod : r * 256 + byte - (r * 256 + byte) / chunkBase * chunkBase < chunkBase := by
      have := Nat.mod_lt (r * 256 + byte) (show chunkBase > 0 by norm_num [chunkBase])
      have := Nat.div_add_mod' (r * 256 + byte) chunkBase
      omega
    have htrunc : truncated (r * 256 + byte) chunkBase = .ok ((r * 256 + byte) / chunkBase) := by
      apply truncated_ok
      · norm_num [chunkBase]
      · omega
      · unfold chunkBase
        omega
    have hnext := ih (before ++ [(r * 256 + byte) / chunkBase]) (fun b hb => hn b (List.mem_cons_of_mem _ hb)) _ hmod
    simp only [List.length_append, List.length_singleton, List.append_assoc, List.singleton_append] at hnext
    rw [List.length_cons, divideLoop, int32_ok (by omega), ok_bind, readByte_append, ok_bind, hor, int32_ok (by omega),
      ok_bind, htrunc, ok_bind, writeByte_append before number byte hq, ok_bind, int32_ok (by omega), ok_bind,
      difference, if_pos hle, ok_bind, hnext, divideChunk, Nat.mod_eq_of_lt hq]

/-- The passes over the rest of the buffer write the digits of what it holds. -/
theorem encodeLoop_eq (fuel : ℕ) (before number : List ℕ) (hf : number.length ≤ fuel) (hn : ∀ b ∈ number, b < 256)
    (digits : List Char) : encodeLoop fuel (before ++ number) before.length digits =
      .ok (digits ++ (chunkDigits fuel number).map digitChar) := by
  induction fuel generalizing before number digits with
  | zero =>
    obtain rfl : number = [] := List.length_eq_zero_iff.mp (Nat.le_zero.mp hf)
    simp [encodeLoop, chunkDigits]
  | succ fuel ih =>
    cases number with
    | nil => simp [encodeLoop, chunkDigits]
    | cons byte number =>
      have hbyte : byte < 256 := hn byte List.mem_cons_self
      have hlt : before.length < (before ++ byte :: number).length := by simp
      have hleft : (before ++ byte :: number).length - before.length = (byte :: number).length := by simp
      obtain ⟨-, hr⟩ := divideChunk_value (byte :: number) hn 0 (by norm_num [chunkBase])
      obtain ⟨quotients, r, hpass⟩ : ∃ quotients r, divideChunk (byte :: number) 0 = (quotients, r) := ⟨_, _, rfl⟩
      rw [hpass] at hr
      have hchunk : r < 195112 := hr
      have hq : ∀ q ∈ quotients, q < 256 := by
        have := divideChunk_lt (byte :: number) 0
        rwa [hpass] at this
      have hlen : (dropZeros quotients).length ≤ fuel := by
        have hhead : quotients = 0 :: (divideChunk number byte).1 := by
          rw [← divideChunk_head byte hbyte number, hpass]
        have hlength := divideChunk_length number byte
        rw [hhead, dropZeros, List.dropWhile_cons_of_pos (by simp)]
        refine (List.dropWhile_sublist _).length_le.trans ?_
        rw [hlength]
        simpa using hf
      -- The zeros the start moves over join what lies before it.
      have hnext := ih (before ++ quotients.takeWhile (· = 0)) (dropZeros quotients) hlen
        (fun b hb => hq b (mem_of_mem_dropZeros hb))
        (digits ++ [digitChar (r % 58), digitChar (r / 58 % 58), digitChar (r / 3364)])
      rw [List.append_assoc, dropZeros, List.takeWhile_append_dropWhile, List.length_append] at hnext
      rw [encodeLoop, if_pos hlt, hleft, divideLoop_eq before (byte :: number) hn 0 (by norm_num [chunkBase]), hpass]
      simp only [ok_bind, List.drop_left]
      rw [digitAt_ok (by omega), ok_bind, truncated_ok (by norm_num) (by omega) (by omega), ok_bind,
        digitAt_ok (by omega), ok_bind, truncated_ok (by norm_num) (by omega) (by omega), ok_bind,
        digitAt_ok (by omega), ok_bind, hnext, chunkDigits, hpass]
      simp [dropZeros]

theorem dropWhile_map_digitChar (l : List ℕ) (hl : ∀ d ∈ l, d < 58) :
    (l.map digitChar).dropWhile (· = '1') = (dropZeros l).map digitChar := by
  obtain ⟨-, hdrop⟩ := takeWhile_spelling (l.takeWhile (· = 0)).length (dropZeros l)
    (fun d hd => hl d (mem_of_mem_dropZeros hd)) (head_dropZeros_ne_zero l)
  have hsplit := congrArg (List.map digitChar) (takeWhile_append_dropZeros l)
  rw [List.map_append, List.map_replicate] at hsplit
  rw [← hsplit]
  exact hdrop

theorem drop_takeWhile_length {α : Type} (p : α → Bool) (l : List α) :
    l.drop (l.takeWhile p).length = l.dropWhile p := by
  calc l.drop (l.takeWhile p).length = (l.takeWhile p ++ l.dropWhile p).drop (l.takeWhile p).length := by
        rw [List.takeWhile_append_dropWhile]
    _ = l.dropWhile p := List.drop_left

theorem encodeBase58btc_eq (bytes : Bytes) : encodeBase58btc bytes = .ok (encode bytes) := by
  have hnumber : (bytes.drop (bytes.takeWhile (· = 0)).length).map UInt8.toNat = numberOf bytes := by
    rw [numberOf, drop_takeWhile_length]
  have hloop := encodeLoop_eq (numberOf bytes).length [] (numberOf bytes) le_rfl (numberOf_lt bytes) []
  rw [List.nil_append, List.length_nil, List.nil_append] at hloop
  have hdigits := (chunkDigits_spec _ _ le_rfl (numberOf_lt bytes)).2
  rw [encodeBase58btc]
  simp only [hnumber, hloop, ok_bind, ← List.map_reverse]
  rw [dropWhile_map_digitChar _ fun d hd => hdigits d (List.mem_reverse.mp hd)]
  rfl

/-! ## The buffer holds the number -/

theorem bufferSize_fits (n : ℕ) : 58 ^ n ≤ 256 ^ bufferSize n := by
  rcases Nat.eq_zero_or_pos n with rfl | hn
  · simp [Nat.one_le_pow]
  have hn' : (0 : ℚ) < n := by exact_mod_cast hn
  have hlow := (abs_le.mp (double_error (show (0 : ℚ) < 0.733 by norm_num))).1
  have hconst : (0.7329 : ℚ) ≤ double 0.733 := by
    norm_num at hlow ⊢
    linarith
  have hpos : (0 : ℚ) < n * double 0.733 := mul_pos hn' (by linarith)
  have hround := (abs_le.mp (double_error hpos)).1
  have hceil := Nat.le_ceil (double (n * double 0.733))
  -- A digit takes less than 52/71 of a byte.
  have hsize : 52 * n ≤ 71 * bufferSize n := by
    have hprod : (n : ℚ) * 0.7329 ≤ n * double 0.733 := mul_le_mul_of_nonneg_left hconst hn'.le
    have hq : (52 * n : ℚ) ≤ 71 * (⌈double (n * double 0.733)⌉₊ + 1) := by
      norm_num at hround hprod ⊢
      linarith
    unfold bufferSize
    exact_mod_cast hq
  have hpow : (58 ^ n) ^ 71 ≤ (256 ^ bufferSize n) ^ 71 := by
    calc (58 ^ n) ^ 71 = (58 ^ 71) ^ n := by rw [← pow_mul, ← pow_mul, mul_comm]
      _ ≤ (256 ^ 52) ^ n := Nat.pow_le_pow_left (by norm_num) n
      _ = 256 ^ (52 * n) := by rw [← pow_mul]
      _ ≤ 256 ^ (71 * bufferSize n) := Nat.pow_le_pow_right (by norm_num) hsize
      _ = (256 ^ bufferSize n) ^ 71 := by rw [← pow_mul, mul_comm]
  exact (Nat.pow_le_pow_iff_left (by norm_num)).mp hpow

theorem Trimmed.length_le {number : List ℕ} {n : ℕ} (ht : Trimmed number) (h : Nat.ofDigits 256 number < 256 ^ n) :
    number.length ≤ n := by
  have hdigits := Nat.digits_ofDigits 256 (by norm_num) number ht.lt ht.last
  rw [← hdigits]
  exact (Nat.digits_length_le_iff (by norm_num) _).mpr h

theorem digitOfCode_digitChar : ∀ d < 58, digitOfCode (digitChar d).toNat = some d := by decide

theorem digitOfCode_eq_some_iff {code d : ℕ} : digitOfCode code = some d ↔ d < 58 ∧ code = (digitChar d).toNat := by
  constructor
  · intro h
    obtain ⟨-, h⟩ := Option.ite_none_right_eq_some.mp h
    obtain ⟨hlt, hcode, -⟩ := List.findIdx?_eq_some_iff_getElem.mp h
    have hd : d < 58 := length_alphabet ▸ hlt
    have hchar := getElem?_alphabet hd
    rw [List.getElem?_eq_getElem hlt, Option.some_inj] at hchar
    rw [hchar] at hcode
    exact ⟨hd, (beq_iff_eq.mp hcode).symm⟩
  · rintro ⟨hd, rfl⟩
    exact digitOfCode_digitChar d hd

theorem digitOfCode_lt {code d : ℕ} (h : digitOfCode code = some d) : d < 58 := (digitOfCode_eq_some_iff.mp h).1

theorem chunkLoop_eq (codes : List ℕ) (value : ℕ) (hv : (value + 1) * 58 ^ codes.length ≤ 2 ^ 31) :
    chunkLoop codes value = .ok ((codes.mapM digitOfCode).map fun l => value * 58 ^ codes.length + bigEndian 58 l) := by
  induction codes generalizing value with
  | nil => simp [chunkLoop]
  | cons code codes ih =>
    rw [chunkLoop]
    cases hd : digitOfCode code with
    | none => simp [hd]
    | some d =>
      have hlt := digitOfCode_lt hd
      have hnext : (value * 58 + d + 1) * 58 ^ codes.length ≤ 2 ^ 31 := by
        refine le_trans ?_ hv
        rw [List.length_cons, pow_succ', ← mul_assoc]
        exact Nat.mul_le_mul_right _ (by omega)
      have hfits : value * 58 + d < 2 ^ 31 := by
        have := Nat.le_mul_of_pos_right (value * 58 + d + 1) (show 0 < 58 ^ codes.length by positivity)
        omega
      simp only [int32_ok hfits, ok_bind, ih _ hnext, List.mapM_cons, hd]
      cases hl : codes.mapM digitOfCode with
      | none => rfl
      | some l =>
        simp only [Option.pure_def, Option.bind_eq_bind, Option.bind_some, Option.map_some, bigEndian_cons,
          length_of_mapM hl, List.length_cons, pow_succ]
        congr 2
        ring

theorem and_255 (x : ℕ) : x &&& 255 = x % 256 := Nat.and_two_pow_sub_one_eq_mod x 8

theorem shiftRight_8 (x : ℕ) : x >>> 8 = x / 256 := Nat.shiftRight_eq_div_pow x 8

/-- The pass over the bytes of the number leaves a carry below the multiplier. -/
theorem multiplyLoop_eq {multiplier : ℕ} (hm : multiplier ≤ chunkBase) (before number after : List ℕ)
    (hn : ∀ b ∈ number, b < 256) (carry : ℕ) (hc : carry < multiplier) :
    ∃ low left, multiplyLoop multiplier number.length (before ++ (number ++ after)) before.length carry =
        .ok (before ++ (low ++ after), left) ∧
      low.length = number.length ∧ left < multiplier ∧ mulAdd multiplier number carry = low ++ carryBytes left left := by
  induction number generalizing before carry with
  | nil => exact ⟨[], carry, rfl, rfl, hc, rfl⟩
  | cons byte number ih =>
    have hbyte : byte < 256 := hn byte List.mem_cons_self
    unfold chunkBase at hm
    have hacc : byte * multiplier + carry < 256 * multiplier := by
      have : byte * multiplier ≤ 255 * multiplier := Nat.mul_le_mul_right _ (by omega)
      omega
    have hleft : (byte * multiplier + carry) / 256 < multiplier := Nat.div_lt_of_lt_mul hacc
    obtain ⟨low, left, hloop, hlen, hlt, hadd⟩ := ih (before ++ [(byte * multiplier + carry) % 256])
      (fun b hb => hn b (List.mem_cons_of_mem _ hb)) _ hleft
    simp only [List.length_append, List.length_singleton, List.append_assoc, List.singleton_append] at hloop
    refine ⟨(byte * multiplier + carry) % 256 :: low, left, ?_, by simp [hlen], hlt, ?_⟩
    · rw [List.length_cons, multiplyLoop, List.cons_append, readByte_append]
      simp only [ok_bind]
      rw [int32_ok (by omega)]
      simp only [ok_bind, and_255, shiftRight_8]
      rw [writeByte_append before _ byte (Nat.mod_lt _ (by norm_num))]
      simp only [ok_bind, hloop, List.cons_append]
    · rw [mulAdd, hadd, List.cons_append]

/-- The carry's bytes are written behind the number, while there is room. -/
theorem carryLoop_eq (fuel carry : ℕ) (hf : carry ≤ fuel) (before after : List ℕ)
    (hroom : (carryBytes fuel carry).length ≤ after.length) :
    carryLoop fuel (before ++ after) before.length carry =
      .ok (before ++ (carryBytes fuel carry ++ after.drop (carryBytes fuel carry).length),
        before.length + (carryBytes fuel carry).length) := by
  induction fuel generalizing carry before after with
  | zero =>
    obtain rfl : carry = 0 := Nat.le_zero.mp hf
    simp [carryLoop, carryBytes]
  | succ fuel ih =>
    rw [carryLoop]
    by_cases h0 : carry = 0
    · simp [h0, carryBytes]
    · have hbytes : carryBytes (fuel + 1) carry = carry % 256 :: carryBytes fuel (carry / 256) := by
        rw [carryBytes, if_neg h0]
      rw [hbytes, List.length_cons] at hroom
      cases after with
      | nil => simp at hroom
      | cons byte after =>
        have hnext := ih (carry / 256) (by omega) (before ++ [carry % 256]) after (by simpa using hroom)
        simp only [List.length_append, List.length_singleton, List.append_assoc, List.singleton_append] at hnext
        rw [if_pos (Nat.pos_of_ne_zero h0), and_255, writeByte_append _ _ _ (Nat.mod_lt _ (by norm_num)), hbytes]
        simp only [ok_bind, shiftRight_8, hnext]
        simp [Nat.add_assoc, Nat.add_comm 1]

theorem chunkWidth_le {n : ℕ} (hn : n ≠ 0) : 0 < chunkWidth n ∧ chunkWidth n ≤ 3 ∧ chunkWidth n ≤ n := by
  unfold chunkWidth
  split <;> omega

/-- Behind the first chunk only whole ones are left. -/
theorem chunkWidth_rest (n : ℕ) : chunkWidth (n - chunkWidth n) = 3 := by
  have hthird : (n - chunkWidth n) % 3 = 0 := by
    unfold chunkWidth
    split <;> omega
  rw [chunkWidth, if_pos hthird]

/-- A chunk: the number is multiplied up and the chunk added, in the buffer. -/
theorem chunk_eq {width value : ℕ} (hw : width ≤ 3) (number spare : List ℕ) (ht : Trimmed number)
    (hv : value < 58 ^ width)
    (hfit : Nat.ofDigits 256 number * 58 ^ width + value < 256 ^ (number.length + spare.length)) :
    ∃ buffer carry next rest, multiplyLoop (58 ^ width) number.length (number ++ spare) 0 value = .ok (buffer, carry) ∧
      carryLoop carry buffer number.length carry = .ok (next ++ rest, next.length) ∧
      next.length + rest.length = number.length + spare.length ∧ Trimmed next ∧
      Nat.ofDigits 256 next = Nat.ofDigits 256 number * 58 ^ width + value := by
  have hbase : 58 ^ width ≤ chunkBase := Nat.pow_le_pow_right (by norm_num) hw
  obtain ⟨low, left, hloop, hlen, -, hadd⟩ := multiplyLoop_eq hbase [] number spare ht.lt value hv
  obtain ⟨hvalue, htrim⟩ := mulAdd_spec (58 ^ width) (by positivity) number value ht
  rw [List.nil_append, List.length_nil, List.nil_append] at hloop
  have hroom := htrim.length_le (hvalue.trans_lt hfit)
  rw [hadd, List.length_append, hlen] at hroom
  have hcarry := carryLoop_eq left left le_rfl low spare (by omega)
  refine ⟨low ++ spare, left, mulAdd (58 ^ width) number value, spare.drop (carryBytes left left).length, hloop, ?_, ?_,
    htrim, hvalue⟩
  · rw [← hlen, hcarry, hadd, List.length_append, List.append_assoc]
  · rw [hadd, List.length_append, List.length_drop, hlen]
    omega

theorem mapM_bigEndian_lt {codes l : List ℕ} (h : codes.mapM digitOfCode = some l) : bigEndian 58 l < 58 ^ codes.length := by
  rw [← length_of_mapM h, bigEndian, ← List.length_reverse]
  refine Nat.ofDigits_lt_base_pow_length (by norm_num) fun d hd => ?_
  obtain ⟨code, -, hcode⟩ := mem_of_mapM h (List.mem_reverse.mp hd)
  exact digitOfCode_lt hcode

/-- The chunks of a text are read as one number, or one of its codes is outside the alphabet. -/
theorem decodeLoop_eq (fuel width : ℕ) (codes number spare : List ℕ) (hf : codes.length ≤ fuel)
    (hw : codes ≠ [] → width = chunkWidth codes.length) (ht : Trimmed number)
    (hfit : (Nat.ofDigits 256 number + 1) * 58 ^ codes.length ≤ 256 ^ (number.length + spare.length)) :
    match codes.mapM digitOfCode with
    | none => decodeLoop fuel width codes (number ++ spare) number.length = .ok none
    | some l => ∃ result rest,
      decodeLoop fuel width codes (number ++ spare) number.length = .ok (some (result ++ rest, result.length)) ∧
        Trimmed result ∧
        Nat.ofDigits 256 result = Nat.ofDigits 256 number * 58 ^ codes.length + bigEndian 58 l := by
  induction fuel generalizing width codes number spare with
  | zero =>
    obtain rfl : codes = [] := List.length_eq_zero_iff.mp (Nat.le_zero.mp hf)
    exact ⟨number, spare, rfl, ht, by simp⟩
  | succ fuel ih =>
    cases codes with
    | nil => exact ⟨number, spare, rfl, ht, by simp⟩
    | cons code codes =>
      obtain rfl := hw (List.cons_ne_nil _ _)
      obtain ⟨hpos, hthree, hle⟩ := chunkWidth_le (n := (code :: codes).length) (by simp)
      have hrest := chunkWidth_rest (code :: codes).length
      rw [decodeLoop]
      generalize hwidth : chunkWidth (code :: codes).length = width at *
      have htake : ((code :: codes).take width).length = width := by
        rw [List.length_take]
        omega
      have hlaterlen : ((code :: codes).drop width).length = (code :: codes).length - width := List.length_drop
      have hsplit := List.take_append_drop width (code :: codes)
      have hpow : 58 ^ (code :: codes).length = 58 ^ width * 58 ^ ((code :: codes).drop width).length := by
        rw [← pow_add, List.length_drop]
        congr 1
        omega
      have hmultiplier : (if width = 3 then chunkBase else 58 ^ width) = 58 ^ width := by
        split
        · rename_i h3
          rw [h3]
          rfl
        · rfl
      have hsmall : 58 ^ width ≤ 58 ^ 3 := Nat.pow_le_pow_right (by norm_num) hthree
      rw [chunkLoop_eq _ 0 (by rw [htake]; omega), ok_bind, htake, hmultiplier]
      generalize (code :: codes).drop width = later at *
      generalize (code :: codes).take width = chunk at *
      rw [← hsplit, List.mapM_append]
      cases hchunk : chunk.mapM digitOfCode with
      | none => rfl
      | some l =>
        have hvalue := mapM_bigEndian_lt hchunk
        rw [htake] at hvalue
        have hstep : (Nat.ofDigits 256 number * 58 ^ width + bigEndian 58 l + 1) * 58 ^ later.length ≤
            256 ^ (number.length + spare.length) := by
          refine le_trans ?_ hfit
          rw [hpow, ← mul_assoc]
          exact Nat.mul_le_mul_right _ (by linarith)
        have hlast : Nat.ofDigits 256 number * 58 ^ width + bigEndian 58 l < 256 ^ (number.length + spare.length) :=
          Nat.lt_of_succ_le ((Nat.le_mul_of_pos_right _ (by positivity)).trans hstep)
        obtain ⟨buffer, carry, next, rest, hmultiply, hcarry, hlength, htrim, hnext⟩ :=
          chunk_eq hthree number spare ht hvalue hlast
        have hlater := ih 3 later next rest (by omega) (fun _ => by rw [hlaterlen]; exact hrest.symm) htrim
          (by rw [hnext, hlength]; exact hstep)
        simp only [Option.map_some, Nat.zero_mul, Nat.zero_add, int32_ok (show 58 ^ width < 2 ^ 31 by omega), ok_bind,
          hmultiply, hcarry]
        cases hdigits : later.mapM digitOfCode with
        | none =>
          rw [hdigits] at hlater
          exact hlater
        | some m =>
          rw [hdigits] at hlater
          obtain ⟨result, tail, hrun, hresult, hend⟩ := hlater
          refine ⟨result, tail, hrun, hresult, ?_⟩
          rw [hend, hnext, bigEndian_append, length_of_mapM hdigits, List.length_append, htake, pow_add]
          ring

/-- The bytes behind the zeros are filled from the end. -/
theorem copyLoop_eq (zeros : ℕ) (done left rest : List ℕ) (hl : ∀ b ∈ left, b < 256) :
    copyLoop left.length (done ++ (left ++ rest)) (List.replicate (zeros + left.length) 0 ++ done.reverse) done.length =
      .ok (List.replicate zeros 0 ++ (done ++ left).reverse) := by
  induction left generalizing done with
  | nil => simp [copyLoop]
  | cons byte left ih =>
    have hbyte : byte < 256 := hl byte List.mem_cons_self
    have hnext := ih (done ++ [byte]) fun b hb => hl b (List.mem_cons_of_mem _ hb)
    simp only [List.append_assoc, List.singleton_append, List.length_append, List.length_singleton,
      List.reverse_append, List.reverse_singleton] at hnext
    have hbuffer : List.replicate (zeros + (left.length + 1)) 0 ++ done.reverse =
        List.replicate (zeros + left.length) 0 ++ 0 :: done.reverse := by
      rw [← Nat.add_assoc, List.replicate_succ', List.append_assoc, List.singleton_append]
    have hindex : (List.replicate (zeros + left.length) 0 ++ 0 :: done.reverse).length - 1 - done.length =
        (List.replicate (zeros + left.length) 0).length := by
      simp only [List.length_append, List.length_replicate, List.length_cons, List.length_reverse]
      omega
    rw [List.length_cons, copyLoop, hbuffer, hindex, List.cons_append, readByte_append]
    simp only [ok_bind]
    rw [writeByte_append _ _ _ hbyte]
    simp only [ok_bind, hnext, List.reverse_append]

/-- A text is read as the number its digits spell. -/
theorem decodeBase58btc_eq (text : List ℕ) : decodeBase58btc text =
    .ok ((text.mapM digitOfCode).map fun l => (rebase 58 256 l).map fun byte => UInt8.ofNat byte) := by
  have hones : text.takeWhile (· = 49) = List.replicate (text.takeWhile (· = 49)).length 49 := by
    apply List.eq_replicate_of_mem
    intro code hcode
    simpa using List.mem_takeWhile_imp hcode
  have hdrop := drop_takeWhile_length (· = 49) text
  have hsplit := List.takeWhile_append_dropWhile (p := (· = 49)) (l := text)
  rw [hones] at hsplit
  have hhead : ∀ h : text.dropWhile (· = 49) ≠ [], (text.dropWhile (· = 49)).head h ≠ 49 := by
    intro h
    simpa using List.head_dropWhile_not (fun code : ℕ => decide (code = 49)) h
  rw [decodeBase58btc]
  simp only [hdrop]
  generalize (text.takeWhile (· = 49)).length = zeros at *
  generalize text.dropWhile (· = 49) = rest at *
  have hloop := decodeLoop_eq rest.length (chunkWidth rest.length) rest [] (List.replicate (bufferSize rest.length) 0) le_rfl
    (fun _ => rfl) ⟨by simp, by simp⟩ (by simpa using bufferSize_fits rest.length)
  have hzeros : (List.replicate zeros 49).mapM digitOfCode = some (List.replicate zeros 0) :=
    mapM_eq_some_iff.mpr (by rw [List.map_replicate, List.map_replicate]; rfl)
  rw [← hsplit, List.mapM_append, hzeros]
  rw [List.nil_append, List.length_nil] at hloop
  cases hrest : rest.mapM digitOfCode with
  | none =>
    rw [hrest] at hloop
    rw [hloop]
    rfl
  | some l =>
    rw [hrest] at hloop
    obtain ⟨result, spare, hrun, htrim, hvalue⟩ := hloop
    have hcopy := copyLoop_eq zeros [] result spare htrim.lt
    rw [List.nil_append, List.reverse_nil, List.append_nil, List.length_nil, List.nil_append] at hcopy
    have hlead : ∀ h : l ≠ [], l.head h ≠ 0 := by
      have hmap := mapM_eq_some_iff.mp hrest
      rintro h h0
      cases l with
      | nil => exact h rfl
      | cons d l =>
        obtain rfl : d = 0 := h0
        cases rest with
        | nil => simp at hmap
        | cons code rest =>
          have hcode : digitOfCode code = some 0 := (List.cons.inj hmap).1
          exact hhead (List.cons_ne_nil _ _) (digitOfCode_eq_some_iff.mp hcode).2
    have hrebase : rebase 58 256 (List.replicate zeros 0 ++ l) = List.replicate zeros 0 ++ result.reverse := by
      obtain ⟨htake, hdropz⟩ := takeWhile_replicate_append zeros hlead
      have hnumber : bigEndian 256 result.reverse = bigEndian 58 (List.replicate zeros 0 ++ l) := by
        rw [← bigEndian_dropZeros 58, hdropz, bigEndian, List.reverse_reverse, hvalue]
        simp
      have hfirst : ∀ h : result.reverse ≠ [], result.reverse.head h ≠ 0 := by
        intro h
        rw [List.head_reverse]
        exact htrim.last _
      rw [rebase_eq (by norm_num) (fun d hd => htrim.lt d (List.mem_reverse.mp hd)) hfirst hnumber, htake]
    simp only [hrun, ok_bind, hcopy, Option.bind_eq_bind, Option.bind_some, Option.pure_def, Option.map_some, hrebase]

/-- Bytes are written as the digits of their number. -/
theorem encodeBase58btc_rebase (bytes : Bytes) : encodeBase58btc bytes =
    .ok (String.ofList ((rebase 256 58 (bytes.map UInt8.toNat)).map digitChar)) := by
  have hnumber : numberOf bytes = dropZeros (bytes.map UInt8.toNat) := by
    rw [numberOf, dropZeros, List.dropWhile_map]
    congr 2
    funext byte
    simp [← UInt8.toNat_inj]
  have hzeros : ((bytes.map UInt8.toNat).takeWhile (· = 0)).length = (bytes.takeWhile (· = 0)).length := by
    rw [List.takeWhile_map, List.length_map]
    congr 2
    funext byte
    simp [← UInt8.toNat_inj]
  have hvalue : bigEndian 58 (digitsOf bytes) = bigEndian 256 (bytes.map UInt8.toNat) := by
    rw [digitsOf_value, hnumber, bigEndian_dropZeros]
  rw [encodeBase58btc_eq, rebase_eq (by norm_num) (digitsOf_lt bytes) (head_dropZeros_ne_zero _) hvalue, hzeros]
  rw [List.map_append, List.map_replicate]
  rfl

theorem rebase_lt {source target : ℕ} (ht : 1 < target) (l : List ℕ) : ∀ d ∈ rebase source target l, d < target := by
  intro d hd
  rcases List.mem_append.mp hd with hd | hd
  · rw [List.eq_of_mem_replicate hd]
    omega
  · exact Nat.digits_lt_base ht (List.mem_reverse.mp hd)

theorem map_toNat_ofNat {l : List ℕ} (hl : ∀ d ∈ l, d < 256) : (l.map fun d => UInt8.ofNat d).map UInt8.toNat = l := by
  rw [List.map_map]
  refine (List.map_congr_left fun d hd => ?_).trans l.map_id
  simpa using Nat.mod_eq_of_lt (hl d hd)

theorem digitOf_eq_some_iff {c : Char} {d : ℕ} : digitOf c = some d ↔ d < 58 ∧ c = digitChar d := by
  constructor
  · intro h
    obtain ⟨hlt, hc, -⟩ := List.findIdx?_eq_some_iff_getElem.mp h
    have hd : d < 58 := length_alphabet ▸ hlt
    have hchar := getElem?_alphabet hd
    rw [List.getElem?_eq_getElem hlt, Option.some_inj] at hchar
    rw [hchar] at hc
    exact ⟨hd, (beq_iff_eq.mp hc).symm⟩
  · rintro ⟨hd, rfl⟩
    exact digitOf_digitChar d hd

theorem digitOfCode_toNat (c : Char) : digitOfCode c.toNat = digitOf c := by
  ext d
  rw [digitOfCode_eq_some_iff, digitOf_eq_some_iff, Char.toNat_inj]

theorem digitChar_lt : ∀ d < 58, (digitChar d).toNat < 128 := by decide

/-- The codes of one character are read as its digit; half of a pair is no digit. -/
theorem mapM_charCode (c : Char) :
    (if c.toNat < 0x10000 then [c.toNat]
      else [0xd800 + (c.toNat - 0x10000) / 0x400, 0xdc00 + (c.toNat - 0x10000) % 0x400]).mapM digitOfCode =
      (digitOf c).map fun d => [d] := by
  split
  · rw [← digitOfCode_toNat]
    cases hd : digitOfCode c.toNat <;> simp [hd]
  · have hnone : digitOf c = none := by
      refine Option.eq_none_iff_forall_ne_some.mpr fun d hd => ?_
      obtain ⟨hlt, rfl⟩ := digitOf_eq_some_iff.mp hd
      have := digitChar_lt d hlt
      omega
    rw [hnone, Option.map_none, mapM_eq_none_iff]
    exact ⟨_, List.mem_cons_self, if_neg (by omega)⟩

theorem mapM_charCodes (text : List Char) : (charCodes (String.ofList text)).mapM digitOfCode = text.mapM digitOf := by
  unfold charCodes
  rw [String.toList_ofList]
  induction text with
  | nil => rfl
  | cons c text ih =>
    rw [List.flatMap_cons, List.mapM_append, ih, mapM_charCode, List.mapM_cons]
    cases digitOf c <;> rfl

theorem mapM_digitOf {l : List ℕ} (hl : ∀ d ∈ l, d < 58) : (l.map digitChar).mapM digitOf = some l := by
  rw [mapM_eq_some_iff, List.map_map]
  exact List.map_congr_left fun d hd => digitOf_digitChar d (hl d hd)

theorem eq_map_digitChar {text : List Char} {l : List ℕ} (h : text.mapM digitOf = some l) : text = l.map digitChar := by
  have hmap := mapM_eq_some_iff.mp h
  induction text generalizing l with
  | nil => cases l <;> simp_all
  | cons c text ih =>
    cases l with
    | nil => simp at hmap
    | cons d l =>
      obtain ⟨hd, hrest⟩ := List.cons.inj hmap
      rw [List.map_cons, ← (digitOf_eq_some_iff.mp hd).2, ← ih (mapM_eq_some_iff.mpr hrest) hrest]

/-- The bytes a text is read as are written as that text. -/
theorem encode_of_mapM {text : List Char} {l : List ℕ} (h : text.mapM digitOf = some l) :
    encodeBase58btc ((rebase 58 256 l).map fun d => UInt8.ofNat d) = .ok (String.ofList text) := by
  have hl : ∀ d ∈ l, d < 58 := by
    intro d hd
    obtain ⟨c, -, hc⟩ := mem_of_mapM h hd
    exact (digitOf_eq_some_iff.mp hc).1
  rw [encodeBase58btc_rebase, map_toNat_ofNat (rebase_lt (by norm_num) l), rebase_rebase (by norm_num) hl,
    ← eq_map_digitChar h]

/-! ## The model above -/

theorem chunkValue_none {text : List Char} (h : ∃ c ∈ text, digitOf c = none) : chunkValue text = none := by
  have hfrom (value : ℕ) : text.foldlM (fun value c => (digitOf c).map (value * 58 + ·)) value = none := by
    induction text generalizing value with
    | nil => simp at h
    | cons c text ih =>
      rw [List.foldlM_cons]
      cases hc : digitOf c with
      | none => rfl
      | some d =>
        have hrest : ∃ c ∈ text, digitOf c = none := by
          obtain ⟨b, hb, hn⟩ := h
          rcases List.mem_cons.mp hb with rfl | hb
          · simp [hc] at hn
          · exact ⟨b, hb, hn⟩
        exact ih hrest _
  exact hfrom 0

theorem decodeChunks_none (fuel : ℕ) (text : List Char) (hf : text.length ≤ fuel) (h : ∃ c ∈ text, digitOf c = none)
    (number : List ℕ) : decodeChunks fuel text number = none := by
  induction fuel generalizing text number with
  | zero =>
    obtain rfl : text = [] := List.length_eq_zero_iff.mp (Nat.le_zero.mp hf)
    simp at h
  | succ fuel ih =>
    cases text with
    | nil => simp at h
    | cons c text =>
      rw [decodeChunks]
      generalize hw : (if (c :: text).length % 3 = 0 then 3 else (c :: text).length % 3) = width
      have hwidth : 0 < width := by
        split at hw <;> omega
      cases hv : chunkValue ((c :: text).take width) with
      | none => rfl
      | some value =>
        refine ih _ ?_ ?_ _
        · rw [List.length_drop]
          simp only [List.length_cons] at hf ⊢
          omega
        · obtain ⟨b, hb, hn⟩ := h
          rw [← List.take_append_drop width (c :: text), List.mem_append] at hb
          rcases hb with hb | hb
          · rw [chunkValue_none ⟨b, hb, hn⟩] at hv
            simp at hv
          · exact ⟨b, hb, hn⟩

/-- On its buffers the decoder computes what it computes on numbers. -/
theorem decodeBase58btc_charCodes (text : String) : decodeBase58btc (charCodes text) = .ok (decode text) := by
  rw [← String.ofList_toList (s := text), decodeBase58btc_eq, mapM_charCodes]
  cases hl : text.toList.mapM digitOf with
  | none =>
    obtain ⟨c, hc, hn⟩ := mapM_eq_none_iff.mp hl
    have hrest : c ∈ text.toList.dropWhile (· = '1') := by
      rw [← List.takeWhile_append_dropWhile (p := (· = '1')) (l := text.toList), List.mem_append] at hc
      refine hc.resolve_left fun hone => ?_
      obtain rfl : c = '1' := by simpa using List.mem_takeWhile_imp hone
      exact absurd hn (by decide)
    rw [decode, String.toList_ofList, decodeChunks_none _ _ le_rfl ⟨c, hrest, hn⟩]
    rfl
  | some l =>
    have hencode := encode_of_mapM hl
    rw [encodeBase58btc_eq] at hencode
    rw [← Except.ok.inj hencode, decode_encode]
    rfl

theorem mem_alphabet_iff {c : Char} : c ∈ alphabet ↔ digitOf c ≠ none := by
  rw [digitOf, Ne, List.findIdx?_eq_none_iff]
  constructor
  · intro hc h
    simpa using h c hc
  · intro h
    by_contra hc
    refine h fun b hb => beq_eq_false_iff_ne.mpr ?_
    rintro rfl
    exact hc hb

theorem mem_alphabet_codes_iff {code : ℕ} : code ∈ alphabet.map Char.toNat ↔ digitOfCode code ≠ none := by
  rw [List.mem_map]
  constructor
  · rintro ⟨c, hc, rfl⟩
    rw [digitOfCode_toNat]
    exact mem_alphabet_iff.mp hc
  · intro h
    obtain ⟨d, hd⟩ := Option.ne_none_iff_exists'.mp h
    obtain ⟨hlt, rfl⟩ := digitOfCode_eq_some_iff.mp hd
    refine ⟨digitChar d, mem_alphabet_iff.mpr ?_, rfl⟩
    simp [digitOf_digitChar d hlt]

/-- A text decodes to the bytes it is the spelling of. -/
theorem decode_eq_some_iff {text : String} {bytes : Bytes} : decode text = some bytes ↔ text = encode bytes := by
  constructor
  · intro h
    have hdecoded := decodeBase58btc_charCodes text
    rw [h, ← String.ofList_toList (s := text), decodeBase58btc_eq, mapM_charCodes] at hdecoded
    obtain ⟨l, hl, rfl⟩ := Option.map_eq_some_iff.mp (Except.ok.inj hdecoded)
    have hencode := encode_of_mapM hl
    rw [encodeBase58btc_eq, String.ofList_toList] at hencode
    exact (Except.ok.inj hencode).symm
  · rintro rfl
    exact decode_encode bytes

/-- The text of a protocol CID and no other is one. -/
theorem isProtocolCid_iff (text : String) :
    isProtocolCid text = true ↔ ∃ digest : Digest 64, text = formatProtocolCid digest := by
  constructor
  · intro h
    unfold isProtocolCid at h
    split at h
    · rename_i rest htext
      split at h
      · rename_i bytes hbytes
        simp only [Bool.and_eq_true, beq_iff_eq] at h
        have hdigest : (bytes.drop 4).length = 64 := by rw [List.length_drop, h.1]
        refine ⟨⟨bytes.drop 4, hdigest⟩, ?_⟩
        rw [formatProtocolCid, ← h.2, List.take_append_drop, ← decode_eq_some_iff.1 hbytes,
          ← String.ofList_toList (s := text), htext, String.ofList_cons]
        rfl
      · simp at h
    · simp at h
  · rintro ⟨digest, rfl⟩
    exact isProtocolCid_formatProtocolCid digest

/-- Both directions end without a fault, whatever they are given: no value leaves the signed 32-bit
integers and no byte is written outside its buffer. Decoding inverts encoding and encoding inverts
decoding, only a text with a character outside the alphabet has no bytes, both are the positional
rebasing, and the protocol CIDs are the spellings of the prefix with a digest. -/
theorem base58btc_codec :
    (∀ bytes, ∃ text, encodeBase58btc bytes = .ok text ∧ decodeBase58btc (charCodes text) = .ok (some bytes)) ∧
      (∀ text : String, (∀ c ∈ text.toList, c ∈ alphabet) →
        ∃ bytes, decodeBase58btc (charCodes text) = .ok (some bytes) ∧ encodeBase58btc bytes = .ok text) ∧
      (∀ codes, ∃ result, decodeBase58btc codes = .ok result ∧
        (result = none ↔ ∃ code ∈ codes, code ∉ alphabet.map Char.toNat)) ∧
      (∀ bytes, encodeBase58btc bytes =
        .ok (String.ofList ((rebase 256 58 (bytes.map UInt8.toNat)).map digitChar))) ∧
      (∀ digits : List ℕ, (∀ d ∈ digits, d < 58) →
        decodeBase58btc (charCodes (String.ofList (digits.map digitChar))) =
          .ok (some ((rebase 58 256 digits).map fun byte => UInt8.ofNat byte))) ∧
      (∀ text, decodeBase58btc (charCodes text) = .ok (decode text)) ∧
      ∀ text, isProtocolCid text = true ↔ ∃ (digest : Digest 64) (spelling : String),
        encodeBase58btc (cidPrefix ++ digest.bytes) = .ok spelling ∧ text = "z" ++ spelling := by
  refine ⟨fun bytes => ?_, fun text ht => ?_, fun codes => ?_, encodeBase58btc_rebase, fun digits hd => ?_,
    decodeBase58btc_charCodes, fun text => ?_⟩
  · refine ⟨encode bytes, encodeBase58btc_eq bytes, ?_⟩
    rw [decodeBase58btc_charCodes, decode_encode]
  · obtain ⟨l, hl⟩ : ∃ l, text.toList.mapM digitOf = some l := by
      refine Option.ne_none_iff_exists'.mp fun hnone => ?_
      obtain ⟨c, hc, hn⟩ := mapM_eq_none_iff.mp hnone
      exact mem_alphabet_iff.mp (ht c hc) hn
    refine ⟨_, ?_, (encode_of_mapM hl).trans (by rw [String.ofList_toList])⟩
    rw [← String.ofList_toList (s := text), decodeBase58btc_eq, mapM_charCodes, hl]
    rfl
  · refine ⟨_, decodeBase58btc_eq codes, ?_⟩
    rw [Option.map_eq_none_iff, mapM_eq_none_iff]
    simp only [mem_alphabet_codes_iff, ne_eq, not_not]
  · rw [decodeBase58btc_eq, mapM_charCodes, mapM_digitOf hd]
    rfl
  · rw [isProtocolCid_iff]
    refine exists_congr fun digest => ?_
    rw [encodeBase58btc_eq, formatProtocolCid]
    constructor
    · rintro rfl
      exact ⟨_, rfl, rfl⟩
    · rintro ⟨spelling, hs, rfl⟩
      rw [Except.ok.inj hs]

end RecordNode.Base58
