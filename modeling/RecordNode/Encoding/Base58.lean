import RecordNode.Encoding.Value
import Mathlib.Data.List.TakeWhile
import Mathlib.Data.Nat.Digits.Lemmas

/-! # base58btc

The codec of protocol-object CIDs, three digits a step as the source computes
it. Encoding divides the big-endian number by 58³ until nothing is left and
writes a `1` for every leading zero byte. The main result is that no two byte
strings share a spelling. -/

namespace RecordNode.Base58

def alphabet : List Char := "123456789ABCDEFGHJKLMNPQRSTUVWXYZabcdefghijkmnopqrstuvwxyz".toList

def chunkBase : ℕ := 58 ^ 3

def digitChar (d : ℕ) : Char := alphabet.getD d '1'

/-- One pass of long division by 58³: the quotient bytes and the remainder. -/
def divideChunk : List ℕ → ℕ → List ℕ × ℕ
  | [], remainder => ([], remainder)
  | byte :: number, remainder =>
    let accumulated := remainder * 256 + byte
    let quotient := accumulated / chunkBase
    let rest := divideChunk number (accumulated - quotient * chunkBase)
    (quotient % 256 :: rest.1, rest.2)

def dropZeros (l : List ℕ) : List ℕ := l.dropWhile (· = 0)

/-- Digits of a number, least significant first, padded to whole chunks. Each pass drops
at least the leading byte, so the number's length bounds the passes. -/
def chunkDigits : ℕ → List ℕ → List ℕ
  | 0, _ => []
  | _ + 1, [] => []
  | fuel + 1, byte :: number =>
    let pass := divideChunk (byte :: number) 0
    [pass.2 % 58, pass.2 / 58 % 58, pass.2 / 3364] ++ chunkDigits fuel (dropZeros pass.1)

def encode (bytes : Bytes) : String :=
  let zeros := (bytes.takeWhile (· = 0)).length
  let number := (bytes.dropWhile (· = 0)).map UInt8.toNat
  let digits := dropZeros (chunkDigits number.length number).reverse
  String.ofList (List.replicate zeros '1' ++ digits.map digitChar)

/-- The carry bytes left after a pass, least significant first. -/
def carryBytes : ℕ → ℕ → List ℕ
  | 0, _ => []
  | fuel + 1, carry => if carry = 0 then [] else carry % 256 :: carryBytes fuel (carry / 256)

/-- Multiply a little-endian number by a chunk's weight and add the chunk. -/
def mulAdd (multiplier : ℕ) : List ℕ → ℕ → List ℕ
  | [], carry => carryBytes carry carry
  | byte :: number, carry =>
    let accumulated := byte * multiplier + carry
    accumulated % 256 :: mulAdd multiplier number (accumulated / 256)

/-- The digit of a character, or `none` outside the alphabet. -/
def digitOf (c : Char) : Option ℕ := alphabet.findIdx? (· == c)

def chunkValue : List Char → Option ℕ :=
  List.foldlM (fun value c => (digitOf c).map (value * 58 + ·)) 0

def decodeChunks : ℕ → List Char → List ℕ → Option (List ℕ)
  | 0, _, number => some number
  | _ + 1, [], number => some number
  | fuel + 1, c :: text, number => do
    let width := if (c :: text).length % 3 = 0 then 3 else (c :: text).length % 3
    let value ← chunkValue ((c :: text).take width)
    decodeChunks fuel ((c :: text).drop width) (mulAdd (58 ^ width) number value)

def decode (text : String) : Option Bytes :=
  let zeros := (text.toList.takeWhile (· = '1')).length
  let rest := text.toList.dropWhile (· = '1')
  (decodeChunks rest.length rest []).map fun number =>
    List.replicate zeros 0 ++ (number.reverse.map fun x => UInt8.ofNat x)

/-! ## The number a digit list spells -/

/-- The number whose big-endian digits in a base are listed. -/
def bigEndian (base : ℕ) (l : List ℕ) : ℕ := Nat.ofDigits base l.reverse

@[simp] theorem bigEndian_nil (base : ℕ) : bigEndian base [] = 0 := rfl

theorem bigEndian_cons (base d : ℕ) (l : List ℕ) :
    bigEndian base (d :: l) = d * base ^ l.length + bigEndian base l := by
  rw [bigEndian, List.reverse_cons, Nat.ofDigits_append, List.length_reverse, Nat.ofDigits_singleton]
  rw [bigEndian]
  ring

theorem bigEndian_dropZeros (base : ℕ) (l : List ℕ) : bigEndian base (dropZeros l) = bigEndian base l := by
  induction l with
  | nil => rfl
  | cons d l ih =>
    by_cases hd : d = 0
    · rw [dropZeros, List.dropWhile_cons_of_pos (by simpa using hd), bigEndian_cons, hd]
      simpa [dropZeros] using ih
    · rw [dropZeros, List.dropWhile_cons_of_neg (by simpa using hd)]

theorem mem_of_mem_dropZeros {d : ℕ} {l : List ℕ} (h : d ∈ dropZeros l) : d ∈ l :=
  (List.dropWhile_sublist _).subset h

theorem head_dropZeros_ne_zero (l : List ℕ) (h : dropZeros l ≠ []) : (dropZeros l).head h ≠ 0 := by
  have := List.head_dropWhile_not (fun d : ℕ => decide (d = 0)) h
  simpa [dropZeros] using this

/-- A digit list without a leading zero is recovered from its number. -/
theorem digits_bigEndian {base : ℕ} (hbase : 1 < base) {l : List ℕ} (hl : ∀ d ∈ l, d < base)
    (hl0 : ∀ h : l ≠ [], l.head h ≠ 0) : Nat.digits base (bigEndian base l) = l.reverse := by
  apply Nat.digits_ofDigits base hbase
  · intro d hd
    exact hl d (List.mem_reverse.mp hd)
  · intro hne
    rw [List.getLast_reverse]
    exact hl0 _

theorem eq_of_bigEndian_eq {base : ℕ} (hbase : 1 < base) {l m : List ℕ}
    (hl : ∀ d ∈ l, d < base) (hm : ∀ d ∈ m, d < base) (hl0 : ∀ h : l ≠ [], l.head h ≠ 0)
    (hm0 : ∀ h : m ≠ [], m.head h ≠ 0) (h : bigEndian base l = bigEndian base m) : l = m := by
  apply List.reverse_injective
  rw [← digits_bigEndian hbase hl hl0, ← digits_bigEndian hbase hm hm0, h]

/-! ## Long division -/

theorem divideChunk_length (number : List ℕ) (r : ℕ) :
    (divideChunk number r).1.length = number.length := by
  induction number generalizing r with
  | nil => rfl
  | cons b number ih => simp [divideChunk, ih]

theorem divideChunk_lt (number : List ℕ) (r : ℕ) : ∀ q ∈ (divideChunk number r).1, q < 256 := by
  induction number generalizing r with
  | nil => simp [divideChunk]
  | cons b number ih =>
    intro q hq
    rcases List.mem_cons.mp hq with rfl | hq
    · exact Nat.mod_lt _ (by norm_num)
    · exact ih _ q hq

/-- The pass computes quotient and remainder of the number behind a running remainder. -/
theorem divideChunk_value (number : List ℕ) (hn : ∀ b ∈ number, b < 256) (r : ℕ) (hr : r < chunkBase) :
    r * 256 ^ number.length + bigEndian 256 number =
        bigEndian 256 (divideChunk number r).1 * chunkBase + (divideChunk number r).2 ∧
      (divideChunk number r).2 < chunkBase := by
  induction number generalizing r with
  | nil => simpa [divideChunk] using hr
  | cons b number ih =>
    have hb : b < 256 := hn b List.mem_cons_self
    have hq : (r * 256 + b) / chunkBase < 256 := by
      apply Nat.div_lt_of_lt_mul
      unfold chunkBase at *
      omega
    have hdiv := Nat.div_add_mod' (r * 256 + b) chunkBase
    have hrem : r * 256 + b - (r * 256 + b) / chunkBase * chunkBase = (r * 256 + b) % chunkBase := by
      omega
    have hmod : (r * 256 + b) % chunkBase < chunkBase := Nat.mod_lt _ (by norm_num [chunkBase])
    obtain ⟨hv, hlt⟩ := ih (fun c hc => hn c (List.mem_cons_of_mem b hc)) _ hmod
    simp only [divideChunk, hrem, Nat.mod_eq_of_lt hq, bigEndian_cons, divideChunk_length,
      List.length_cons]
    refine ⟨?_, hlt⟩
    calc r * 256 ^ (number.length + 1) + (b * 256 ^ number.length + bigEndian 256 number)
        = (r * 256 + b) * 256 ^ number.length + bigEndian 256 number := by ring
      _ = (r * 256 + b) / chunkBase * chunkBase * 256 ^ number.length +
          ((r * 256 + b) % chunkBase * 256 ^ number.length + bigEndian 256 number) := by
        conv_lhs => rw [← hdiv]
        ring
      _ = _ := by rw [hv]; ring

theorem divideChunk_head (b : ℕ) (hb : b < 256) (number : List ℕ) :
    (divideChunk (b :: number) 0).1 = 0 :: (divideChunk number b).1 := by
  have h0 : b / chunkBase = 0 := Nat.div_eq_of_lt (by unfold chunkBase; omega)
  simp [divideChunk, h0]

theorem chunk_value (r : ℕ) : r % 58 + 58 * (r / 58 % 58 + 58 * (r / 3364)) = r := by omega

theorem chunkDigits_spec (fuel : ℕ) (number : List ℕ) (hf : number.length ≤ fuel)
    (hn : ∀ b ∈ number, b < 256) :
    Nat.ofDigits 58 (chunkDigits fuel number) = bigEndian 256 number ∧
      ∀ d ∈ chunkDigits fuel number, d < 58 := by
  induction fuel generalizing number with
  | zero =>
    have : number = [] := List.length_eq_zero_iff.mp (Nat.le_zero.mp hf)
    subst this
    simp [chunkDigits]
  | succ fuel ih =>
    cases number with
    | nil => simp [chunkDigits]
    | cons b number =>
      have hb : b < 256 := hn b List.mem_cons_self
      obtain ⟨hv, hlt⟩ := divideChunk_value (b :: number) hn 0 (by norm_num [chunkBase])
      have hhead := divideChunk_head b hb number
      have hlen : (dropZeros (divideChunk (b :: number) 0).1).length ≤ fuel := by
        have hs : (dropZeros (divideChunk number b).1).length ≤ (divideChunk number b).1.length :=
          (List.dropWhile_sublist _).length_le
        rw [hhead, dropZeros, List.dropWhile_cons_of_pos (by simp)]
        rw [divideChunk_length] at hs
        simp only [List.length_cons] at hf
        exact hs.trans (by omega)
      obtain ⟨hval, hdig⟩ := ih (dropZeros (divideChunk (b :: number) 0).1) hlen
        (fun q hq => divideChunk_lt _ _ q (mem_of_mem_dropZeros hq))
      rw [bigEndian_dropZeros] at hval
      set r := (divideChunk (b :: number) 0).2 with hrdef
      constructor
      · rw [Nat.zero_mul, Nat.zero_add] at hv
        rw [chunkDigits, ← hrdef, Nat.ofDigits_append, hval, hv]
        simp only [Nat.ofDigits_cons, Nat.ofDigits_nil, List.length_cons, List.length_nil, chunkBase]
        have := chunk_value r
        omega
      · intro d hd
        rw [chunkDigits, ← hrdef, List.mem_append] at hd
        rcases hd with hd | hd
        · unfold chunkBase at hlt
          simp only [List.mem_cons, List.not_mem_nil, or_false] at hd
          omega
        · exact hdig d hd

/-! ## No two byte strings share a spelling -/

theorem idxOf_digitChar : ∀ d < 58, alphabet.idxOf (digitChar d) = d := by decide

theorem map_idxOf_digitChar (l : List ℕ) (hl : ∀ d ∈ l, d < 58) :
    (l.map digitChar).map alphabet.idxOf = l := by
  rw [List.map_map]
  exact (List.map_congr_left fun d hd => idxOf_digitChar d (hl d hd)).trans l.map_id

/-- The number part of the bytes, and the digits written for it. -/
def numberOf (bytes : Bytes) : List ℕ := (bytes.dropWhile (· = 0)).map UInt8.toNat

def digitsOf (bytes : Bytes) : List ℕ :=
  dropZeros (chunkDigits (numberOf bytes).length (numberOf bytes)).reverse

theorem numberOf_lt (bytes : Bytes) : ∀ b ∈ numberOf bytes, b < 256 := by
  intro b hb
  obtain ⟨x, -, rfl⟩ := List.mem_map.mp hb
  exact x.toNat_lt

theorem numberOf_head (bytes : Bytes) (h : numberOf bytes ≠ []) : (numberOf bytes).head h ≠ 0 := by
  have hne : bytes.dropWhile (· = 0) ≠ [] := by simpa [numberOf] using h
  have h0 := List.head_dropWhile_not (fun b : UInt8 => decide (b = 0)) hne
  have hhead : (numberOf bytes).head h = ((bytes.dropWhile (· = 0)).head hne).toNat := by
    simp only [numberOf, List.head_map]
  rw [hhead]
  intro hz
  have hb : (bytes.dropWhile (· = 0)).head hne = 0 := UInt8.toNat_inj.mp (by simpa using hz)
  simp [hb] at h0

theorem digitsOf_lt (bytes : Bytes) : ∀ d ∈ digitsOf bytes, d < 58 := by
  intro d hd
  exact (chunkDigits_spec _ _ le_rfl (numberOf_lt bytes)).2 d
    (List.mem_reverse.mp (mem_of_mem_dropZeros hd))

theorem digitsOf_value (bytes : Bytes) : bigEndian 58 (digitsOf bytes) = bigEndian 256 (numberOf bytes) := by
  rw [digitsOf, bigEndian_dropZeros, bigEndian, List.reverse_reverse]
  exact (chunkDigits_spec _ _ le_rfl (numberOf_lt bytes)).1

theorem numberOf_eq_of_digitsOf_eq {b c : Bytes} (h : digitsOf b = digitsOf c) :
    numberOf b = numberOf c := by
  apply eq_of_bigEndian_eq (by norm_num) (numberOf_lt b) (numberOf_lt c) (numberOf_head b)
    (numberOf_head c)
  rw [← digitsOf_value, ← digitsOf_value, h]

theorem bytes_eq_replicate_append (bytes : Bytes) :
    bytes = List.replicate (bytes.takeWhile (· = 0)).length 0 ++ bytes.dropWhile (· = 0) := by
  have hz : bytes.takeWhile (· = 0) = List.replicate (bytes.takeWhile (· = 0)).length 0 := by
    apply List.eq_replicate_of_mem
    intro b hb
    simpa using List.mem_takeWhile_imp hb
  rw [← hz]
  exact (List.takeWhile_append_dropWhile).symm

/-- The spelling starts its number part with a character other than the zero digit. -/
theorem takeWhile_spelling (n : ℕ) (l : List ℕ) (hl : ∀ d ∈ l, d < 58)
    (h0 : ∀ h : l ≠ [], l.head h ≠ 0) :
    ((List.replicate n '1' ++ l.map digitChar).takeWhile (· = '1')).length = n ∧
      (List.replicate n '1' ++ l.map digitChar).dropWhile (· = '1') = l.map digitChar := by
  have hstop : ∀ m : List ℕ, m = l → (m.map digitChar).takeWhile (· = '1') = [] ∧
      (m.map digitChar).dropWhile (· = '1') = m.map digitChar := by
    rintro m rfl
    cases m with
    | nil => simp
    | cons d rest =>
      have hd : digitChar d ≠ '1' := by
        intro he
        have hi := idxOf_digitChar d (hl d List.mem_cons_self)
        rw [he] at hi
        exact h0 (by simp) hi.symm
      simp [hd]
  obtain ⟨ht, hd⟩ := hstop l rfl
  rw [List.takeWhile_append_of_pos (by simp), List.dropWhile_append_of_pos (by simp), ht, hd]
  simp

theorem encode_injective : Function.Injective encode := by
  intro b c h
  have hlist := String.ofList_injective h
  change List.replicate _ '1' ++ (digitsOf b).map digitChar =
    List.replicate _ '1' ++ (digitsOf c).map digitChar at hlist
  obtain ⟨hbz, hbd⟩ := takeWhile_spelling (b.takeWhile (· = 0)).length (digitsOf b) (digitsOf_lt b)
    (head_dropZeros_ne_zero _)
  obtain ⟨hcz, hcd⟩ := takeWhile_spelling (c.takeWhile (· = 0)).length (digitsOf c) (digitsOf_lt c)
    (head_dropZeros_ne_zero _)
  rw [hlist] at hbz hbd
  have hz : (b.takeWhile (· = 0)).length = (c.takeWhile (· = 0)).length := hbz.symm.trans hcz
  have hdig : digitsOf b = digitsOf c := by
    rw [← map_idxOf_digitChar _ (digitsOf_lt b), ← map_idxOf_digitChar _ (digitsOf_lt c)]
    rw [hbd.symm.trans hcd]
  have hnum : b.dropWhile (· = 0) = c.dropWhile (· = 0) :=
    List.map_injective_iff.mpr (fun x y => UInt8.toNat_inj.mp) (numberOf_eq_of_digitsOf_eq hdig)
  rw [bytes_eq_replicate_append b, bytes_eq_replicate_append c, hz, hnum]

/-! ## Decoding inverts encoding -/

/-- Little-endian bytes without a leading zero byte at the most significant end. -/
structure Trimmed (number : List ℕ) : Prop where
  lt : ∀ b ∈ number, b < 256
  last : ∀ h : number ≠ [], number.getLast h ≠ 0

theorem Trimmed.cons {d : ℕ} {number : List ℕ} (hd : d < 256) (ht : Trimmed number)
    (h0 : number = [] → d ≠ 0) : Trimmed (d :: number) where
  lt b hb := by
    rcases List.mem_cons.mp hb with rfl | hb
    · exact hd
    · exact ht.lt b hb
  last h := by
    cases number with
    | nil => simpa using h0 rfl
    | cons c rest =>
      rw [List.getLast_cons (List.cons_ne_nil c rest)]
      exact ht.last _

theorem Trimmed.tail {d : ℕ} {number : List ℕ} (ht : Trimmed (d :: number)) : Trimmed number where
  lt b hb := ht.lt b (List.mem_cons_of_mem d hb)
  last h := by
    have := ht.last (List.cons_ne_nil d number)
    rwa [List.getLast_cons h] at this

theorem Trimmed.eq_nil {number : List ℕ} (ht : Trimmed number) (h : Nat.ofDigits 256 number = 0) :
    number = [] := by
  by_contra hne
  exact ht.last hne (Nat.digits_zero_of_eq_zero (b := 256) (by norm_num) h _ (List.getLast_mem hne))

theorem carryBytes_spec (fuel carry : ℕ) (hf : carry ≤ fuel) :
    Nat.ofDigits 256 (carryBytes fuel carry) = carry ∧ Trimmed (carryBytes fuel carry) := by
  induction fuel generalizing carry with
  | zero =>
    obtain rfl : carry = 0 := Nat.le_zero.mp hf
    exact ⟨rfl, by simp [carryBytes], by simp [carryBytes]⟩
  | succ fuel ih =>
    rw [carryBytes]
    split
    case isTrue h0 => exact ⟨h0 ▸ rfl, by simp, by simp⟩
    case isFalse h0 =>
      obtain ⟨hv, ht⟩ := ih (carry / 256) (by omega)
      refine ⟨?_, ht.cons (Nat.mod_lt _ (by norm_num)) fun hnil => ?_⟩
      · rw [Nat.ofDigits_cons, hv]
        omega
      · rw [hnil, Nat.ofDigits_nil] at hv
        omega

/-- A pass multiplies the number and adds the carry. -/
theorem mulAdd_spec (multiplier : ℕ) (hm : 0 < multiplier) (number : List ℕ) (carry : ℕ) (ht : Trimmed number) :
    Nat.ofDigits 256 (mulAdd multiplier number carry) = Nat.ofDigits 256 number * multiplier + carry ∧
      Trimmed (mulAdd multiplier number carry) := by
  induction number generalizing carry with
  | nil =>
    rw [mulAdd, Nat.ofDigits_nil, Nat.zero_mul, Nat.zero_add]
    exact carryBytes_spec carry carry le_rfl
  | cons b number ih =>
    obtain ⟨hv, hk⟩ := ih ((b * multiplier + carry) / 256) ht.tail
    rw [mulAdd]
    refine ⟨?_, hk.cons (Nat.mod_lt _ (by norm_num)) fun hnil => ?_⟩
    · have hdiv := Nat.mod_add_div (b * multiplier + carry) 256
      rw [Nat.ofDigits_cons, hv, Nat.ofDigits_cons]
      generalize Nat.ofDigits 256 number = n at *
      nlinarith
    · -- Nothing was left to carry, so the whole number was this one nonzero byte.
      rw [hnil, Nat.ofDigits_nil] at hv
      have hzero : Nat.ofDigits 256 number * multiplier = 0 := by omega
      have hnumber := ht.tail.eq_nil ((Nat.mul_eq_zero.mp hzero).resolve_right hm.ne')
      subst hnumber
      have hb : b ≠ 0 := by simpa using ht.last (List.cons_ne_nil b [])
      have := Nat.mul_pos (Nat.pos_of_ne_zero hb) hm
      omega

theorem digitOf_digitChar : ∀ d < 58, digitOf (digitChar d) = some d := by decide

theorem bigEndian_append (base : ℕ) (l m : List ℕ) :
    bigEndian base (l ++ m) = bigEndian base l * base ^ m.length + bigEndian base m := by
  rw [bigEndian, List.reverse_append, Nat.ofDigits_append, List.length_reverse, bigEndian, bigEndian]
  ring

theorem chunkValue_spec (l : List ℕ) (hl : ∀ d ∈ l, d < 58) :
    chunkValue (l.map digitChar) = some (bigEndian 58 l) := by
  have hfrom (v : ℕ) : (l.map digitChar).foldlM (fun value c => (digitOf c).map (value * 58 + ·)) v =
      some (v * 58 ^ l.length + bigEndian 58 l) := by
    induction l generalizing v with
    | nil => simp
    | cons d rest ih =>
      rw [List.map_cons, List.foldlM_cons, digitOf_digitChar d (hl d List.mem_cons_self)]
      simp only [Option.map_some, Option.bind_eq_bind, Option.bind_some,
        ih (fun x hx => hl x (List.mem_cons_of_mem d hx)), bigEndian_cons, List.length_cons]
      congr 1
      ring
  rw [chunkValue, hfrom 0, Nat.zero_mul, Nat.zero_add]

/-- Whatever the chunks' widths, the passes read the digits as one number. -/
theorem decodeChunks_spec (fuel : ℕ) (l : List ℕ) (hf : l.length ≤ fuel) (hl : ∀ d ∈ l, d < 58)
    (number : List ℕ) (ht : Trimmed number) :
    ∃ result, decodeChunks fuel (l.map digitChar) number = some result ∧ Trimmed result ∧
      Nat.ofDigits 256 result = Nat.ofDigits 256 number * 58 ^ l.length + bigEndian 58 l := by
  induction fuel generalizing l number with
  | zero =>
    obtain rfl : l = [] := List.length_eq_zero_iff.mp (Nat.le_zero.mp hf)
    exact ⟨number, rfl, ht, by simp⟩
  | succ fuel ih =>
    cases l with
    | nil => exact ⟨number, rfl, ht, by simp⟩
    | cons d rest =>
      generalize hw : (if (digitChar d :: rest.map digitChar).length % 3 = 0 then 3
        else (digitChar d :: rest.map digitChar).length % 3) = width
      have hwidth : 0 < width ∧ width ≤ (d :: rest).length := by
        simp only [List.length_cons, List.length_map] at hw ⊢
        split at hw <;> omega
      have htake : (digitChar d :: rest.map digitChar).take width = ((d :: rest).take width).map digitChar := by
        rw [List.map_take, List.map_cons]
      have hdrop : (digitChar d :: rest.map digitChar).drop width = ((d :: rest).drop width).map digitChar := by
        rw [List.map_drop, List.map_cons]
      have hlen : ((d :: rest).take width).length = width := by
        rw [List.length_take]
        omega
      obtain ⟨hv, hk⟩ := mulAdd_spec (58 ^ width) (by positivity) number
        (bigEndian 58 ((d :: rest).take width)) ht
      obtain ⟨result, hres, hkr, hvr⟩ := ih ((d :: rest).drop width)
        (by rw [List.length_drop]; simp only [List.length_cons] at hf hwidth ⊢; omega)
        (fun x hx => hl x (List.mem_of_mem_drop hx)) _ hk
      refine ⟨result, ?_, hkr, ?_⟩
      · rw [List.map_cons, decodeChunks]
        simp only [hw, htake, hdrop, chunkValue_spec _ fun x hx => hl x (List.mem_of_mem_take hx),
          Option.bind_eq_bind, Option.bind_some, hres]
      · have hsplit := bigEndian_append 58 ((d :: rest).take width) ((d :: rest).drop width)
        rw [List.take_append_drop] at hsplit
        have hpow : 58 ^ (d :: rest).length = 58 ^ width * 58 ^ ((d :: rest).drop width).length := by
          rw [← pow_add, List.length_drop]
          congr 1
          omega
        rw [hvr, hv, hsplit, hpow]
        ring

theorem decode_encode (bytes : Bytes) : decode (encode bytes) = some bytes := by
  obtain ⟨hz, hd⟩ := takeWhile_spelling (bytes.takeWhile (· = 0)).length (digitsOf bytes)
    (digitsOf_lt bytes) (head_dropZeros_ne_zero _)
  have htext : (encode bytes).toList =
      List.replicate (bytes.takeWhile (· = 0)).length '1' ++ (digitsOf bytes).map digitChar :=
    String.toList_ofList
  obtain ⟨result, hres, ht, hv⟩ := decodeChunks_spec (digitsOf bytes).length (digitsOf bytes) le_rfl
    (digitsOf_lt bytes) [] ⟨by simp, by simp⟩
  have hnumber : result.reverse = numberOf bytes := by
    refine eq_of_bigEndian_eq (by norm_num : 1 < 256) (fun b hb => ht.lt b (List.mem_reverse.mp hb))
      (numberOf_lt bytes) (fun h => ?_) (numberOf_head bytes) ?_
    · rw [List.head_reverse]
      exact ht.last _
    · rw [bigEndian, List.reverse_reverse, hv, Nat.ofDigits_nil, Nat.zero_mul, Nat.zero_add, digitsOf_value]
  have hbytes : (numberOf bytes).map (fun x => UInt8.ofNat x) = bytes.dropWhile (· = 0) := by
    rw [numberOf, List.map_map]
    exact (List.map_congr_left fun x _ => by simp).trans (List.map_id _)
  rw [decode, htext, hz, hd, List.length_map, hres, Option.map_some, hnumber, hbytes,
    ← bytes_eq_replicate_append]

/-! ## Sizes -/

theorem chunkDigits_length_le (fuel : ℕ) (number : List ℕ) :
    (chunkDigits fuel number).length ≤ 3 * fuel := by
  induction fuel generalizing number with
  | zero => exact Nat.le_refl _
  | succ fuel ih =>
    cases number with
    | nil => exact Nat.zero_le _
    | cons byte number =>
      have h := ih (dropZeros (divideChunk (byte :: number) 0).1)
      simp only [chunkDigits, List.length_append, List.length_cons, List.length_nil]
      omega

theorem encode_length_le (bytes : Bytes) : (encode bytes).length ≤ 4 * bytes.length := by
  have hzeros : (bytes.takeWhile (· = 0)).length + (bytes.dropWhile (· = 0)).length = bytes.length := by
    rw [← List.length_append, List.takeWhile_append_dropWhile]
  have hdigits := chunkDigits_length_le ((bytes.dropWhile (· = 0)).map UInt8.toNat).length
    ((bytes.dropWhile (· = 0)).map UInt8.toNat)
  have hdrop := ((chunkDigits ((bytes.dropWhile (· = 0)).map UInt8.toNat).length
    ((bytes.dropWhile (· = 0)).map UInt8.toNat)).reverse.dropWhile_sublist (· = 0)).length_le
  rw [List.length_reverse] at hdrop
  rw [List.length_map] at hdigits hdrop
  rw [encode, String.length_ofList, List.length_append, List.length_replicate, List.length_map, dropZeros, List.length_map]
  omega

end RecordNode.Base58
