import Mathlib.Data.List.TakeWhile
import RecordNode.Encoding.Base58Buffers
import RecordNode.Foundation.BitPacking
import RecordNode.Foundation.Tally

/-! # Compressed fingerprints

A Chromaprint fingerprint is base64url text: an algorithm byte, a count, then for each
value the gaps between the set bits of its xor with the value before it. A gap below
seven takes three bits, a longer one three bits and five more behind all the short
ones. The program reads the values back to refuse a recording that is silence or one
steady tone. -/

namespace RecordNode

open Foundation

inductive IngestErrorCode where
  | toolchainUnavailable
  | toolchainMismatch
  | toolFailed
  | noAudio
  | emptyFingerprint
  | degenerateFingerprint
  | trackIdCollision
  | invalidDuration
  | nonAudioStream
  | downloadFailed
deriving DecidableEq, Repr

structure IngestError where
  code : IngestErrorCode
  message : String
deriving DecidableEq, Repr

/-! ## base64url -/

def base64Alphabet : List Char := "ABCDEFGHIJKLMNOPQRSTUVWXYZabcdefghijklmnopqrstuvwxyz0123456789+/".toList

/-- The six bits of a character, in either alphabet. -/
def sextet? (c : Char) : Option ℕ :=
  let plain := if c = '-' then '+' else if c = '_' then '/' else c
  if base64Alphabet.contains plain then some (base64Alphabet.idxOf plain) else none

def sextetBytes : List ℕ → Bytes
  | a :: b :: c :: d :: rest =>
    UInt8.ofNat (a * 4 + b / 16) :: UInt8.ofNat (b % 16 * 16 + c / 4) :: UInt8.ofNat (c % 4 * 64 + d) :: sextetBytes rest
  | [a, b, c] => [UInt8.ofNat (a * 4 + b / 16), UInt8.ofNat (b % 16 * 16 + c / 4)]
  | [a, b] => [UInt8.ofNat (a * 4 + b / 16)]
  | _ => []

def lowByte (unit : ℕ) : Char := Char.ofNat (unit % 256)

/-- `Buffer.from(text, 'base64')`: every code unit is read by its low byte; the first equals sign ends
the text, and what is no digit is passed over. -/
def base64urlBytes (fingerprint : String) : Bytes :=
  sextetBytes ((((Base58.charCodes fingerprint).map lowByte).takeWhile (· ≠ '=')).filterMap sextet?)

/-! ## Decoding -/

structure DecodedFingerprint where
  algorithm : ℕ
  values : List ℕ
deriving DecidableEq

/-- The three-bit fields up to the one that ends the last value, and the position behind them. -/
def readNormal (body : Bytes) (count position ends : ℕ) : Except IngestError (List ℕ × ℕ) :=
  if ends < count then
    if body.length * 8 < position + 3 then .error ⟨.toolFailed, "fingerprint is truncated"⟩
    else
      let value := readBits body position 3
      match readNormal body count (position + 3) (if value = 0 then ends + 1 else ends) with
      | .ok (rest, stop) => .ok (value :: rest, stop)
      | .error e => .error e
  else .ok ([], position)
termination_by body.length * 8 - position

structure FingerprintCursor where
  exception : ℕ
  values : List ℕ
  previous : ℕ
  xor : ℕ
  lastBit : ℕ

/-- One gap: zero ends a value, any other sets the bit that far on. -/
def FingerprintCursor.take (s : FingerprintCursor) (delta : ℕ) : FingerprintCursor :=
  if delta = 0 then
    { s with previous := s.previous ^^^ s.xor, values := s.values ++ [s.previous ^^^ s.xor], xor := 0, lastBit := 0 }
  else
    { s with lastBit := s.lastBit + delta, xor := s.xor ||| 2 ^ ((s.lastBit + delta - 1) % 32) }

/-- One three-bit field; a seven is followed up among the exceptions. -/
def FingerprintCursor.step (body : Bytes) (s : FingerprintCursor) (normal : ℕ) : FingerprintCursor :=
  if normal = 7 then { s with exception := s.exception + 5 }.take (normal + readBits body s.exception 5)
  else s.take normal

def decodeBytes : Bytes → Except IngestError DecodedFingerprint
  | algorithm :: b1 :: b2 :: b3 :: body =>
    let count := b1.toNat <<< 16 ||| b2.toNat <<< 8 ||| b3.toNat
    match readNormal body count 0 0 with
    | .error e => .error e
    | .ok (normal, position) =>
      let decoded := normal.foldl (FingerprintCursor.step body) ⟨(position + 7) / 8 * 8, [], 0, 0, 0⟩
      .ok ⟨algorithm.toNat, decoded.values⟩
  | _ => .error ⟨.toolFailed, "fingerprint is shorter than its header"⟩

def decodeFingerprint (fingerprint : String) : Except IngestError DecodedFingerprint :=
  decodeBytes (base64urlBytes fingerprint)

/-- What the degeneracy rule throws: the decoder's error, or the engine's where a call has too many
arguments. -/
inductive DegeneracyFault where
  | ingest (e : IngestError)
  | rangeError
deriving DecidableEq, Repr

/-- `Math.max(...items)`, in an engine that passes at most so many arguments. -/
def spreadMax (maxArguments : ℕ) (items : List ℕ) : Except DegeneracyFault ℕ :=
  if items.length ≤ maxArguments then .ok (items.foldl max 0) else .error .rangeError

def isDegenerateFingerprint (maxArguments : ℕ) (fingerprint : String) : Except DegeneracyFault Bool :=
  match decodeFingerprint fingerprint with
  | .error e => .error (.ingest e)
  | .ok ⟨_, values⟩ => do
    let mostCommon ← spreadMax maxArguments (0 :: (tally values).values)
    return values.length = 0 || 19 * values.length ≤ 20 * mostCommon

/-! ## The format -/

def base64urlChar (n : ℕ) : Char :=
  "ABCDEFGHIJKLMNOPQRSTUVWXYZabcdefghijklmnopqrstuvwxyz0123456789-_".toList.getD n 'A'

def sextets : List ℕ → List ℕ
  | x :: y :: z :: rest => x / 4 :: (x % 4 * 16 + y / 16) :: (y % 16 * 4 + z / 64) :: z % 64 :: sextets rest
  | [x, y] => [x / 4, x % 4 * 16 + y / 16, y % 16 * 4]
  | [x] => [x / 4, x % 4 * 16]
  | [] => []

/-- Bytes as unpadded base64url text. -/
def base64urlText (bytes : Bytes) : String :=
  String.ofList ((sextets (bytes.map UInt8.toNat)).map base64urlChar)

/-- The gaps between the set bits among these positions, the last one set being `last`. -/
def bitGaps (x : ℕ) : ℕ → List ℕ → List ℕ
  | _, [] => []
  | last, bit :: rest => if x.testBit bit then (bit + 1 - last) :: bitGaps x (bit + 1) rest else bitGaps x last rest

/-- Each value against the one before it. -/
def valueXors : ℕ → List ℕ → List ℕ
  | _, [] => []
  | previous, value :: rest => (value ^^^ previous) :: valueXors value rest

/-- All gaps, each value closed by a zero. -/
def gapStream (values : List ℕ) : List ℕ := (valueXors 0 values).flatMap fun x => bitGaps x 0 (List.range 32) ++ [0]

def exceptionsOf (gaps : List ℕ) : List ℕ := (gaps.filter (7 ≤ ·)).map (· - 7)

/-- The bytes of a fingerprint with these values. -/
def packFingerprint (algorithm : ℕ) (values : List ℕ) : Bytes :=
  UInt8.ofNat algorithm :: UInt8.ofNat (values.length / 65536) :: UInt8.ofNat (values.length / 256) ::
    UInt8.ofNat values.length ::
      (packBits (((gapStream values).map (min · 7)).flatMap (bitsOf 3)) ++
        packBits ((exceptionsOf (gapStream values)).flatMap (bitsOf 5)))

/-! ## Reading the text -/

theorem base64urlChar_ascii : ∀ n < 64, (base64urlChar n).toNat < 0x10000 ∧ lowByte (base64urlChar n).toNat = base64urlChar n := by
  decide +kernel

theorem sextet?_base64urlChar : ∀ n < 64, sextet? (base64urlChar n) = some n := by decide +kernel

theorem base64urlChar_ne_equals : ∀ n < 64, base64urlChar n ≠ '=' := by decide +kernel

theorem sextets_lt (l : List ℕ) (hl : ∀ x ∈ l, x < 256) : ∀ n ∈ sextets l, n < 64 := by
  fun_induction sextets l with
  | case1 x y z rest ih =>
    simp only [List.forall_mem_cons] at hl ⊢
    exact ⟨by omega, by omega, by omega, by omega, ih hl.2.2.2⟩
  | case2 x y =>
    simp only [List.forall_mem_cons] at hl ⊢
    exact ⟨by omega, by omega, by omega, by simp⟩
  | case3 x =>
    simp only [List.forall_mem_cons] at hl ⊢
    exact ⟨by omega, by omega, by simp⟩
  | case4 => simp

theorem sextetBytes_sextets (bytes : Bytes) : sextetBytes (sextets (bytes.map UInt8.toNat)) = bytes := by
  match bytes with
  | x :: y :: z :: rest =>
    have hx := x.toNat_lt
    have hy := y.toNat_lt
    have hz := z.toNat_lt
    have h1 : x.toNat / 4 * 4 + (x.toNat % 4 * 16 + y.toNat / 16) / 16 = x.toNat := by omega
    have h2 : (x.toNat % 4 * 16 + y.toNat / 16) % 16 * 16 + (y.toNat % 16 * 4 + z.toNat / 64) / 4 = y.toNat := by omega
    have h3 : (y.toNat % 16 * 4 + z.toNat / 64) % 4 * 64 + z.toNat % 64 = z.toNat := by omega
    simp only [List.map_cons, sextets, sextetBytes, h1, h2, h3, UInt8.ofNat_toNat, sextetBytes_sextets rest]
  | [x, y] =>
    have hx := x.toNat_lt
    have hy := y.toNat_lt
    have h1 : x.toNat / 4 * 4 + (x.toNat % 4 * 16 + y.toNat / 16) / 16 = x.toNat := by omega
    have h2 : (x.toNat % 4 * 16 + y.toNat / 16) % 16 * 16 + y.toNat % 16 * 4 / 4 = y.toNat := by omega
    simp only [List.map_cons, List.map_nil, sextets, sextetBytes, h1, h2, UInt8.ofNat_toNat]
  | [x] =>
    have hx := x.toNat_lt
    have h1 : x.toNat / 4 * 4 + x.toNat % 4 * 16 / 16 = x.toNat := by omega
    simp only [List.map_cons, List.map_nil, sextets, sextetBytes, h1, UInt8.ofNat_toNat]
  | [] => rfl

theorem filterMap_sextet? {l : List ℕ} (hl : ∀ n ∈ l, n < 64) : (l.map base64urlChar).filterMap sextet? = l := by
  induction l with
  | nil => rfl
  | cons n rest ih =>
    obtain ⟨hn, hrest⟩ := List.forall_mem_cons.mp hl
    rw [List.map_cons, List.filterMap_cons, sextet?_base64urlChar n hn, ih hrest]

theorem takeWhile_base64urlChar {l : List ℕ} (hl : ∀ n ∈ l, n < 64) :
    (l.map base64urlChar).takeWhile (· ≠ '=') = l.map base64urlChar := by
  apply List.takeWhile_eq_self_iff.mpr
  intro c hc
  obtain ⟨n, hn, rfl⟩ := List.mem_map.mp hc
  exact decide_eq_true (base64urlChar_ne_equals n (hl n hn))

theorem map_lowByte_charCodes {l : List ℕ} (hl : ∀ n ∈ l, n < 64) :
    (Base58.charCodes (String.ofList (l.map base64urlChar))).map lowByte = l.map base64urlChar := by
  rw [Base58.charCodes, String.toList_ofList]
  induction l with
  | nil => rfl
  | cons n rest ih =>
    obtain ⟨hn, hrest⟩ := List.forall_mem_cons.mp hl
    obtain ⟨hsmall, hlow⟩ := base64urlChar_ascii n hn
    rw [List.map_cons, List.flatMap_cons, if_pos hsmall, List.map_append, ih hrest, List.map_singleton, hlow]
    rfl

theorem base64urlBytes_text (bytes : Bytes) : base64urlBytes (base64urlText bytes) = bytes := by
  have hlt : ∀ n ∈ sextets (bytes.map UInt8.toNat), n < 64 := by
    apply sextets_lt
    intro x hx
    obtain ⟨b, -, rfl⟩ := List.mem_map.mp hx
    exact b.toNat_lt
  rw [base64urlBytes, base64urlText, map_lowByte_charCodes hlt, takeWhile_base64urlChar hlt, filterMap_sextet? hlt, sextetBytes_sextets]

/-! ## Reading the short fields -/

/-- The fields still to come are terminated: the last one, if any, is a zero. -/
def Terminated (fields : List ℕ) : Prop := ∀ n, fields.getLast? = some n → n = 0

theorem Terminated.tail {n : ℕ} {rest : List ℕ} (h : Terminated (n :: rest)) : Terminated rest := by
  intro m hm
  cases rest with
  | nil => simp at hm
  | cons k rest => exact h m (by rwa [List.getLast?_cons_cons])

theorem Terminated.zero_mem {n : ℕ} {rest : List ℕ} (h : Terminated (n :: rest)) : 0 ∈ n :: rest := by
  have hlast := List.getLast?_eq_some_getLast (List.cons_ne_nil n rest)
  have hzero := h _ hlast
  rw [← hzero]
  exact List.getLast_mem _

/-- The loop takes the fields up to the last zero it counts, and stops right behind it. -/
theorem readNormal_eq_ok {body : Bytes} {count : ℕ} (done : List ℕ) {fields : List ℕ} (ends : ℕ)
    (hread : ∀ i < (done ++ fields).length, readBits body (3 * i) 3 = (done ++ fields).getD i 0)
    (hlength : 3 * (done ++ fields).length ≤ body.length * 8) (hterm : Terminated fields)
    (hcount : ends + fields.count 0 = count) :
    readNormal body count (3 * done.length) ends = .ok (fields, 3 * (done ++ fields).length) := by
  induction fields generalizing done ends with
  | nil =>
    rw [List.count_nil] at hcount
    rw [readNormal, if_neg (by omega), List.append_nil]
  | cons n rest ih =>
    have hpos : 0 < (n :: rest).count 0 := List.count_pos_iff.mpr hterm.zero_mem
    have hvalue : readBits body (3 * done.length) 3 = n := by
      rw [hread done.length (by simp), List.getD_append_right _ _ _ _ le_rfl, Nat.sub_self, List.getD_cons_zero]
    have hassoc : done ++ n :: rest = (done ++ [n]) ++ rest := by simp
    have hnext : 3 * done.length + 3 = 3 * (done ++ [n]).length := by
      rw [List.length_append, List.length_singleton]
      ring
    have hends : (if n = 0 then ends + 1 else ends) + rest.count 0 = count := by
      by_cases hn : n = 0
      · subst hn
        rw [List.count_cons_self] at hcount
        rw [if_pos rfl]
        omega
      · rw [List.count_cons_of_ne hn] at hcount
        rw [if_neg hn]
        omega
    rw [hassoc] at hread hlength
    have htail := ih (done ++ [n]) _ hread hlength hterm.tail hends
    have hroom : ¬ body.length * 8 < 3 * done.length + 3 := by
      rw [hnext]
      simp only [List.length_append] at hlength ⊢
      omega
    rw [readNormal, if_pos (by omega), if_neg hroom]
    simp only [hvalue]
    rw [hnext, htail, hassoc]

/-! ## Following up the long gaps -/

theorem FingerprintCursor.take_exception (s : FingerprintCursor) (delta : ℕ) : (s.take delta).exception = s.exception := by
  unfold FingerprintCursor.take
  split <;> rfl

theorem FingerprintCursor.take_move (s : FingerprintCursor) (delta e : ℕ) :
    { s with exception := e }.take delta = { s.take delta with exception := e } := by
  unfold FingerprintCursor.take
  split <;> rfl

theorem foldl_take_move (gaps : List ℕ) (s : FingerprintCursor) (e : ℕ) :
    gaps.foldl FingerprintCursor.take { s with exception := e } =
      { gaps.foldl FingerprintCursor.take s with exception := e } := by
  induction gaps generalizing s with
  | nil => rfl
  | cons gap rest ih => rw [List.foldl_cons, List.foldl_cons, FingerprintCursor.take_move, ih]

theorem exceptionsOf_cons_short {gap : ℕ} (rest : List ℕ) (h : gap < 7) :
    exceptionsOf (gap :: rest) = exceptionsOf rest := by
  rw [exceptionsOf, List.filter_cons_of_neg (by simpa using h), exceptionsOf]

theorem exceptionsOf_cons_long {gap : ℕ} (rest : List ℕ) (h : 7 ≤ gap) :
    exceptionsOf (gap :: rest) = (gap - 7) :: exceptionsOf rest := by
  rw [exceptionsOf, List.filter_cons_of_pos (by simpa using h), List.map_cons, exceptionsOf]

/-- With the exceptions found where the cursor points, the short fields stand for the gaps. -/
theorem foldl_step_eq {body : Bytes} {gaps : List ℕ} {s : FingerprintCursor}
    (hread : ∀ k < (exceptionsOf gaps).length, readBits body (s.exception + 5 * k) 5 = (exceptionsOf gaps).getD k 0) :
    (gaps.map (min · 7)).foldl (FingerprintCursor.step body) s =
      { gaps.foldl FingerprintCursor.take s with exception := s.exception + 5 * (exceptionsOf gaps).length } := by
  induction gaps generalizing s with
  | nil => rfl
  | cons gap rest ih =>
    rw [List.map_cons, List.foldl_cons, List.foldl_cons]
    rcases Nat.lt_or_ge gap 7 with hshort | hlong
    · rw [exceptionsOf_cons_short rest hshort] at hread ⊢
      have hstep : FingerprintCursor.step body s (min gap 7) = s.take gap := by
        rw [Nat.min_eq_left (by omega), FingerprintCursor.step, if_neg (by omega)]
      rw [hstep, ih (by rwa [FingerprintCursor.take_exception]), FingerprintCursor.take_exception]
    · rw [exceptionsOf_cons_long rest hlong] at hread ⊢
      have hfirst : readBits body s.exception 5 = gap - 7 := hread 0 (by simp)
      have hstep : FingerprintCursor.step body s (min gap 7) = { s.take gap with exception := s.exception + 5 } := by
        have hgap : 7 + (gap - 7) = gap := by omega
        rw [Nat.min_eq_right hlong, FingerprintCursor.step, if_pos rfl, hfirst, hgap, FingerprintCursor.take_move]
      have hrest : ∀ k < (exceptionsOf rest).length,
          readBits body (s.exception + 5 + 5 * k) 5 = (exceptionsOf rest).getD k 0 := by
        intro k hk
        have hnext := hread (k + 1) (by simpa using hk)
        rw [List.getD_cons_succ] at hnext
        rw [← hnext]
        congr 1
        ring
      have htail := ih (s := { s.take gap with exception := s.exception + 5 }) hrest
      have hlength : s.exception + 5 + 5 * (exceptionsOf rest).length = s.exception + 5 * ((exceptionsOf rest).length + 1) := by
        ring
      rw [hstep, htail, foldl_take_move, List.length_cons, hlength]

/-! ## Rebuilding the values -/

theorem mod_two_pow_succ (x k : ℕ) : x % 2 ^ (k + 1) = x % 2 ^ k ||| (if x.testBit k then 2 ^ k else 0) := by
  apply Nat.eq_of_testBit_eq
  intro i
  rw [Nat.testBit_or, Nat.testBit_mod_two_pow, Nat.testBit_mod_two_pow]
  rcases Nat.lt_trichotomy i k with hlt | heq | hgt
  · have hbit : (if x.testBit k then 2 ^ k else 0).testBit i = false := by
      split
      · exact Nat.testBit_two_pow_of_ne (by omega)
      · exact Nat.zero_testBit i
    simp [hbit, hlt, Nat.lt_succ_of_lt hlt]
  · subst heq
    cases hx : x.testBit i <;> simp
  · have hbit : (if x.testBit k then 2 ^ k else 0).testBit i = false := by
      split
      · exact Nat.testBit_two_pow_of_ne (by omega)
      · exact Nat.zero_testBit i
    have h1 : ¬ i < k + 1 := by omega
    have h2 : ¬ i < k := by omega
    simp [hbit, h1, h2]

/-- The gaps from one position on set the bits above it, the ones below being set already. -/
theorem foldl_take_bitGaps {x k n : ℕ} (hk : k + n ≤ 32) {s : FingerprintCursor} (hlast : s.lastBit ≤ k)
    (hxor : s.xor = x % 2 ^ k) :
    ∃ last, (bitGaps x s.lastBit (List.range' k n)).foldl FingerprintCursor.take s =
      { s with xor := x % 2 ^ (k + n), lastBit := last } := by
  induction n generalizing k s with
  | zero => exact ⟨s.lastBit, by rw [Nat.add_zero, ← hxor]; rfl⟩
  | succ n ih =>
    have hsum : k + 1 + n = k + (n + 1) := by omega
    have hxor' := mod_two_pow_succ x k
    rw [List.range'_succ, bitGaps]
    split
    · next hbit =>
      have htake : s.take (k + 1 - s.lastBit) = { s with xor := x % 2 ^ (k + 1), lastBit := k + 1 } := by
        have hgap : s.lastBit + (k + 1 - s.lastBit) = k + 1 := by omega
        have hmod : (k + 1 - 1) % 32 = k := by omega
        rw [FingerprintCursor.take, if_neg (by omega), hgap, hmod, hxor, hxor', if_pos hbit]
      rw [List.foldl_cons, htake]
      obtain ⟨last, hfold⟩ := ih (k := k + 1) (s := { s with xor := x % 2 ^ (k + 1), lastBit := k + 1 }) (by omega) le_rfl rfl
      refine ⟨last, ?_⟩
      rw [hfold, hsum]
    · next hbit =>
      rw [if_neg hbit, Nat.or_zero] at hxor'
      obtain ⟨last, hfold⟩ := ih (k := k + 1) (s := s) (by omega) (by omega) (by rw [hxor, hxor'])
      refine ⟨last, ?_⟩
      rw [hfold, hsum]

/-- One value's gaps and the zero behind them append the value. -/
theorem foldl_take_value {x : ℕ} (hx : x < 2 ^ 32) {s : FingerprintCursor} (hxor : s.xor = 0) (hlast : s.lastBit = 0) :
    (bitGaps x 0 (List.range 32) ++ [0]).foldl FingerprintCursor.take s =
      { s with values := s.values ++ [s.previous ^^^ x], previous := s.previous ^^^ x, xor := 0, lastBit := 0 } := by
  obtain ⟨last, hfold⟩ := foldl_take_bitGaps (x := x) (k := 0) (n := 32) (s := s) le_rfl (by omega)
    (by rw [hxor, pow_zero, Nat.mod_one])
  rw [hlast, ← List.range_eq_range', Nat.zero_add, Nat.mod_eq_of_lt hx] at hfold
  rw [List.foldl_append, hfold, List.foldl_cons, List.foldl_nil, FingerprintCursor.take, if_pos rfl]

theorem foldl_take_values {values : List ℕ} (hvalues : ∀ v ∈ values, v < 2 ^ 32) {s : FingerprintCursor}
    (hprevious : s.previous < 2 ^ 32) (hxor : s.xor = 0) (hlast : s.lastBit = 0) :
    (((valueXors s.previous values).flatMap fun x => bitGaps x 0 (List.range 32) ++ [0]).foldl
      FingerprintCursor.take s).values = s.values ++ values := by
  induction values generalizing s with
  | nil => rw [valueXors, List.flatMap_nil, List.foldl_nil, List.append_nil]
  | cons v rest ih =>
    obtain ⟨hv, hrest⟩ := List.forall_mem_cons.mp hvalues
    have hback : s.previous ^^^ (v ^^^ s.previous) = v := by
      rw [Nat.xor_comm v, ← Nat.xor_assoc, Nat.xor_self, Nat.zero_xor]
    rw [valueXors, List.flatMap_cons, List.foldl_append, foldl_take_value (Nat.xor_lt_two_pow hv hprevious) hxor hlast,
      hback]
    have htail := ih (s := { s with values := s.values ++ [v], previous := v, xor := 0, lastBit := 0 }) hrest hv rfl rfl
    rw [htail, List.append_assoc, List.singleton_append]

/-! ## The fields of a packed fingerprint -/

theorem bitGaps_bounds {x last k n : ℕ} (hlast : last ≤ k) (hn : k + n ≤ 32) :
    ∀ gap ∈ bitGaps x last (List.range' k n), 0 < gap ∧ gap ≤ 32 := by
  induction n generalizing k last with
  | zero => simp [bitGaps]
  | succ n ih =>
    rw [List.range'_succ, bitGaps]
    split
    · rw [List.forall_mem_cons]
      exact ⟨by omega, ih le_rfl (by omega)⟩
    · exact ih (by omega) (by omega)

theorem gapStream_le {values : List ℕ} : ∀ gap ∈ gapStream values, gap ≤ 32 := by
  intro gap hgap
  obtain ⟨x, -, hmem⟩ := List.mem_flatMap.mp hgap
  rcases List.mem_append.mp hmem with hbit | hzero
  · rw [List.range_eq_range'] at hbit
    exact (bitGaps_bounds le_rfl le_rfl gap hbit).2
  · rw [List.mem_singleton.mp hzero]
    omega

theorem count_zero_fields (xors : List ℕ) :
    ((xors.flatMap fun x => bitGaps x 0 (List.range 32) ++ [0]).map (min · 7)).count 0 = xors.length := by
  induction xors with
  | nil => rfl
  | cons x rest ih =>
    have hbits : ((bitGaps x 0 (List.range 32)).map (min · 7)).count 0 = 0 := by
      apply List.count_eq_zero.mpr
      intro hmem
      obtain ⟨gap, hgap, hmin⟩ := List.mem_map.mp hmem
      rw [List.range_eq_range'] at hgap
      have hpos := (bitGaps_bounds le_rfl le_rfl gap hgap).1
      omega
    rw [List.flatMap_cons, List.map_append, List.count_append, List.map_append, List.count_append, hbits, ih,
      List.length_cons, List.map_singleton, Nat.zero_min, List.count_singleton_self]
    omega

theorem valueXors_length (previous : ℕ) (values : List ℕ) : (valueXors previous values).length = values.length := by
  induction values generalizing previous with
  | nil => rfl
  | cons v rest ih => rw [valueXors, List.length_cons, List.length_cons, ih]

theorem terminated_fields (xors : List ℕ) :
    Terminated ((xors.flatMap fun x => bitGaps x 0 (List.range 32) ++ [0]).map (min · 7)) := by
  intro n hn
  rcases List.eq_nil_or_concat xors with rfl | ⟨front, x, rfl⟩
  · simp at hn
  · rw [List.concat_eq_append, List.flatMap_append, List.flatMap_singleton, ← List.append_assoc, List.map_append, List.map_singleton,
      List.getLast?_append_cons, List.getLast?_singleton] at hn
    injection hn with hn
    rw [← hn, Nat.zero_min]

theorem header_count {n : ℕ} (hn : n < 2 ^ 24) :
    (UInt8.ofNat (n / 65536)).toNat <<< 16 ||| (UInt8.ofNat (n / 256)).toNat <<< 8 ||| (UInt8.ofNat n).toNat = n := by
  rw [UInt8.toNat_ofNat', UInt8.toNat_ofNat', UInt8.toNat_ofNat']
  have hmid : (n / 256 % 2 ^ 8) <<< 8 < 2 ^ 16 := by
    rw [Nat.shiftLeft_eq]
    omega
  rw [← Nat.shiftLeft_add_eq_or_of_lt hmid]
  have hlow : n % 2 ^ 8 < 2 ^ 8 := Nat.mod_lt _ (by omega)
  have hshift : (n / 65536 % 2 ^ 8) <<< 16 + (n / 256 % 2 ^ 8) <<< 8 =
      (n / 65536 % 2 ^ 8 * 2 ^ 8 + n / 256 % 2 ^ 8) <<< 8 := by
    rw [Nat.shiftLeft_eq, Nat.shiftLeft_eq, Nat.shiftLeft_eq]
    ring
  rw [hshift, ← Nat.shiftLeft_add_eq_or_of_lt hlow, Nat.shiftLeft_eq]
  omega

theorem decodeBytes_eq_ok (algorithm : UInt8) {b1 b2 b3 : UInt8} {body : Bytes} {normal : List ℕ} {count position : ℕ}
    (hcount : b1.toNat <<< 16 ||| b2.toNat <<< 8 ||| b3.toNat = count)
    (h : readNormal body count 0 0 = .ok (normal, position)) :
    decodeBytes (algorithm :: b1 :: b2 :: b3 :: body) = .ok ⟨algorithm.toNat,
      (normal.foldl (FingerprintCursor.step body) ⟨(position + 7) / 8 * 8, [], 0, 0, 0⟩).values⟩ := by
  simp only [decodeBytes, hcount, h]

/-! ## The round trip -/

section RoundTrip

variable (values : List ℕ)

/-- The body of a packed fingerprint: the short fields, then the exceptions from a byte boundary on. -/
def packedBody : Bytes :=
  packBits (((gapStream values).map (min · 7)).flatMap (bitsOf 3)) ++
    packBits ((exceptionsOf (gapStream values)).flatMap (bitsOf 5))

theorem packedBody_fields : ∀ i < ((gapStream values).map (min · 7)).length,
    readBits (packedBody values) (3 * i) 3 = ((gapStream values).map (min · 7)).getD i 0 := by
  intro i hi
  refine readBits_packBits ?_ _ hi
  intro n hn
  obtain ⟨gap, -, rfl⟩ := List.mem_map.mp hn
  omega

theorem packedBody_exceptions : ∀ k < (exceptionsOf (gapStream values)).length,
    readBits (packedBody values) ((3 * ((gapStream values).map (min · 7)).length + 7) / 8 * 8 + 5 * k) 5 =
      (exceptionsOf (gapStream values)).getD k 0 := by
  intro k hk
  have hstart : (3 * ((gapStream values).map (min · 7)).length + 7) / 8 * 8 =
      8 * (packBits (((gapStream values).map (min · 7)).flatMap (bitsOf 3))).length := by
    rw [packBits_length, length_flatMap_bitsOf]
    ring
  rw [hstart, packedBody, readBits_append_right, ← List.append_nil (packBits _)]
  refine readBits_packBits ?_ _ hk
  intro n hn
  obtain ⟨gap, hgap, rfl⟩ := List.mem_map.mp hn
  have hle := gapStream_le gap (List.mem_filter.mp hgap).1
  omega

theorem packedBody_room : 3 * ((gapStream values).map (min · 7)).length ≤ (packedBody values).length * 8 := by
  rw [packedBody, List.length_append, packBits_length, length_flatMap_bitsOf]
  omega

theorem readNormal_packedBody :
    readNormal (packedBody values) values.length 0 0 =
      .ok ((gapStream values).map (min · 7), 3 * ((gapStream values).map (min · 7)).length) := by
  have hcount : 0 + ((gapStream values).map (min · 7)).count 0 = values.length := by
    rw [gapStream, count_zero_fields, valueXors_length, Nat.zero_add]
  exact readNormal_eq_ok [] 0 (packedBody_fields values) (packedBody_room values) (terminated_fields _) hcount

end RoundTrip

/-- Whatever values a fingerprint is packed from, they are what the program reads back from its text. -/
theorem decodeFingerprint_packed {algorithm : ℕ} {values : List ℕ} (halgorithm : algorithm < 256)
    (hcount : values.length < 2 ^ 24) (hvalues : ∀ v ∈ values, v < 2 ^ 32) :
    decodeFingerprint (base64urlText (packFingerprint algorithm values)) = .ok ⟨algorithm, values⟩ := by
  have hfold := foldl_step_eq (s := ⟨(3 * ((gapStream values).map (min · 7)).length + 7) / 8 * 8, [], 0, 0, 0⟩)
    (packedBody_exceptions values)
  have hread : ((gapStream values).foldl FingerprintCursor.take
      ⟨(3 * ((gapStream values).map (min · 7)).length + 7) / 8 * 8, [], 0, 0, 0⟩).values = values :=
    foldl_take_values (s := ⟨_, [], 0, 0, 0⟩) hvalues (Nat.two_pow_pos 32) rfl rfl
  have hdecoded : (((gapStream values).map (min · 7)).foldl (FingerprintCursor.step (packedBody values))
      ⟨(3 * ((gapStream values).map (min · 7)).length + 7) / 8 * 8, [], 0, 0, 0⟩).values = values := by
    rw [hfold]
    exact hread
  have hbody : packFingerprint algorithm values = UInt8.ofNat algorithm :: UInt8.ofNat (values.length / 65536) ::
    UInt8.ofNat (values.length / 256) :: UInt8.ofNat values.length :: packedBody values := rfl
  rw [decodeFingerprint, base64urlBytes_text, hbody,
    decodeBytes_eq_ok _ (header_count hcount) (readNormal_packedBody values), hdecoded, UInt8.toNat_ofNat',
    Nat.mod_eq_of_lt halgorithm]

/-! ## The degeneracy rule -/

theorem le_foldl_max_iff {n : ℕ} (l : List ℕ) (start : ℕ) : n ≤ l.foldl max start ↔ n ≤ start ∨ ∃ m ∈ l, n ≤ m := by
  induction l generalizing start with
  | nil => simp
  | cons m rest ih =>
    rw [List.foldl_cons, ih, le_max_iff, List.exists_mem_cons_iff, or_assoc]

theorem le_mostCommon_iff {values : List ℕ} {n : ℕ} (hn : 0 < n) :
    n ≤ (0 :: (tally values).values).foldl max 0 ↔ ∃ v ∈ values, n ≤ values.count v := by
  have hmem := (tally values).mem_values_iff
  rw [List.foldl_cons, le_foldl_max_iff]
  constructor
  · rintro (h | ⟨m, hm, hle⟩)
    · omega
    · obtain ⟨v, hv⟩ := (hmem m).mp hm
      have hcount := get_tally values v
      rw [hv, Option.getD_some] at hcount
      exact ⟨v, List.count_pos_iff.mp (by omega), by omega⟩
  · rintro ⟨v, -, hle⟩
    have hcount := get_tally values v
    cases hget : (tally values).get v with
    | none =>
      rw [hget, Option.getD_none] at hcount
      omega
    | some m =>
      rw [hget, Option.getD_some] at hcount
      exact .inr ⟨m, (hmem m).mpr ⟨v, hget⟩, by omega⟩

/-- The degeneracy rule reports the decoder's error, throws where the distinct values leave no room for
the zero among the arguments of one call, and else refuses a recording exactly when it reads back as
nothing or as one value in at least 19 of 20 places. -/
theorem degenerate_fingerprint_eq (maxArguments : ℕ) (fingerprint : String) :
    isDegenerateFingerprint maxArguments fingerprint =
      match decodeFingerprint fingerprint with
      | .error e => .error (.ingest e)
      | .ok ⟨_, values⟩ =>
        if values.dedup.length < maxArguments then
          .ok (decide (values = [] ∨ ∃ v ∈ values, 19 * values.length ≤ 20 * values.count v))
        else .error .rangeError := by
  rw [isDegenerateFingerprint]
  cases decodeFingerprint fingerprint with
  | error e => rfl
  | ok decoded =>
    obtain ⟨algorithm, values⟩ := decoded
    have hlength : (0 :: (tally values).values).length = values.dedup.length + 1 := by
      rw [List.length_cons, length_values_tally]
    simp only [spreadMax, hlength, Nat.succ_le_iff]
    by_cases hroom : values.dedup.length < maxArguments
    · simp only [if_pos hroom]
      refine congrArg Except.ok ?_
      -- the bound on the greatest count in the form the map's entries are compared in
      have hscale : ∀ m, 19 * values.length ≤ 20 * m ↔ (19 * values.length + 19) / 20 ≤ m := by omega
      rcases List.eq_nil_or_concat values with rfl | ⟨front, v, rfl⟩
      · simp
      · have hpos : 0 < (front.concat v).length := by simp
        rw [Bool.eq_iff_iff, Bool.or_eq_true, decide_eq_true_iff, decide_eq_true_iff, decide_eq_true_iff, hscale,
          le_mostCommon_iff (by omega), List.length_eq_zero_iff]
        simp only [hscale]
    · simp only [if_neg hroom]
      rfl

/-! ## What is read -/

theorem readNormal_count {body : Bytes} {count position ends : ℕ} {normal : List ℕ} {stop : ℕ} (hends : ends ≤ count)
    (h : readNormal body count position ends = .ok (normal, stop)) : ends + normal.count 0 = count := by
  fun_induction readNormal body count position ends generalizing normal stop with
  | case1 position ends hlt hshort => cases h
  | case2 position ends hlt hroom value rest next hrest =>
    rename_i ih
    cases h
    have hnext := ih (by split <;> omega) hrest
    by_cases hvalue : value = 0
    · rw [dif_pos hvalue] at hnext
      rw [hvalue, List.count_cons_self]
      omega
    · rw [dif_neg hvalue] at hnext
      rw [List.count_cons_of_ne hvalue, hnext]
  | case3 position ends hlt hroom value e hrest => cases h
  | case4 position ends hge =>
    cases h
    rw [List.count_nil]
    omega

/-- The ranges of the format: an algorithm byte, a count of 24 bits, values of 32. -/
structure DecodedFingerprint.InRange (decoded : DecodedFingerprint) : Prop where
  algorithm : decoded.algorithm < 256
  count : decoded.values.length < 2 ^ 24
  values : ∀ v ∈ decoded.values, v < 2 ^ 32

/-- What the cursor holds fits in 32 bits. -/
structure FingerprintCursor.Fits (s : FingerprintCursor) : Prop where
  values : ∀ v ∈ s.values, v < 2 ^ 32
  previous : s.previous < 2 ^ 32
  xor : s.xor < 2 ^ 32

theorem FingerprintCursor.Fits.take {s : FingerprintCursor} (h : s.Fits) (delta : ℕ) : (s.take delta).Fits := by
  have hnew := Nat.xor_lt_two_pow h.previous h.xor
  unfold FingerprintCursor.take
  split
  · refine ⟨?_, hnew, Nat.two_pow_pos 32⟩
    intro v hv
    rcases List.mem_append.mp hv with hold | hlast
    · exact h.values v hold
    · rwa [List.mem_singleton.mp hlast]
  · refine ⟨h.values, h.previous, Nat.or_lt_two_pow h.xor ?_⟩
    exact Nat.pow_lt_pow_right (by omega) (Nat.mod_lt _ (by omega))

theorem FingerprintCursor.take_values_length (s : FingerprintCursor) (delta : ℕ) :
    (s.take delta).values.length = s.values.length + if delta = 0 then 1 else 0 := by
  unfold FingerprintCursor.take
  split
  · exact List.length_append
  · rfl

theorem foldl_step_shape (body : Bytes) (normal : List ℕ) {s : FingerprintCursor} (h : s.Fits) :
    (normal.foldl (FingerprintCursor.step body) s).Fits ∧
      (normal.foldl (FingerprintCursor.step body) s).values.length = s.values.length + normal.count 0 := by
  induction normal generalizing s with
  | nil => exact ⟨h, rfl⟩
  | cons n rest ih =>
    have hstep : (s.step body n).Fits ∧ (s.step body n).values.length = s.values.length + if n = 0 then 1 else 0 := by
      unfold FingerprintCursor.step
      split
      · next hseven =>
        have hmoved : ({ s with exception := s.exception + 5 } : FingerprintCursor).Fits := ⟨h.values, h.previous, h.xor⟩
        refine ⟨hmoved.take _, ?_⟩
        rw [FingerprintCursor.take_values_length, if_neg (by omega), if_neg (by omega)]
      · exact ⟨h.take n, s.take_values_length n⟩
    obtain ⟨hfits, hlength⟩ := ih hstep.1
    refine ⟨hfits, ?_⟩
    rw [List.foldl_cons, hlength, hstep.2]
    by_cases hn : n = 0
    · subst hn
      rw [if_pos rfl, List.count_cons_self]
      ring
    · rw [if_neg hn, List.count_cons_of_ne hn, Nat.add_zero]

theorem decodeBytes_inRange {bytes : Bytes} {decoded : DecodedFingerprint} (h : decodeBytes bytes = .ok decoded) :
    decoded.InRange := by
  fun_cases decodeBytes bytes with
  | case1 algorithm b1 b2 b3 body count e hread =>
    simp only [decodeBytes, count, hread] at h
    cases h
  | case2 algorithm b1 b2 b3 body count normal position hread final =>
    rw [decodeBytes_eq_ok algorithm rfl hread] at h
    cases h
    have hempty : FingerprintCursor.Fits ⟨(position + 7) / 8 * 8, [], 0, 0, 0⟩ :=
      ⟨fun v hv => absurd hv List.not_mem_nil, Nat.two_pow_pos 32, Nat.two_pow_pos 32⟩
    obtain ⟨hfits, hlength⟩ := foldl_step_shape body normal hempty
    have hcount := readNormal_count (Nat.zero_le _) hread
    refine ⟨algorithm.toNat_lt, ?_, hfits.values⟩
    rw [hlength, List.length_nil, hcount]
    have h1 := b1.toNat_lt
    have h2 := b2.toNat_lt
    have h3 := b3.toNat_lt
    refine Nat.or_lt_two_pow (Nat.or_lt_two_pow ?_ ?_) ?_
    · rw [Nat.shiftLeft_eq]
      omega
    · rw [Nat.shiftLeft_eq]
      omega
    · omega
  | case3 bytes hshort =>
    rw [decodeBytes] at h
    · cases h
    · exact hshort

/-- Every fingerprint within the format's ranges reads back from the text it is packed into, and
no text reads as any other. -/
theorem fingerprint_round_trip (decoded : DecodedFingerprint) :
    (decodeFingerprint (base64urlText (packFingerprint decoded.algorithm decoded.values)) = .ok decoded ↔
        decoded.InRange) ∧
      ((∃ fingerprint, decodeFingerprint fingerprint = .ok decoded) ↔ decoded.InRange) := by
  have hpacked : decoded.InRange →
      decodeFingerprint (base64urlText (packFingerprint decoded.algorithm decoded.values)) = .ok decoded :=
    fun h => decodeFingerprint_packed h.algorithm h.count h.values
  refine ⟨⟨decodeBytes_inRange, hpacked⟩, ?_, fun h => ⟨_, hpacked h⟩⟩
  rintro ⟨fingerprint, h⟩
  exact decodeBytes_inRange h

/-- A value with a long gap and one that repeats the value before it. -/
example : decodeFingerprint (base64urlText (packFingerprint 2 [2 ^ 31 + 5, 2 ^ 31 + 5, 77])) =
    .ok ⟨2, [2 ^ 31 + 5, 2 ^ 31 + 5, 77]⟩ :=
  decodeFingerprint_packed (by decide) (by decide) (by decide)

end RecordNode
