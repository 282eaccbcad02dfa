import Mathlib.Data.Rat.Lemmas
import RecordNode.Encoding.Environment

/-! # A plain environment

An environment one can compute in: values are written in a prefix code, a digest
is a polynomial of the bytes, and a signature spells out the digest it is over.
It satisfies the codec law, so hypotheses on the environment are not vacuous, and
concrete entries can be built, hashed, signed and verified in it. -/

namespace RecordNode
namespace Plain

/-! ## The prefix code -/

def putNat : ℕ → Bytes
  | 0 => [0]
  | n + 1 => 1 :: putNat n

def getNat : Bytes → Option (ℕ × Bytes)
  | 0 :: r => some (0, r)
  | 1 :: r => (getNat r).map fun (n, r) => (n + 1, r)
  | _ => none

def putInt (z : ℤ) : Bytes := (if z < 0 then 1 else 0) :: putNat z.natAbs

def getInt : Bytes → Option (ℤ × Bytes)
  | 0 :: r => (getNat r).map fun (n, r) => ((n : ℤ), r)
  | 1 :: r => (getNat r).map fun (n, r) => (-(n : ℤ), r)
  | _ => none

def putChars : List Char → Bytes
  | [] => []
  | c :: rest => UInt8.ofNat (c.toNat / 65536) :: UInt8.ofNat (c.toNat / 256 % 256) ::
      UInt8.ofNat (c.toNat % 256) :: putChars rest

def getChars : ℕ → Bytes → Option (List Char × Bytes)
  | 0, r => some ([], r)
  | n + 1, a :: b :: c :: r => (getChars n r).map fun (l, r) =>
      (Char.ofNat (a.toNat * 65536 + b.toNat * 256 + c.toNat) :: l, r)
  | _, _ => none

def putString (s : String) : Bytes := putNat s.toList.length ++ putChars s.toList

def getString (b : Bytes) : Option (String × Bytes) :=
  (getNat b).bind fun (n, r) => (getChars n r).map fun (l, r) => (String.ofList l, r)

def getRaw : ℕ → Bytes → Option (Bytes × Bytes)
  | 0, r => some ([], r)
  | n + 1, x :: r => (getRaw n r).map fun (l, r) => (x :: l, r)
  | _, [] => none

mutual

def put : Value → Bytes
  | .null => [0]
  | .bool b => [1, if b then 1 else 0]
  | .number q => 2 :: (putInt q.num ++ putNat q.den)
  | .bigint n => 3 :: putInt n
  | .string s => 4 :: putString s
  | .bytes b => 5 :: (putNat b.length ++ b)
  | .link properties => 6 :: putFields properties
  | .array items => 7 :: putItems items
  | .record fields => 8 :: putFields fields

def putItems : List Value → Bytes
  | [] => [0]
  | v :: rest => 1 :: (put v ++ putItems rest)

def putFields : List (String × Value) → Bytes
  | [] => [0]
  | (k, v) :: rest => 1 :: (putString k ++ (put v ++ putFields rest))

end

mutual

def get : ℕ → Bytes → Option (Value × Bytes)
  | 0, _ => none
  | n + 1, tag :: r =>
    match tag.toNat, r with
    | 0, r => some (.null, r)
    | 1, x :: r => some (.bool (x = 1), r)
    | 2, r => (getInt r).bind fun (num, r) => (getNat r).map fun (den, r) => (.number (mkRat num den), r)
    | 3, r => (getInt r).map fun (z, r) => (.bigint z, r)
    | 4, r => (getString r).map fun (s, r) => (.string s, r)
    | 5, r => (getNat r).bind fun (m, r) => (getRaw m r).map fun (b, r) => (.bytes b, r)
    | 6, r => (getFields n r).map fun (f, r) => (.link f, r)
    | 7, r => (getItems n r).map fun (l, r) => (.array l, r)
    | 8, r => (getFields n r).map fun (f, r) => (.record f, r)
    | _, _ => none
  | _ + 1, [] => none

def getItems : ℕ → Bytes → Option (List Value × Bytes)
  | 0, _ => none
  | _ + 1, 0 :: r => some ([], r)
  | n + 1, 1 :: r => (get n r).bind fun (v, r) => (getItems n r).map fun (l, r) => (v :: l, r)
  | _ + 1, _ => none

def getFields : ℕ → Bytes → Option (List (String × Value) × Bytes)
  | 0, _ => none
  | _ + 1, 0 :: r => some ([], r)
  | n + 1, 1 :: r => (getString r).bind fun (k, r) => (get n r).bind fun (v, r) =>
      (getFields n r).map fun (l, r) => ((k, v) :: l, r)
  | _ + 1, _ => none

end

/-! ## Reading back -/

theorem getNat_putNat (n : ℕ) (r : Bytes) : getNat (putNat n ++ r) = some (n, r) := by
  induction n with
  | zero => rfl
  | succ n ih => simp [putNat, getNat, ih]

theorem getInt_putInt (z : ℤ) (r : Bytes) : getInt (putInt z ++ r) = some (z, r) := by
  by_cases hz : z < 0
  · have : -|z| = z := by rw [abs_of_neg hz, neg_neg]
    simp [putInt, hz, getInt, getNat_putNat, this]
  · have : (z.natAbs : ℤ) = z := by omega
    simp [putInt, hz, getInt, getNat_putNat, this]

theorem getChars_putChars (l : List Char) (r : Bytes) :
    getChars l.length (putChars l ++ r) = some (l, r) := by
  induction l with
  | nil => rfl
  | cons c rest ih =>
    have hc : c.toNat < 1114112 := by
      have := c.valid
      rcases this with h | ⟨-, h⟩
      · exact Nat.lt_trans h (by decide)
      · exact h
    have hcode : c.toNat / 65536 % 256 * 65536 + c.toNat / 256 % 256 * 256 + c.toNat % 256 = c.toNat := by
      omega
    simp [putChars, getChars, ih, hcode]

theorem getString_putString (s : String) (r : Bytes) : getString (putString s ++ r) = some (s, r) := by
  simp [getString, putString, List.append_assoc, getNat_putNat, getChars_putChars]

theorem getRaw_append (b r : Bytes) : getRaw b.length (b ++ r) = some (b, r) := by
  induction b with
  | nil => rfl
  | cons x rest ih => simp [getRaw, ih]

mutual

/-- Any fuel past the length of its code reads a value back. -/
theorem get_put (v : Value) (n : ℕ) (r : Bytes) (h : (put v).length ≤ n) :
    get n (put v ++ r) = some (v, r) := by
  obtain ⟨n, rfl⟩ : ∃ k, n = k + 1 := ⟨n - 1, by cases v <;> simp [put] at h <;> omega⟩
  match v with
  | .null => rfl
  | .bool b => cases b <;> rfl
  | .number q =>
    simp [put, get, List.append_assoc, getInt_putInt, getNat_putNat, Rat.mkRat_self]
  | .bigint z => simp [put, get, getInt_putInt]
  | .string s => simp [put, get, getString_putString]
  | .bytes b => simp [put, get, List.append_assoc, getNat_putNat, getRaw_append]
  | .link properties =>
    have hp := getFields_putFields properties n r (by simp [put] at h; omega)
    simp [put, get, hp]
  | .array items =>
    have hp := getItems_putItems items n r (by simp [put] at h; omega)
    simp [put, get, hp]
  | .record fields =>
    have hp := getFields_putFields fields n r (by simp [put] at h; omega)
    simp [put, get, hp]

theorem getItems_putItems (l : List Value) (n : ℕ) (r : Bytes) (h : (putItems l).length ≤ n) :
    getItems n (putItems l ++ r) = some (l, r) := by
  obtain ⟨n, rfl⟩ : ∃ k, n = k + 1 := ⟨n - 1, by cases l <;> simp [putItems] at h <;> omega⟩
  match l with
  | [] => rfl
  | v :: rest =>
    simp only [putItems, List.length_cons, List.length_append] at h
    have hv := get_put v n (putItems rest ++ r) (by omega)
    have hr := getItems_putItems rest n r (by omega)
    simp [putItems, getItems, List.append_assoc, hv, hr]

theorem getFields_putFields (l : List (String × Value)) (n : ℕ) (r : Bytes)
    (h : (putFields l).length ≤ n) : getFields n (putFields l ++ r) = some (l, r) := by
  obtain ⟨n, rfl⟩ : ∃ k, n = k + 1 := ⟨n - 1, by cases l <;> simp [putFields] at h <;> omega⟩
  match l with
  | [] => rfl
  | (k, v) :: rest =>
    simp only [putFields, List.length_cons, List.length_append] at h
    have hv := get_put v n (putFields rest ++ r) (by omega)
    have hr := getFields_putFields rest n r (by omega)
    simp [putFields, getFields, List.append_assoc, getString_putString, hv, hr]

end

/-! ## Digests and signatures -/

def digestOf (b : Bytes) : ℕ := b.foldl (fun acc x => (acc * 257 + x.toNat + 1) % 2 ^ 512) 0

def digest (n : ℕ) (b : Bytes) : Digest n :=
  ⟨(List.range n).map fun i => UInt8.ofNat (digestOf b / 256 ^ i % 256), by simp⟩

def publicKey (privateKey : Bytes) : String := "02" ++ bytesToHex (digest 32 privateKey).bytes

def sign (d : Digest 32) (privateKey : Bytes) : String := publicKey privateKey ++ bytesToHex d.bytes

theorem isCompressedPubkey_publicKey (privateKey : Bytes) :
    isCompressedPubkey (publicKey privateKey) = true := by
  have hhex := isHex64_bytesToHex (digest 32 privateKey)
  rw [isHex64, Bool.and_eq_true, beq_iff_eq] at hhex
  have hchars : (publicKey privateKey).toList =
      '0' :: '2' :: (bytesToHex (digest 32 privateKey).bytes).toList := by
    rw [publicKey, String.toList_append]
    rfl
  simp [isCompressedPubkey, hchars, hhex]

theorem putNat_length (n : ℕ) : (putNat n).length = n + 1 := by
  induction n with
  | zero => rfl
  | succ n ih => rw [putNat, List.length_cons, ih]

theorem putChars_length (l : List Char) : (putChars l).length = 3 * l.length := by
  induction l with
  | nil => rfl
  | cons c rest ih => simp only [putChars, List.length_cons, ih]; omega

theorem putString_length (s : String) : (putString s).length = 4 * s.length + 1 := by
  rw [putString, List.length_append, putNat_length, putChars_length, String.length_toList]
  omega

theorem publicKey_length (privateKey : Bytes) : (publicKey privateKey).length = 66 := by
  rw [publicKey, String.length_append, bytesToHex_length, Digest.length_eq]
  rfl

end Plain

def plainEnvironment : Environment where
  encode := Plain.put
  decode b := (Plain.get b.length b).bind fun (v, r) => if r.isEmpty then some v else none
  sha3 := Plain.digest 64
  sha256 := Plain.digest 32
  verifyDigest sig d key := sig = key ++ bytesToHex d.bytes
  signDigest := Plain.sign
  publicKey := Plain.publicKey
  normalizeNfc text := text
  parsesCid text := text.toList.length = 95
  canonicalCid text := some text
  display _ := ""

theorem plainEnvironment_codecLaw : plainEnvironment.CodecLaw := by
  intro v _
  have h := Plain.get_put v (Plain.put v).length [] (Nat.le_refl _)
  rw [List.append_nil] at h
  simp [plainEnvironment, h]

/-- A signature verifies under the key that made it. -/
theorem plainEnvironment_verify (d : Digest 32) (privateKey : Bytes) :
    plainEnvironment.verifyDigest (plainEnvironment.signDigest d privateKey) d
      (plainEnvironment.publicKey privateKey) = true := by
  simp [plainEnvironment, Plain.sign]

end RecordNode
