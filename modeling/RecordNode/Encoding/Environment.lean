import RecordNode.Encoding.Base58

/-! # What the program takes from its dependencies

The dag-cbor codec, the hash functions, the secp256k1 primitives, Unicode
normalisation and the general CID parser live outside the repository. They are
the fields of an `Environment`, and the whole model is a function of one. The
laws a result relies on are stated beside it: `CodecLaw` for the codec, and
`Set.InjOn` of `sha3` on the blocks at hand where no digest may collide. -/

namespace RecordNode

/-- Bytes of a fixed length, as the hash functions return them. -/
structure Digest (n : ℕ) where
  bytes : Bytes
  length_eq : bytes.length = n
deriving DecidableEq

structure Environment where
  encode : Value → Bytes
  decode : Bytes → Option Value
  sha3 : Bytes → Digest 64
  sha256 : Bytes → Digest 32
  verifyDigest : (sig : String) → (digest : Digest 32) → (key : String) → Bool
  signDigest : (digest : Digest 32) → (privateKey : Bytes) → String
  publicKey : (privateKey : Bytes) → String
  normalizeNfc : String → String
  /-- `CID.parse(text, base58btc)` does not throw. -/
  parsesCid : String → Bool
  /-- `CID.parse(text).toV1().toString(base32)`, or `none` when it throws. -/
  canonicalCid : String → Option String
  /-- `String(value)` in an error message, `none` being `undefined`. -/
  display : Option Value → String

abbrev Hash := String

def utf8ToBytes (text : String) : Bytes := text.toUTF8.data.toList

def hexDigit (n : ℕ) : Char := "0123456789abcdef".toList.getD n '0'

def bytesToHex (b : Bytes) : String :=
  String.ofList (b.flatMap fun x => [hexDigit (x.toNat / 16), hexDigit (x.toNat % 16)])

def isLowerHex (c : Char) : Bool := "0123456789abcdef".toList.contains c

/-- `/^[0-9a-f]{64}$/`, the shape of a track id and of every sha256 key. -/
def isHex64 (text : String) : Bool := text.toList.length == 64 && text.toList.all isLowerHex

/-- `/^0[23][0-9a-f]{64}$/`. -/
def isCompressedPubkey (text : String) : Bool :=
  match text.toList with
  | '0' :: c :: rest => (c == '2' || c == '3') && rest.length == 64 && rest.all isLowerHex
  | _ => false

/-- A track id, or any other key of that shape. -/
structure TrackId where
  text : String
  isHex : isHex64 text = true
deriving DecidableEq

theorem TrackId.eq_of_text {a b : TrackId} (h : a.text = b.text) : a = b := by
  cases a
  cases b
  simpa using h

theorem isLowerHex_hexDigit : ∀ n < 16, isLowerHex (hexDigit n) = true := by decide

theorem toList_bytesToHex (b : Bytes) : (bytesToHex b).toList =
    b.flatMap fun x => [hexDigit (x.toNat / 16), hexDigit (x.toNat % 16)] := by
  rw [bytesToHex, String.toList_ofList]

theorem bytesToHex_length (b : Bytes) : (bytesToHex b).length = 2 * b.length := by
  rw [bytesToHex, String.length_ofList]
  induction b with
  | nil => rfl
  | cons x b ih =>
    simp only [List.flatMap_cons, List.length_append, ih, List.length_cons, List.length_nil]
    omega

theorem isHex64_bytesToHex (d : Digest 32) : isHex64 (bytesToHex d.bytes) = true := by
  rw [isHex64, String.length_toList, bytesToHex_length, d.length_eq, toList_bytesToHex,
    Bool.and_eq_true]
  refine ⟨by decide, List.all_eq_true.mpr fun c hc => ?_⟩
  obtain ⟨x, -, hc⟩ := List.mem_flatMap.mp hc
  have hx := x.toNat_lt
  rcases List.mem_cons.mp hc with rfl | hc
  · exact isLowerHex_hexDigit _ (by omega)
  · rw [List.mem_singleton.mp hc]
    exact isLowerHex_hexDigit _ (by omega)

namespace Environment
variable (E : Environment)

/-- `sha256_hex`: the key of a record, always of the shape of a track id. -/
def sha256Hex (b : Bytes) : TrackId := ⟨bytesToHex (E.sha256 b).bytes, isHex64_bytesToHex _⟩

def aboutKey : TrackId := E.sha256Hex (utf8ToBytes "about")

def profileKey : TrackId := E.sha256Hex (utf8ToBytes "profile")

/-- `record_key`: the operation key derived from a record's canonical bytes. -/
def recordKey (value : Value) : String := (E.sha256Hex (E.encode value)).text

end Environment

/-! ## Canonical values -/

/-- The finite doubles, the numbers the codec carries. -/
def IsDouble (q : ℚ) : Prop := ∃ (m : ℤ) (e : ℤ), |m| < 2 ^ 53 ∧ -1074 ≤ e ∧ e ≤ 971 ∧ q = m * 2 ^ e

/-- Map keys in canonical order: shorter first, then bytewise. -/
def keyBefore (a b : String) : Prop :=
  (utf8ToBytes a).length < (utf8ToBytes b).length ∨
    (utf8ToBytes a).length = (utf8ToBytes b).length ∧
      List.Lex (fun x y : UInt8 => x.toNat < y.toNat) (utf8ToBytes a) (utf8ToBytes b)

instance (a b : String) : Decidable (keyBefore a b) :=
  inferInstanceAs (Decidable (_ ∨ _))

/-- A value listed the one way the codec writes it; JavaScript objects that differ in the
order of their keys have the same canonical listing. -/
inductive Value.Canonical : Value → Prop
  | null : Canonical .null
  | bool (b : Bool) : Canonical (.bool b)
  | number (q : ℚ) (h : IsDouble q) : Canonical (.number q)
  | bigint (n : ℤ) (h : (Value.maxSafeInteger : ℤ) < |n|) (hb : -2 ^ 64 ≤ n ∧ n < 2 ^ 64) :
      Canonical (.bigint n)
  | string (s : String) : Canonical (.string s)
  | bytes (b : Bytes) : Canonical (.bytes b)
  | array (items : List Value) (h : ∀ v ∈ items, Canonical v) : Canonical (.array items)
  | record (fields : Fields) (hkeys : fields.Pairwise fun p q => keyBefore p.1 q.1)
      (h : ∀ p ∈ fields, Canonical p.2) : Canonical (.record fields)

/-- Decoding inverts encoding on canonical values. -/
def Environment.CodecLaw (E : Environment) : Prop :=
  ∀ v : Value, v.Canonical → E.decode (E.encode v) = some v

/-! ## Protocol CIDs -/

def rawCode : ℕ := 0x55
def dagPbCode : ℕ := 0x70
def dagCborCode : ℕ := 0x71

def cidPrefix : Bytes := [0x01, 0x71, 0x14, 0x40]

def formatProtocolCid (digest : Digest 64) : Hash := "z" ++ Base58.encode (cidPrefix ++ digest.bytes)

/-- `compute_cid_string`: the hash a block is stored and named under. -/
def computeCidString (E : Environment) (b : Bytes) : Hash := formatProtocolCid (E.sha3 b)

def isProtocolCid (text : String) : Bool :=
  match text.toList with
  | 'z' :: rest =>
    match Base58.decode (String.ofList rest) with
    | some b => b.length == 68 && b.take 4 == cidPrefix
    | none => false
  | _ => false

theorem formatProtocolCid_injective : Function.Injective formatProtocolCid := by
  intro a b h
  have hs : Base58.encode (cidPrefix ++ a.bytes) = Base58.encode (cidPrefix ++ b.bytes) := by
    have hl := congrArg String.toList h
    simp only [formatProtocolCid, String.toList_append] at hl
    exact String.toList_inj.mp (List.append_cancel_left hl)
  have hb := List.append_cancel_left (Base58.encode_injective hs)
  cases a
  cases b
  simpa using hb

theorem isProtocolCid_formatProtocolCid (digest : Digest 64) : isProtocolCid (formatProtocolCid digest) = true := by
  have htext : (formatProtocolCid digest).toList =
      'z' :: (Base58.encode (cidPrefix ++ digest.bytes)).toList := by
    rw [formatProtocolCid, String.toList_append]
    rfl
  simp [isProtocolCid, htext, String.ofList_toList, Base58.decode_encode, digest.length_eq, cidPrefix]

theorem formatProtocolCid_length_le (digest : Digest 64) : (formatProtocolCid digest).length ≤ 273 := by
  have h := Base58.encode_length_le (cidPrefix ++ digest.bytes)
  rw [List.length_append, digest.length_eq] at h
  have hprefix : cidPrefix.length = 4 := rfl
  have hz : "z".length = 1 := by decide
  rw [formatProtocolCid, String.length_append]
  omega

end RecordNode
