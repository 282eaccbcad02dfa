import Mathlib.Data.Rat.Defs
import Mathlib.Algebra.Order.Ring.Rat
import Mathlib.Data.List.Basic

/-! # Decoded values and protocol errors

A `Value` is what the dag-cbor codec hands the program: the data a JavaScript
caller sees as `unknown`. Numbers are the finite doubles, kept exactly as
rationals; an integer past the safe range decodes to a bigint. A CID object is
kept through its own properties. Reading a field of anything that is not an
object gives `none`, which stands for `undefined`. -/

namespace RecordNode

abbrev Bytes := List UInt8

inductive Value where
  | null
  | bool (b : Bool)
  | number (q : ℚ)
  | bigint (n : ℤ)
  | string (s : String)
  | bytes (b : Bytes)
  | link (properties : List (String × Value))
  | array (items : List Value)
  | record (fields : List (String × Value))
deriving Inhabited

abbrev Fields := List (String × Value)

namespace Value

/-- The own properties of an object that is not an array; bytes list their indices. -/
def fields? : Value → Option Fields
  | .record fields => some fields
  | .link properties => some properties
  | .bytes b => some (b.zipIdx.map fun (x, i) => (toString i, .number x.toNat))
  | _ => none

def isRecord (v : Value) : Bool := v.fields?.isSome

def asString? : Value → Option String
  | .string s => some s
  | _ => none

def asArray? : Value → Option (List Value)
  | .array items => some items
  | _ => none

def asNumber? : Value → Option ℚ
  | .number q => some q
  | _ => none

def maxSafeInteger : ℕ := 2 ^ 53 - 1

/-- A safe nonnegative integer, the program's `is_uint`. -/
def asUint? : Value → Option ℕ
  | .number q => if q.den = 1 ∧ 0 ≤ q.num ∧ q.num ≤ maxSafeInteger then some q.num.toNat else none
  | _ => none

/-- Equality of scalars as `===` decides it; no two objects are the same one. -/
def sameScalar : Value → Value → Bool
  | .null, .null => true
  | .bool a, .bool b => a == b
  | .number a, .number b => a == b
  | .bigint a, .bigint b => a == b
  | .string a, .string b => a == b
  | _, _ => false

end Value

namespace Fields

def get (fields : Fields) (name : String) : Option Value := fields.lookup name

def has (fields : Fields) (name : String) : Bool := (fields.get name).isSome

def names (fields : Fields) : List String := fields.map Prod.fst

def string? (fields : Fields) (name : String) : Option String := (fields.get name).bind Value.asString?

def array? (fields : Fields) (name : String) : Option (List Value) :=
  (fields.get name).bind Value.asArray?

def uint? (fields : Fields) (name : String) : Option ℕ := (fields.get name).bind Value.asUint?

/-- The field holds exactly this integer, as in `value.v === 1`. -/
def isInt (fields : Fields) (name : String) (n : ℤ) : Bool :=
  match fields.get name with
  | some (.number q) => q == n
  | _ => false

end Fields

/-- Every code a `ProtocolError` of the entry and oplog layers carries. -/
inductive ProtocolErrorCode where
  | malformedEncoding
  | nonCanonicalEncoding
  | sizeExceeded
  | invalidShape
  | invalidCid
  | cidMismatch
  | contentUnavailable
  | invalidPublicKey
  | invalidPrivateKey
  | testKeyRefused
  | invalidFingerprint
  | invalidLibraryName
  | invalidLibraryAddress
  | libraryRejected
  | libraryUnopenable
  | unsupportedAcType
  | invalidOperation
  | invalidSignature
  | unauthorisedWriter
  | invalidClock
  | capabilityDenied
  | capabilityExpired
  | capabilityRevoked
  | duplicateEntry
  | topicTooLong
deriving DecidableEq, Repr

structure ProtocolError where
  code : ProtocolErrorCode
  message : String
deriving DecidableEq, Repr

/-- A check that returns a value or throws a protocol error. -/
abbrev Checked (α : Type*) := Except ProtocolError α

def refuse {α : Type*} (code : ProtocolErrorCode) (message : String) : Checked α :=
  .error ⟨code, message⟩

/-- A sequence of checks succeeds exactly when each of them does. -/
theorem bind_eq_ok {α β : Type} (x : Checked α) (f : α → Checked β) (b : β) :
    (x >>= f) = .ok b ↔ ∃ a, x = .ok a ∧ f a = .ok b := by
  cases x with
  | error e => simp [bind, Except.bind]
  | ok a => simp [bind, Except.bind]

/-- The outcome of a check with the message text of a refusal dropped. -/
def Checked.verdict {α : Type*} (x : Checked α) : Except ProtocolErrorCode α :=
  x.mapError ProtocolError.code

theorem Value.asUint_natCast (n : ℕ) :
    (Value.number n).asUint? = if n ≤ Value.maxSafeInteger then some n else none := by
  simp only [Value.asUint?, Rat.den_natCast, Rat.num_natCast, Int.natCast_nonneg, true_and,
    Int.ofNat_le, Int.toNat_natCast]

/-! ## Every item of a list -/

theorem mapM_eq_some_iff {α β : Type} {f : α → Option β} {l : List α} {m : List β} :
    l.mapM f = some m ↔ l.map f = m.map some := by
  induction l generalizing m with
  | nil => cases m <;> simp
  | cons a l ih =>
    cases m with
    | nil => simp [Option.bind_eq_some_iff]
    | cons b m =>
      simp only [List.mapM_cons, Option.bind_eq_bind, Option.bind_eq_some_iff, Option.pure_def, Option.some_inj,
        List.cons.injEq, List.map_cons]
      constructor
      · rintro ⟨c, hc, n, hn, rfl, rfl⟩
        exact ⟨hc, ih.mp hn⟩
      · rintro ⟨hb, hm⟩
        exact ⟨b, hb, m, ih.mpr hm, rfl, rfl⟩

theorem length_of_mapM {α β : Type} {f : α → Option β} {l : List α} {m : List β} (h : l.mapM f = some m) :
    m.length = l.length := by
  have hlen := congrArg List.length (mapM_eq_some_iff.mp h)
  simpa using hlen.symm

theorem mem_of_mapM {α β : Type} {f : α → Option β} {l : List α} {m : List β} (h : l.mapM f = some m) {b : β}
    (hb : b ∈ m) : ∃ a ∈ l, f a = some b := by
  have hmem : some b ∈ l.map f := mapM_eq_some_iff.mp h ▸ List.mem_map_of_mem hb
  exact List.mem_map.mp hmem

theorem mapM_eq_none_iff {α β : Type} {f : α → Option β} {l : List α} : l.mapM f = none ↔ ∃ a ∈ l, f a = none := by
  induction l with
  | nil => simp
  | cons a l ih =>
    cases hf : f a with
    | none => simp [hf]
    | some b =>
      have hmap : (a :: l).mapM f = none ↔ l.mapM f = none := by
        cases hl : l.mapM f <;> simp [hf, hl]
      rw [hmap, ih]
      simp [hf]

/-- What is left of a list whose items all read is read to what is left of the results. -/
theorem mapM_sublist {α β : Type} {f : α → Option β} {l l' : List α} (h : l.Sublist l') {read' : List β}
    (hread : l'.mapM f = some read') : ∃ read, l.mapM f = some read ∧ read.Sublist read' := by
  have hsub := h.map f
  rw [mapM_eq_some_iff.mp hread, List.sublist_map_iff] at hsub
  obtain ⟨read, hread, hmap⟩ := hsub
  exact ⟨read, mapM_eq_some_iff.mpr hmap, hread⟩

end RecordNode
