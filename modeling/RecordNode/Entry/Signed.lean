import RecordNode.Entry.Types

/-! # Signed entries at rest and on the wire

Size first, then canonical form, then shape: what a block must pass before any
signature work. The accepted entry carries the bytes it came from. -/

namespace RecordNode

def require (condition : Bool) (code : ProtocolErrorCode) (message : String) : Checked Unit :=
  if condition then .ok () else refuse code message

theorem require_eq_ok_iff {condition : Bool} {code : ProtocolErrorCode} {message : String} (u : Unit) :
    require condition code message = .ok u ↔ condition = true := by
  cases condition <;> simp [require, refuse]

@[simp] theorem refuse_ne_ok {α : Type} {code : ProtocolErrorCode} {message : String} {a : α} :
    (refuse code message : Checked α) = .ok a ↔ False := by
  simp [refuse]

def maxEntryPointers : ℕ := 256

def signedEntryMaxBytes : ℕ := 256 * 1024

def signedEntryFields : List String := ["id", "payload", "next", "refs", "v", "clock", "key", "sig"]

def assertSignedEntrySize (b : Bytes) : Checked Unit :=
  require (b.length ≤ signedEntryMaxBytes) .sizeExceeded
    s!"signed entry is {b.length} bytes, over the {signedEntryMaxBytes}-byte bound"

/-- At most 256 entry hashes, each a plain string. -/
def assertPointers (value : Option Value) (label : String) : Checked (List Hash) :=
  match value.bind Value.asArray? with
  | none => refuse .invalidShape s!"{label} must be an array"
  | some items =>
    if items.length > maxEntryPointers then
      refuse .sizeExceeded
        s!"{label} holds {items.length} hashes, over the {maxEntryPointers} fan-out cap"
    else
      match items.mapM Value.asString? with
      | some hashes =>
        if hashes.all isProtocolCid then .ok hashes
        else refuse .invalidShape s!"{label} elements must be base58btc entry hashes"
      | none => refuse .invalidShape s!"{label} elements must be base58btc entry hashes"

def assertClockFields (value : Option Value) : Checked LamportClock :=
  match value.bind Value.fields? with
  | none => refuse .invalidShape "clock must be \x7bid, time\x7d"
  | some fields =>
    if fields.length ≠ 2 then refuse .invalidShape "clock must be \x7bid, time\x7d"
    else
      match fields.string? "id" with
      | some id =>
        if isCompressedPubkey id then
          match fields.uint? "time" with
          | some time => .ok ⟨id, time⟩
          | none => refuse .invalidShape "clock.time must be an unsigned integer"
        else refuse .invalidShape "clock.id must be a compressed pubkey hex"
      | none => refuse .invalidShape "clock.id must be a compressed pubkey hex"

/-- `assert_unsigned_fields` followed by the signer's key and signature. -/
def assertUnsignedFields (fields : Fields) (key sig : String) : Checked SignedEntry :=
  match fields.string? "id" with
  | none => refuse .invalidShape "entry id must be a string"
  | some id =>
    match fields.get "payload" with
    | none => refuse .invalidShape "entry payload is missing"
    | some payload =>
      if fields.isInt "v" 2 then do
        let next ← assertPointers (fields.get "next") "next"
        let refs ← assertPointers (fields.get "refs") "refs"
        let clock ← assertClockFields (fields.get "clock")
        return ⟨id, payload, next, refs, clock, key, sig⟩
      else refuse .invalidShape "entry v must be 2"

def assertSignedEntryShape (E : Environment) (value : Value) : Checked SignedEntry :=
  match value.fields? with
  | none => refuse .invalidShape "a signed entry must be a map"
  | some fields =>
    if fields.length ≠ signedEntryFields.length ∨ ¬ signedEntryFields.all (fields.names.contains ·) then
      refuse .invalidShape
        ("a signed entry has exactly the fields " ++ String.intercalate ", " signedEntryFields)
    else
      match fields.string? "key" with
      | some key =>
        if isCompressedPubkey key then
          match fields.string? "sig" with
          | some sig => assertUnsignedFields fields key sig
          | none => refuse .invalidShape "entry.sig must be a string"
        else refuse .invalidPublicKey
          ("entry.key is not a compressed pubkey hex: " ++ E.display (fields.get "key"))
      | none => refuse .invalidPublicKey
          ("entry.key is not a compressed pubkey hex: " ++ E.display (fields.get "key"))

/-- The input must equal the canonical encoding of what it decodes to. -/
def decodeCanonical (E : Environment) (b : Bytes) : Checked Value :=
  match E.decode b with
  | none => refuse .malformedEncoding "dag-cbor decode failed"
  | some value =>
    if E.encode value = b then .ok value
    else refuse .nonCanonicalEncoding "input is not canonical dag-cbor"

def withHash (E : Environment) (entry : SignedEntry) (b : Bytes) : HashedEntry := ⟨E.sha3 b, b, entry⟩

def hashSignedEntry (E : Environment) (entry : SignedEntry) : HashedEntry :=
  withHash E entry (E.encode entry.toValue)

def decodeSignedEntry (E : Environment) (b : Bytes) : Checked HashedEntry := do
  assertSignedEntrySize b
  let value ← decodeCanonical E b
  let entry ← assertSignedEntryShape E value
  return withHash E entry b

/-! ## What decoding gives back -/

variable {E : Environment}

theorem decodeSignedEntry_bytes {b : Bytes} {h : HashedEntry} (hd : decodeSignedEntry E b = .ok h) :
    h.bytes = b ∧ h.digest = E.sha3 b := by
  simp only [decodeSignedEntry, bind_eq_ok] at hd
  obtain ⟨-, -, -, -, entry, -, hp⟩ := hd
  cases Except.ok.inj hp
  exact ⟨rfl, rfl⟩

/-- Equal hashes of decoded blocks whose digests do not collide mean equal entries. -/
theorem eq_of_hash_eq {a b : HashedEntry} (ha : decodeSignedEntry E a.bytes = .ok a)
    (hb : decodeSignedEntry E b.bytes = .ok b) (hinj : Set.InjOn E.sha3 {a.bytes, b.bytes})
    (h : a.hash = b.hash) : a = b := by
  have hdig : E.sha3 a.bytes = E.sha3 b.bytes := by
    rw [← (decodeSignedEntry_bytes ha).2, ← (decodeSignedEntry_bytes hb).2]
    exact formatProtocolCid_injective h
  have hbytes : a.bytes = b.bytes := hinj (by simp) (by simp) hdig
  rw [hbytes, hb] at ha
  exact (Except.ok.inj ha).symm

/-! ## Writing an entry and reading it back -/

theorem mapM_asString_map (l : List String) : (l.map Value.string).mapM Value.asString? = some l := by
  induction l with
  | nil => rfl
  | cons a l ih => simp [List.mapM_cons, Value.asString?, ih]

theorem assertPointers_map {l hashes : List Hash} {label : String}
    (h : assertPointers (some (.array (l.map .string))) label = .ok hashes) : hashes = l := by
  simp only [assertPointers, Option.bind_some, Value.asArray?, mapM_asString_map] at h
  split at h
  · simp [refuse] at h
  · split at h
    · exact (Except.ok.inj h).symm
    · simp [refuse] at h

theorem assertClockFields_record {id : String} {time : ℕ} {clock : LamportClock}
    (h : assertClockFields (some (.record [("id", .string id), ("time", .number time)])) = .ok clock) :
    clock = ⟨id, time⟩ ∧ time ≤ Value.maxSafeInteger := by
  have h1 : Fields.string? [("id", .string id), ("time", .number time)] "id" = some id := rfl
  have h2 : Fields.uint? [("id", .string id), ("time", .number time)] "time" =
      Value.asUint? (.number time) := rfl
  simp only [assertClockFields, Option.bind_some, Value.fields?, h1, h2, List.length_cons,
    List.length_nil, Value.asUint_natCast, ne_eq, not_true_eq_false, if_false] at h
  split at h
  · by_cases ht : time ≤ Value.maxSafeInteger
    · rw [if_pos ht] at h
      exact ⟨(Except.ok.inj h).symm, ht⟩
    · simp [if_neg ht, refuse] at h
  · simp [refuse] at h

/-- A signed entry that passes the shape check as a value is read back as it is. -/
theorem assertSignedEntryShape_toValue {e e' : SignedEntry}
    (h : assertSignedEntryShape E e.toValue = .ok e') :
    e' = e ∧ e.clock.time ≤ Value.maxSafeInteger := by
  obtain ⟨id, payload, next, refs, clock, key, sig⟩ := e
  obtain ⟨cid, ctime⟩ := clock
  simp only [assertSignedEntryShape, SignedEntry.toValue, Value.fields?] at h
  split at h
  · simp [refuse] at h
  -- Each field is found under its name in the listing.
  have hread : ∀ fields : Fields, fields = [
      ("v", .number 2), ("id", .string id), ("key", .string key), ("sig", .string sig),
      ("next", .array (next.map .string)), ("refs", .array (refs.map .string)),
      ("clock", .record [("id", .string cid), ("time", .number ctime)]), ("payload", payload)] →
      fields.string? "key" = some key ∧ fields.string? "sig" = some sig ∧
      fields.string? "id" = some id ∧ fields.get "payload" = some payload ∧ fields.isInt "v" 2 = true ∧
      fields.get "next" = some (.array (next.map .string)) ∧
      fields.get "refs" = some (.array (refs.map .string)) ∧
      fields.get "clock" = some (.record [("id", .string cid), ("time", .number ctime)]) := by
    rintro _ rfl
    exact ⟨rfl, rfl, rfl, rfl, rfl, rfl, rfl, rfl⟩
  obtain ⟨hk, hs, hi, hp, hv, hn, hr, hc⟩ := hread _ rfl
  simp only [hk, hs, assertUnsignedFields, hi, hp, hv, hn, hr, hc, if_true] at h
  split at h
  · simp only [bind_eq_ok] at h
    obtain ⟨n', hn', r', hr', c', hc', hres⟩ := h
    obtain ⟨rfl, ht⟩ := assertClockFields_record hc'
    cases Except.ok.inj hres
    rw [assertPointers_map hn', assertPointers_map hr']
    exact ⟨rfl, ht⟩
  · simp [refuse] at h

/-- A clock within bounds is read back as it is. -/
theorem assertClockFields_record_eq {id : String} {time : ℕ} (hid : isCompressedPubkey id = true)
    (htime : time ≤ Value.maxSafeInteger) :
    assertClockFields (some (.record [("id", .string id), ("time", .number time)])) = .ok ⟨id, time⟩ := by
  have h1 : Fields.string? [("id", .string id), ("time", .number time)] "id" = some id := rfl
  have h2 : Fields.uint? [("id", .string id), ("time", .number time)] "time" = some time :=
    (Value.asUint_natCast time).trans (if_pos htime)
  simp only [assertClockFields, Option.bind_some, Value.fields?, h1, h2, List.length_cons,
    List.length_nil, ne_eq, not_true_eq_false, if_false]
  exact if_pos hid

/-- The map of an entry reads back as the entry, if its pointers, keys and clock are in order. -/
theorem assertSignedEntryShape_toValue_eq {e : SignedEntry}
    (hnext : assertPointers (some (.array (e.next.map .string))) "next" = .ok e.next)
    (hrefs : assertPointers (some (.array (e.refs.map .string))) "refs" = .ok e.refs)
    (hkey : isCompressedPubkey e.key = true) (hclock : isCompressedPubkey e.clock.id = true)
    (htime : e.clock.time ≤ Value.maxSafeInteger) : assertSignedEntryShape E e.toValue = .ok e := by
  obtain ⟨id, payload, next, refs, ⟨cid, ctime⟩, key, sig⟩ := e
  have hclockFields := assertClockFields_record_eq hclock htime
  have hread : ∀ fields : Fields, fields = [
      ("v", .number 2), ("id", .string id), ("key", .string key), ("sig", .string sig),
      ("next", .array (next.map .string)), ("refs", .array (refs.map .string)),
      ("clock", .record [("id", .string cid), ("time", .number ctime)]), ("payload", payload)] →
      assertUnsignedFields fields key sig = .ok ⟨id, payload, next, refs, ⟨cid, ctime⟩, key, sig⟩ ∧
      fields.string? "key" = some key ∧ fields.string? "sig" = some sig := by
    rintro fields hf
    have hi : fields.string? "id" = some id := by rw [hf]; rfl
    have hp : fields.get "payload" = some payload := by rw [hf]; rfl
    have hv : fields.isInt "v" 2 = true := by rw [hf]; rfl
    have hn : fields.get "next" = some (.array (next.map .string)) := by rw [hf]; rfl
    have hr : fields.get "refs" = some (.array (refs.map .string)) := by rw [hf]; rfl
    have hc : fields.get "clock" = some (.record [("id", .string cid), ("time", .number ctime)]) := by
      rw [hf]; rfl
    refine ⟨?_, by rw [hf]; rfl, by rw [hf]; rfl⟩
    simp only [assertUnsignedFields, hi, hp, hv, hn, hr, hc, hnext, hrefs, hclockFields, if_true]
    rfl
  obtain ⟨hu, hk, hs⟩ := hread _ rfl
  simp only [assertSignedEntryShape, SignedEntry.toValue, Value.fields?, hk, hs]
  rw [if_neg (by simp [signedEntryFields, Fields.names]), if_pos hkey]
  exact hu

theorem isDouble_natCast {n : ℕ} (h : n ≤ Value.maxSafeInteger) : IsDouble (n : ℚ) := by
  refine ⟨n, 0, ?_, by norm_num, by norm_num, by simp⟩
  rw [Value.maxSafeInteger] at h
  simp
  omega

theorem toValue_canonical {e : SignedEntry} (hp : e.payload.Canonical)
    (ht : e.clock.time ≤ Value.maxSafeInteger) : e.toValue.Canonical := by
  have hstrings (l : List String) : (Value.array (l.map .string)).Canonical := by
    refine .array _ fun v hv => ?_
    obtain ⟨s, -, rfl⟩ := List.mem_map.mp hv
    exact .string s
  have hclock : (Value.record [("id", .string e.clock.id), ("time", .number e.clock.time)]).Canonical := by
    refine .record _ (by simp; decide) ?_
    simp only [List.forall_mem_cons]
    exact ⟨.string _, .number _ (isDouble_natCast ht), by simp⟩
  have h2 : IsDouble 2 := by exact_mod_cast isDouble_natCast (n := 2) (by decide)
  refine .record _ (by simp; decide) ?_
  simp only [List.forall_mem_cons]
  exact ⟨.number 2 h2, .string _, .string _, .string _, hstrings _, hstrings _, hclock, hp, by simp⟩
/-- The codec reads back the block of a locally built entry. -/
theorem decodeSignedEntry_hashSignedEntry (hE : E.CodecLaw) {e e' : SignedEntry}
    (hp : e.payload.Canonical) (hshape : assertSignedEntryShape E e.toValue = .ok e')
    (hsize : assertSignedEntrySize (hashSignedEntry E e).bytes = .ok ()) :
    decodeSignedEntry E (hashSignedEntry E e).bytes = .ok (hashSignedEntry E e) := by
  obtain ⟨rfl, ht⟩ := assertSignedEntryShape_toValue hshape
  have hdecode : E.decode (E.encode e'.toValue) = some e'.toValue := hE _ (toValue_canonical hp ht)
  have hcanonical : decodeCanonical E (hashSignedEntry E e').bytes = .ok e'.toValue := by
    simp [decodeCanonical, hashSignedEntry, withHash, hdecode]
  simp only [decodeSignedEntry, bind_eq_ok]
  exact ⟨(), hsize, e'.toValue, hcanonical, e', hshape, rfl⟩

end RecordNode
