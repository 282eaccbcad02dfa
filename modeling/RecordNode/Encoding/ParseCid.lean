import RecordNode.Foundation.Varint
import RecordNode.Encoding.Base58Buffers

/-! # The general CID parser against the byte test

`parse_cid` reads a protocol CID through the general CID parser: the header is four
varints, which the parser accepts in any length, and the text of the CID it prints is
the one it was given. `is_protocol_cid` compares the bytes with the shortest header. So
the two differ on the texts with a padded header and on no others. -/

namespace RecordNode

open Base58

/-- What `CID.parse` returns, with the text its string cache holds. -/
structure ParsedCid where
  version : ℕ
  code : ℕ
  hashCode : ℕ
  digest : Bytes
  spelling : String

def sha3Code : ℕ := 0x14

def sha3Length : ℕ := 64

/-- The header of a CID: a first varint of 18 is the hash code of a version 0 CID, which
has no version or codec of its own. -/
def inspectBytes (bytes : Bytes) : Option (ℕ × ℕ × ℕ × Bytes) := do
  let (first, rest) ← Varint.read bytes
  let (version, code, multihash) ← if first = 18 then some (0, dagPbCode, bytes)
    else (Varint.read rest).map fun p => (first, p.1, p.2)
  if 1 < version then none
  else
    let (hashCode, rest) ← Varint.read multihash
    let (digestSize, digest) ← Varint.read rest
    if digest.length = digestSize then some (version, code, hashCode, digest) else none

/-- `CID.parse(text, base58btc)`: a version 0 CID takes no multibase letter. -/
def ParsedCid.parse (text : String) : Option ParsedCid :=
  match text.toList with
  | 'z' :: rest => do
    let bytes ← Base58.decode (String.ofList rest)
    let (version, code, hashCode, digest) ← inspectBytes bytes
    if version = 0 then none else some ⟨version, code, hashCode, digest, text⟩
  | _ => none

/-- `cid.toString(base58btc)`, from the cache. -/
def ParsedCid.toText (cid : ParsedCid) : String := cid.spelling

def parseCid (text : String) : Checked ParsedCid :=
  match ParsedCid.parse text with
  | none => refuse .invalidCid ("not a base58btc CID: " ++ text)
  | some cid =>
    if cid.version = 1 ∧ cid.code = dagCborCode ∧ cid.hashCode = sha3Code ∧ cid.digest.length = sha3Length ∧
        cid.toText = text then .ok cid
    else refuse .invalidCid ("not a dag-cbor sha3-512 CIDv1: " ++ text)

/-- How many needless groups each field of a header carries. -/
structure Padding where
  version : ℕ
  code : ℕ
  hashCode : ℕ
  size : ℕ

def Padding.total (p : Padding) : ℕ := p.version + p.code + p.hashCode + p.size

/-- The header of a protocol CID, padded so. -/
def paddedHeader (p : Padding) : Bytes :=
  Varint.padded 1 p.version ++ (Varint.padded dagCborCode p.code ++
    (Varint.padded sha3Code p.hashCode ++ Varint.padded sha3Length p.size))

def paddedCid (p : Padding) (digest : Digest 64) : String := "z" ++ Base58.encode (paddedHeader p ++ digest.bytes)

theorem length_paddedHeader (p : Padding) : (paddedHeader p).length = p.total + 4 := by
  simp only [paddedHeader, List.length_append, Varint.length_padded, Padding.total]
  omega

theorem paddedHeader_of_total {p : Padding} (h : p.total = 0) : paddedHeader p = cidPrefix := by
  obtain ⟨version, code, hashCode, size⟩ := p
  simp only [Padding.total] at h
  obtain ⟨rfl, rfl, rfl, rfl⟩ : version = 0 ∧ code = 0 ∧ hashCode = 0 ∧ size = 0 := by omega
  rfl

theorem paddedCid_of_total {p : Padding} (h : p.total = 0) (digest : Digest 64) :
    paddedCid p digest = formatProtocolCid digest := by
  rw [paddedCid, paddedHeader_of_total h, formatProtocolCid]

theorem toList_paddedCid (p : Padding) (digest : Digest 64) :
    (paddedCid p digest).toList = 'z' :: (Base58.encode (paddedHeader p ++ digest.bytes)).toList := by
  rw [paddedCid, String.toList_append]
  rfl

theorem paddedCid_inj {p : Padding} {digest short : Digest 64} (h : paddedCid p digest = formatProtocolCid short) :
    paddedHeader p ++ digest.bytes = cidPrefix ++ short.bytes := by
  refine Base58.encode_injective (String.toList_inj.mp ?_)
  have hl := congrArg String.toList h
  simp only [paddedCid, formatProtocolCid, String.toList_append] at hl
  exact List.append_cancel_left hl

theorem inspectBytes_paddedHeader (p : Padding) (digest : Digest 64) :
    inspectBytes (paddedHeader p ++ digest.bytes) = some (1, dagCborCode, sha3Code, digest.bytes) := by
  simp only [inspectBytes, paddedHeader, List.append_assoc]
  rw [Varint.read_padded (by norm_num)]
  simp only [Option.bind_eq_bind, Option.bind_some, OfNat.one_ne_ofNat, if_false]
  rw [Varint.read_padded (by norm_num [dagCborCode])]
  simp only [Option.map_some, Option.bind_some, lt_self_iff_false, if_false]
  rw [Varint.read_padded (by norm_num [sha3Code]), Option.bind_some, Varint.read_padded (by norm_num [sha3Length])]
  simp [digest.length_eq, sha3Length]

theorem parse_paddedCid (p : Padding) (digest : Digest 64) : ParsedCid.parse (paddedCid p digest) =
    some ⟨1, dagCborCode, sha3Code, digest.bytes, paddedCid p digest⟩ := by
  simp [ParsedCid.parse, toList_paddedCid, String.ofList_toList, decode_encode, inspectBytes_paddedHeader]

theorem parseCid_paddedCid (p : Padding) (digest : Digest 64) : parseCid (paddedCid p digest) =
    .ok ⟨1, dagCborCode, sha3Code, digest.bytes, paddedCid p digest⟩ := by
  simp [parseCid, parse_paddedCid, digest.length_eq, sha3Length, ParsedCid.toText]

/-- The bytes behind a header the profile accepts. -/
theorem exists_padding_of_inspectBytes {bytes digest : Bytes}
    (h : inspectBytes bytes = some (1, dagCborCode, sha3Code, digest)) (hlen : digest.length = sha3Length) :
    ∃ p, bytes = paddedHeader p ++ digest := by
  simp only [inspectBytes, Option.bind_eq_bind, Option.bind_eq_some_iff, Prod.exists] at h
  obtain ⟨first, rest, hfirst, h⟩ := h
  split at h
  · simp [Option.bind_eq_some_iff] at h
  · simp only [Option.bind_eq_some_iff, Option.map_eq_some_iff, Prod.exists, Prod.mk.injEq] at h
    obtain ⟨version, code, multihash, ⟨_, _, hcode, rfl, rfl, rfl⟩, h⟩ := h
    split at h
    · simp at h
    · simp only [Option.bind_eq_some_iff, Prod.exists] at h
      obtain ⟨hashCode, afterHash, hhash, digestSize, last, hsize, h⟩ := h
      split at h
      · rename_i hdigest
        simp only [Option.some.injEq, Prod.mk.injEq] at h
        obtain ⟨rfl, rfl, rfl, rfl⟩ := h
        obtain ⟨version, rfl⟩ := (Varint.read_eq_some_iff (by norm_num)).1 hfirst
        obtain ⟨code, rfl⟩ := (Varint.read_eq_some_iff (by norm_num [dagCborCode])).1 hcode
        obtain ⟨hashCode, rfl⟩ := (Varint.read_eq_some_iff (by norm_num [sha3Code])).1 hhash
        obtain ⟨size, rfl⟩ := (Varint.read_eq_some_iff (by rw [← hdigest, hlen]; norm_num [sha3Length])).1 hsize
        refine ⟨⟨version, code, hashCode, size⟩, ?_⟩
        simp only [paddedHeader, List.append_assoc, ← hdigest, hlen]
      · simp at h

theorem parseCid_ok_iff (text : String) : (∃ cid, parseCid text = .ok cid) ↔ ∃ p digest, text = paddedCid p digest := by
  constructor
  · rintro ⟨cid, h⟩
    unfold parseCid at h
    split at h
    · simp [refuse] at h
    · rename_i cid' hparse
      split at h
      · rename_i hprofile
        unfold ParsedCid.parse at hparse
        split at hparse
        · rename_i rest htext
          simp only [Option.bind_eq_bind, Option.bind_eq_some_iff, Prod.exists] at hparse
          obtain ⟨bytes, hbytes, version, code, hashCode, digest, hinspect, hparse⟩ := hparse
          split at hparse
          · simp at hparse
          · obtain rfl := Option.some.inj hparse
            obtain ⟨rfl, rfl, rfl, hlen, -⟩ := hprofile
            obtain ⟨p, rfl⟩ := exists_padding_of_inspectBytes hinspect hlen
            refine ⟨p, ⟨digest, hlen⟩, ?_⟩
            rw [paddedCid, ← decode_eq_some_iff.1 hbytes, ← String.ofList_toList (s := text), htext, String.ofList_cons]
            rfl
        · simp at hparse
      · simp [refuse] at h
  · rintro ⟨p, digest, rfl⟩
    exact ⟨_, parseCid_paddedCid p digest⟩

/-- A padded header is the one thing the byte test refuses and the parser accepts. -/
theorem isProtocolCid_iff_parseCid (text : String) :
    (isProtocolCid text = true ↔ ∃ cid, parseCid text = .ok cid) ↔
      ¬ ∃ p digest, 0 < p.total ∧ text = paddedCid p digest := by
  rw [parseCid_ok_iff, isProtocolCid_iff]
  constructor
  · rintro h ⟨p, digest, hpad, rfl⟩
    obtain ⟨short, hshort⟩ := h.2 ⟨p, digest, rfl⟩
    have hlen := congrArg List.length (paddedCid_inj hshort)
    simp only [List.length_append, length_paddedHeader, digest.length_eq, short.length_eq] at hlen
    have hprefix : cidPrefix.length = 4 := rfl
    omega
  · intro h
    constructor
    · rintro ⟨digest, rfl⟩
      exact ⟨⟨0, 0, 0, 0⟩, digest, (paddedCid_of_total rfl digest).symm⟩
    · rintro ⟨p, digest, rfl⟩
      have hpad : p.total = 0 := by
        by_contra hne
        exact h ⟨p, digest, by omega, rfl⟩
      exact ⟨digest, paddedCid_of_total hpad digest⟩

/-- The version written in two groups, before a digest of zeros. -/
def paddedVersionCid : String := paddedCid ⟨1, 0, 0, 0⟩ ⟨List.replicate 64 0, List.length_replicate ..⟩

theorem paddedVersionCid_differs :
    isProtocolCid paddedVersionCid = false ∧ ∃ cid, parseCid paddedVersionCid = .ok cid := by
  refine ⟨?_, _, parseCid_paddedCid _ _⟩
  rw [← Bool.not_eq_true, isProtocolCid_iff]
  rintro ⟨digest, h⟩
  have hlen := congrArg List.length (paddedCid_inj h)
  simp only [List.length_append, length_paddedHeader, digest.length_eq, Padding.total] at hlen
  have hlead : cidPrefix.length = 4 := rfl
  simp [hlead] at hlen

end RecordNode
