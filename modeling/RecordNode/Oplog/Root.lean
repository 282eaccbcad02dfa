import RecordNode.Encoding.PlainEnvironment
import RecordNode.Oplog.Batch

/-! # Parentless entries

An entry with no parents needs nothing from the oplog but its write list. So a
write-list key's first entry is accepted wherever its payload validates, and a
merge of its block holds it. -/

namespace RecordNode

open Foundation

variable {E : Environment} {chain : ResolvedAcChain} {o : Oplog}

theorem assertSignedEntryShape_root {e : SignedEntry} (hnext : e.next = []) (hrefs : e.refs = [])
    (hkey : isCompressedPubkey e.key = true) (hclock : isCompressedPubkey e.clock.id = true)
    (htime : e.clock.time ≤ Value.maxSafeInteger) : assertSignedEntryShape E e.toValue = .ok e :=
  assertSignedEntryShape_toValue_eq (by rw [hnext]; rfl) (by rw [hrefs]; rfl) hkey hclock htime

/-- A write-list key's entry that passes its own check, has no parents and starts the
clock, is accepted by any oplog of the chain. -/
theorem verifyEntry_root {hashed : HashedEntry} {operation : Operation}
    (hcheck : checkEntry E o.chain hashed = .ok operation)
    (hw : isWriteListKey o hashed.entry.key = true) (hnext : hashed.entry.next = [])
    (htime : hashed.entry.clock.time = 1) : verifyEntry E o hashed = .ok ⟨hashed, operation⟩ := by
  refine (verifyEntry_eq_ok_iff E o hashed _).mpr ⟨rfl, hcheck, ?_, ?_⟩
  · rw [assertClock_eq_ok_iff, hnext, htime]
    exact ⟨by simp, rfl⟩
  · simp [authoriseEntry, hw]

/-- Merging the block of an entry that verifies, not held yet, inserts it and nothing else. -/
theorem mergeEntries_new {hashed : HashedEntry} {operation : Operation}
    (hd : decodeSignedEntry E hashed.bytes = .ok hashed)
    (hv : verifyEntry E o hashed = .ok ⟨hashed, operation⟩) (hold : ¬ o.Has hashed.hash) :
    (mergeEntries E o [hashed.bytes]).1 =
        (settle E (insertEntry E o ⟨hashed, operation⟩) [⟨hashed, operation⟩]).1 ∧
      (mergeEntries E o [hashed.bytes]).2.merged = [⟨hashed, operation⟩] ∧
      (mergeEntries E o [hashed.bytes]).2.rejected = [] := by
  have hnot : o.entries.has hashed.hash = false :=
    Bool.eq_false_iff.mpr fun hh => hold ((has_iff_entries_has o _).mpr hh)
  have hdecoded : decodedBlocks E o [hashed.bytes] = [hashed] := by simp [decodedBlocks, hd, hnot]
  have hundecodable : undecodable E [hashed.bytes] = [] := by simp [undecodable, hd]
  refine ⟨?_, ?_, ?_⟩ <;>
    simp [mergeEntries, insertBlocks, admitAll, hdecoded, hundecodable, sortBy, admitEntry, hnot, hv]

theorem mergeEntries_root_new {hashed : HashedEntry} {operation : Operation}
    (hd : decodeSignedEntry E hashed.bytes = .ok hashed)
    (hcheck : checkEntry E o.chain hashed = .ok operation)
    (hw : isWriteListKey o hashed.entry.key = true) (hnext : hashed.entry.next = [])
    (htime : hashed.entry.clock.time = 1) (hold : ¬ o.Has hashed.hash) :
    (mergeEntries E o [hashed.bytes]).1 =
        (settle E (insertEntry E o ⟨hashed, operation⟩) [⟨hashed, operation⟩]).1 ∧
      (mergeEntries E o [hashed.bytes]).2.merged = [⟨hashed, operation⟩] ∧
      (mergeEntries E o [hashed.bytes]).2.rejected = [] :=
  mergeEntries_new hd (verifyEntry_root hcheck hw hnext htime) hold

/-- Merging the block of such an entry leaves it held. -/
theorem mergeEntries_root {hashed : HashedEntry} {operation : Operation}
    (hd : decodeSignedEntry E hashed.bytes = .ok hashed)
    (hcheck : checkEntry E o.chain hashed = .ok operation)
    (hw : isWriteListKey o hashed.entry.key = true) (hnext : hashed.entry.next = [])
    (htime : hashed.entry.clock.time = 1) :
    ∃ e, (mergeEntries E o [hashed.bytes]).1.entries.get hashed.hash = some e := by
  by_cases hold : o.Has hashed.hash
  · have hdecoded : decodedBlocks E o [hashed.bytes] = [] := by
      simp [decodedBlocks, hd, (has_iff_entries_has o _).mp hold]
    have hrun : (mergeEntries E o [hashed.bytes]).1 = (settle E o []).1 := by
      simp [mergeEntries, insertBlocks, admitAll, hdecoded, sortBy]
    rw [hrun, (settle_base _ _).entries]
    exact hold
  · rw [(mergeEntries_root_new hd hcheck hw hnext htime hold).1, (settle_base _ _).entries]
    exact ⟨⟨hashed, operation⟩, insertEntry_get_self hold⟩

/-! ## What a key pair signs first -/

/-- The parentless entry a key pair signs for a library. -/
def rootEntry (E : Environment) (address : String) (payload : Value) (keyPair : KeyPair) : HashedEntry :=
  hashSignedEntry E (signEntry E
    ⟨address, payload, [], [], ⟨E.publicKey keyPair.privateKey, 1⟩, "", ""⟩ keyPair)

section RootEntry
variable {address : String} {payload : Value} {keyPair : KeyPair}

theorem rootEntry_shape (hkey : isCompressedPubkey (E.publicKey keyPair.privateKey) = true) :
    assertSignedEntryShape E (rootEntry E address payload keyPair).entry.toValue =
      .ok (rootEntry E address payload keyPair).entry :=
  assertSignedEntryShape_root rfl rfl hkey hkey (by decide : 1 ≤ Value.maxSafeInteger)

/-- Nothing in the check of an entry compares the library it was signed for with the
library it is checked for: `address` is free. -/
theorem checkEntry_rootEntry {operation : Operation}
    (hkey : isCompressedPubkey (E.publicKey keyPair.privateKey) = true)
    (hsig : ∀ d, E.verifyDigest (E.signDigest d keyPair.privateKey) d
      (E.publicKey keyPair.privateKey) = true)
    (hsize : (rootEntry E address payload keyPair).bytes.length ≤ signedEntryMaxBytes)
    (hw : chain.writeList.contains (E.publicKey keyPair.privateKey) = true)
    (hop : validateOperation E chain.type true payload = .ok operation) :
    checkEntry E chain (rootEntry E address payload keyPair) = .ok operation := by
  have hw' : chain.writeList.contains (rootEntry E address payload keyPair).entry.key = true := hw
  have hverify : verifyEntrySignature E (rootEntry E address payload keyPair).entry = true := hsig _
  simp only [checkEntry, bind_eq_ok]
  refine ⟨(), (require_eq_ok_iff _).mpr (decide_eq_true hsize), _, rootEntry_shape hkey, operation, ?_, (),
    (require_eq_ok_iff _).mpr hverify, (), (require_eq_ok_iff _).mpr ?_, rfl⟩
  · rw [hw']
    exact hop
  · rw [hw']
    simp

theorem decodeSignedEntry_rootEntry (hE : E.CodecLaw) (hp : payload.Canonical)
    (hkey : isCompressedPubkey (E.publicKey keyPair.privateKey) = true)
    (hsize : (rootEntry E address payload keyPair).bytes.length ≤ signedEntryMaxBytes) :
    decodeSignedEntry E (rootEntry E address payload keyPair).bytes =
      .ok (rootEntry E address payload keyPair) :=
  decodeSignedEntry_hashSignedEntry hE hp (rootEntry_shape hkey)
    ((require_eq_ok_iff _).mpr (decide_eq_true hsize))

end RootEntry

/-! ## Two libraries of one owner

Entries one can compute with: deletions signed in the plain environment. -/

namespace Sample

def owner : KeyPair := ⟨[1]⟩

def ownerKey : String := plainEnvironment.publicKey owner.privateKey

/-- Two recordstores with the same writer. -/
def libraryA : ResolvedAcChain := ⟨"/record/a", "a", .recordstore, [ownerKey], "ma", "wa", "la"⟩

def libraryB : ResolvedAcChain := ⟨"/record/b", "b", .recordstore, [ownerKey], "mb", "wb", "lb"⟩

def delPayload (key : TrackId) : Value :=
  .record [("op", .string "DEL"), ("key", .string key.text),
    ("value", .record [("type", .string "track"), ("timestamp", .number 1)])]

def entryFor (chain : ResolvedAcChain) (payload : Value) : HashedEntry :=
  rootEntry plainEnvironment chain.address payload owner

theorem entryFor_id (chain : ResolvedAcChain) (payload : Value) :
    (entryFor chain payload).entry.id = chain.address := rfl

theorem delPayload_canonical (key : TrackId) : (delPayload key).Canonical := by
  have h1 : IsDouble 1 := by exact_mod_cast isDouble_natCast (n := 1) (by decide)
  have hvalue : (Value.record [("type", .string "track"), ("timestamp", .number 1)]).Canonical := by
    refine .record _ (by simp; decide) ?_
    simp only [List.forall_mem_cons]
    exact ⟨.string _, .number 1 h1, by simp⟩
  refine .record _ (by simp; decide) ?_
  simp only [List.forall_mem_cons]
  exact ⟨.string _, .string _, hvalue, by simp⟩

theorem validate_delPayload (E : Environment) (w : Bool) (key : TrackId) :
    validateOperation E .recordstore w (delPayload key) = .ok (.del key 1 none) := by
  have hkey : trackId? key.text = some key := by
    simp [trackId?, key.isHex]
  have h1 : Fields.uint? [("type", .string "track"), ("timestamp", .number 1)] "timestamp" = some 1 := by
    decide
  simp [validateOperation, validateRecordOperation, delPayload, Value.fields?, Fields.string?, Fields.get,
    Fields.has, List.lookup_cons, Value.asString?, hkey, require, validateDelValue, delValueFields, Fields.names, h1]
  rfl

theorem literal_lengths :
    ["v", "id", "key", "sig", "next", "refs", "clock", "time", "payload", "op", "DEL", "value", "type",
      "track", "timestamp"].map String.length = [1, 2, 3, 3, 4, 4, 5, 4, 7, 2, 3, 5, 4, 5, 9] := by
  decide

theorem entryFor_size (chain : ResolvedAcChain) (hc : chain.address.length ≤ 100) (key : TrackId) :
    (entryFor chain (delPayload key)).bytes.length ≤ signedEntryMaxBytes := by
  have hkey : key.text.length = 64 := by
    have := key.isHex
    rw [isHex64, Bool.and_eq_true, beq_iff_eq, String.length_toList] at this
    exact this.1
  have hl := literal_lengths
  simp only [List.map_cons, List.map_nil, List.cons.injEq, and_true] at hl
  simp [entryFor, rootEntry, hashSignedEntry, withHash, plainEnvironment, SignedEntry.toValue, signEntry,
    delPayload, Plain.put, Plain.putFields, Plain.putItems, Plain.putString_length, Plain.publicKey_length,
    Plain.sign, bytesToHex_length, Digest.length_eq, hkey, Plain.putInt, Plain.putNat_length, hl,
    signedEntryMaxBytes]
  omega
section EntryFor
variable {signedFor chain : ResolvedAcChain} (key : TrackId)

theorem checkEntry_entryFor (hc : signedFor.address.length ≤ 100) (hw : chain.writeList = [ownerKey])
    (ht : chain.type = .recordstore) :
    checkEntry plainEnvironment chain (entryFor signedFor (delPayload key)) = .ok (.del key 1 none) := by
  refine checkEntry_rootEntry (Plain.isCompressedPubkey_publicKey _)
    (fun d => plainEnvironment_verify d owner.privateKey) (entryFor_size signedFor hc key) ?_ ?_
  · rw [hw]
    simp [ownerKey]
  · rw [ht]
    exact validate_delPayload plainEnvironment true key

theorem decodeSignedEntry_entryFor (hc : signedFor.address.length ≤ 100) :
    decodeSignedEntry plainEnvironment (entryFor signedFor (delPayload key)).bytes =
      .ok (entryFor signedFor (delPayload key)) :=
  decodeSignedEntry_rootEntry plainEnvironment_codecLaw (delPayload_canonical key)
    (Plain.isCompressedPubkey_publicKey _) (entryFor_size signedFor hc key)

/-- An oplog of a chain the owner may write holds the entry once its block is merged. -/
theorem mergeEntries_entryFor {o : Oplog} (hc : signedFor.address.length ≤ 100) (hw : o.chain.writeList = [ownerKey])
    (ht : o.chain.type = .recordstore) :
    (mergeEntries plainEnvironment o [(entryFor signedFor (delPayload key)).bytes]).1.Has
      (entryFor signedFor (delPayload key)).hash :=
  mergeEntries_root (decodeSignedEntry_entryFor key hc) (checkEntry_entryFor key hc hw ht)
    (by rw [isWriteListKey, hw]; simp [entryFor, rootEntry, hashSignedEntry, withHash, signEntry, ownerKey])
    rfl rfl

/-- The entry as such an oplog comes to hold it. -/
def heldFor (signedFor : ResolvedAcChain) (key : TrackId) : VerifiedEntry :=
  ⟨entryFor signedFor (delPayload key), .del key 1 none⟩

theorem mergeEntries_entryFor_merged {o : Oplog} (hc : signedFor.address.length ≤ 100)
    (hw : o.chain.writeList = [ownerKey]) (ht : o.chain.type = .recordstore)
    (hold : ¬ o.Has (heldFor signedFor key).hash) :
    (mergeEntries plainEnvironment o [(heldFor signedFor key).bytes]).2.merged = [heldFor signedFor key] ∧
      (mergeEntries plainEnvironment o [(heldFor signedFor key).bytes]).2.rejected = [] :=
  (mergeEntries_root_new (decodeSignedEntry_entryFor key hc) (checkEntry_entryFor key hc hw ht)
    (by rw [isWriteListKey, hw]; simp [entryFor, rootEntry, hashSignedEntry, withHash, signEntry, ownerKey])
    rfl rfl hold).2

end EntryFor

-- The texts are turned into lists of characters first, so that the kernel only computes
-- on lists and numbers.
theorem heldFor_hash_ne : (heldFor libraryA plainEnvironment.aboutKey).hash ≠
    (heldFor libraryA plainEnvironment.profileKey).hash := by
  intro h
  have hd := congrArg Digest.bytes (formatProtocolCid_injective h)
  revert hd
  simp only [heldFor, entryFor, rootEntry, hashSignedEntry, withHash, plainEnvironment, SignedEntry.toValue,
    signEntry, signingDigest, unsignedFields, delPayload, Plain.put, Plain.putFields, Plain.putItems,
    Plain.putString, Plain.publicKey, Plain.sign, String.toList_append, toList_bytesToHex,
    Environment.aboutKey, Environment.profileKey, Environment.sha256Hex, owner, libraryA, List.map_nil]
  decide +kernel

end Sample

end RecordNode
