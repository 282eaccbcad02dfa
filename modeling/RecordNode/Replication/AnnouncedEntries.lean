import RecordNode.AccessControl.Chain
import RecordNode.Entry.CanonicalBlock
import RecordNode.Oplog.Growing
import RecordNode.Replication.Announcements
import RecordNode.Replication.Binding

/-! # Verifying what is announced

An announcement carries signed entries of libraries that are not open here: the About entry
of a library, and the profile of an owner. Each verifies from the entry alone: its signature,
the library it names as its own, and the record it carries. What is kept about a library is what the
library itself accepts from its own writers. -/

namespace RecordNode

section Verifying
variable (E : Environment)

/-- A signed entry with its canonical bytes and hash, when it is well formed and its signature holds. -/
def verifiedEntry (value : Value) : Option HashedEntry :=
  match assertSignedEntryShape E value with
  | .error _ => none
  | .ok entry => if verifyEntrySignature E entry then some (hashSignedEntry E entry) else none

structure VerifiedAbout where
  hashed : HashedEntry
  record : AboutRecord

structure VerifiedLibrary where
  chain : ResolvedAcChain
  about : Option VerifiedAbout

def verifyAnnouncedLibrary (get : Hash → Option Bytes) (address : String) (about : Option Value) : Option VerifiedLibrary :=
  match resolveAcChain E get address with
  | .error _ => none
  | .ok chain =>
    match about.bind (verifiedEntry E) with
    | none => some ⟨chain, none⟩
    | some hashed =>
      if hashed.entry.id ≠ address || !chain.writeList.contains hashed.entry.key then some ⟨chain, none⟩
      else
        match checkEntry E chain hashed with
        | .ok (.about record _) => some ⟨chain, some ⟨hashed, record⟩⟩
        | _ => some ⟨chain, none⟩

structure ProfileRecord where
  timestamp : ℕ
  name : Option String
  bio : Option String
  avatar : Option String

structure VerifiedProfile where
  hashed : HashedEntry
  record : ProfileRecord

def verifyAnnouncedProfile (value : Value) : Option VerifiedProfile :=
  match verifiedEntry E value with
  | none => none
  | some hashed =>
    if hashed.entry.id ≠ identityLibraryAddress E hashed.entry.key then none
    else
      match validateOperation E .identity true hashed.entry.payload with
      | .ok (.identityPut key (.profile timestamp name bio avatar)) =>
        if key = E.profileKey.text then some ⟨hashed, timestamp, name, bio, avatar⟩ else none
      | _ => none

/-! ## What verified entries are -/

/-- The key of the entry signed it, and its bytes and hash are those of its fields. -/
structure SignedByKey (h : HashedEntry) : Prop where
  hashed : h = hashSignedEntry E h.entry
  key : isCompressedPubkey h.entry.key = true
  signature : verifyEntrySignature E h.entry = true

/-- An About record its library's write list signed, for that library. -/
structure GenuineAbout (chain : ResolvedAcChain) (about : VerifiedAbout) : Prop where
  signed : SignedByKey E about.hashed
  library : about.hashed.entry.id = chain.address
  owner : about.hashed.entry.key ∈ chain.writeList
  record : ∃ capabilityId, validateOperation E chain.type true about.hashed.entry.payload = .ok (.about about.record capabilityId)

/-- The profile of the identity whose key signed it, written in that identity's own library. -/
structure GenuineProfile (key : String) (profile : VerifiedProfile) : Prop where
  signed : SignedByKey E profile.hashed
  signer : profile.hashed.entry.key = key
  library : profile.hashed.entry.id = identityLibraryAddress E key
  record : validateOperation E .identity true profile.hashed.entry.payload = .ok (.identityPut E.profileKey.text
    (.profile profile.record.timestamp profile.record.name profile.record.bio profile.record.avatar))

end Verifying

variable {E : Environment}

theorem assertUnsignedFields_key {fields : Fields} {key sig : String} {entry : SignedEntry}
    (h : assertUnsignedFields fields key sig = .ok entry) : entry.key = key := by
  unfold assertUnsignedFields at h
  split at h
  · cases h
  · split at h
    · cases h
    · split at h
      · simp only [bind_eq_ok] at h
        obtain ⟨next, -, refs, -, clock, -, hentry⟩ := h
        obtain rfl := Except.ok.inj hentry
        rfl
      · cases h

theorem assertSignedEntryShape_key {value : Value} {entry : SignedEntry} (h : assertSignedEntryShape E value = .ok entry) :
    isCompressedPubkey entry.key = true := by
  unfold assertSignedEntryShape at h
  split at h
  · cases h
  · split at h
    · cases h
    · split at h
      · next key _ =>
        split at h
        · next hkey =>
          split at h
          · rwa [assertUnsignedFields_key h]
          · cases h
        · cases h
      · cases h

theorem verifiedEntry_eq_some {value : Value} {h : HashedEntry} (hv : verifiedEntry E value = some h) : SignedByKey E h := by
  rw [verifiedEntry] at hv
  split at hv
  · cases hv
  · next entry hshape =>
    split at hv
    · next hsignature =>
      obtain rfl := Option.some_inj.mp hv
      exact ⟨rfl, assertSignedEntryShape_key hshape, hsignature⟩
    · cases hv

theorem resolveAcChain_address {get : Hash → Option Bytes} {address : String} {chain : ResolvedAcChain}
    (h : resolveAcChain E get address = .ok chain) : chain.address = address := by
  obtain ⟨_, _, _, hresolution⟩ := resolveAcChain_eq_ok h
  exact hresolution.address_eq

section Agreement
variable {get : Hash → Option Bytes} {address : String} {chain : ResolvedAcChain} {o : Oplog}

/-- The fields of an entry come over in another order, and its shape is read by name. -/
theorem assertSignedEntryShape_announcedEntry (entry : SignedEntry) :
    assertSignedEntryShape E (announcedEntry entry) = assertSignedEntryShape E entry.toValue := by
  obtain ⟨id, payload, next, refs, clock, key, sig⟩ := entry
  rfl

/-- An entry that an oplog holds verifies as itself once it is announced. -/
theorem verifiedEntry_announcedEntry (law : E.MapLaw) (s : Sound E chain o) (ha : Authentic E o) {h : Hash} {e : VerifiedEntry}
    (he : o.entries.get h = some e) : verifiedEntry E (announcedEntry e.entry) = some e.toHashedEntry := by
  have hcheck := s.checkEntry he
  obtain ⟨-, ⟨entry, hshape⟩, -⟩ := checkEntry_parts hcheck
  obtain ⟨rfl, -⟩ := assertSignedEntryShape_toValue hshape
  have hsignature : verifyEntrySignature E e.entry = true := by
    simp only [checkEntry, bind_eq_ok] at hcheck
    obtain ⟨-, -, -, -, -, -, ⟨⟩, hsignature, -⟩ := hcheck
    exact (require_eq_ok_iff _).mp hsignature
  rw [verifiedEntry, assertSignedEntryShape_announcedEntry, hshape]
  simp only [hsignature, if_true, hashSignedEntry_decoded law (ha h e he)]

/-- The chain of a verified library is the one its address resolves to. -/
theorem verifyAnnouncedLibrary_chain {value : Option Value} {library : VerifiedLibrary}
    (h : verifyAnnouncedLibrary E get address value = some library) : resolveAcChain E get address = .ok library.chain := by
  unfold verifyAnnouncedLibrary at h
  split at h
  · cases h
  · next chain hchain =>
    rw [hchain]
    split at h
    · cases h
      rfl
    · split at h
      · cases h
        rfl
      · split at h <;> cases h <;> rfl

/-- What is kept of an entry that verifies: its About record, where a key of the write list signed one
for this address. -/
theorem verifyAnnouncedLibrary_eq (hchain : resolveAcChain E get address = .ok chain) {value : Option Value} {hashed : HashedEntry}
    (hv : value.bind (verifiedEntry E) = some hashed) : ∃ about, verifyAnnouncedLibrary E get address value = some ⟨chain, about⟩ ∧
      ∀ kept, about = some kept ↔ kept.hashed = hashed ∧
        (∃ capabilityId, checkEntry E chain hashed = .ok (.about kept.record capabilityId)) ∧
        hashed.entry.id = address ∧ hashed.entry.key ∈ chain.writeList := by
  by_cases hown : hashed.entry.id = address ∧ hashed.entry.key ∈ chain.writeList
  · have hguard : ¬ (hashed.entry.id ≠ address || !chain.writeList.contains hashed.entry.key) = true := by
      simp [hown.1, hown.2]
    simp only [verifyAnnouncedLibrary, hchain, hv, if_neg hguard]
    split
    · next record capabilityId hcheck =>
      refine ⟨_, rfl, fun kept => ⟨?_, ?_⟩⟩
      · rintro ⟨⟩
        exact ⟨rfl, ⟨capabilityId, hcheck⟩, hown⟩
      · rintro ⟨hkept, ⟨capabilityId', hrecord⟩, -⟩
        have hsame := Except.ok.inj (hcheck.symm.trans hrecord)
        injection hsame with hsame
        rw [hsame, ← hkept]
    · next hnot =>
      refine ⟨none, rfl, fun kept => ⟨fun h => (Option.some_ne_none kept h.symm).elim, ?_⟩⟩
      rintro ⟨-, ⟨capabilityId, hrecord⟩, -⟩
      exact (hnot _ _ hrecord).elim
  · have hguard : (hashed.entry.id ≠ address || !chain.writeList.contains hashed.entry.key) = true := by
      rw [not_and_or] at hown
      simpa using hown
    simp only [verifyAnnouncedLibrary, hchain, hv, if_pos hguard]
    exact ⟨none, rfl, fun kept => ⟨fun h => (Option.some_ne_none kept h.symm).elim, fun h => absurd h.2.2 hown⟩⟩

/-- A peer that resolves a library judges an announced About record as the library does. What it
keeps is genuine, and every oplog of the library that holds the parents of the entry, under its clock, accepts it.
An entry that an oplog of the library holds, come as it was announced, is kept exactly where it is an
About record that a key of the write list signed for this address: a grantee's is passed over. -/
theorem verify_announced_library (law : E.MapLaw) (hE : E.CodecLaw) (hchain : resolveAcChain E get address = .ok chain) :
    (∀ value, ∃ about, verifyAnnouncedLibrary E get address value = some ⟨chain, about⟩ ∧ ∀ kept ∈ about,
      GenuineAbout E chain kept ∧ ∀ o, Reachable E chain o → (∀ h ∈ kept.hashed.entry.next, o.Has h) →
        kept.hashed.entry.clock.time = maxTime o kept.hashed.entry.next + 1 →
          ∃ capabilityId, verifyEntry E o kept.hashed = .ok ⟨kept.hashed, .about kept.record capabilityId⟩) ∧
    ∀ o h e, Reachable E chain o → o.entries.get h = some e →
      ∃ about, verifyAnnouncedLibrary E get address (some (announcedEntry e.entry)) = some ⟨chain, about⟩ ∧
        ∀ kept, about = some kept ↔ kept.hashed = e.toHashedEntry ∧
          (∃ capabilityId, e.operation = .about kept.record capabilityId) ∧
          e.entry.id = address ∧ e.entry.key ∈ chain.writeList := by
  refine ⟨fun value => ?_, fun o h e ho he => ?_⟩
  · cases hv : value.bind (verifiedEntry E) with
    | none => exact ⟨none, by simp only [verifyAnnouncedLibrary, hchain, hv], fun kept hkept => by cases hkept⟩
    | some hashed =>
      obtain ⟨about, hverify, hiff⟩ := verifyAnnouncedLibrary_eq hchain hv
      refine ⟨about, hverify, fun kept hkept => ?_⟩
      obtain ⟨rfl, ⟨capabilityId, hcheck⟩, hid, hkey⟩ := (hiff kept).mp hkept
      obtain ⟨entry, -, hentry⟩ := Option.bind_eq_some_iff.mp hv
      obtain ⟨-, -, hoperation⟩ := checkEntry_parts hcheck
      rw [List.contains_iff_mem.mpr hkey] at hoperation
      refine ⟨⟨verifiedEntry_eq_some hentry, hid.trans (resolveAcChain_address hchain).symm, hkey, capabilityId, hoperation⟩, ?_⟩
      intro o ho hparents htime
      have hsame : o.chain = chain := (reachable_sound ho).chain_eq
      have hwriter : isWriteListKey o kept.hashed.entry.key = true := by
        rw [isWriteListKey, hsame]
        exact List.contains_iff_mem.mpr hkey
      refine ⟨capabilityId, (verifyEntry_eq_ok_iff E o _ _).mpr ⟨rfl, hsame ▸ hcheck, ?_, ?_⟩⟩
      · exact (assertClock_eq_ok_iff o _).mpr ⟨hparents, htime⟩
      · simp [authoriseEntry, hwriter]
  · have hsound := reachable_sound ho
    have hv : (some (announcedEntry e.entry)).bind (verifiedEntry E) = some e.toHashedEntry :=
      verifiedEntry_announcedEntry law hsound (reachable_authentic hE ho) he
    obtain ⟨about, hverify, hiff⟩ := verifyAnnouncedLibrary_eq hchain hv
    refine ⟨about, hverify, fun kept => ?_⟩
    simp only [hiff kept, hsound.checkEntry he, Except.ok.injEq]

end Agreement

open ChainSample in
theorem verifyAnnouncedLibrary_music : verifyAnnouncedLibrary environment musicStore (chain "music").address none =
    some ⟨resolvedChain environment "music" .recordstore [ownerKey], none⟩ := by
  rw [verifyAnnouncedLibrary, musicStore_resolves]
  rfl

namespace ChainSample

def musicChain : ResolvedAcChain := resolvedChain environment "music" .recordstore [ownerKey]

def aboutPayload : Value := OneAnnounced.put environment.aboutKey.text OneAnnounced.aboutRecord []

def signedAbout : HashedEntry := rootEntry environment musicChain.address aboutPayload ⟨[1]⟩

/-- The owner's first entry: what the library is called. -/
def aboutEntry : VerifiedEntry := ⟨signedAbout, .about ⟨7, "Music"⟩ none⟩

theorem aboutPayload_canonical : aboutPayload.Canonical := by
  have hone : IsDouble 1 := by exact_mod_cast isDouble_natCast (n := 1) (by decide)
  have hseven : IsDouble 7 := by exact_mod_cast isDouble_natCast (n := 7) (by decide)
  have hrecord : (Value.record OneAnnounced.aboutRecord).Canonical := by
    refine .record _ (by simp [OneAnnounced.aboutRecord]; decide) ?_
    simp only [OneAnnounced.aboutRecord, List.forall_mem_cons]
    exact ⟨.number 1 hone, .string _, .string _, .number 7 hseven, by simp⟩
  refine .record _ (by simp; decide) ?_
  simp only [List.append_nil, List.forall_mem_cons]
  exact ⟨.string _, .string _, hrecord, by simp⟩

theorem musicChain_address_length : musicChain.address.length ≤ 300 := by
  have hcid : (chain "music").manifest.cid.length ≤ 273 := formatProtocolCid_length_le _
  have hname : "/music".length = 6 := by decide
  have hlength : musicChain.address.length = addressPrefix.length + ((chain "music").manifest.cid.length + 6) := by
    simp [musicChain, resolvedChain, chain, buildAcChain, buildLibraryAddress, hname]
  have hprefix : addressPrefix.length = 8 := by decide
  omega

theorem literal_lengths : ["v", "id", "key", "sig", "next", "refs", "clock", "time", "payload", "op", "PUT", "value", "type",
    "about", "timestamp", "name", "Music"].map String.length = [1, 2, 3, 3, 4, 4, 5, 4, 7, 2, 3, 5, 4, 5, 9, 4, 5] := by
  decide

theorem put_aboutPayload_length : (Plain.put aboutPayload).length ≤ 1000 := by
  have hl := literal_lengths
  simp only [List.map_cons, List.map_nil, List.cons.injEq, and_true] at hl
  have hkey : environment.aboutKey.text.length = 64 := by
    have := environment.aboutKey.isHex
    rw [isHex64, Bool.and_eq_true, beq_iff_eq, String.length_toList] at this
    exact this.1
  simp [aboutPayload, OneAnnounced.put, OneAnnounced.aboutRecord, Plain.put, Plain.putFields, Plain.putString_length,
    Plain.putInt, Plain.putNat_length, hl, hkey]

theorem signedAbout_size : signedAbout.bytes.length ≤ signedEntryMaxBytes := by
  have haddress := musicChain_address_length
  have hpayload := put_aboutPayload_length
  have hl := literal_lengths
  simp only [List.map_cons, List.map_nil, List.cons.injEq, and_true] at hl
  have hbytes : signedAbout.bytes = Plain.put signedAbout.entry.toValue := by
    change Plain.put signedAbout.entry.toValue.sorted = _
    rw [sorted_of_canonical (toValue_canonical aboutPayload_canonical (by decide : 1 ≤ Value.maxSafeInteger))]
  rw [hbytes]
  simp [signedAbout, rootEntry, hashSignedEntry, withHash, signEntry, environment, orderedEnvironment, plainEnvironment,
    SignedEntry.toValue, Plain.put, Plain.putFields, Plain.putItems, Plain.putString_length, Plain.publicKey_length,
    Plain.sign, bytesToHex_length, Digest.length_eq, Plain.putInt, Plain.putNat_length, hl, signedEntryMaxBytes]
  omega

theorem aboutEntry_checks : checkEntry environment musicChain signedAbout = .ok (.about ⟨7, "Music"⟩ none) := by
  have hsignature (d : Digest 32) : environment.verifyDigest (environment.signDigest d [1]) d (environment.publicKey [1]) = true := by
    simp [environment, orderedEnvironment, plainEnvironment, Plain.sign]
  have htype : musicChain.type = .recordstore := rfl
  have hoperation : validateOperation environment musicChain.type true aboutPayload = .ok (.about ⟨7, "Music"⟩ none) := by
    rw [htype, aboutPayload]
    exact OneAnnounced.validate_about environment rfl
  exact checkEntry_rootEntry (Plain.isCompressedPubkey_publicKey [1]) hsignature signedAbout_size
    (List.contains_iff_mem.mpr List.mem_cons_self) hoperation

theorem aboutEntry_decodes : decodeSignedEntry environment signedAbout.bytes = .ok signedAbout :=
  decodeSignedEntry_rootEntry environment_codecLaw aboutPayload_canonical (Plain.isCompressedPubkey_publicKey [1]) signedAbout_size

theorem aboutEntry_writer (o : Oplog) (h : o.chain = musicChain) : isWriteListKey o aboutEntry.entry.key = true := by
  rw [isWriteListKey, h]
  exact List.contains_iff_mem.mpr List.mem_cons_self

theorem joins_aboutEntry : Joins environment (createOplog musicChain) aboutEntry :=
  ⟨aboutEntry_decodes, verifyEntry_root aboutEntry_checks (aboutEntry_writer _ rfl) rfl rfl,
    by simp [Oplog.Has, createOplog]⟩

end ChainSample

open ChainSample in
/-- The owner's replica announces what the library is called. A peer that has only the blocks of the chain
keeps it, and a replica that starts out empty accepts the entry. -/
theorem verify_announced_library_music :
    verifyAnnouncedLibrary environment musicStore musicChain.address (some (announcedEntry aboutEntry.entry)) =
        some ⟨musicChain, some ⟨aboutEntry.toHashedEntry, ⟨7, "Music"⟩⟩⟩ ∧
      ∃ capabilityId, verifyEntry environment (createOplog musicChain) aboutEntry.toHashedEntry =
        .ok ⟨aboutEntry.toHashedEntry, .about ⟨7, "Music"⟩ capabilityId⟩ := by
  obtain ⟨hkeeps, hannounced⟩ := verify_announced_library environment_mapLaw environment_codecLaw musicStore_resolves
  have hheld : (grow environment (createOplog musicChain) aboutEntry).entries.get aboutEntry.hash = some aboutEntry := by
    rw [joins_aboutEntry.get_grow, if_pos rfl]
  obtain ⟨about, hverify, hiff⟩ := hannounced _ _ _ (reachable_grow .create aboutEntry) hheld
  have hown : aboutEntry.entry.id = musicChain.address := rfl
  have hkey : aboutEntry.entry.key ∈ musicChain.writeList := List.mem_cons_self
  have habout := (hiff ⟨aboutEntry.toHashedEntry, ⟨7, "Music"⟩⟩).mpr ⟨rfl, ⟨none, rfl⟩, hown, hkey⟩
  subst habout
  obtain ⟨about, hverify', hgenuine⟩ := hkeeps (some (announcedEntry aboutEntry.entry))
  have hsame := Option.some.inj (hverify'.symm.trans hverify)
  simp only [VerifiedLibrary.mk.injEq, true_and] at hsame
  subst hsame
  obtain ⟨-, haccepts⟩ := hgenuine _ rfl
  exact ⟨hverify, haccepts (createOplog musicChain) .create (fun h hh => absurd hh List.not_mem_nil) rfl⟩

theorem verifyAnnouncedProfile_genuine {value : Value} {profile : VerifiedProfile}
    (h : verifyAnnouncedProfile E value = some profile) : GenuineProfile E profile.hashed.entry.key profile := by
  rw [verifyAnnouncedProfile] at h
  split at h
  · cases h
  · next hashed hverified =>
    split at h
    · cases h
    · next hid =>
      split at h
      · next key timestamp name bio avatar hoperation =>
        split at h
        · next hkey =>
          obtain rfl := Option.some_inj.mp h
          exact ⟨verifiedEntry_eq_some hverified, rfl, of_not_not hid, hkey ▸ hoperation⟩
        · cases h
      · cases h

/-! ## A profile of the small environment -/

namespace ChainSample

def profilePayload (timestamp : ℕ) : Value :=
  .record [("op", .string "PUT"), ("key", .string environment.profileKey.text),
    ("value", .record [("type", .string "profile"), ("v", .number 1), ("timestamp", .number timestamp)])]

def unsignedProfile (timestamp : ℕ) : SignedEntry :=
  ⟨identityLibraryAddress environment ownerKey, profilePayload timestamp, [], [], ⟨ownerKey, 1⟩, ownerKey, ""⟩

/-- The owner's profile of some day, signed. -/
def ownerProfile (timestamp : ℕ) : SignedEntry :=
  { unsignedProfile timestamp with
    sig := ownerKey ++ bytesToHex (signingDigest environment (unsignedProfile timestamp)).bytes }

def ownerVerified (timestamp : ℕ) : VerifiedProfile :=
  ⟨hashSignedEntry environment (ownerProfile timestamp), timestamp, none, none, none⟩

theorem validateOperation_profilePayload {timestamp : ℕ} (htimestamp : timestamp ≤ Value.maxSafeInteger) :
    validateOperation environment .identity true (profilePayload timestamp) =
      .ok (.identityPut environment.profileKey.text (.profile timestamp none none none)) := by
  have htime : Value.asUint? (.number timestamp) = some timestamp := by rw [Value.asUint_natCast, if_pos htimestamp]
  have hone : Value.asUint? (.number 1) = some 1 := rfl
  simp [validateOperation, validateIdentityOperation, profilePayload, Value.fields?, Fields.has, Fields.get, Fields.string?,
    List.lookup_cons, Value.asString?, identityRecordType?, isLaterProfile, validateIdentityRecord, validateProfile,
    Fields.uint?, Fields.isInt, optionalField, require, identityRecordKey, htime, hone, bind, Except.bind, pure, Except.pure]

theorem verifyAnnouncedProfile_owner {timestamp : ℕ} (htimestamp : timestamp ≤ Value.maxSafeInteger) :
    verifyAnnouncedProfile environment (ownerProfile timestamp).toValue = some (ownerVerified timestamp) := by
  have hkey : isCompressedPubkey ownerKey = true := Plain.isCompressedPubkey_publicKey [1]
  have hshape : assertSignedEntryShape environment (ownerProfile timestamp).toValue = .ok (ownerProfile timestamp) :=
    assertSignedEntryShape_toValue_eq rfl rfl hkey hkey (by decide : 1 ≤ Value.maxSafeInteger)
  have hsignature : verifyEntrySignature environment (ownerProfile timestamp) = true := by
    have hverify (d : Digest 32) : environment.verifyDigest (ownerKey ++ bytesToHex d.bytes) d ownerKey = true := by
      simp [environment, orderedEnvironment, plainEnvironment]
    have hfields : unsignedFields (ownerProfile timestamp) = unsignedFields (unsignedProfile timestamp) := rfl
    rw [verifyEntrySignature, signingDigest, hfields]
    exact hverify (signingDigest environment (unsignedProfile timestamp))
  have hverified : verifiedEntry environment (ownerProfile timestamp).toValue = some (hashSignedEntry environment (ownerProfile timestamp)) := by
    rw [verifiedEntry, hshape]
    exact if_pos hsignature
  rw [verifyAnnouncedProfile, hverified]
  simp only
  rw [if_neg (by simp [hashSignedEntry, withHash, ownerProfile, unsignedProfile])]
  rw [show (hashSignedEntry environment (ownerProfile timestamp)).entry.payload = profilePayload timestamp from rfl,
    validateOperation_profilePayload htimestamp]
  exact if_pos rfl

end ChainSample

end RecordNode
