import RecordNode.Foundation.Run
import RecordNode.Oplog.CurrentState
import RecordNode.Replication.AnnouncedEntries

/-! # What peers announce

A peer's announcement is a list of hints until their chains resolve, one after the other
while other announcements arrive. The profiles it carries count once all its hints are
through, and only those of keys that own one of the libraries that verified. Of an
identity's profiles the one that sorts first is kept, whatever order they came in. -/

namespace RecordNode

open Foundation

structure AnnouncedHint where
  address : String
  about : Option Value

/-- An announcement as it was received: the record its verification writes to. -/
structure AnnouncementRecord where
  hints : List AnnouncedHint
  verified : OrderedSet String

/-- A verification under way: its record, the hints to come, the owners found and the profiles to judge. -/
structure Verification where
  record : ℕ
  hints : List AnnouncedHint
  owners : OrderedSet String
  profiles : List Value

structure PeerAnnouncements where
  records : List AnnouncementRecord
  /-- Each peer's last announcement. -/
  announced : OrderedMap String ℕ
  verifying : List Verification
  profiles : OrderedMap String VerifiedProfile
  owners : OrderedMap String String
  /-- Every profile put up for keeping, in order, and every chain that resolved. -/
  offered : List VerifiedProfile
  resolved : List ResolvedAcChain

namespace PeerAnnouncements

inductive Label where
  | receive (sender : String) (hints : List AnnouncedHint) (profiles : List Value)
  /-- The next hint of a verification resolves or does not, on the blocks its fetches give. -/
  | verifyHint (k : ℕ) (get : Hash → Option Bytes)
  /-- The hints are through. -/
  | settle (k : ℕ)
  /-- A fetch throws, and the verification with it. -/
  | failed (k : ℕ)
  | leave (peerId : String)

def create : PeerAnnouncements := ⟨[], .empty, [], .empty, .empty, [], []⟩

/-- Keeps a verified profile unless the one kept sorts before it or is it. -/
def keepProfile (own : Option String) (s : PeerAnnouncements) (profile : VerifiedProfile) : PeerAnnouncements :=
  let key := profile.hashed.entry.key
  if some key = own then s
  else
    let s := { s with offered := s.offered ++ [profile] }
    match s.profiles.get key with
    | some kept =>
      if 0 ≤ compareCurrentState profile.hashed kept.hashed then s else { s with profiles := s.profiles.set key profile }
    | none => { s with profiles := s.profiles.set key profile }

section Step
variable (E : Environment) (own : Option String)

def judgeProfile (owners : OrderedSet String) (s : PeerAnnouncements) (value : Value) : PeerAnnouncements :=
  match verifyAnnouncedProfile E value with
  | none => s
  | some profile => if profile.hashed.entry.key ∈ owners then s.keepProfile own profile else s

/-- One turn of the loop over the hints. -/
def hintVerified (s : PeerAnnouncements) (k : ℕ) (v : Verification) (hint : AnnouncedHint) (rest : List AnnouncedHint)
    (get : Hash → Option Bytes) : PeerAnnouncements :=
  match verifyAnnouncedLibrary E get hint.address hint.about with
  | none => { s with verifying := s.verifying.set k { v with hints := rest } }
  | some library =>
    let s := { s with
      records := s.records.modify v.record fun record => { record with verified := record.verified.add hint.address }
      resolved := s.resolved ++ [library.chain] }
    match library.chain.writeList with
    | [owner] =>
      { s with
        verifying := s.verifying.set k { v with hints := rest, owners := v.owners.add owner }
        owners := s.owners.set hint.address owner }
    | _ => { s with verifying := s.verifying.set k { v with hints := rest } }

/-- One event. `own` is the peer's identity, if it has one, and does not change: the import of another
identity is no event here. -/
def step (s : PeerAnnouncements) : Label → Option PeerAnnouncements
  | .receive sender hints profiles => some { s with
      records := s.records ++ [⟨hints, .empty⟩]
      announced := s.announced.set sender s.records.length
      verifying := s.verifying ++ [⟨s.records.length, hints, .empty, profiles⟩] }
  | .verifyHint k get =>
    match s.verifying[k]? with
    | some ⟨record, hint :: rest, owners, profiles⟩ =>
      some (s.hintVerified E k ⟨record, hint :: rest, owners, profiles⟩ hint rest get)
    | _ => none
  | .settle k =>
    match s.verifying[k]? with
    | some ⟨_, [], owners, profiles⟩ =>
      some { profiles.foldl (judgeProfile E own owners) s with verifying := s.verifying.eraseIdx k }
    | _ => none
  | .failed k => if k < s.verifying.length then some { s with verifying := s.verifying.eraseIdx k } else none
  | .leave peerId => some { s with announced := s.announced.delete peerId }

end Step

/-- What a peer last announced. -/
def announcedBy (s : PeerAnnouncements) (peerId : String) : Option AnnouncementRecord :=
  (s.announced.get peerId).bind fun id => s.records[id]?

/-! ## The profile kept is the current one of those offered -/

/-- A profile as an entry of its identity library. -/
def entryOf (profile : VerifiedProfile) : VerifiedEntry :=
  ⟨profile.hashed, .identityPut "" (.profile profile.record.timestamp profile.record.name profile.record.bio profile.record.avatar)⟩

/-- The profiles put up under a key. -/
def offeredBy (s : PeerAnnouncements) (key : String) : List VerifiedEntry :=
  (s.offered.filter fun profile => profile.hashed.entry.key = key).map entryOf

variable {E : Environment} {own : Option String} {s t : PeerAnnouncements}

theorem resolveCurrentState_append (l : List VerifiedEntry) (x : VerifiedEntry) :
    resolveCurrentState (l ++ [x]) =
      keepLeast (fun a b => compareCurrentState a.toHashedEntry b.toHashedEntry) (resolveCurrentState l) x := by
  rw [resolveCurrentState, resolveCurrentState, firstLeast, firstLeast, List.foldl_append]
  rfl

/-- Some chain that resolved has this key as its one writer. -/
def Owner (s : PeerAnnouncements) (key : String) : Prop := ∃ chain ∈ s.resolved, chain.writeList = [key]

variable (E own) in
/-- The kept profiles are the current ones of those offered, and those are owners' and their own. -/
structure Kept (s : PeerAnnouncements) : Prop where
  current : ∀ key, (s.profiles.get key).map entryOf = resolveCurrentState (s.offeredBy key)
  offered : ∀ profile ∈ s.offered, GenuineProfile E profile.hashed.entry.key profile ∧
    some profile.hashed.entry.key ≠ own ∧ s.Owner profile.hashed.entry.key

theorem Kept.keepProfile (h : s.Kept E own) {profile : VerifiedProfile}
    (hgenuine : GenuineProfile E profile.hashed.entry.key profile) (howner : s.Owner profile.hashed.entry.key) :
    (s.keepProfile own profile).Kept E own := by
  simp only [PeerAnnouncements.keepProfile]
  split
  case isTrue => exact h
  case isFalse hown =>
    have hoffered : ∀ p ∈ s.offered ++ [profile], GenuineProfile E p.hashed.entry.key p ∧
        some p.hashed.entry.key ≠ own ∧ s.Owner p.hashed.entry.key :=
      List.forall_mem_append.mpr ⟨h.offered, List.forall_mem_singleton.mpr ⟨hgenuine, hown, howner⟩⟩
    have hother {key : String} (hkey : key ≠ profile.hashed.entry.key) :
        ((s.offered ++ [profile]).filter fun p => p.hashed.entry.key = key).map entryOf = s.offeredBy key := by
      rw [List.filter_append, List.filter_cons_of_neg (by simpa using hkey.symm), List.filter_nil, List.append_nil]
      rfl
    have hsame : ((s.offered ++ [profile]).filter fun p => p.hashed.entry.key = profile.hashed.entry.key).map entryOf =
        s.offeredBy profile.hashed.entry.key ++ [entryOf profile] := by
      rw [List.filter_append, List.filter_cons_of_pos (by simp), List.filter_nil, List.map_append]
      rfl
    have hcurrent := h.current profile.hashed.entry.key
    split
    · next kept hkept =>
      rw [hkept, Option.map_some] at hcurrent
      split
      · next hle =>
        refine ⟨fun key => ?_, hoffered⟩
        by_cases hkey : key = profile.hashed.entry.key
        · subst hkey
          rw [offeredBy, hsame, resolveCurrentState_append, ← hcurrent, hkept]
          exact (if_neg (not_lt.mpr hle)).symm
        · rw [offeredBy, hother hkey, h.current]
      · next hlt =>
        refine ⟨fun key => ?_, hoffered⟩
        by_cases hkey : key = profile.hashed.entry.key
        · subst hkey
          rw [offeredBy, hsame, resolveCurrentState_append, ← hcurrent, OrderedMap.get_set, if_pos rfl]
          exact (if_pos (not_le.mp hlt)).symm
        · rw [offeredBy, hother hkey, OrderedMap.get_set, if_neg hkey, h.current]
    · next hnone =>
      rw [hnone, Option.map_none] at hcurrent
      refine ⟨fun key => ?_, hoffered⟩
      by_cases hkey : key = profile.hashed.entry.key
      · subst hkey
        rw [offeredBy, hsame, resolveCurrentState_append, ← hcurrent, OrderedMap.get_set, if_pos rfl]
        rfl
      · rw [offeredBy, hother hkey, OrderedMap.get_set, if_neg hkey, h.current]

theorem keepProfile_frame (own : Option String) (s : PeerAnnouncements) (profile : VerifiedProfile) :
    ∃ profiles offered, s.keepProfile own profile = { s with profiles := profiles, offered := offered } := by
  simp only [PeerAnnouncements.keepProfile]
  split
  · exact ⟨_, _, rfl⟩
  · split
    · split
      · exact ⟨_, _, rfl⟩
      · exact ⟨_, _, rfl⟩
    · exact ⟨_, _, rfl⟩

variable (E own) in
theorem foldl_judgeProfile_frame (owners : OrderedSet String) (values : List Value) (s : PeerAnnouncements) :
    ∃ profiles offered, values.foldl (judgeProfile E own owners) s = { s with profiles := profiles, offered := offered } := by
  induction values generalizing s with
  | nil => exact ⟨_, _, rfl⟩
  | cons value rest ih =>
    have hone : ∃ profiles offered, judgeProfile E own owners s value = { s with profiles := profiles, offered := offered } := by
      unfold judgeProfile
      split
      · exact ⟨_, _, rfl⟩
      · split
        · exact keepProfile_frame own s _
        · exact ⟨_, _, rfl⟩
    obtain ⟨profiles, offered, hone⟩ := hone
    obtain ⟨profiles', offered', hrest⟩ := ih (judgeProfile E own owners s value)
    exact ⟨profiles', offered', by rw [List.foldl_cons, hrest, hone]⟩

theorem Kept.foldl_judgeProfile (h : s.Kept E own) {owners : OrderedSet String} (howners : ∀ key ∈ owners, s.Owner key)
    (values : List Value) : (values.foldl (judgeProfile E own owners) s).Kept E own := by
  induction values generalizing s with
  | nil => exact h
  | cons value rest ih =>
    have hone : (judgeProfile E own owners s value).Kept E own ∧
        ∀ key ∈ owners, (judgeProfile E own owners s value).Owner key := by
      unfold judgeProfile
      split
      · exact ⟨h, howners⟩
      · next profile hverified =>
        split
        · next hmem =>
          obtain ⟨profiles, offered, hframe⟩ := keepProfile_frame own s profile
          refine ⟨h.keepProfile (verifyAnnouncedProfile_genuine hverified) (howners _ hmem), ?_⟩
          rw [hframe]
          exact howners
        · exact ⟨h, howners⟩
    exact ih hone.1 hone.2

variable (E own) in
/-- The profiles are kept as they should be, every owner and every verified address has its chain,
and a verification works through the hints of its record. -/
structure Good (s : PeerAnnouncements) : Prop where
  kept : s.Kept E own
  resolved : ∀ chain ∈ s.resolved, ∃ get, resolveAcChain E get chain.address = .ok chain
  owners : ∀ address key, s.owners.get address = some key → ∃ chain ∈ s.resolved, chain.address = address ∧ chain.writeList = [key]
  found : ∀ v ∈ s.verifying, ∀ key ∈ v.owners, s.Owner key
  hints : ∀ v ∈ s.verifying, ∃ record, s.records[v.record]? = some record ∧ ∀ hint ∈ v.hints, hint ∈ record.hints
  verified : ∀ record ∈ s.records, ∀ address ∈ record.verified,
    (∃ hint ∈ record.hints, hint.address = address) ∧ ∃ chain ∈ s.resolved, chain.address = address

theorem good_create : create.Good E own where
  kept := ⟨fun _ => rfl, fun _ h => absurd h List.not_mem_nil⟩
  resolved _ h := absurd h List.not_mem_nil
  owners _ _ h := by cases h
  found _ h := absurd h List.not_mem_nil
  hints _ h := absurd h List.not_mem_nil
  verified _ h := absurd h List.not_mem_nil

theorem Good.settle (h : s.Good E own) {k : ℕ} {v : Verification} (hv : s.verifying[k]? = some v) :
    ({ v.profiles.foldl (judgeProfile E own v.owners) s with verifying := s.verifying.eraseIdx k } : PeerAnnouncements).Good E own := by
  have hmem := List.mem_of_getElem? hv
  have hkept := h.kept.foldl_judgeProfile (h.found v hmem) v.profiles
  obtain ⟨profiles, offered, hframe⟩ := foldl_judgeProfile_frame E own v.owners v.profiles s
  rw [hframe] at hkept ⊢
  exact ⟨⟨hkept.current, hkept.offered⟩, h.resolved, h.owners, fun w hw => h.found w (List.mem_of_mem_eraseIdx hw),
    fun w hw => h.hints w (List.mem_of_mem_eraseIdx hw), h.verified⟩

/-- A verification moves on by one hint. -/
theorem Good.advance (h : s.Good E own) {k : ℕ} {v : Verification} {hint : AnnouncedHint} {rest : List AnnouncedHint}
    (hv : s.verifying[k]? = some v) (hhints : v.hints = hint :: rest) {owners : OrderedSet String}
    (howners : ∀ key ∈ owners, s.Owner key) :
    ({ s with verifying := s.verifying.set k { v with hints := rest, owners := owners } } : PeerAnnouncements).Good E own := by
  refine ⟨⟨h.kept.current, h.kept.offered⟩, h.resolved, h.owners, ?_, ?_, h.verified⟩
  · intro w hw
    rcases List.mem_or_eq_of_mem_set hw with hold | rfl
    · exact h.found w hold
    · exact howners
  · intro w hw
    rcases List.mem_or_eq_of_mem_set hw with hold | rfl
    · exact h.hints w hold
    · obtain ⟨record, hrecord, hmem⟩ := h.hints v (List.mem_of_getElem? hv)
      exact ⟨record, hrecord, fun other hother => hmem other (hhints ▸ List.mem_cons_of_mem _ hother)⟩

/-- The record of a verification gains the address of a hint whose chain resolved. -/
theorem Good.record (h : s.Good E own) {i : ℕ} {record : AnnouncementRecord} (hrecord : s.records[i]? = some record)
    {hint : AnnouncedHint} (hhint : hint ∈ record.hints) {get : Hash → Option Bytes} {chain : ResolvedAcChain}
    (hchain : resolveAcChain E get hint.address = .ok chain) :
    ({ s with
      records := s.records.modify i fun record => { record with verified := record.verified.add hint.address }
      resolved := s.resolved ++ [chain] } : PeerAnnouncements).Good E own := by
  have haddress : chain.address = hint.address := resolveAcChain_address hchain
  have hgrow {P : ResolvedAcChain → Prop} : (∃ c ∈ s.resolved, P c) → ∃ c ∈ s.resolved ++ [chain], P c :=
    fun ⟨c, hc, hp⟩ => ⟨c, List.mem_append_left _ hc, hp⟩
  refine ⟨⟨h.kept.current, fun p hp => ?_⟩, ?_, fun address key hkey => hgrow (h.owners address key hkey),
    fun v hv key hkey => hgrow (h.found v hv key hkey), ?_, ?_⟩
  · obtain ⟨hgenuine, hown, howner⟩ := h.kept.offered p hp
    exact ⟨hgenuine, hown, hgrow howner⟩
  · exact List.forall_mem_append.mpr ⟨h.resolved, List.forall_mem_singleton.mpr ⟨get, haddress ▸ hchain⟩⟩
  · intro v hv
    obtain ⟨r, hr, hmem⟩ := h.hints v hv
    simp only [List.getElem?_modify, hr]
    split
    · exact ⟨_, rfl, hmem⟩
    · exact ⟨_, rfl, hmem⟩
  · intro r hr address ha
    obtain ⟨j, hj⟩ := List.mem_iff_getElem?.mp hr
    rw [List.getElem?_modify] at hj
    split at hj
    · next hij =>
      subst hij
      rw [hrecord] at hj
      obtain rfl := Option.some_inj.mp hj
      rcases (OrderedSet.mem_add _ _ _).mp ha with rfl | hold
      · exact ⟨⟨hint, hhint, rfl⟩, chain, List.mem_append_right _ List.mem_cons_self, haddress⟩
      · obtain ⟨hmem, hchains⟩ := h.verified record (List.mem_of_getElem? hrecord) address hold
        exact ⟨hmem, hgrow hchains⟩
    · have hold : s.records[j]? = some r := by simpa using hj
      obtain ⟨hmem, hchains⟩ := h.verified r (List.mem_of_getElem? hold) address ha
      exact ⟨hmem, hgrow hchains⟩

theorem Good.hintVerified (h : s.Good E own) {k : ℕ} {v : Verification} {hint : AnnouncedHint} {rest : List AnnouncedHint}
    (hv : s.verifying[k]? = some v) (hhints : v.hints = hint :: rest) (get : Hash → Option Bytes) :
    (s.hintVerified E k v hint rest get).Good E own := by
  have hfound := h.found v (List.mem_of_getElem? hv)
  obtain ⟨record, hrecord, hmem⟩ := h.hints v (List.mem_of_getElem? hv)
  simp only [PeerAnnouncements.hintVerified]
  split
  · exact h.advance hv hhints hfound
  · next library hlibrary =>
    have hchain := verifyAnnouncedLibrary_chain hlibrary
    have hrecorded := h.record hrecord (hmem hint (hhints ▸ List.mem_cons_self)) hchain
    have hfound' := hrecorded.found v (List.mem_of_getElem? hv)
    split
    · next owner howner =>
      have hone : ∃ chain ∈ s.resolved ++ [library.chain], chain.address = hint.address ∧ chain.writeList = [owner] :=
        ⟨library.chain, List.mem_append_right _ List.mem_cons_self, resolveAcChain_address hchain, howner⟩
      have hadded : ∀ key ∈ v.owners.add owner, ∃ chain ∈ s.resolved ++ [library.chain], chain.writeList = [key] := by
        intro key hkey
        rcases (OrderedSet.mem_add _ _ _).mp hkey with rfl | hold
        · obtain ⟨chain, hc, -, hlist⟩ := hone
          exact ⟨chain, hc, hlist⟩
        · exact hfound' key hold
      have hadvanced := hrecorded.advance hv hhints hadded
      refine ⟨⟨hadvanced.kept.current, hadvanced.kept.offered⟩, hadvanced.resolved, ?_, hadvanced.found, hadvanced.hints,
        hadvanced.verified⟩
      intro address key hkey
      rw [OrderedMap.get_set] at hkey
      split at hkey
      · next haddress =>
        obtain rfl := Option.some_inj.mp hkey
        exact haddress ▸ hone
      · exact hrecorded.owners address key hkey
    · exact hrecorded.advance hv hhints hfound'

theorem Good.step (h : s.Good E own) {l : Label} (hs : s.step E own l = some t) : t.Good E own := by
  cases l with
  | receive sender hints profiles =>
    obtain rfl := Option.some_inj.mp hs
    refine ⟨⟨h.kept.current, h.kept.offered⟩, h.resolved, h.owners, ?_, ?_, ?_⟩
    · exact List.forall_mem_append.mpr ⟨h.found, List.forall_mem_singleton.mpr fun key hkey => absurd hkey (OrderedSet.mem_empty key)⟩
    · refine List.forall_mem_append.mpr ⟨fun v hv => ?_, List.forall_mem_singleton.mpr ?_⟩
      · obtain ⟨record, hrecord, hmem⟩ := h.hints v hv
        exact ⟨record, List.getElem?_append_left (List.getElem?_eq_some_iff.mp hrecord).1 ▸ hrecord, hmem⟩
      · exact ⟨⟨hints, .empty⟩, List.getElem?_concat_length, fun _ hhint => hhint⟩
    · exact List.forall_mem_append.mpr ⟨h.verified,
        List.forall_mem_singleton.mpr fun address ha => absurd ha (OrderedSet.mem_empty address)⟩
  | verifyHint k get =>
    simp only [PeerAnnouncements.step] at hs
    split at hs
    · next hv =>
      obtain rfl := Option.some_inj.mp hs
      exact h.hintVerified hv rfl get
    · cases hs
  | settle k =>
    simp only [PeerAnnouncements.step] at hs
    split at hs
    · next hv =>
      obtain rfl := Option.some_inj.mp hs
      exact h.settle hv
    · cases hs
  | failed k =>
    simp only [PeerAnnouncements.step] at hs
    split at hs
    · obtain rfl := Option.some_inj.mp hs
      exact ⟨⟨h.kept.current, h.kept.offered⟩, h.resolved, h.owners, fun v hv => h.found v (List.mem_of_mem_eraseIdx hv),
        fun v hv => h.hints v (List.mem_of_mem_eraseIdx hv), h.verified⟩
    · cases hs
  | leave peerId =>
    obtain rfl := Option.some_inj.mp hs
    exact ⟨⟨h.kept.current, h.kept.offered⟩, h.resolved, h.owners, h.found, h.hints, h.verified⟩

/-- However announcements, fetches, failures and departures interleave: the profile kept for a key
is the current one of all that were put up under it, it is that identity's own and the identity
alone owns a library whose chain resolved, as does the owner recorded for an address; and what
counts as announced by a peer is among its hints and resolved. -/
theorem announced_profiles (h : Run (step E own) (· = create) anyLabel s) :
    (∀ key, (s.profiles.get key).map entryOf = resolveCurrentState (s.offeredBy key)) ∧
      (∀ profile ∈ s.offered, GenuineProfile E profile.hashed.entry.key profile ∧
        some profile.hashed.entry.key ≠ own ∧ s.Owner profile.hashed.entry.key) ∧
      (∀ chain ∈ s.resolved, ∃ get, resolveAcChain E get chain.address = .ok chain) ∧
      (∀ address key, s.owners.get address = some key →
        ∃ chain ∈ s.resolved, chain.address = address ∧ chain.writeList = [key]) ∧
      ∀ peerId record, s.announcedBy peerId = some record → ∀ address ∈ record.verified,
        (∃ hint ∈ record.hints, hint.address = address) ∧ ∃ chain ∈ s.resolved, chain.address = address := by
  have hgood : s.Good E own := h.invariant (fun _ h0 => h0 ▸ good_create) fun _ _ _ hi _ hs => hi.step hs
  refine ⟨hgood.kept.current, hgood.kept.offered, hgood.resolved, hgood.owners, ?_⟩
  intro peerId record hannounced
  obtain ⟨id, -, hrecord⟩ := Option.bind_eq_some_iff.mp hannounced
  exact hgood.verified record (List.mem_of_getElem? hrecord)

theorem currentKey_congr {a b : VerifiedEntry} (h : a.toHashedEntry = b.toHashedEntry) :
    toLex (OrderDual.toDual (a.time : ℚ), toLex (OrderDual.toDual (envelopeTimestamp a.toHashedEntry), multihashKey a)) =
      toLex (OrderDual.toDual (b.time : ℚ), toLex (OrderDual.toDual (envelopeTimestamp b.toHashedEntry), multihashKey b)) := by
  rw [VerifiedEntry.time, VerifiedEntry.time, multihashKey, multihashKey, h]

/-- Which entry is current depends on the entries alone, not on their order. -/
theorem resolveCurrentState_hash {l m : List VerifiedEntry}
    (h : ∀ hashed, (∃ e ∈ l, e.toHashedEntry = hashed) ↔ ∃ e ∈ m, e.toHashedEntry = hashed) :
    (resolveCurrentState l).map (·.hash) = (resolveCurrentState m).map (·.hash) := by
  rcases firstLeast_spec compareCurrentState_follows l with ⟨rfl, hl⟩ | ⟨a, ha, hl, hleast⟩
  · have hm : m = [] := by
      apply List.eq_nil_iff_forall_not_mem.mpr
      intro e he
      obtain ⟨_, hnil, -⟩ := (h e.toHashedEntry).mpr ⟨e, he, rfl⟩
      exact List.not_mem_nil hnil
    rw [hm]
  · obtain ⟨a', ha', heq⟩ := (h a.toHashedEntry).mp ⟨a, ha, rfl⟩
    rcases firstLeast_spec compareCurrentState_follows m with ⟨rfl, -⟩ | ⟨b, hb, hm, hleast'⟩
    · exact absurd ha' List.not_mem_nil
    · obtain ⟨b', hb', heq'⟩ := (h b.toHashedEntry).mpr ⟨b, hb, rfl⟩
      have hab := le_antisymm ((hleast b' hb').trans_eq (currentKey_congr heq')) ((hleast' a' ha').trans_eq (currentKey_congr heq))
      simp only [toLex_inj, Prod.mk.injEq] at hab
      have hhash : a.hash = b.hash := hash_eq_of_multihashKey_eq hab.2.2
      rw [resolveCurrentState, resolveCurrentState, hl, hm, Option.map_some, Option.map_some, hhash]

/-- Two peers that were offered the same profiles of an identity keep the same one, in whatever
order and through whatever announcements these came. -/
theorem announced_profiles_converge {other : Option String} (hs : Run (step E own) (· = create) anyLabel s)
    (ht : Run (step E other) (· = create) anyLabel t) {key : String}
    (hsame : ∀ hashed, (∃ e ∈ s.offeredBy key, e.toHashedEntry = hashed) ↔ ∃ e ∈ t.offeredBy key, e.toHashedEntry = hashed) :
    (s.profiles.get key).map (·.hashed.hash) = (t.profiles.get key).map (·.hashed.hash) := by
  have hgood : s.Good E own := hs.invariant (fun _ h0 => h0 ▸ good_create) fun _ _ _ hi _ hs => hi.step hs
  have hgood' : t.Good E other := ht.invariant (fun _ h0 => h0 ▸ good_create) fun _ _ _ hi _ hs => hi.step hs
  have hhash := resolveCurrentState_hash hsame
  rw [← hgood.kept.current, ← hgood'.kept.current, Option.map_map, Option.map_map] at hhash
  exact hhash

/-! ## An owner's profiles -/

/-- A peer announces a library and profiles; the blocks of the library are at hand. -/
def announcedOnce (address : String) (values : List Value) (get : Hash → Option Bytes) : List Label :=
  [.receive "peer" [⟨address, none⟩] values, .verifyHint 0 get, .settle 0]

theorem offered_keepProfile (s : PeerAnnouncements) (profile : VerifiedProfile) :
    (s.keepProfile none profile).offered = s.offered ++ [profile] := by
  simp only [keepProfile, reduceCtorEq, if_false]
  split
  · split <;> rfl
  · rfl

/-- Profiles of owners are put up in the order they came. -/
theorem offered_foldl_judgeProfile {owners : OrderedSet String} {values : List Value} {profiles : List VerifiedProfile}
    (h : List.Forall₂ (fun value profile => verifyAnnouncedProfile E value = some profile ∧
      profile.hashed.entry.key ∈ owners) values profiles) (s : PeerAnnouncements) :
    (values.foldl (judgeProfile E none owners) s).offered = s.offered ++ profiles := by
  induction h generalizing s with
  | nil => rw [List.foldl_nil, List.append_nil]
  | cons hone _ ih =>
    obtain ⟨hverified, howner⟩ := hone
    rw [List.foldl_cons, ih]
    simp only [judgeProfile, hverified, if_pos howner, offered_keepProfile, List.append_assoc, List.singleton_append]

theorem runLabels_announcedOnce {get : Hash → Option Bytes} {address owner : String} {values : List Value}
    {chain : ResolvedAcChain} {profiles : List VerifiedProfile}
    (hlibrary : verifyAnnouncedLibrary E get address none = some ⟨chain, none⟩) (hlist : chain.writeList = [owner])
    (hprofiles : List.Forall₂ (fun value profile => verifyAnnouncedProfile E value = some profile ∧
      profile.hashed.entry.key = owner) values profiles) :
    ∃ s, runLabels (step E none) create (announcedOnce address values get) = some s ∧ s.offered = profiles := by
  have hmem : owner ∈ (OrderedSet.empty.add owner : OrderedSet String) := (OrderedSet.mem_add _ _ _).mpr (.inl rfl)
  have hjudged : ∀ s, (values.foldl (judgeProfile E none (OrderedSet.empty.add owner)) s).offered = s.offered ++ profiles :=
    offered_foldl_judgeProfile (hprofiles.imp fun _ _ ⟨hverified, howner⟩ => ⟨hverified, by rwa [howner]⟩)
  simp only [announcedOnce, runLabels, step, create, Option.bind_some, List.nil_append, List.getElem?_cons_zero,
    hintVerified, hlibrary, hlist, List.set_cons_zero]
  exact ⟨_, rfl, hjudged _⟩

open ChainSample

/-- The owner's profiles of these days come in one message. -/
theorem run_announcedOnce (days : List ℕ) (hdays : ∀ day ∈ days, day ≤ Value.maxSafeInteger) :
    ∃ s, Run (step environment none) (· = create) anyLabel s ∧ s.offered = days.map ownerVerified := by
  have hprofiles : List.Forall₂ (fun value profile => verifyAnnouncedProfile environment value = some profile ∧
      profile.hashed.entry.key = ownerKey) (days.map fun day => (ownerProfile day).toValue) (days.map ownerVerified) := by
    rw [List.forall₂_map_left_iff, List.forall₂_map_right_iff, List.forall₂_same]
    exact fun day hday => ⟨verifyAnnouncedProfile_owner (hdays day hday), rfl⟩
  obtain ⟨s, hs, hoffered⟩ := runLabels_announcedOnce verifyAnnouncedLibrary_music rfl hprofiles
  exact ⟨s, Run.of_runLabels (.start rfl) (fun _ _ _ => trivial) hs, hoffered⟩

theorem announced_profiles_owner : GenuineProfile environment ownerKey (ownerVerified 1) := by
  obtain ⟨s, hs, hoffered⟩ := run_announcedOnce [1, 2] (by decide)
  exact ((announced_profiles hs).2.1 (ownerVerified 1) (by simp [hoffered])).1

/-- Two peers hear of the owner's two profiles in opposite orders. -/
theorem announced_profiles_converge_opposite : ∃ s t, Run (step environment none) (· = create) anyLabel s ∧
    Run (step environment none) (· = create) anyLabel t ∧ s.offered = [ownerVerified 1, ownerVerified 2] ∧
    t.offered = [ownerVerified 2, ownerVerified 1] ∧
    (s.profiles.get ownerKey).map (·.hashed.hash) = (t.profiles.get ownerKey).map (·.hashed.hash) := by
  obtain ⟨s, hs, hone⟩ := run_announcedOnce [1, 2] (by decide)
  obtain ⟨t, ht, hother⟩ := run_announcedOnce [2, 1] (by decide)
  refine ⟨s, t, hs, ht, hone, hother, announced_profiles_converge hs ht fun hashed => ?_⟩
  simp [offeredBy, hone, hother, or_comm]

end PeerAnnouncements

end RecordNode
