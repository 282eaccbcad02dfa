import RecordNode.Encoding.ValueJson
import RecordNode.Entry.Operations
import RecordNode.Replication.Messages

/-! # Announcements

The libraries a peer announces with the profiles of their owners, as one message within
the size bound. Libraries are left out from the end until the message fits, never one of
the peer's own; a profile goes with the last library that needs it. The entries go out as
JSON, which a payload need not survive: a big integer in one stops the whole message, and
bytes or a CID in one reach the receiver as other data. -/

namespace RecordNode

open Foundation

structure AnnouncedLibrary where
  address : String
  /-- The signed entry carrying the library's current About record. -/
  about : Option Value

structure Announcement where
  libraries : List AnnouncedLibrary
  /-- Signed entries carrying owners' profile records. -/
  profiles : List Value

def AnnouncedLibrary.toValue (library : AnnouncedLibrary) : Value :=
  .record (("address", .string library.address) :: library.about.toList.map fun about => ("about", about))

def Announcement.toValue (announcement : Announcement) : Value :=
  .record [("libraries", .array (announcement.libraries.map AnnouncedLibrary.toValue)),
    ("profiles", .array announcement.profiles)]

/-- `announced_entry`: a signed entry as a message carries it. -/
def announcedEntry (entry : SignedEntry) : Value :=
  .record [("id", .string entry.id), ("payload", entry.payload), ("next", .array (entry.next.map .string)),
    ("refs", .array (entry.refs.map .string)), ("v", .number 2),
    ("clock", .record [("id", .string entry.clock.id), ("time", .number entry.clock.time)]), ("key", .string entry.key),
    ("sig", .string entry.sig)]

/-- The entries a message carries. -/
def Announcement.entries (announcement : Announcement) : List Value :=
  announcement.libraries.filterMap AnnouncedLibrary.about ++ announcement.profiles

structure TypeError where
  message : String
deriving DecidableEq

def keyOf (entry : Value) : Option String := entry.fields?.bind (·.string? "key")

section Encoding
variable (F : JsonFormat) (owners : OrderedMap String String) (profiles : List Value)

def messageOf (announcement : Announcement) : Except TypeError (List Char) :=
  match announcement.toValue.toJson F with
  | some json => .ok json.stringify
  | none => .error ⟨"Do not know how to serialize a BigInt"⟩

/-- The profiles that go with these libraries: of their owners, or all where no owner is known. -/
def keptProfiles (kept : List AnnouncedLibrary) : List Value :=
  let keys := kept.filterMap fun library => owners.get library.address
  if owners.size = 0 then profiles else profiles.filter fun profile => (keyOf profile).any keys.contains

def announcementOf (kept : List AnnouncedLibrary) : Announcement := ⟨kept, keptProfiles owners profiles kept⟩

/-- The loop of `encode_announcement`: the last library goes until the message fits. -/
def announceLoop (ownCount : ℕ) (kept : List AnnouncedLibrary) : Except TypeError (Option Bytes) :=
  match messageOf F (announcementOf owners profiles kept) with
  | .error thrown => .error thrown
  | .ok text =>
    let bytes := encodeText (String.ofList text)
    if bytes.length ≤ networkMessageMaxBytes then .ok (some bytes)
    else if kept.length ≤ ownCount then .ok none
    else announceLoop ownCount kept.dropLast
termination_by kept.length
decreasing_by
  rw [List.length_dropLast]
  omega

/-- The announcement within the bound, or nothing when even the own libraries do not fit. -/
def encodeAnnouncement (libraries : List AnnouncedLibrary) (ownCount : ℕ) : Except TypeError (Option Bytes) :=
  announceLoop F owners profiles ownCount libraries

end Encoding

/-! ## Decoding -/

/-- A map shaped as a signed entry; its fields are checked when it is verified. -/
def entryLike (value : Value) : Bool :=
  match value.fields? with
  | some fields =>
    (fields.get "payload").any Value.isRecord && (fields.string? "id").isSome && (fields.string? "key").isSome
  | none => false

section Decoding
variable (F : JsonFormat) (E : Environment)

def announcedLibrary (value : Value) : Option AnnouncedLibrary := do
  let fields ← value.fields?
  let address ← fields.string? "address"
  if isLibraryAddress E address then some ⟨address, (fields.get "about").filter entryLike⟩ else none

/-- Each library with a valid address and each profile shaped as a signed entry. -/
def announcementIn (value : Value) : Option Announcement := do
  let fields ← value.fields?
  let libraries ← fields.array? "libraries"
  return ⟨libraries.filterMap (announcedLibrary E), ((fields.array? "profiles").getD []).filter entryLike⟩

def decodeAnnouncement (data : Bytes) : Option Announcement := do
  let json ← parseBounded data
  announcementIn E (json.toValue F)

end Decoding

/-! ## Sizes -/

variable {F : JsonFormat} {E : Environment} {owners : OrderedMap String String} {profiles : List Value}

theorem byteLength_joined (texts : List (List Char)) :
    byteLength (Json.joined ',' texts) = (texts.map byteLength).sum + (texts.length - 1) :=
  Json.size_joined byteLength_append ',' rfl texts

theorem byteLength_joined_le {texts texts' : List (List Char)} (h : texts.Sublist texts') :
    byteLength (Json.joined ',' texts) ≤ byteLength (Json.joined ',' texts') := by
  rw [byteLength_joined, byteLength_joined]
  have hsum := (h.map byteLength).sum_le_sum (by simp)
  have hlength := h.length_le
  omega

theorem byteLength_array_le {items items' : List Json} (h : items.Sublist items') :
    byteLength (Json.stringify (.array items)) ≤ byteLength (Json.stringify (.array items')) := by
  have hjoined := byteLength_joined_le (h.map Json.stringify)
  have hsplit (l : List Json) : Json.stringify (.array l) = ['['] ++ (Json.joined ',' (l.map Json.stringify) ++ [']']) := by
    simp only [Json.stringify, Json.itemTexts_eq_map, Json.arrayText, List.singleton_append]
  rw [hsplit, hsplit]
  simp only [byteLength_append]
  omega

/-- The text of a message is that of its two arrays. -/
theorem messageOf_eq_ok {announcement : Announcement} {text : List Char} :
    messageOf F announcement = .ok text ↔ ∃ json, announcement.toValue.toJson F = some json ∧ json.stringify = text := by
  rw [messageOf]
  cases announcement.toValue.toJson F with
  | none => simp
  | some json => simp

theorem toJson_toValue {announcement : Announcement} {json : Json} : announcement.toValue.toJson F = some json ↔
    ∃ libraries profiles, (announcement.libraries.map AnnouncedLibrary.toValue).mapM (Value.toJson F) = some libraries ∧
      announcement.profiles.mapM (Value.toJson F) = some profiles ∧
      Json.object [("libraries", .array libraries), ("profiles", .array profiles)] = json := by
  simp only [Announcement.toValue, Value.toJson, Value.toJsonFields, Value.toJsonItems_eq_mapM]
  cases (announcement.libraries.map AnnouncedLibrary.toValue).mapM (Value.toJson F) with
  | none => simp
  | some libraries => cases announcement.profiles.mapM (Value.toJson F) <;> simp

/-- Fewer libraries and fewer profiles make a shorter message. -/
theorem messageOf_mono {a b : Announcement} (hlibraries : a.libraries.Sublist b.libraries)
    (hprofiles : a.profiles.Sublist b.profiles) {text : List Char} (h : messageOf F b = .ok text) :
    ∃ shorter, messageOf F a = .ok shorter ∧ byteLength shorter ≤ byteLength text := by
  have hsplit (libraries profiles : List Json) :
      Json.stringify (.object [("libraries", .array libraries), ("profiles", .array profiles)]) =
        "\x7b\"libraries\":".toList ++ (Json.stringify (.array libraries) ++
          (",\"profiles\":".toList ++ (Json.stringify (.array profiles) ++ "\x7d".toList))) := by
    simp only [Json.stringify, Json.fieldTexts, Json.objectText, Json.fieldText, Json.joined, List.map_cons, List.map_nil,
      List.append_assoc, List.cons_append]
    rfl
  obtain ⟨json, hjson, rfl⟩ := messageOf_eq_ok.1 h
  obtain ⟨libraries', profiles', hlibraries', hprofiles', rfl⟩ := toJson_toValue.1 hjson
  obtain ⟨libraries, hl, hlsub⟩ := mapM_sublist (hlibraries.map AnnouncedLibrary.toValue) hlibraries'
  obtain ⟨profiles, hp, hpsub⟩ := mapM_sublist hprofiles hprofiles'
  refine ⟨_, messageOf_eq_ok.2 ⟨_, toJson_toValue.2 ⟨libraries, profiles, hl, hp, rfl⟩, rfl⟩, ?_⟩
  have hlsize := byteLength_array_le hlsub
  have hpsize := byteLength_array_le hpsub
  rw [hsplit, hsplit]
  simp only [byteLength_append]
  omega

theorem keptProfiles_mono {kept kept' : List AnnouncedLibrary} (h : kept.Sublist kept') :
    (keptProfiles owners profiles kept).Sublist (keptProfiles owners profiles kept') := by
  simp only [keptProfiles]
  split
  · exact List.Sublist.refl _
  · refine List.monotone_filter_right profiles fun profile hkey => ?_
    rw [Option.any_eq_true] at hkey ⊢
    obtain ⟨key, hk, hmem⟩ := hkey
    exact ⟨key, hk, List.contains_iff_mem.2 ((h.filterMap _).mem (List.contains_iff_mem.1 hmem))⟩

theorem announcementOf_mono {kept kept' : List AnnouncedLibrary} (h : kept.Sublist kept') {text : List Char}
    (htext : messageOf F (announcementOf owners profiles kept') = .ok text) :
    ∃ shorter, messageOf F (announcementOf owners profiles kept) = .ok shorter ∧ byteLength shorter ≤ byteLength text :=
  have hprofiles : (announcementOf owners profiles kept).profiles.Sublist (announcementOf owners profiles kept').profiles :=
    keptProfiles_mono h
  messageOf_mono h hprofiles htext

/-- The profile's key owns one of these libraries. -/
def ownsOne (owners : OrderedMap String String) (kept : List AnnouncedLibrary) (profile : Value) : Bool :=
  kept.any fun library => (owners.get library.address).any fun owner => keyOf profile = some owner

/-- The profiles kept are those of the owners of the libraries kept, or all of them. -/
theorem keptProfiles_eq (owners : OrderedMap String String) (profiles : List Value) (kept : List AnnouncedLibrary) :
    keptProfiles owners profiles kept = profiles.filter fun profile => owners.size = 0 || ownsOne owners kept profile := by
  simp only [keptProfiles]
  split
  · rename_i hempty
    simp [hempty]
  · rename_i hsome
    refine List.filter_congr fun profile _ => ?_
    rw [Bool.eq_iff_iff]
    simp only [hsome, decide_false, Bool.false_or, ownsOne, List.any_eq_true, Option.any_eq_true, List.contains_iff_mem,
      List.mem_filterMap, decide_eq_true_eq]
    constructor
    · rintro ⟨key, hkey, library, hlibrary, howner⟩
      exact ⟨library, hlibrary, key, howner, hkey⟩
    · rintro ⟨library, hlibrary, key, howner, hkey⟩
      exact ⟨key, hkey, library, hlibrary, howner⟩

/-! ## The loop -/

/-- The message for these libraries is within the bound. -/
def Fits (F : JsonFormat) (owners : OrderedMap String String) (profiles : List Value) (kept : List AnnouncedLibrary) : Prop :=
  ∃ text, messageOf F (announcementOf owners profiles kept) = .ok text ∧ byteLength text ≤ networkMessageMaxBytes

theorem Fits.mono {kept kept' : List AnnouncedLibrary} (h : Fits F owners profiles kept') (hsub : kept.Sublist kept') :
    Fits F owners profiles kept := by
  obtain ⟨text, htext, hle⟩ := h
  obtain ⟨shorter, hshorter, hshort⟩ := announcementOf_mono hsub htext
  exact ⟨shorter, hshorter, hshort.trans hle⟩

/-- The first `n` libraries fit, and no longer list of the first libraries does. -/
structure LongestFit (F : JsonFormat) (owners : OrderedMap String String) (profiles : List Value)
    (libraries : List AnnouncedLibrary) (ownCount n : ℕ) : Prop where
  own : ownCount ≤ n
  within : n ≤ libraries.length
  fits : Fits F owners profiles (libraries.take n)
  longest : ∀ m, n < m → m ≤ libraries.length → ¬ Fits F owners profiles (libraries.take m)

theorem announceLoop_of_fits {ownCount : ℕ} {kept : List AnnouncedLibrary} {text : List Char}
    (h : messageOf F (announcementOf owners profiles kept) = .ok text) (hle : byteLength text ≤ networkMessageMaxBytes) :
    announceLoop F owners profiles ownCount kept = .ok (some (encodeText (String.ofList text))) := by
  rw [announceLoop, h]
  exact if_pos hle

theorem announceLoop_of_not_fits {ownCount : ℕ} {kept : List AnnouncedLibrary} {text : List Char}
    (h : messageOf F (announcementOf owners profiles kept) = .ok text) (hgt : ¬ Fits F owners profiles kept) :
    announceLoop F owners profiles ownCount kept =
      if kept.length ≤ ownCount then .ok none else announceLoop F owners profiles ownCount kept.dropLast := by
  have hbytes : ¬ (encodeText (String.ofList text)).length ≤ networkMessageMaxBytes := fun hle => hgt ⟨text, h, hle⟩
  rw [announceLoop, h]
  exact if_neg hbytes

/-- Where the message of the first `n` libraries can be written, the loop from them on ends at the
longest list that fits. -/
theorem announceLoop_take (F : JsonFormat) (owners : OrderedMap String String) (profiles : List Value)
    {libraries : List AnnouncedLibrary} {ownCount : ℕ} (n : ℕ) (hown : ownCount ≤ n) (hn : n ≤ libraries.length)
    {text : List Char} (htext : messageOf F (announcementOf owners profiles (libraries.take n)) = .ok text) :
    (announceLoop F owners profiles ownCount (libraries.take n) = .ok none ∧
      ∀ m, ownCount ≤ m → m ≤ n → ¬ Fits F owners profiles (libraries.take m)) ∨
    ∃ m text, ownCount ≤ m ∧ m ≤ n ∧ messageOf F (announcementOf owners profiles (libraries.take m)) = .ok text ∧
      byteLength text ≤ networkMessageMaxBytes ∧
      (∀ k, m < k → k ≤ n → ¬ Fits F owners profiles (libraries.take k)) ∧
      announceLoop F owners profiles ownCount (libraries.take n) = .ok (some (encodeText (String.ofList text))) := by
  induction n, hown using Nat.le_induction generalizing text with
  | base =>
    by_cases hfits : Fits F owners profiles (libraries.take ownCount)
    · obtain ⟨text, htext, hle⟩ := hfits
      exact .inr ⟨ownCount, text, Nat.le_refl _, Nat.le_refl _, htext, hle, fun k hk hle => by omega,
        announceLoop_of_fits htext hle⟩
    · refine .inl ⟨?_, fun m hm hle => by rwa [show m = ownCount by omega]⟩
      rw [announceLoop_of_not_fits htext hfits, if_pos (List.length_take_le _ _)]
  | succ n hle ih =>
    by_cases hfits : Fits F owners profiles (libraries.take (n + 1))
    · obtain ⟨text, htext, hsize⟩ := hfits
      exact .inr ⟨n + 1, text, by omega, Nat.le_refl _, htext, hsize, fun k hk hle => by omega,
        announceLoop_of_fits htext hsize⟩
    · have hlength : ¬ (libraries.take (n + 1)).length ≤ ownCount := by
        rw [List.length_take]
        omega
      have hstep : announceLoop F owners profiles ownCount (libraries.take (n + 1)) =
          announceLoop F owners profiles ownCount (libraries.take n) := by
        rw [announceLoop_of_not_fits htext hfits, if_neg hlength, List.dropLast_eq_take, List.length_take,
          List.take_take, show min (min (n + 1) libraries.length - 1) (n + 1) = n by omega]
      have hsub : (libraries.take n).Sublist (libraries.take (n + 1)) := List.take_sublist_take_left (by omega)
      obtain ⟨shorter, hshorter, -⟩ := announcementOf_mono hsub htext
      rw [hstep]
      obtain ⟨hnone, hall⟩ | ⟨m, text, hm, hmn, htext, hfit, hlongest, hsome⟩ := ih (by omega) hshorter
      · refine .inl ⟨hnone, fun m hm hle => ?_⟩
        rcases Nat.lt_or_eq_of_le hle with hlt | rfl
        · exact hall m hm (by omega)
        · exact hfits
      · refine .inr ⟨m, text, hm, by omega, htext, hfit, fun k hk hle => ?_, hsome⟩
        rcases Nat.lt_or_eq_of_le hle with hlt | rfl
        · exact hlongest k hk (by omega)
        · exact hfits

/-! ## What the decoder makes of it -/

/-- An entry in memory: a map shaped as a signed entry. -/
structure EntryShaped (F : JsonFormat) (entry : Value) : Prop where
  map : ∃ fields, entry = .record fields
  proper : entry.Proper F
  shape : entryLike entry = true

/-- What `announced_entry` gives for an entry whose payload is a map is shaped as one. -/
theorem entryShaped_announcedEntry {entry : SignedEntry} (hpayload : entry.payload.isRecord = true)
    (hproper : entry.payload.Proper F) (htwo : F.ReadsBack 2) (htime : F.ReadsBack entry.clock.time) :
    EntryShaped F (announcedEntry entry) := by
  have hpointers (hashes : List String) : Value.ProperItems F (hashes.map .string) := by
    rw [Value.properItems_iff]
    simp [Value.Proper]
  refine ⟨⟨_, rfl⟩, ?_, ?_⟩
  · simp [announcedEntry, Value.Proper, Value.ProperFields, hproper, hpointers, htwo, htime]
  · simp [announcedEntry, entryLike, Value.fields?, Fields.get, Fields.string?, List.lookup_cons, Value.asString?, hpayload]

/-- A library that survives the decoder: its address is one, and its About entry is shaped as an entry. -/
structure Announceable (F : JsonFormat) (E : Environment) (library : AnnouncedLibrary) : Prop where
  address : isLibraryAddress E library.address = true
  about : ∀ entry ∈ library.about, EntryShaped F entry

theorem announcedLibrary_record {address : String} {about : Option Value} (h : isLibraryAddress E address = true) :
    announcedLibrary E (.record (("address", .string address) :: about.toList.map fun about => ("about", about))) =
      some ⟨address, about.filter entryLike⟩ := by
  cases about with
  | none => simp [announcedLibrary, Value.fields?, Fields.string?, Fields.get, List.lookup_cons, Value.asString?, h]
  | some entry => simp [announcedLibrary, Value.fields?, Fields.string?, Fields.get, List.lookup_cons, Value.asString?, h]

/-- What a library's JSON reads back as. -/
theorem toValue_library {library : AnnouncedLibrary} {json : Json} (h : library.toValue.toJson F = some json) :
    ∃ about : Option Value, (library.about = none → about = none) ∧ json.toValue F =
      .record (("address", .string library.address) :: about.toList.map fun about => ("about", about)) := by
  obtain ⟨address, about⟩ := library
  cases about with
  | none =>
    simp only [AnnouncedLibrary.toValue, Option.toList_none, List.map_nil, Value.toJson, Value.toJsonFields,
      Option.bind_eq_bind, Option.bind_some, Option.pure_def, Option.map_some, Option.some.injEq] at h
    subst h
    exact ⟨none, fun _ => rfl, by simp [Json.toValue, Json.fieldValues, Fields.assign_of_nodup]⟩
  | some entry =>
    simp only [AnnouncedLibrary.toValue, Option.toList_some, List.map_cons, List.map_nil, Value.toJson,
      Value.toJsonFields, Option.map_eq_some_iff, Option.bind_eq_bind, Option.bind_eq_some_iff, Option.pure_def,
      Option.some.injEq] at h
    obtain ⟨fields, ⟨address', rfl, rest, ⟨about, -, others, rfl, rfl⟩, rfl⟩, rfl⟩ := h
    exact ⟨some (about.toValue F), by simp, by simp [Json.toValue, Json.fieldValues, Fields.assign_of_nodup]⟩

theorem announcedLibrary_toValue {library : AnnouncedLibrary} (h : isLibraryAddress E library.address = true)
    (habout : ∀ entry ∈ library.about, entryLike entry = true) : announcedLibrary E library.toValue = some library := by
  obtain ⟨address, about⟩ := library
  rw [AnnouncedLibrary.toValue, announcedLibrary_record h]
  cases about with
  | none => rfl
  | some entry => simp [habout entry rfl]

theorem announcementIn_record (libraries profiles : List Value) :
    announcementIn E (.record [("libraries", .array libraries), ("profiles", .array profiles)]) =
      some ⟨libraries.filterMap (announcedLibrary E), profiles.filter entryLike⟩ := by
  simp [announcementIn, Value.fields?, Fields.array?, Fields.get, List.lookup_cons, Value.asArray?]

/-- Libraries that read back as themselves were sent as themselves. -/
theorem itemValues_of_filterMap {libraries : List AnnouncedLibrary} {jsons : List Json}
    (hlibraries : ∀ library ∈ libraries, isLibraryAddress E library.address = true)
    (hjsons : (libraries.map AnnouncedLibrary.toValue).mapM (Value.toJson F) = some jsons)
    (h : (Json.itemValues F jsons).filterMap (announcedLibrary E) = libraries) :
    Json.itemValues F jsons = libraries.map AnnouncedLibrary.toValue := by
  induction libraries generalizing jsons with
  | nil =>
    cases hjsons
    rfl
  | cons library rest ih =>
    simp only [List.map_cons, List.mapM_cons, Option.bind_eq_bind, Option.bind_eq_some_iff] at hjsons
    obtain ⟨json, hjson, others, hothers, hcons⟩ := hjsons
    cases hcons
    obtain ⟨about, hnone, hvalue⟩ := toValue_library hjson
    rw [Json.itemValues, hvalue, List.filterMap_cons_some (announcedLibrary_record (hlibraries library List.mem_cons_self)),
      List.cons.injEq] at h
    obtain ⟨hlibrary, hrest⟩ := h
    rw [Json.itemValues, List.map_cons, ih (fun l hl => hlibraries l (List.mem_cons_of_mem _ hl)) hothers hrest, hvalue]
    obtain ⟨address, about'⟩ := library
    have habout : about.filter entryLike = about' := (AnnouncedLibrary.mk.inj hlibrary).2
    cases about' with
    | none => rw [hnone rfl]; rfl
    | some entry =>
      obtain ⟨rfl, -⟩ := Option.filter_eq_some_iff.1 habout
      rfl

theorem all_toValue {p : Value → Bool} (hstring : ∀ s, p (.string s) = true) (announcement : Announcement) :
    announcement.toValue.all p = true ↔ ∀ entry ∈ announcement.entries, entry.all p = true := by
  have hlibrary (library : AnnouncedLibrary) :
      library.toValue.all p = true ↔ ∀ entry ∈ library.about, entry.all p = true := by
    obtain ⟨address, about⟩ := library
    cases about <;> simp [AnnouncedLibrary.toValue, Value.all, Value.allFields, hstring]
  simp only [Announcement.toValue, Value.all, Value.allFields, Value.allItems_eq_all, Bool.and_true, Bool.and_eq_true,
    List.all_map, List.all_eq_true, Function.comp_apply, hlibrary, Announcement.entries, List.mem_append,
    List.mem_filterMap]
  constructor
  · rintro ⟨hlibraries, hprofiles⟩ entry (⟨library, hmem, habout⟩ | hmem)
    · exact hlibraries library hmem entry habout
    · exact hprofiles entry hmem
  · intro h
    exact ⟨fun library hmem entry habout => h entry (.inl ⟨library, hmem, habout⟩), fun entry hmem => h entry (.inr hmem)⟩

theorem proper_toValue {announcement : Announcement} (h : ∀ entry ∈ announcement.entries, entry.Proper F) :
    announcement.toValue.Proper F := by
  have hlibrary (library : AnnouncedLibrary) (h : ∀ entry ∈ library.about, entry.Proper F) : library.toValue.Proper F := by
    obtain ⟨address, about⟩ := library
    cases about with
    | none => simp [AnnouncedLibrary.toValue, Value.Proper, Value.ProperFields]
    | some entry => simp [AnnouncedLibrary.toValue, Value.Proper, Value.ProperFields, h entry rfl]
  simp only [Announcement.entries, List.mem_append, List.mem_filterMap] at h
  simp only [Announcement.toValue, Value.Proper, Value.ProperFields, Value.properItems_iff, List.map_cons, List.map_nil,
    List.mem_map, forall_exists_index, and_imp, forall_apply_eq_imp_iff₂, and_true]
  refine ⟨by simp, fun library hmem => ?_, fun entry hmem => h entry (.inr hmem)⟩
  exact hlibrary library fun entry habout => h entry (.inl ⟨library, hmem, habout⟩)

theorem mem_entries_about {announcement : Announcement} {library : AnnouncedLibrary} {entry : Value}
    (hlibrary : library ∈ announcement.libraries) (habout : entry ∈ library.about) : entry ∈ announcement.entries :=
  List.mem_append_left _ (List.mem_filterMap.2 ⟨library, hlibrary, habout⟩)

/-- A message can be written exactly when no entry in it carries a big integer. -/
theorem messageOf_isOk {announcement : Announcement} :
    (∃ text, messageOf F announcement = .ok text) ↔ ∀ entry ∈ announcement.entries, entry.serializable = true := by
  have hsome := all_toValue (p := Value.writable) (fun _ => rfl) announcement
  have hjson : (announcement.toValue.toJson F).isSome = announcement.toValue.serializable := Value.isSome_toJson _
  rw [Value.serializable] at hjson
  rw [← hjson] at hsome
  refine Iff.trans ?_ hsome
  rw [Option.isSome_iff_exists]
  constructor
  · rintro ⟨text, htext⟩
    obtain ⟨json, hjson, -⟩ := messageOf_eq_ok.1 htext
    exact ⟨json, hjson⟩
  · rintro ⟨json, hjson⟩
    exact ⟨_, messageOf_eq_ok.2 ⟨json, hjson, rfl⟩⟩

/-- A message that fits decodes to what was put into it exactly when every entry in it is plain. -/
theorem decode_eq_iff {announcement : Announcement} {text : List Char}
    (hlibraries : ∀ library ∈ announcement.libraries, isLibraryAddress E library.address = true)
    (hentries : ∀ entry ∈ announcement.entries, EntryShaped F entry)
    (htext : messageOf F announcement = .ok text) (hfits : byteLength text ≤ networkMessageMaxBytes) :
    decodeAnnouncement F E (encodeText (String.ofList text)) = some announcement ↔
      ∀ entry ∈ announcement.entries, entry.plain = true := by
  obtain ⟨json, hjson, rfl⟩ := messageOf_eq_ok.1 htext
  have hproper : announcement.toValue.Proper F := proper_toValue fun entry he => (hentries entry he).proper
  have hvalid : json.valid = true := Value.valid_of_toJson hproper hjson
  obtain ⟨libraries, profiles, hl, hp, rfl⟩ := toJson_toValue.1 hjson
  have hparse : parseBounded (encodeText (String.ofList
      (Json.stringify (.object [("libraries", .array libraries), ("profiles", .array profiles)])))) =
        some (.object [("libraries", .array libraries), ("profiles", .array profiles)]) := by
    obtain ⟨rest, hrest⟩ : ∃ rest, Json.stringify (.object [("libraries", .array libraries), ("profiles", .array profiles)]) =
        '\x7b' :: rest := ⟨_, by simp only [Json.stringify, Json.objectText]; rfl⟩
    have hdecode : decodeText (encodeText (String.ofList ('\x7b' :: rest))) = '\x7b' :: rest :=
      decodeText_encodeText (by decide)
    have hbound := Nat.not_lt.mpr hfits
    rw [byteLength] at hbound
    rw [← hrest] at hdecode
    rw [parseBounded, if_neg hbound, hdecode]
    exact Json.parse_stringify hvalid
  have hvalue : Json.toValue F (.object [("libraries", .array libraries), ("profiles", .array profiles)]) =
      .record [("libraries", .array (Json.itemValues F libraries)), ("profiles", .array (Json.itemValues F profiles))] := by
    simp [Json.toValue, Json.fieldValues, Fields.assign_of_nodup]
  have hdecoded : decodeAnnouncement F E (encodeText (String.ofList
      (Json.stringify (.object [("libraries", .array libraries), ("profiles", .array profiles)])))) =
        some ⟨(Json.itemValues F libraries).filterMap (announcedLibrary E), (Json.itemValues F profiles).filter entryLike⟩ := by
    rw [decodeAnnouncement, hparse]
    exact (congrArg (announcementIn E) hvalue).trans (announcementIn_record _ _)
  rw [hdecoded]
  have hplain := (Value.toValue_eq_iff hproper hjson).symm
  rw [Value.plain, all_toValue (fun _ => rfl), hvalue] at hplain
  refine Iff.trans ?_ hplain.symm
  obtain ⟨kept, sent⟩ := announcement
  simp only [Option.some.injEq, Announcement.mk.injEq, Announcement.toValue, Value.record.injEq, List.cons.injEq,
    Prod.mk.injEq, Value.array.injEq, true_and, and_true]
  constructor
  · rintro ⟨hkept, hsent⟩
    have hlength : (Json.itemValues F profiles).length = sent.length := by
      rw [Value.itemValues_eq_map, List.length_map, length_of_mapM hp]
    have hall : (Json.itemValues F profiles).filter entryLike = Json.itemValues F profiles :=
      List.filter_sublist.eq_of_length (by rw [hsent, hlength])
    exact ⟨itemValues_of_filterMap hlibraries hl hkept, hall.symm.trans hsent⟩
  · rintro ⟨hkept, hsent⟩
    rw [hkept, hsent]
    constructor
    · rw [List.filterMap_map]
      exact (List.filterMap_congr fun library hmem => announcedLibrary_toValue (hlibraries library hmem)
        fun entry habout => (hentries entry (mem_entries_about hmem habout)).shape).trans List.filterMap_some
    · exact List.filter_eq_self.2 fun profile hmem => (hentries profile (List.mem_append_right _ hmem)).shape

/-! ## What is sent is what was kept -/

theorem LongestFit.unique {libraries : List AnnouncedLibrary} {ownCount m n : ℕ}
    (hm : LongestFit F owners profiles libraries ownCount m) (hn : LongestFit F owners profiles libraries ownCount n) : m = n := by
  rcases Nat.lt_trichotomy m n with hlt | heq | hgt
  · exact absurd hn.fits (hm.longest n hlt hn.within)
  · exact heq
  · exact absurd hm.fits (hn.longest m hgt hm.within)

/-- Nothing is sent exactly when the peer's own libraries do not fit with the profiles of their owners.
Otherwise the longest list of libraries that fits is sent, with the profiles of its owners in order,
and that is what a receiver decodes. -/
def Trims (F : JsonFormat) (E : Environment) (owners : OrderedMap String String) (profiles : List Value)
    (libraries : List AnnouncedLibrary) (ownCount : ℕ) : Prop :=
  ∃ result, encodeAnnouncement F owners profiles libraries ownCount = .ok result ∧
    (result = none ↔ ¬ Fits F owners profiles (libraries.take ownCount)) ∧
    ∀ bytes, result = some bytes → bytes.length ≤ networkMessageMaxBytes ∧
      ∃ n, LongestFit F owners profiles libraries ownCount n ∧
        decodeAnnouncement F E bytes = some ⟨libraries.take n,
          profiles.filter fun profile => owners.size = 0 || ownsOne owners (libraries.take n) profile⟩

theorem mem_of_mem_announcementOf {libraries : List AnnouncedLibrary} {n : ℕ} {entry : Value}
    (h : entry ∈ (announcementOf owners profiles (libraries.take n)).entries) :
    (∃ library ∈ libraries, entry ∈ library.about) ∨ entry ∈ profiles := by
  rcases List.mem_append.1 h with hmem | hmem
  · obtain ⟨library, hlibrary, habout⟩ := List.mem_filterMap.1 hmem
    exact .inl ⟨library, List.mem_of_mem_take hlibrary, habout⟩
  · have hkept : entry ∈ keptProfiles owners profiles (libraries.take n) := hmem
    rw [keptProfiles_eq] at hkept
    exact .inr (List.mem_of_mem_filter hkept)

/-- The announcement is trimmed as it should be exactly when no entry of it carries a big integer and
every entry of the longest list that fits is plain data. -/
theorem announcement_trimming (F : JsonFormat) (E : Environment) (owners : OrderedMap String String) (profiles : List Value)
    (libraries : List AnnouncedLibrary) (ownCount : ℕ) (hown : ownCount ≤ libraries.length)
    (hlibraries : ∀ library ∈ libraries, Announceable F E library) (hprofiles : ∀ profile ∈ profiles, EntryShaped F profile) :
    Trims F E owners profiles libraries ownCount ↔
      (∀ entry ∈ (announcementOf owners profiles libraries).entries, entry.serializable = true) ∧
        ∀ n, LongestFit F owners profiles libraries ownCount n →
          ∀ entry ∈ (announcementOf owners profiles (libraries.take n)).entries, entry.plain = true := by
  have hdecode {n : ℕ} {text : List Char}
      (htext : messageOf F (announcementOf owners profiles (libraries.take n)) = .ok text)
      (hfits : byteLength text ≤ networkMessageMaxBytes) :
      decodeAnnouncement F E (encodeText (String.ofList text)) = some ⟨libraries.take n,
          profiles.filter fun profile => owners.size = 0 || ownsOne owners (libraries.take n) profile⟩ ↔
        ∀ entry ∈ (announcementOf owners profiles (libraries.take n)).entries, entry.plain = true := by
    rw [← keptProfiles_eq]
    refine decode_eq_iff (fun library hl => (hlibraries library (List.mem_of_mem_take hl)).address) (fun entry he => ?_)
      htext hfits
    rcases mem_of_mem_announcementOf he with ⟨library, hl, habout⟩ | hp
    · exact (hlibraries library hl).about entry habout
    · exact hprofiles entry hp
  cases hwhole : messageOf F (announcementOf owners profiles libraries) with
  | error thrown =>
    refine iff_of_false ?_ fun h => ?_
    · rintro ⟨result, hresult, -⟩
      rw [encodeAnnouncement, announceLoop, hwhole] at hresult
      cases hresult
    · obtain ⟨text, htext⟩ := messageOf_isOk.2 h.1
      rw [hwhole] at htext
      cases htext
  | ok whole =>
    rw [← List.take_length (l := libraries)] at hwhole
    have hserializable : ∀ entry ∈ (announcementOf owners profiles libraries).entries, entry.serializable = true := by
      rw [List.take_length] at hwhole
      exact messageOf_isOk.1 ⟨whole, hwhole⟩
    have hloop := announceLoop_take F owners profiles libraries.length hown (Nat.le_refl _) hwhole
    rw [List.take_length] at hloop
    obtain ⟨hnone, hall⟩ | ⟨n, text, hn, hle, htext, hfit, hlongest, hsome⟩ := hloop
    · refine iff_of_true ⟨none, hnone, by simp [hall ownCount (Nat.le_refl _) hown], by simp⟩
        ⟨hserializable, fun n hn => absurd hn.fits (hall n hn.own hn.within)⟩
    · have hlong : LongestFit F owners profiles libraries ownCount n := ⟨hn, hle, ⟨text, htext, hfit⟩, hlongest⟩
      have hownFits : Fits F owners profiles (libraries.take ownCount) :=
        hlong.fits.mono (List.take_sublist_take_left hn)
      constructor
      · rintro ⟨result, hresult, -, hbytes⟩
        obtain rfl : some (encodeText (String.ofList text)) = result := Except.ok.inj (hsome.symm.trans hresult)
        obtain ⟨-, m, hm, hread⟩ := hbytes _ rfl
        obtain rfl := hm.unique hlong
        refine ⟨hserializable, fun n hn => ?_⟩
        obtain rfl := hn.unique hm
        exact (hdecode htext hfit).1 hread
      · rintro ⟨-, hplain⟩
        refine ⟨_, hsome, by simp [hownFits], fun bytes hbytes => ?_⟩
        obtain rfl := Option.some.inj hbytes
        exact ⟨hfit, n, hlong, (hdecode htext hfit).2 (hplain n hlong)⟩

namespace OneAnnounced

def announcedCid : String := "zdpuAxgMzJaTqK1HQU6CKQ9p2vUaG4eR9zUk4HwYj9Q1pK7DC"

def announcingEnvironment : Environment := { plainEnvironment with parsesCid := fun text => text = announcedCid }

def address : String := "/record/zdpuAxgMzJaTqK1HQU6CKQ9p2vUaG4eR9zUk4HwYj9Q1pK7DC/music"

/-- Integers in decimal. -/
def decimal : JsonFormat where
  numberText q := toString q.num.toNat
  numberValue text := (text.toList.foldl (fun n c => 10 * n + (c.toNat - 48)) 0 : ℕ)
  linkText _ := announcedCid

def owner : String := "02aaaaaaaaaaaaaaaaaaaaaaaaaaaaaaaaaaaaaaaaaaaaaaaaaaaaaaaaaaaaaaaa"

/-- A PUT of the record under its key, with fields of its own beside it. -/
def put (key : String) (record : Fields) (others : Fields) : Value :=
  .record ([("op", .string "PUT"), ("key", .string key), ("value", .record record)] ++ others)

def aboutRecord : Fields := [("v", .number 1), ("name", .string "Music"), ("type", .string "about"), ("timestamp", .number 7)]

def signed (payload : Value) : SignedEntry := ⟨address, payload, [], [], ⟨owner, 3⟩, owner, "30"⟩

def announced (others : Fields) : AnnouncedLibrary :=
  ⟨address, some (announcedEntry (signed (put announcingEnvironment.aboutKey.text aboutRecord others)))⟩

def ownerProfile : Value :=
  announcedEntry (signed (put announcingEnvironment.profileKey.text [("type", .string "profile"), ("name", .string "A")] []))

theorem readsBack : decimal.ReadsBack 1 ∧ decimal.ReadsBack 2 ∧ decimal.ReadsBack 3 ∧ decimal.ReadsBack 7 :=
  ⟨⟨by decide +kernel, by decide +kernel⟩, ⟨by decide +kernel, by decide +kernel⟩, ⟨by decide +kernel, by decide +kernel⟩,
    ⟨by decide +kernel, by decide +kernel⟩⟩

theorem shaped_about {others : Fields} (h : Value.ProperFields decimal others)
    (hnames : (["op", "key", "value"] ++ others.map Prod.fst).Nodup) :
    EntryShaped decimal (announcedEntry (signed (put announcingEnvironment.aboutKey.text aboutRecord others))) := by
  obtain ⟨hone, htwo, hthree, hseven⟩ := readsBack
  refine entryShaped_announcedEntry rfl ?_ htwo ?_
  · simp only [signed, put, Value.Proper]
    refine ⟨by simpa using hnames, ?_⟩
    simp [Value.ProperFields, Value.Proper, aboutRecord, hone, hseven, h]
  · simpa [signed] using hthree

/-- Fields beside the record are not looked at, a capability apart. -/
theorem validate_about (E : Environment) {others : Fields} (h : others.get "capability_id" = none) :
    validateOperation E .recordstore true (put E.aboutKey.text aboutRecord others) =
      .ok (.about ⟨7, "Music"⟩ none) := by
  have hrecord : validateAboutRecord E E.aboutKey.text aboutRecord =
      .ok ⟨7, "Music"⟩ := by
    have htimestamp : aboutRecord.uint? "timestamp" = some 7 := by decide +kernel
    have hname : aboutRecord.string? "name" = some "Music" := rfl
    have hfields : assertFields aboutRecord aboutFields "an About record" = .ok () := rfl
    have hlength : (utf8ToBytes "Music").length ≤ aboutNameMaxBytes := by decide +kernel
    have hversion : aboutRecord.isInt "v" 1 = true := by decide +kernel
    have htype : aboutRecord.string? "type" = some "about" := rfl
    simp only [validateAboutRecord, htimestamp, hname, hfields, hversion, htype, hlength]
    rfl
  have hput : validateRecordPut E .recordstore true E.aboutKey.text aboutRecord =
      .ok (.about ⟨7, "Music"⟩ none) := by
    have hv1 : isV1Envelope aboutRecord = false := rfl
    have htype : aboutRecord.string? "type" = some "about" := rfl
    simp only [validateRecordPut, hv1, htype, hrecord]
    rfl
  have hread : ∀ fields : Fields, fields = [("op", .string "PUT"), ("key", .string E.aboutKey.text),
      ("value", .record aboutRecord)] ++ others →
      fields.string? "key" = some E.aboutKey.text ∧ fields.string? "op" = some "PUT" ∧
        (fields.get "value").bind Value.fields? = some aboutRecord ∧ fields.string? "capability_id" = none := by
    rintro _ rfl
    refine ⟨rfl, rfl, rfl, ?_⟩
    change (others.get "capability_id").bind Value.asString? = none
    rw [h]
    rfl
  obtain ⟨hkey, hop, hval, hcap⟩ := hread _ rfl
  simp only [validateOperation, validateRecordOperation, put, Value.fields?, hkey, hop, hval, hcap, hput]
  rfl

theorem shaped_ownerProfile : EntryShaped decimal ownerProfile := by
  obtain ⟨-, htwo, hthree, -⟩ := readsBack
  refine entryShaped_announcedEntry rfl ?_ htwo ?_
  · simp [signed, put, Value.Proper, Value.ProperFields]
  · simpa [signed] using hthree

theorem announceable_announced {others : Fields} (h : Value.ProperFields decimal others)
    (hnames : (["op", "key", "value"] ++ others.map Prod.fst).Nodup) :
    Announceable decimal announcingEnvironment (announced others) := by
  have haddress : isLibraryAddress announcingEnvironment address = true := by decide +kernel
  refine ⟨haddress, fun entry he => ?_⟩
  obtain rfl := Option.some.inj he
  exact shaped_about h hnames

end OneAnnounced

open OneAnnounced in
/-- The check of an entry accepts an About record beside which the payload carries a big integer, and
no announcement can be written with it. -/
theorem announcement_trimming_bigint :
    (∃ operation, validateOperation announcingEnvironment .recordstore true
      (put announcingEnvironment.aboutKey.text aboutRecord [("note", .bigint (2 ^ 64 - 1))]) = .ok operation) ∧
    ¬ ∀ (F : JsonFormat) (E : Environment) (owners : OrderedMap String String) (profiles : List Value)
      (libraries : List AnnouncedLibrary) (ownCount : ℕ), ownCount ≤ libraries.length →
      (∀ library ∈ libraries, Announceable F E library) → (∀ profile ∈ profiles, EntryShaped F profile) →
      Trims F E owners profiles libraries ownCount := by
  refine ⟨⟨.about ⟨7, "Music"⟩ none, ?_⟩, fun hclaim => ?_⟩
  · exact validate_about _ rfl
  · have hlibrary : Announceable decimal announcingEnvironment (announced [("note", .bigint (2 ^ 64 - 1))]) :=
      announceable_announced (by simp [Value.ProperFields, Value.Proper]) (by decide)
    have htrims := hclaim decimal announcingEnvironment .empty [] [announced [("note", .bigint (2 ^ 64 - 1))]] 1
      (Nat.le_refl 1) (by simpa using hlibrary) (by simp)
    obtain ⟨result, hresult, -⟩ := htrims
    rw [encodeAnnouncement, announceLoop] at hresult
    cases hresult

open OneAnnounced in
/-- A peer's one library goes out with its About record and its owner's profile. -/
theorem announcement_trimming_one : ∃ bytes,
    encodeAnnouncement decimal (OrderedMap.empty.set address owner) [ownerProfile] [announced []] 1 = .ok (some bytes) ∧
      decodeAnnouncement decimal announcingEnvironment bytes = some ⟨[announced []], [ownerProfile]⟩ := by
  have hlibrary : ∀ library ∈ [announced []], Announceable decimal announcingEnvironment library := by
    have hone : Announceable decimal announcingEnvironment (announced []) :=
      announceable_announced (by simp [Value.ProperFields]) (by decide)
    simpa using hone
  have hprofile : ∀ profile ∈ [ownerProfile], EntryShaped decimal profile := by
    simpa using shaped_ownerProfile
  have howns : ownsOne (OrderedMap.empty.set address owner) [announced []] ownerProfile = true := by
    simp [ownsOne, announced, keyOf, ownerProfile, announcedEntry, signed, Value.fields?, Fields.string?, Fields.get,
      List.lookup_cons, Value.asString?]
  have hkept : announcementOf (OrderedMap.empty.set address owner) [ownerProfile] [announced []] =
      ⟨[announced []], [ownerProfile]⟩ := by
    rw [announcementOf, keptProfiles_eq]
    simp [howns]
  have hplain : ∀ entry ∈ (Announcement.mk [announced []] [ownerProfile]).entries,
      entry.serializable = true ∧ entry.plain = true := by
    simp [Announcement.entries, announced, ownerProfile, announcedEntry, signed, put, aboutRecord, Value.serializable,
      Value.plain, Value.all, Value.allItems, Value.allFields, Value.writable, Value.restored]
  have hsmall : ((Announcement.mk [announced []] [ownerProfile]).toValue.toJson decimal).any
      (fun json => decide (json.stringify.length ≤ 2000)) = true := by decide +kernel
  have hfits : Fits decimal (OrderedMap.empty.set address owner) [ownerProfile] [announced []] := by
    obtain ⟨json, hjson, hsize⟩ := (Option.any_eq_true _ _).1 hsmall
    refine ⟨_, messageOf_eq_ok.2 ⟨json, by rw [hkept]; exact hjson, rfl⟩, ?_⟩
    have hbytes : byteLength json.stringify ≤ 4 * json.stringify.length := byteLength_le _
    have hlength : json.stringify.length ≤ 2000 := of_decide_eq_true hsize
    exact hbytes.trans ((Nat.mul_le_mul_left 4 hlength).trans (by decide))
  have hone {n : ℕ} (h : LongestFit decimal (OrderedMap.empty.set address owner) [ownerProfile] [announced []] 1 n) :
      n = 1 := Nat.le_antisymm h.within h.own
  obtain ⟨result, hresult, hnone, hsome⟩ := (announcement_trimming decimal announcingEnvironment
    (OrderedMap.empty.set address owner) [ownerProfile] [announced []] 1 (Nat.le_refl 1) hlibrary hprofile).2
    ⟨fun entry he => (hplain entry (hkept ▸ he)).1, fun n hn entry he => by
      obtain rfl := hone hn
      exact (hplain entry (hkept ▸ he)).2⟩
  cases result with
  | none => exact absurd hfits (hnone.1 rfl)
  | some bytes =>
    obtain ⟨-, n, hn, hdecode⟩ := hsome bytes rfl
    obtain rfl := hone hn
    refine ⟨bytes, hresult, hdecode.trans ?_⟩
    simp [howns]

end RecordNode
