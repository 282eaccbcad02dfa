import RecordNode.Encoding.MapOrder
import RecordNode.Entry.Signed

/-! # One block for one entry

The decoder rebuilds an entry field by field and hashes the bytes it was given. What it
rebuilds is the whole of what the bytes say, up to the order of the keys, so hashing
the entry again gives the same block. -/

namespace RecordNode

variable {E : Environment}

/-! ## Maps with known keys -/

theorem get_of_mem {fields : Fields} (hn : (fields.map Prod.fst).Nodup) {p : String × Value} (hp : p ∈ fields) :
    fields.get p.1 = some p.2 := by
  induction fields with
  | nil => simp at hp
  | cons q rest ih =>
    rw [List.map_cons, List.nodup_cons] at hn
    rw [Fields.get, List.lookup_cons]
    rcases List.mem_cons.1 hp with rfl | hp
    · simp
    · have hne : p.1 ≠ q.1 := fun h => hn.1 (h ▸ List.mem_map_of_mem hp)
      rw [beq_eq_false_iff_ne.2 hne]
      exact ih hn.2 hp

/-- A map is what its keys look up. -/
theorem fields_perm {fields : Fields} {names : List String} (h : fields.names.Perm names) (hn : names.Nodup) :
    fields.Perm (names.map fun name => (name, (fields.get name).getD .null)) := by
  have hnodup : (fields.map Prod.fst).Nodup := h.nodup_iff.2 hn
  have hself : fields.names.map (fun name => (name, (fields.get name).getD .null)) = fields := by
    rw [Fields.names, List.map_map]
    refine (List.map_congr_left fun p hp => ?_).trans (List.map_id _)
    simp [get_of_mem hnodup hp]
  rw [← hself]
  exact (h.map _).trans (by rw [hself])

/-- As many keys as names, and every name among them, leave no room for another. -/
theorem names_perm {fields : Fields} {names : List String} (hn : names.Nodup) (hlen : fields.length = names.length)
    (hall : ∀ name ∈ names, name ∈ fields.names) : fields.names.Perm names := by
  have hsub : names.Subperm fields.names := List.subperm_of_subset hn hall
  exact (hsub.perm_of_length_le (by rw [Fields.names, List.length_map, hlen])).symm

theorem mem_names_of_get {fields : Fields} {name : String} {v : Value} (h : fields.get name = some v) :
    name ∈ fields.names := by
  induction fields with
  | nil => simp [Fields.get] at h
  | cons p rest ih =>
    rw [Fields.get, List.lookup_cons] at h
    rw [Fields.names, List.map_cons, List.mem_cons]
    split at h
    · rename_i heq
      exact .inl (by simpa using heq)
    · exact .inr (ih h)

/-- An object with a field that neither a byte string nor a CID has is a map. -/
theorem eq_record_of_fields {v : Value} {fields : Fields} {name : String} (hfields : v.fields? = some fields)
    (hplain : v.linksPlain = true) (hname : name ∈ fields.names) (hcid : name ∉ cidProperties)
    (hindex : ∀ i < fields.length, toString i ≠ name) : v = .record fields := by
  cases v with
  | record fields' => rw [Option.some.inj hfields]
  | link properties =>
    obtain rfl := Option.some.inj hfields
    obtain ⟨p, hp, rfl⟩ := List.mem_map.1 hname
    simp only [Value.linksPlain, List.all_eq_true, List.contains_iff_mem] at hplain
    exact absurd (hplain p hp) hcid
  | bytes b =>
    obtain rfl := Option.some.inj hfields
    simp only [Fields.names, List.map_map, List.mem_map] at hname
    obtain ⟨⟨x, i⟩, hmem, heq⟩ := hname
    have hi : i < b.length := by
      have := List.snd_lt_of_mem_zipIdx hmem
      simpa using this
    exact absurd heq (hindex i (by simpa using hi))
  | _ => simp [Value.fields?] at hfields

/-! ## What the shape check accepts -/

/-- A list of entry hashes, no more than an entry may cite. -/
structure Pointers (value : Option Value) (hashes : List Hash) : Prop where
  eq : value = some (.array (hashes.map .string))
  length_le : hashes.length ≤ maxEntryPointers
  cids : ∀ hash ∈ hashes, isProtocolCid hash = true

/-- The clock map with its two keys, in any order. -/
structure ClockFields (value : Option Value) (clock : LamportClock) (fields : Fields) : Prop where
  eq : value.bind Value.fields? = some fields
  names : fields.names.Perm ["id", "time"]
  id : fields.get "id" = some (.string clock.id)
  time : fields.get "time" = some (.number clock.time)

/-- The eight keys of an entry, in any order, and what they hold. -/
structure EntryFields (fields : Fields) (e : SignedEntry) (clock : Fields) : Prop where
  names : fields.names.Perm signedEntryFields
  key : fields.get "key" = some (.string e.key)
  sig : fields.get "sig" = some (.string e.sig)
  id : fields.get "id" = some (.string e.id)
  payload : fields.get "payload" = some e.payload
  v : fields.get "v" = some (.number 2)
  next : Pointers (fields.get "next") e.next
  refs : Pointers (fields.get "refs") e.refs
  clock : ClockFields (fields.get "clock") e.clock clock

theorem eq_map_of_mapM_asString {items : List Value} {texts : List String} (h : items.mapM Value.asString? = some texts) :
    items = texts.map .string := by
  induction items generalizing texts with
  | nil => simpa using h.symm
  | cons v rest ih =>
    simp only [List.mapM_cons, Option.bind_eq_bind, Option.bind_eq_some_iff] at h
    obtain ⟨text, htext, tail, htail, h⟩ := h
    obtain rfl := Option.some.inj h
    rw [List.map_cons, ← ih htail]
    cases v <;> simp [Value.asString?] at htext
    rw [htext]

theorem get_of_string {fields : Fields} {name text : String} (h : fields.string? name = some text) :
    fields.get name = some (.string text) := by
  obtain ⟨v, hv, htext⟩ := Option.bind_eq_some_iff.1 h
  cases v <;> simp [Value.asString?] at htext
  rw [hv, htext]

theorem assertPointers_eq_ok {value : Option Value} {label : String} {hashes : List Hash}
    (h : assertPointers value label = .ok hashes) : Pointers value hashes := by
  unfold assertPointers at h
  split at h
  · simp at h
  · rename_i items hitems
    obtain ⟨v, rfl, hv⟩ := Option.bind_eq_some_iff.1 hitems
    cases v <;> simp [Value.asArray?] at hv
    subst hv
    split at h
    · simp at h
    · rename_i hlength
      split at h
      · rename_i texts htexts
        split at h
        · rename_i hall
          obtain rfl := Except.ok.inj h
          obtain rfl := eq_map_of_mapM_asString htexts
          refine ⟨rfl, ?_, List.all_eq_true.1 hall⟩
          rw [List.length_map] at hlength
          omega
        · simp at h
      · simp at h

theorem eq_natCast_of_asUint {v : Value} {n : ℕ} (h : v.asUint? = some n) : v = .number n := by
  cases v <;> simp [Value.asUint?] at h
  rename_i q
  obtain ⟨⟨hden, hnonneg, -⟩, rfl⟩ := h
  congr 1
  have hq : (q.num : ℚ) = q := by
    conv_rhs => rw [← Rat.num_div_den q, hden]
    simp
  rw [← hq]
  simp only [Rat.num_intCast]
  exact_mod_cast (Int.toNat_of_nonneg (Rat.num_nonneg.2 hnonneg)).symm

theorem assertClockFields_eq_ok {value : Option Value} {clock : LamportClock} (h : assertClockFields value = .ok clock) :
    ∃ fields, ClockFields value clock fields := by
  unfold assertClockFields at h
  split at h
  · simp at h
  · rename_i fields hfields
    split at h
    · simp at h
    · rename_i hlength
      split at h
      · rename_i id hid
        split at h
        · split at h
          · rename_i time htime
            obtain rfl := Except.ok.inj h
            obtain ⟨v, hv, huint⟩ := Option.bind_eq_some_iff.1 htime
            have hgetTime : fields.get "time" = some (.number time) := by rw [hv, eq_natCast_of_asUint huint]
            have hgetId := get_of_string hid
            refine ⟨fields, hfields, names_perm (by decide) (by simpa using hlength) ?_, hgetId, hgetTime⟩
            intro name hname
            simp only [List.mem_cons, List.not_mem_nil, or_false] at hname
            rcases hname with rfl | rfl
            · exact mem_names_of_get hgetId
            · exact mem_names_of_get hgetTime
          · simp at h
        · simp at h
      · simp at h

theorem assertSignedEntryShape_eq_ok {value : Value} {e : SignedEntry} (h : assertSignedEntryShape E value = .ok e) :
    ∃ fields clock, value.fields? = some fields ∧ EntryFields fields e clock := by
  unfold assertSignedEntryShape at h
  split at h
  · simp at h
  · rename_i fields hfields
    split at h
    · simp at h
    · rename_i hnames
      rw [not_or, not_not, not_not, List.all_eq_true] at hnames
      split at h
      · rename_i key hkey
        split at h
        · split at h
          · rename_i sig hsig
            unfold assertUnsignedFields at h
            split at h
            · simp at h
            · rename_i id hid
              split at h
              · simp at h
              · rename_i payload hpayload
                split at h
                · rename_i hv
                  simp only [bind_eq_ok] at h
                  obtain ⟨next, hnext, refs, hrefs, clock, hclock, hres⟩ := h
                  obtain rfl := Except.ok.inj hres
                  obtain ⟨clockFields, hclockFields⟩ := assertClockFields_eq_ok hclock
                  refine ⟨fields, clockFields, hfields, names_perm (by decide) hnames.1 fun name hname => ?_,
                    get_of_string hkey, get_of_string hsig, get_of_string hid, hpayload, ?_, assertPointers_eq_ok hnext,
                    assertPointers_eq_ok hrefs, hclockFields⟩
                  · simpa using hnames.2 name hname
                  · unfold Fields.isInt at hv
                    split at hv
                    · rename_i q hq
                      rw [hq, beq_iff_eq.1 hv]
                      rfl
                    · simp at hv
                · simp at h
          · simp at h
        · simp at h
      · simp at h

/-! ## The same value up to map order -/

theorem sorted_record_of_perm {fields fields' : Fields} (h : fields.Perm fields') (hn : fields'.names.Nodup) :
    (Value.record fields).sorted = (Value.record fields').sorted := by
  simp only [Value.sorted]
  congr 1
  refine sortFields_eq_of_perm ?_ ?_
  · rw [sortedValues_eq_map, sortedValues_eq_map]
    exact h.map _
  · rw [names_sortedValues]
    exact (h.map Prod.fst).nodup_iff.2 hn

theorem ClockFields.sorted {value : Value} {clock : LamportClock} {fields : Fields}
    (c : ClockFields (some value) clock fields) (hplain : value.linksPlain = true) :
    value.sorted = (Value.record [("id", .string clock.id), ("time", .number clock.time)]).sorted := by
  have hlength : fields.length = 2 := by simpa [Fields.names] using c.names.length_eq
  have hvalue : value = .record fields := by
    refine eq_record_of_fields c.eq hplain (mem_names_of_get c.id) (by decide) ?_
    rw [hlength]
    decide
  rw [hvalue]
  refine sorted_record_of_perm ?_ (by simp [Fields.names])
  have hperm := fields_perm c.names (by decide)
  simpa [c.id, c.time] using hperm

theorem linksPlain_of_get {fields : Fields} {name : String} {v : Value} (h : (Value.record fields).linksPlain = true)
    (hn : fields.names.Nodup) (hget : fields.get name = some v) : v.linksPlain = true := by
  simp only [Value.linksPlain, fieldLinksPlain_eq_all, List.all_eq_true] at h
  obtain ⟨p, hp, rfl⟩ := List.mem_map.1 (mem_names_of_get hget)
  rw [get_of_mem hn hp] at hget
  exact Option.some.inj hget ▸ h p hp

/-- What was decoded is the rebuilt entry, with its keys in whatever order. -/
theorem EntryFields.sorted {fields clock : Fields} {e : SignedEntry} (f : EntryFields fields e clock)
    (hplain : (Value.record fields).linksPlain = true) : (Value.record fields).sorted = e.toValue.sorted := by
  obtain ⟨clockValue, hclockValue, -⟩ := Option.bind_eq_some_iff.1 f.clock.eq
  have hclock := f.clock
  rw [hclockValue] at hclock
  have hnodup : fields.names.Nodup := f.names.nodup_iff.2 (by decide)
  have hsame := hclock.sorted (linksPlain_of_get hplain hnodup hclockValue)
  have hnames : ["v", "id", "key", "sig", "next", "refs", "clock", "payload"].Perm signedEntryFields := by decide
  have hperm := fields_perm (f.names.trans hnames.symm) (by decide)
  simp only [List.map_cons, List.map_nil, f.v, f.id, f.key, f.sig, f.next.eq, f.refs.eq, hclockValue, f.payload,
    Option.getD_some] at hperm
  rw [sorted_record_of_perm hperm (by simp [Fields.names])]
  simp only [SignedEntry.toValue, Value.sorted, sortedValues, hsame]

theorem decodeSignedEntry_eq_ok {b : Bytes} {h : HashedEntry} (hd : decodeSignedEntry E b = .ok h) :
    ∃ value, E.decode b = some value ∧ E.encode value = b ∧ assertSignedEntryShape E value = .ok h.entry ∧
      h = withHash E h.entry b := by
  simp only [decodeSignedEntry, bind_eq_ok] at hd
  obtain ⟨-, -, value, hcanonical, entry, hshape, hp⟩ := hd
  obtain rfl := Except.ok.inj hp
  unfold decodeCanonical at hcanonical
  split at hcanonical
  · simp at hcanonical
  · rename_i v hv
    split at hcanonical
    · rename_i hencode
      obtain rfl := Except.ok.inj hcanonical
      exact ⟨v, hv, hencode, hshape, rfl⟩
    · simp at hcanonical

/-- The decoded map is the rebuilt entry. -/
theorem decoded_sorted (law : E.MapLaw) {b : Bytes} {value : Value} {e : SignedEntry} (hdecode : E.decode b = some value)
    (hshape : assertSignedEntryShape E value = .ok e) :
    ∃ fields clock, value = .record fields ∧ EntryFields fields e clock ∧ value.sorted = e.toValue.sorted := by
  obtain ⟨fields, clock, hfields, f⟩ := assertSignedEntryShape_eq_ok hshape
  have hplain := law.links b value hdecode
  have hlength : fields.length = 8 := by simpa [Fields.names, signedEntryFields] using f.names.length_eq
  have hvalue : value = .record fields := by
    refine eq_record_of_fields hfields hplain (mem_names_of_get f.sig) (by decide) ?_
    rw [hlength]
    decide
  exact ⟨fields, clock, hvalue, f, hvalue ▸ f.sorted (hvalue ▸ hplain)⟩

/-- What keeps a decoded value from being an entry. -/
inductive FaultyEntry (v : Value) : Prop
  | missing {name : String} (wanted : name ∈ signedEntryFields) (absent : name ∉ Fields.names (v.fields?.getD []))
  | extra {fields : Fields} {name : String} (eq : v.fields? = some fields) (present : name ∈ fields.names)
      (unknown : name ∉ signedEntryFields)
  | clock {fields clock : Fields} {name : String} (eq : v.fields? = some fields)
      (clock_eq : (fields.get "clock").bind Value.fields? = some clock) (present : name ∈ clock.names)
      (unknown : name ∉ ["id", "time"])
  | many {fields : Fields} {which : String} {items : List Value} (eq : v.fields? = some fields)
      (pointers : which ∈ ["next", "refs"]) (items_eq : fields.array? which = some items) (exceeds : 256 < items.length)
  | pointer {fields : Fields} {which : String} {items : List Value} {item : Value} (eq : v.fields? = some fields)
      (pointers : which ∈ ["next", "refs"]) (items_eq : fields.array? which = some items) (mem : item ∈ items)
      (bad : ∀ text, item = .string text → isProtocolCid text = false)

theorem Pointers.array_eq {fields : Fields} {which : String} {hashes : List Hash} {items : List Value}
    (p : Pointers (fields.get which) hashes) (h : fields.array? which = some items) : items = hashes.map .string := by
  simpa [Fields.array?, p.eq, Value.asArray?, eq_comm] using h

theorem EntryFields.pointers {fields clock : Fields} {e : SignedEntry} (f : EntryFields fields e clock) {which : String}
    (h : which ∈ ["next", "refs"]) : ∃ hashes, Pointers (fields.get which) hashes := by
  simp only [List.mem_cons, List.not_mem_nil, or_false] at h
  rcases h with rfl | rfl
  · exact ⟨_, f.next⟩
  · exact ⟨_, f.refs⟩

theorem EntryFields.not_faulty {v : Value} {fields clock : Fields} {e : SignedEntry} (hv : v.fields? = some fields)
    (f : EntryFields fields e clock) : ¬ FaultyEntry v := by
  intro h
  cases h with
  | missing wanted absent =>
    rw [hv, Option.getD_some] at absent
    exact absent (f.names.mem_iff.2 wanted)
  | extra eq present unknown =>
    obtain rfl := Option.some.inj (hv.symm.trans eq)
    exact unknown (f.names.mem_iff.1 present)
  | clock eq clock_eq present unknown =>
    obtain rfl := Option.some.inj (hv.symm.trans eq)
    obtain rfl := Option.some.inj (f.clock.eq.symm.trans clock_eq)
    exact unknown (f.clock.names.mem_iff.1 present)
  | many eq pointers items_eq exceeds =>
    obtain rfl := Option.some.inj (hv.symm.trans eq)
    obtain ⟨hashes, p⟩ := f.pointers pointers
    have hle := p.length_le
    have hmax : maxEntryPointers = 256 := rfl
    rw [p.array_eq items_eq, List.length_map] at exceeds
    omega
  | pointer eq pointers items_eq mem bad =>
    obtain rfl := Option.some.inj (hv.symm.trans eq)
    obtain ⟨hashes, p⟩ := f.pointers pointers
    rw [p.array_eq items_eq] at mem
    obtain ⟨text, htext, rfl⟩ := List.mem_map.1 mem
    have := bad text rfl
    rw [p.cids text htext] at this
    cases this

theorem hashSignedEntry_decoded (law : E.MapLaw) {b : Bytes} {h : HashedEntry} (hd : decodeSignedEntry E b = .ok h) :
    hashSignedEntry E h.entry = h := by
  obtain ⟨value, hdecode, hencode, hshape, heq⟩ := decodeSignedEntry_eq_ok hd
  obtain ⟨-, -, -, -, hsorted⟩ := decoded_sorted law hdecode hshape
  rw [hashSignedEntry, (law.order _ _ hsorted).symm.trans hencode]
  exact heq.symm

/-- Every accepted block is the canonical block of the entry it decodes to, so no two of them decode to
one entry and nothing rides along; a block that says anything else, or says it in other bytes, is
rejected. -/
theorem signed_entry_canonical (E : Environment) (law : E.MapLaw) :
    (∀ b h, decodeSignedEntry E b = .ok h → hashSignedEntry E h.entry = h ∧ h.bytes = b ∧
      ∃ v, E.decode b = some v ∧ v.sorted = h.entry.toValue.sorted) ∧
    (∀ b b' h h', decodeSignedEntry E b = .ok h → decodeSignedEntry E b' = .ok h' → h.entry = h'.entry → b = b') ∧
    (∀ b v, E.decode b = some v → FaultyEntry v → ∃ refusal, decodeSignedEntry E b = .error refusal) ∧
    ∀ b, (∀ v, E.decode b = some v → E.encode v ≠ b) → ∃ refusal, decodeSignedEntry E b = .error refusal := by
  have hrefuse {b : Bytes} (h : ∀ hashed, decodeSignedEntry E b ≠ .ok hashed) :
      ∃ refusal, decodeSignedEntry E b = .error refusal := by
    cases hd : decodeSignedEntry E b with
    | error refusal => exact ⟨refusal, rfl⟩
    | ok hashed => exact absurd hd (h hashed)
  have hround : ∀ b h, decodeSignedEntry E b = .ok h → E.encode h.entry.toValue = b ∧
      ∃ v, E.decode b = some v ∧ v.sorted = h.entry.toValue.sorted := by
    intro b h hd
    obtain ⟨value, hdecode, hencode, hshape, -⟩ := decodeSignedEntry_eq_ok hd
    obtain ⟨-, -, -, -, hsorted⟩ := decoded_sorted law hdecode hshape
    exact ⟨(law.order _ _ hsorted).symm.trans hencode, value, hdecode, hsorted⟩
  refine ⟨fun b h hd => ?_, fun b b' h h' hd hd' heq => ?_, fun b v hv hfaulty => ?_, fun b hb => ?_⟩
  · obtain ⟨-, hvalue⟩ := hround b h hd
    exact ⟨hashSignedEntry_decoded law hd, (decodeSignedEntry_bytes hd).1, hvalue⟩
  · rw [← (hround b h hd).1, ← (hround b' h' hd').1, heq]
  · refine hrefuse fun hashed hd => ?_
    obtain ⟨value, hdecode, -, hshape, -⟩ := decodeSignedEntry_eq_ok hd
    obtain rfl := Option.some.inj (hv.symm.trans hdecode)
    obtain ⟨fields, clock, hfields, f⟩ := assertSignedEntryShape_eq_ok hshape
    exact f.not_faulty hfields hfaulty
  · refine hrefuse fun hashed hd => ?_
    obtain ⟨value, hdecode, hencode, -⟩ := decodeSignedEntry_eq_ok hd
    exact hb value hdecode hencode

namespace Sample

def plainKey : String := Plain.publicKey [1]

/-- A first entry with nothing to say. -/
def plainEntry : SignedEntry := ⟨"library", .null, [], [], ⟨plainKey, 1⟩, plainKey, "signature"⟩

theorem plainEntry_decodes : decodeSignedEntry orderedEnvironment (hashSignedEntry orderedEnvironment plainEntry).bytes =
    .ok (hashSignedEntry orderedEnvironment plainEntry) := by
  have hkey : isCompressedPubkey plainKey = true := Plain.isCompressedPubkey_publicKey _
  have hshape : assertSignedEntryShape orderedEnvironment plainEntry.toValue = .ok plainEntry :=
    assertSignedEntryShape_toValue_eq rfl rfl hkey hkey (by decide)
  have hcanonical : plainEntry.toValue.Canonical := toValue_canonical .null (by decide)
  refine decodeSignedEntry_hashSignedEntry orderedEnvironment_codecLaw .null hshape ((require_eq_ok_iff _).2 ?_)
  have hlen : ["v", "id", "key", "sig", "next", "refs", "clock", "time", "payload", "library", "signature"].map String.length =
      [1, 2, 3, 3, 4, 4, 5, 4, 7, 7, 9] := by decide
  simp only [List.map_cons, List.map_nil, List.cons.injEq, and_true] at hlen
  have hbytes : (hashSignedEntry orderedEnvironment plainEntry).bytes = Plain.put plainEntry.toValue := by
    change Plain.put plainEntry.toValue.sorted = _
    rw [sorted_of_canonical hcanonical]
  rw [hbytes, decide_eq_true_iff]
  simp [plainEntry, plainKey, SignedEntry.toValue, Plain.put, Plain.putFields, Plain.putItems, Plain.putString_length,
    Plain.publicKey_length, Plain.putInt, Plain.putNat_length, hlen, signedEntryMaxBytes]

end Sample

open Sample in
/-- Decoding the block of an entry and hashing the entry again gives the block. -/
theorem signed_entry_canonical_plain :
    ∃ h, decodeSignedEntry orderedEnvironment (hashSignedEntry orderedEnvironment plainEntry).bytes = .ok h ∧
      hashSignedEntry orderedEnvironment h.entry = h :=
  ⟨_, plainEntry_decodes,
    ((signed_entry_canonical orderedEnvironment orderedEnvironment_mapLaw).1 _ _ plainEntry_decodes).1⟩

end RecordNode
