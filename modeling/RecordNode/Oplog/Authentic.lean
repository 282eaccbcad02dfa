import RecordNode.Oplog.Exact

/-! # Held entries are what their blocks decode to

Under the codec's law every held entry is the decoding of its own block. Where
the digests of the blocks at hand do not collide, a hash then names one entry in
every oplog of the chain, and two oplogs that hold an entry's parents share its
whole causal past. -/

namespace RecordNode

open Foundation Relation

variable {E : Environment} {chain : ResolvedAcChain} {o p : Oplog}

def Authentic (E : Environment) (o : Oplog) : Prop :=
  ∀ h e, o.entries.get h = some e → decodeSignedEntry E e.bytes = .ok e.toHashedEntry

/-- The blocks of the held entries. -/
def Oplog.blocks (o : Oplog) : Set Bytes := { b | ∃ h e, o.entries.get h = some e ∧ e.bytes = b }

theorem checkEntry_parts {hashed : HashedEntry} {operation : Operation}
    (h : checkEntry E chain hashed = .ok operation) :
    assertSignedEntrySize hashed.bytes = .ok () ∧
      (∃ e', assertSignedEntryShape E hashed.entry.toValue = .ok e') ∧
      validateOperation E chain.type (chain.writeList.contains hashed.entry.key) hashed.entry.payload =
        .ok operation := by
  simp only [checkEntry, bind_eq_ok] at h
  obtain ⟨⟨⟩, hsize, e', hshape, op, hop, ⟨⟩, -, ⟨⟩, -, hres⟩ := h
  cases Except.ok.inj hres
  exact ⟨hsize, ⟨e', hshape⟩, hop⟩

/-- An unsigned entry is built from the fields it was given. -/
theorem buildUnsignedEntry_eq {id : String} {payload : Value} {next refs : List Hash} {clock : LamportClock}
    {e : SignedEntry} (h : buildUnsignedEntry id payload next refs clock = .ok e) :
    e = ⟨id, payload, next, refs, clock, "", ""⟩ := by
  have hread : ∀ fields : Fields, fields = [
      ("id", .string id), ("payload", payload), ("next", .array (next.map .string)),
      ("refs", .array (refs.map .string)), ("v", .number 2),
      ("clock", .record [("id", .string clock.id), ("time", .number clock.time)])] →
      fields.string? "id" = some id ∧ fields.get "payload" = some payload ∧ fields.isInt "v" 2 = true ∧
      fields.get "next" = some (.array (next.map .string)) ∧
      fields.get "refs" = some (.array (refs.map .string)) ∧
      fields.get "clock" = some (.record [("id", .string clock.id), ("time", .number clock.time)]) := by
    rintro _ rfl
    exact ⟨rfl, rfl, rfl, rfl, rfl, rfl⟩
  obtain ⟨hi, hp, hv, hn, hr, hc⟩ := hread _ rfl
  simp only [buildUnsignedEntry, assertUnsignedFields, hi, hp, hv, hn, hr, hc, if_true, bind_eq_ok] at h
  obtain ⟨n', hn', r', hr', c', hc', hres⟩ := h
  cases Except.ok.inj hres
  rw [assertPointers_map hn', assertPointers_map hr', (assertClockFields_record hc').1]

/-- A locally signed entry is what its block decodes to. -/
theorem signLocalEntry_authentic (hE : E.CodecLaw) {payload : LocalPayload} {keyPair : KeyPair}
    {e : VerifiedEntry} (h : signLocalEntry E o payload keyPair = .ok e) :
    decodeSignedEntry E e.bytes = .ok e.toHashedEntry := by
  simp only [signLocalEntry, bind_eq_ok] at h
  obtain ⟨⟨⟩, -, unsigned, hunsigned, hv⟩ := h
  obtain ⟨heq, hcheck, -⟩ := (verifyEntry_eq_ok_iff E o _ e).mp hv
  obtain ⟨hsize, ⟨e', hshape⟩, -⟩ := checkEntry_parts hcheck
  have hpayload : unsigned.payload = payload.val := by rw [buildUnsignedEntry_eq hunsigned]
  rw [heq]
  exact decodeSignedEntry_hashSignedEntry hE (hpayload ▸ payload.property) hshape hsize

theorem admitEntry_mem {accept : Admit} (haccept : ∀ q h e, accept q h = .ok e → e.toHashedEntry = h)
    (state : Admission) (hashed : HashedEntry) {h : Hash} {x : VerifiedEntry}
    (hx : (admitEntry E accept state hashed).oplog.entries.get h = some x) :
    state.oplog.entries.get h = some x ∨ x.toHashedEntry = hashed := by
  unfold admitEntry at hx
  split at hx
  · exact Or.inl hx
  case isFalse hnot =>
    split at hx
    · exact Or.inl hx
    case h_2 entry hv =>
      have heq := haccept _ _ _ hv
      have hnew : ¬ state.oplog.Has entry.hash := fun hh => by
        have : entry.hash = hashed.hash := congrArg HashedEntry.hash heq
        exact hnot (this ▸ (has_iff_entries_has _ _).mp hh)
      rcases (insertEntry_get_iff hnew).mp hx with hx | ⟨-, rfl⟩
      · exact Or.inl hx
      · exact Or.inr heq

/-- Whatever the insertion loop adds was in the list it went through. -/
theorem foldl_admitEntry_mem {accept : Admit} (haccept : ∀ q h e, accept q h = .ok e → e.toHashedEntry = h)
    (l : List HashedEntry) (state : Admission) {h : Hash} {x : VerifiedEntry}
    (hx : (l.foldl (admitEntry E accept) state).oplog.entries.get h = some x) :
    state.oplog.entries.get h = some x ∨ x.toHashedEntry ∈ l := by
  induction l generalizing state with
  | nil => exact Or.inl hx
  | cons hashed rest ih =>
    rcases ih _ hx with hx | hx
    · rcases admitEntry_mem haccept state hashed hx with hx | rfl
      · exact Or.inl hx
      · exact Or.inr List.mem_cons_self
    · exact Or.inr (List.mem_cons_of_mem _ hx)

theorem mem_decodedBlocks {blocks : List Bytes} {hashed : HashedEntry} :
    hashed ∈ decodedBlocks E o blocks ↔
      (∃ b ∈ blocks, decodeSignedEntry E b = .ok hashed) ∧ ¬ o.Has hashed.hash := by
  simp only [decodedBlocks, List.mem_filterMap, has_iff_entries_has]
  constructor
  · rintro ⟨b, hb, hd⟩
    cases hdec : decodeSignedEntry E b with
    | error e => simp [hdec] at hd
    | ok x =>
      rw [hdec] at hd
      dsimp only at hd
      split at hd
      · simp at hd
      case isFalse hn =>
        obtain rfl := Option.some_inj.mp hd
        exact ⟨⟨b, hb, hdec⟩, hn⟩
  · rintro ⟨⟨b, hb, hdec⟩, hn⟩
    exact ⟨b, hb, by simp [hdec, hn]⟩

theorem verifyEntry_toHashedEntry {hashed : HashedEntry} {e : VerifiedEntry}
    (h : verifyEntry E o hashed = .ok e) : e.toHashedEntry = hashed :=
  ((verifyEntry_eq_ok_iff E o hashed e).mp h).1

theorem mergeEntries_entries (blocks : List Bytes) :
    (mergeEntries E o blocks).1.entries = (admitAll E (verifyEntry E) o blocks).oplog.entries :=
  (settle_base _ _).entries

/-- An entry held after a merge was held before or is the decoding of a merged block. -/
theorem mergeEntries_mem (blocks : List Bytes) {h : Hash} {x : VerifiedEntry}
    (hx : (mergeEntries E o blocks).1.entries.get h = some x) :
    o.entries.get h = some x ∨ ∃ b ∈ blocks, decodeSignedEntry E b = .ok x.toHashedEntry := by
  rw [mergeEntries_entries] at hx
  rcases foldl_admitEntry_mem (fun _ _ _ => verifyEntry_toHashedEntry) _ _ hx with hx | hx
  · exact Or.inl hx
  · rw [mem_sortBy, mem_decodedBlocks] at hx
    exact Or.inr hx.1

/-- A merge keeps what was held. -/
theorem mergeEntries_get_old (s : Sound E chain o) (blocks : List Bytes) {h : Hash} {x : VerifiedEntry}
    (hx : o.entries.get h = some x) : (mergeEntries E o blocks).1.entries.get h = some x := by
  rw [mergeEntries_entries]
  exact (admitAll_batch s.indexed blocks).get_old hx

theorem append_entries (s : Sound E chain o) {payload : LocalPayload} {keyPair : KeyPair}
    {result : Appended} (ha : appendEntryWithAccess E o payload keyPair = .ok result) :
    result.oplog.entries = (insertEntry E o result.entry).entries := by
  obtain ⟨heq, B⟩ := append_batch s.indexed ha
  rw [heq]
  exact (settle_base _ _).entries

/-- The entry an append reports was signed and verified against the oplog before it. -/
theorem append_signed {payload : LocalPayload} {keyPair : KeyPair} {result : Appended}
    (ha : appendEntryWithAccess E o payload keyPair = .ok result) :
    signLocalEntry E o payload keyPair = .ok result.entry := by
  simp only [appendEntryWithAccess, bind_eq_ok] at ha
  obtain ⟨e, he, hres⟩ := ha
  cases Except.ok.inj hres
  exact he

theorem insertEntry_mem {e x : VerifiedEntry} {h : Hash}
    (hx : (insertEntry E o e).entries.get h = some x) : o.entries.get h = some x ∨ x = e := by
  by_cases hh : o.Has e.hash
  · rw [insertEntry_of_has hh] at hx
    exact Or.inl hx
  · exact ((insertEntry_get_iff hh).mp hx).imp_right And.right

theorem append_extends (s : Sound E chain o) {payload : LocalPayload} {keyPair : KeyPair}
    {result : Appended} (ha : appendEntryWithAccess E o payload keyPair = .ok result) :
    Extends o result.oplog := by
  intro h e he
  rw [append_entries s ha]
  exact (append_batch s.indexed ha).2.get_old he

theorem merge_authentic (a : Authentic E o) (blocks : List Bytes) :
    Authentic E (mergeEntries E o blocks).1 := by
  intro h x hx
  rcases mergeEntries_mem blocks hx with hx | ⟨b, -, hb⟩
  · exact a h x hx
  · have hbytes : x.bytes = b := (decodeSignedEntry_bytes hb).1
    rw [hbytes, hb]

theorem reachable_authentic (hE : E.CodecLaw) (h : Reachable E chain o) : Authentic E o := by
  induction h with
  | create => simp [Authentic, createOplog]
  | merge o blocks ho ih => exact merge_authentic ih blocks
  | append o payload keyPair result ho ha ih =>
    intro h x hx
    rw [append_entries (reachable_sound ho) ha] at hx
    rcases insertEntry_mem hx with hx | rfl
    · exact ih h x hx
    · exact signLocalEntry_authentic hE (append_signed ha)

/-! ## One hash, one entry -/

/-- Held entries verified under the chain, each the decoding of its own block. Unlike
`Sound` this holds between the insertions of a batch too. -/
structure Traced (E : Environment) (chain : ResolvedAcChain) (o : Oplog) : Prop where
  chain_eq : o.chain = chain
  indexed : Indexed E o
  authentic : Authentic E o

theorem Sound.traced (s : Sound E chain o) (ha : Authentic E o) : Traced E chain o :=
  ⟨s.chain_eq, s.indexed, ha⟩

/-- Two held entries with one hash are the same when their blocks' digests do not collide. -/
theorem entry_eq_of_hash (s : Traced E chain o) (t : Traced E chain p)
    (hinj : Set.InjOn E.sha3 (o.blocks ∪ p.blocks)) {h : Hash}
    {e x : VerifiedEntry} (he : o.entries.get h = some e) (hx : p.entries.get h = some x) : e = x := by
  have hhash : e.toHashedEntry.hash = x.toHashedEntry.hash :=
    (s.indexed.grounded.keyed h e he).trans (t.indexed.grounded.keyed h x hx).symm
  have hsub : ({e.bytes, x.bytes} : Set Bytes) ⊆ o.blocks ∪ p.blocks := by
    rintro b (rfl | rfl)
    · exact Or.inl ⟨h, e, he, rfl⟩
    · exact Or.inr ⟨h, x, hx, rfl⟩
  have hentry := eq_of_hash_eq (s.authentic h e he) (t.authentic h x hx) (hinj.mono hsub) hhash
  -- One block means one operation, since both oplogs check under the same chain.
  have hce := ((verifyEntry_eq_ok_iff E o _ e).mp (s.indexed.verified h e he)).2.1
  have hcx := ((verifyEntry_eq_ok_iff E p _ x).mp (t.indexed.verified h x hx)).2.1
  rw [s.chain_eq, hentry] at hce
  rw [t.chain_eq] at hcx
  have hop := Except.ok.inj (hce.symm.trans hcx)
  cases e
  cases x
  simp_all

/-- Oplogs that both hold an entry's parents share its causal past. -/
theorem agreeOn_past (s : Traced E chain o) (t : Traced E chain p)
    (hinj : Set.InjOn E.sha3 (o.blocks ∪ p.blocks)) {next : List Hash}
    (hn : ∀ q ∈ next, o.Has q ∧ p.Has q) : AgreeOn { h | o.Past next h } o p where
  chain := s.chain_eq.trans t.chain_eq.symm
  left := s.indexed.grounded
  right := t.indexed.grounded
  shared h hh := by
    have hboth : ∀ x, o.Has x → p.Has x → ∃ e, o.entries.get x = some e ∧ p.entries.get x = some e :=
      fun x ⟨e, he⟩ ⟨y, hy⟩ => ⟨e, he, by rw [hy, entry_eq_of_hash s t hinj he hy]⟩
    obtain ⟨q, hq, hr⟩ := hh
    have hstart := hboth q (hn q hq).1 (hn q hq).2
    clear hq
    induction hr with
    | refl => exact hstart
    | tail _ hstep ih =>
      obtain ⟨e, ho, hp⟩ := ih
      obtain ⟨e', ho', hm⟩ := hstep
      obtain rfl : e = e' := Option.some_inj.mp (ho.symm.trans ho')
      exact hboth _ (s.indexed.grounded.closed _ e ho _ hm) (t.indexed.grounded.closed _ e hp _ hm)
  closed h hh e he q hq := Oplog.Past.trans hh he (Oplog.past_of_mem hq)

end RecordNode
