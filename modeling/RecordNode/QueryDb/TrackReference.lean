import Mathlib.Data.List.MinMax
import RecordNode.Oplog.LocalEntry
import RecordNode.QueryDb.TrackList

/-! # What a track list should be

The reference list: one row for each track id in scope, filtered on that row and by the
labels of its id, in the order of the sort. The filters of a statement keep the rows of
the reference list from every source a page or a count is read from, in an index whose
triggers kept its tables and whose projector marked every library that has labels. -/

namespace RecordNode

open Foundation

/-! ## The rows the projector writes -/

/-- Every library with labels has a marker, apart from the one being written, and no
track id holds a blank. -/
structure QueryDb.Readable (writing : Option String) (rows : QueryDb) : Prop where
  marked : ∀ key, rows.tags.has key = true → rows.libraryHeads.has key.1 = true ∨ writing = some key.1
  plain : ∀ key, rows.tracks.has key = true → ' ' ∉ key.2.toList

theorem TrackId.text_plain (id : TrackId) : ' ' ∉ id.text.toList := by
  intro hm
  have hhex := id.isHex
  rw [isHex64, Bool.and_eq_true, List.all_eq_true] at hhex
  exact absurd (hhex.2 ' ' hm) (by decide)

namespace Statement

/-- What a library's own transaction runs before its marker. -/
def Writes (library : String) : Statement → Prop
  | insertLabel address _ _ _ => address = library
  | insertTrack _ trackId _ => ' ' ∉ trackId.toList
  | removeLibrary _ => False
  | _ => True

theorem apply_readable {library : String} {rows : QueryDb} (h : rows.Readable (some library)) {statement : Statement}
    (hw : statement.Writes library) : (statement.apply rows).Readable (some library) := by
  cases statement with
  | clearKey address key =>
    exact ⟨h.marked, fun k hk => h.plain k ((OrderedMap.has_delete _ _ _).mp hk).1⟩
  | insertTrack address trackId columns =>
    refine ⟨h.marked, fun k hk => ?_⟩
    rcases (OrderedMap.has_set _ _ _ _).mp hk with rfl | hold
    · exact hw
    · exact h.plain k hold
  | insertResolver address trackId extractor id row =>
    obtain ⟨hsame, -, htracks, -⟩ := QueryDb.insertResolver_same address trackId rows extractor id row
    refine ⟨fun k hk => ?_, fun k hk => h.plain k (htracks ▸ hk)⟩
    dsimp only [apply] at hk ⊢
    rw [hsame.libraryHeads]
    exact h.marked k (hsame.tags ▸ hk)
  | deleteLabel address trackId tag =>
    exact ⟨fun k hk => h.marked k ((OrderedMap.has_delete _ _ _).mp hk).1, h.plain⟩
  | insertLabel address trackId tag hash =>
    refine ⟨fun k hk => ?_, h.plain⟩
    rcases (OrderedMap.has_set _ _ _ _).mp hk with rfl | hold
    · exact Or.inr (congrArg some hw.symm)
    · exact h.marked k hold
  | insertListen address hash row =>
    dsimp only [apply, QueryDb.insertListen]
    split
    · exact h
    · refine ⟨h.marked, fun k hk => h.plain k ?_⟩
      simpa [OrderedMap.has, QueryDb.addListens] using hk
  | upsertMarker address marker =>
    refine ⟨fun k hk => (h.marked k hk).imp_left fun hold => ?_, h.plain⟩
    exact (OrderedMap.has_set _ _ _ _).mpr (Or.inr hold)
  | removeLibrary address => exact hw.elim
  | deleteEntry address key => exact ⟨h.marked, h.plain⟩
  | insertEntry address key row => exact ⟨h.marked, h.plain⟩
  | insertAbout address key row => exact ⟨h.marked, h.plain⟩

theorem foldl_apply_readable {library : String} {rows : QueryDb} (h : rows.Readable (some library))
    {statements : List Statement} (hw : ∀ statement ∈ statements, statement.Writes library) :
    (statements.foldl apply rows).Readable (some library) := by
  induction statements generalizing rows with
  | nil => exact h
  | cons statement rest ih =>
    exact ih (apply_readable h (hw statement List.mem_cons_self)) fun other ho => hw other (List.mem_cons_of_mem _ ho)

end Statement

section Written
variable (o : Oplog)

theorem labelStatements_writes (key : String) : ∀ statement ∈ labelStatements o key, statement.Writes o.chain.address := by
  unfold labelStatements
  dsimp only
  split <;> simp [Statement.Writes]

theorem keyStatements_writes (loaded : LoadedKey) :
    ∀ statement ∈ keyStatements o loaded, statement.Writes o.chain.address := by
  unfold keyStatements
  dsimp only
  split
  · simp [Statement.Writes]
  · split
    · simp [Statement.Writes]
    case h_2 envelope c hop =>
      simp [Statement.Writes, resolverStatements, envelope.id.text_plain]
    · simp [Statement.Writes]
    · simp [Statement.Writes]

theorem listenStatements_writes (entry : VerifiedEntry) :
    ∀ statement ∈ listenStatements o entry, statement.Writes o.chain.address := by
  unfold listenStatements
  split <;> simp [Statement.Writes]

end Written

namespace QueryDb.Readable

variable {rows : QueryDb}

theorem empty : QueryDb.empty.Readable none where
  marked _ hk := by cases hk
  plain _ hk := by cases hk

theorem widen (h : rows.Readable none) (library : String) : rows.Readable (some library) where
  marked key hk := (h.marked key hk).imp_right fun hnone => by cases hnone
  plain := h.plain

theorem upsertMarker {library : String} (h : rows.Readable (some library)) (marker : Marker) :
    (rows.upsertMarker library marker).Readable none where
  marked key hk := by
    refine Or.inl ((OrderedMap.has_set _ _ _ _).mpr ?_)
    rcases h.marked key hk with hold | hnew
    · exact Or.inr hold
    · exact Or.inl (Option.some_inj.mp hnew).symm
  plain := h.plain

theorem removeLibrary (h : rows.Readable none) (library : String) : (rows.removeLibrary library).Readable none where
  marked key hk := by
    have hk' : key.1 ≠ library ∧ rows.tags.has key = true := by
      simpa [QueryDb.removeLibrary, OrderedMap.has, Option.isSome_iff_exists] using hk
    refine Or.inl ((OrderedMap.has_delete _ _ _).mpr ⟨?_, hk'.1⟩)
    exact (h.marked key hk'.2).resolve_right fun hnone => by cases hnone
  plain key hk := by
    refine h.plain key ?_
    obtain ⟨row, hrow⟩ := (OrderedMap.has_iff _ _).mp hk
    dsimp only [QueryDb.removeLibrary] at hrow
    rw [get_foldl_addListens, OrderedMap.get_filterKeys] at hrow
    rw [OrderedMap.has_iff]
    split at hrow
    · obtain ⟨old, hold, -⟩ := Option.map_eq_some_iff.mp hrow
      exact ⟨old, hold⟩
    · cases hrow

/-- Every transaction leaves the rows readable. -/
theorem write (h : rows.Readable none) (t : Transaction) : (t.write rows).Readable none := by
  rw [← Transaction.foldl_statements]
  cases t with
  | round o labels stable =>
    rw [Transaction.statements, List.foldl_append, List.foldl_cons, List.foldl_nil]
    refine upsertMarker (Statement.foldl_apply_readable (h.widen _) fun statement hm => ?_) _
    rcases List.mem_append.mp hm with hm | hm
    · obtain ⟨key, -, hm⟩ := List.mem_flatMap.mp hm
      exact labelStatements_writes o key statement hm
    · obtain ⟨loaded, -, hm⟩ := List.mem_flatMap.mp hm
      exact keyStatements_writes o loaded statement hm
  | listens o entries =>
    rw [Transaction.statements, List.foldl_append, List.foldl_cons, List.foldl_nil]
    refine upsertMarker (Statement.foldl_apply_readable (h.widen _) fun statement hm => ?_) _
    obtain ⟨entry, -, hm⟩ := List.mem_flatMap.mp hm
    exact listenStatements_writes o entry statement hm
  | identity o => exact upsertMarker (h.widen _) _
  | remove library => exact h.removeLibrary library

end QueryDb.Readable

/-- An index the projector wrote: its triggers kept the tables, and its rows are readable. -/
structure AggregateDb.Projected (db : AggregateDb) : Prop where
  kept : db.Kept
  readable : db.rows.Readable none

/-- In every run the index is a projected one. -/
theorem IndexConnection.projected_of_run {allowed : IndexConnection → IndexLabel → Prop} {s : IndexConnection}
    (h : Run step (· = .start) allowed s) : s.db.Projected ∧ s.committed.Projected := by
  have hreadable : s.db.rows.Readable none ∧ s.committed.rows.Readable none := by
    refine h.invariant (I := fun s => s.db.rows.Readable none ∧ s.committed.rows.Readable none)
      (fun s hs => ?_) fun s l t hi _ hs => ?_
    · subst hs
      exact ⟨.empty, .empty⟩
    · obtain ⟨transaction, db, rfl, hrun, rfl⟩ | ⟨transaction, rfl, rfl⟩ | ⟨rfl, rfl⟩ := step_cases hs
      · refine ⟨?_, hi.2⟩
        rw [AggregateDb.runLabels_exec_rows hrun, Transaction.foldl_statements]
        exact hi.1.write transaction
      · exact ⟨hi.2, hi.2⟩
      · exact ⟨hi.1, hi.1⟩
  obtain ⟨hdb, hcommitted⟩ := kept_of_run h
  exact ⟨⟨hdb, hreadable.1⟩, ⟨hcommitted, hreadable.2⟩⟩

/-! ## The reference list -/

section Reference
variable (S : SqlEngine) (db : AggregateDb) (input : ListTracksInput)

/-- The row of its track id: in scope, and none in scope ranks before it. -/
def Represents (track : Track) : Prop :=
  inScope input.libraryAddresses track.1.1 = true ∧ ∀ other ∈ db.rows.tracks.items, other.1.2 = track.1.2 →
    inScope input.libraryAddresses other.1.1 = true →
    rank input.ownLibraryAddresses track.1.1 ≤ rank input.ownLibraryAddresses other.1.1

instance (track : Track) : Decidable (Represents db input track) :=
  inferInstanceAs (Decidable (_ ∧ ∀ other ∈ _, _))

/-- A library whose labels count applies a label of the group to the track. -/
def Carries (labelLibraries : Option (List String)) (trackId : String) (group : List String) : Prop :=
  ∃ row ∈ db.rows.tags.items, row.1.2.1 = trackId ∧ inScope labelLibraries row.1.1 = true ∧ row.1.2.2 ∈ group

instance (labelLibraries : Option (List String)) (trackId : String) (group : List String) :
    Decidable (Carries db labelLibraries trackId group) :=
  inferInstanceAs (Decidable (∃ row ∈ _, _))

/-- The full-text match on a row, where the search is one. -/
def matched (search : Option Search) (row : TrackRow) : Bool :=
  match search with
  | some (.phrase phrase) => S.matchPhrase phrase row.searchRow
  | _ => true

/-- The search on a row. -/
def found (search : Option Search) (row : TrackRow) : Bool := matched S search row && likeFilter S search row

/-- Every tag, and of every group a label. -/
def Labelled (trackId : String) : Prop :=
  (∀ tag ∈ input.tags, Carries db input.labelLibraries trackId [tag]) ∧
    ∀ group ∈ input.tagGroups, Carries db input.labelLibraries trackId group

instance (trackId : String) : Decidable (Labelled db input trackId) :=
  inferInstanceAs (Decidable ((∀ tag ∈ _, _) ∧ ∀ group ∈ _, _))

/-- The rows of the list. -/
def selected : List Track :=
  db.rows.tracks.items.filter fun track =>
    Represents db input track ∧ Labelled db input track.1.2 ∧ found S (searchOf input.query) track.2 = true

/-- The list, by the sort's key and then the track id, rows without a key last. -/
def reference : List Track := nullsLast (input.order = .desc) (sortKeys input.sort) (selected S db input)

end Reference

/-! ## The filters -/

section Filters
variable {S : SqlEngine} {db : AggregateDb} {input : ListTracksInput}

theorem rank_injective (own : List String) : Function.Injective (rank own) := by
  intro a b h
  have hpair := Prod.mk.inj (toLex.injective h)
  exact codeUnits_injective hpair.2

theorem eq_of_key {a b : Track} (ha : a ∈ db.rows.tracks.items) (hb : b ∈ db.rows.tracks.items) (h : a.1 = b.1) :
    a = b :=
  List.inj_on_of_nodup_map db.rows.tracks.keys_nodup ha hb h

/-- One row for each track id. -/
theorem selected_ids (S : SqlEngine) (db : AggregateDb) (input : ListTracksInput) :
    ((selected S db input).map fun track => track.1.2).Nodup := by
  refine List.Nodup.map_on (fun a ha b hb hid => ?_) (db.rows.tracks.keys_nodup.of_map.filter _)
  obtain ⟨hma, hra⟩ := List.mem_filter.mp ha
  obtain ⟨hmb, hrb⟩ := List.mem_filter.mp hb
  rw [decide_eq_true_iff] at hra hrb
  have hrank := le_antisymm (hra.1.2 b hmb hid.symm hrb.1.1) (hrb.1.2 a hma hid hra.1.1)
  exact eq_of_key hma hmb (Prod.ext (rank_injective _ hrank) hid)

/-- No two rows in scope hold one track id. -/
def Distinct (db : AggregateDb) (scope : Option (List String)) : Prop :=
  ∀ a ∈ db.rows.tracks.items, ∀ b ∈ db.rows.tracks.items, inScope scope a.1.1 = true → inScope scope b.1.1 = true →
    a.1.2 = b.1.2 → a.1.1 = b.1.1

/-- Skipping the probe keeps the same rows where no track id has two. -/
theorem representative_iff {duplicates : Bool} (hd : duplicates = false → Distinct db input.libraryAddresses)
    {track : Track} (hm : track ∈ db.rows.tracks.items) :
    representative db (parametersOf input duplicates) track.1 = true ↔ Represents db input track := by
  cases duplicates with
  | false =>
    have hall : representative db (parametersOf input false) track.1 = inScope input.libraryAddresses track.1.1 := by
      simp [representative, parametersOf]
    rw [hall]
    refine ⟨fun hscope => ⟨hscope, fun other ho hid hother => le_of_eq ?_⟩, fun h => h.1⟩
    rw [hd rfl track hm other ho hscope hother hid.symm]
  | true =>
    simp only [representative, parametersOf, probe, Represents, Bool.and_eq_true, if_true, Option.all_some,
      Bool.not_eq_true', List.any_eq_false, decide_eq_true_iff, and_imp, not_and, not_lt]

theorem labelScope_eq (h : db.Projected) (labelLibraries : Option (List String))
    {row : (String × String × String) × Hash} (hm : row ∈ db.rows.tags.items) :
    labelScope db labelLibraries row.1.1 = inScope labelLibraries row.1.1 := by
  cases labelLibraries with
  | none =>
    have hhas : db.rows.tags.has row.1 = true :=
      (OrderedMap.has_iff _ _).mpr ⟨row.2, (OrderedMap.get_eq_some_iff _ _ _).mpr hm⟩
    have hmarked := (h.readable.marked row.1 hhas).resolve_right fun hnone => by cases hnone
    simp [labelScope, inScope, hmarked]
  | some libraries => rfl

theorem mem_labelled (h : db.Projected) (labelLibraries : Option (List String)) (group : List String)
    (trackId : String) : trackId ∈ labelled db labelLibraries group ↔ Carries db labelLibraries trackId group := by
  simp only [labelled, List.mem_map, List.mem_filter, Bool.and_eq_true, List.contains_iff_mem, Carries]
  constructor
  · rintro ⟨row, ⟨hm, hscope, hgroup⟩, rfl⟩
    exact ⟨row, hm, rfl, labelScope_eq h labelLibraries hm ▸ hscope, hgroup⟩
  · rintro ⟨row, hm, rfl, hscope, hgroup⟩
    exact ⟨row, ⟨hm, (labelScope_eq h labelLibraries hm).symm ▸ hscope, hgroup⟩, rfl⟩

/-- The set read once and the probe of one row keep the same track ids. -/
theorem groupFilter_iff (h : db.Projected) (labelLibraries : Option (List String)) (correlated : Bool)
    (trackId : String) (group : List String) :
    groupFilter db labelLibraries correlated trackId group = true ↔ Carries db labelLibraries trackId group := by
  cases correlated with
  | false => rw [groupFilter, if_neg Bool.false_ne_true, List.contains_iff_mem, mem_labelled h]
  | true =>
    simp only [groupFilter, if_true, List.any_eq_true, Bool.and_eq_true, decide_eq_true_iff, List.contains_iff_mem,
      Carries]
    refine exists_congr fun row => and_congr_right fun hm => ?_
    rw [labelScope_eq h labelLibraries hm, and_assoc, and_comm (a := row.1.2.2 ∈ group)]

theorem groupsOf_iff (labelLibraries : Option (List String)) (trackId : String) :
    (∀ group ∈ groupsOf input, Carries db labelLibraries trackId group) ↔
      (∀ tag ∈ input.tags, Carries db labelLibraries trackId [tag]) ∧
        ∀ group ∈ input.tagGroups, Carries db labelLibraries trackId group := by
  simp [groupsOf, or_imp, forall_and, Carries, OrderedSet.mem_items]

theorem allGroups_iff (h : db.Projected) (duplicates correlated : Bool) (trackId : String) :
    (parametersOf input duplicates).tagGroups.all
      (groupFilter db (parametersOf input duplicates).labelLibraries correlated trackId) = true ↔
      Labelled db input trackId := by
  rw [Labelled, ← groupsOf_iff, List.all_eq_true]
  dsimp only [parametersOf]
  refine forall₂_congr fun group hm => ?_
  rw [groupFilter_iff h, if_neg (List.ne_nil_of_mem hm)]

theorem keyFilter_iff (h : db.Projected) {duplicates : Bool}
    (hd : duplicates = false → Distinct db input.libraryAddresses) (correlated : Bool) {track : Track}
    (hm : track ∈ db.rows.tracks.items) :
    keyFilter db (parametersOf input duplicates) correlated track.1 = true ↔
      Represents db input track ∧ Labelled db input track.1.2 := by
  rw [keyFilter, Bool.and_eq_true, representative_iff hd hm, allGroups_iff h]

end Filters

/-! ## The sources -/

section Sources
variable {S : SqlEngine} {db : AggregateDb} {input : ListTracksInput}

theorem mem_matchKeys (h : db.Projected) (phrase : String) (key : String × String) :
    key ∈ matchKeys S db phrase ↔
      ∃ row, db.rows.tracks.get key = some row ∧ S.matchPhrase phrase row.searchRow = true := by
  have hs := h.kept.tallied.searched
  simp only [matchKeys, List.mem_flatMap, List.mem_filter, List.mem_map, decide_eq_true_iff]
  constructor
  · rintro ⟨⟨id, columns⟩, ⟨hsearch, hmatch⟩, ⟨other, _⟩, ⟨hkey, rfl⟩, rfl⟩
    obtain ⟨owner, howner, hfields⟩ := (hs.rows _ columns).mp ((OrderedMap.get_eq_some_iff _ _ _).mpr hsearch)
    obtain rfl := hs.ids _ _ _ howner ((OrderedMap.get_eq_some_iff _ _ _).mpr hkey)
    obtain ⟨row, hrow, rfl⟩ := Option.map_eq_some_iff.mp hfields
    exact ⟨row, hrow, hmatch⟩
  · rintro ⟨row, hrow, hmatch⟩
    have hfields : fieldsOf db.rows.tracks key = some row.searchRow := Option.map_eq_some_iff.mpr ⟨row, hrow, rfl⟩
    have hhas := hs.keyed key
    rw [hfields, Option.isSome_some, OrderedMap.has_iff] at hhas
    obtain ⟨id, hid⟩ := hhas
    refine ⟨(id, row.searchRow), ⟨?_, hmatch⟩, (key, id), ⟨(OrderedMap.get_eq_some_iff _ _ _).mp hid, rfl⟩, rfl⟩
    exact (OrderedMap.get_eq_some_iff _ _ _).mp ((hs.rows _ _).mpr ⟨key, hid, hfields⟩)

theorem nodup_matchKeys (S : SqlEngine) (db : AggregateDb) (phrase : String) : (matchKeys S db phrase).Nodup := by
  refine List.nodup_flatMap.mpr ⟨fun row _ => ?_, ?_⟩
  · exact db.searchKeys.keys_nodup.sublist (List.filter_sublist.map _)
  · have hids : db.search.items.Pairwise fun a b => a.1 ≠ b.1 := List.pairwise_map.mp db.search.keys_nodup
    refine (hids.sublist List.filter_sublist).imp fun {a b} hne => ?_
    rw [Function.onFun, List.disjoint_left]
    intro key ha hb
    obtain ⟨first, hfirst, rfl⟩ := List.mem_map.mp ha
    obtain ⟨second, hsecond, heq⟩ := List.mem_map.mp hb
    rw [List.mem_filter, decide_eq_true_iff] at hfirst hsecond
    have hsame := List.inj_on_of_nodup_map db.searchKeys.keys_nodup hsecond.1 hfirst.1 heq
    exact hne (by rw [← hfirst.2, ← hsecond.2, hsame])

/-- A tested row is a matched one. -/
theorem testedRows_eq (h : db.Projected) (phrase : String) :
    testedRows S db phrase = db.rows.tracks.items.filter fun track => S.matchPhrase phrase track.2.searchRow := by
  refine List.filter_congr fun track hm => ?_
  have hget : db.rows.tracks.get track.1 = some track.2 := (OrderedMap.get_eq_some_iff _ _ _).mpr hm
  rw [Bool.eq_iff_iff, List.contains_iff_mem, mem_matchKeys h, hget]
  simp

/-- The matched keys are those of the tested rows, in some order. -/
theorem matchKeys_perm (h : db.Projected) (phrase : String) :
    (matchKeys S db phrase).Perm ((testedRows S db phrase).map Prod.fst) := by
  have hnodup : ((testedRows S db phrase).map Prod.fst).Nodup :=
    db.rows.tracks.keys_nodup.sublist (List.filter_sublist.map _)
  refine (List.perm_ext_iff_of_nodup (nodup_matchKeys S db phrase) hnodup).mpr fun key => ?_
  simp only [testedRows, List.mem_map, List.mem_filter, List.contains_iff_mem]
  constructor
  · intro hkey
    obtain ⟨row, hrow, -⟩ := (mem_matchKeys h phrase key).mp hkey
    exact ⟨(key, row), ⟨(OrderedMap.get_eq_some_iff _ _ _).mp hrow, hkey⟩, rfl⟩
  · rintro ⟨track, ⟨-, hkey⟩, rfl⟩
    exact hkey

/-- The matched rows are the tested ones, in some order. -/
theorem matchRows_perm (S : SqlEngine) (db : AggregateDb) (phrase : String) :
    (matchRows S db phrase).Perm (testedRows S db phrase) := by
  have hitems : db.rows.tracks.items.Nodup := db.rows.tracks.keys_nodup.of_map
  have hnodup : (matchRows S db phrase).Nodup := by
    refine List.nodup_flatMap.mpr ⟨fun key _ => hitems.filter _, ?_⟩
    refine (nodup_matchKeys S db phrase).imp fun {a b} hne => ?_
    rw [Function.onFun, List.disjoint_left]
    intro track ha hb
    rw [List.mem_filter, decide_eq_true_iff] at ha hb
    exact hne (ha.2.symm.trans hb.2)
  refine (List.perm_ext_iff_of_nodup hnodup (hitems.filter _)).mpr fun track => ?_
  simp only [matchRows, List.mem_flatMap, List.mem_filter, decide_eq_true_iff, List.contains_iff_mem]
  constructor
  · rintro ⟨key, hkey, hm, rfl⟩
    exact ⟨hm, hkey⟩
  · rintro ⟨hm, hkey⟩
    exact ⟨track.1, hkey, hm, rfl⟩

theorem sourceRows_perm (h : db.Projected) (p : Parameters) (total : ℤ) :
    (sourceRows S db p total).Perm (db.rows.tracks.items.filter fun track => matched S p.search track.2) := by
  unfold sourceRows matched
  cases p.search with
  | none => rw [List.filter_true]
  | some search =>
    cases search with
    | pattern text => rw [List.filter_true]
    | phrase phrase =>
      dsimp only
      rw [← testedRows_eq h]
      split
      · exact matchRows_perm S db phrase
      · exact List.Perm.refl _

/-- The rows of a condition, from any source and under either filter. -/
theorem filter_whereFor (h : db.Projected) {duplicates : Bool}
    (hd : duplicates = false → Distinct db input.libraryAddresses) (correlated : Bool) (condition : Condition) :
    ((db.rows.tracks.items.filter fun track => matched S (parametersOf input duplicates).search track.2).filter
      fun track => whereFor S db (parametersOf input duplicates) correlated track && condition.holds track.2) =
      (selected S db input).filter fun track => condition.holds track.2 := by
  rw [selected, List.filter_filter, List.filter_filter]
  refine List.filter_congr fun track hm => ?_
  rw [Bool.eq_iff_iff]
  simp only [whereFor, Bool.and_eq_true, decide_eq_true_iff, keyFilter_iff h hd correlated hm, found]
  have hsearch : (parametersOf input duplicates).search = searchOf input.query := rfl
  rw [hsearch]
  tauto

theorem pageRows_perm (h : db.Projected) {duplicates : Bool}
    (hd : duplicates = false → Distinct db input.libraryAddresses) (walked : Bool) (total : ℤ)
    (condition : Condition) :
    (pageRows S db (parametersOf input duplicates) walked total condition).Perm
      ((selected S db input).filter fun track => condition.holds track.2) := by
  rw [← filter_whereFor h hd walked]
  exact (sourceRows_perm h _ total).filter _

end Sources

/-! ## The counts -/

section Counts
variable {S : SqlEngine} {db : AggregateDb} {input : ListTracksInput}

/-- A count of the rows of a condition, over the tracks, the matched rows or the matched keys. -/
theorem countRows_eq (h : db.Projected) {duplicates : Bool}
    (hd : duplicates = false → Distinct db input.libraryAddresses) (condition : Condition) :
    countRows S db (parametersOf input duplicates) condition =
      ((selected S db input).filter fun track => condition.holds track.2).length := by
  rw [← filter_whereFor h hd false]
  cases hsearch : (parametersOf input duplicates).search with
  | none => simp only [countRows, hsearch, matched, List.filter_true]
  | some search =>
    cases search with
    | pattern text => simp only [countRows, hsearch, matched, List.filter_true]
    | phrase phrase =>
      simp only [matched, ← testedRows_eq h]
      cases condition with
      | none =>
        have hkeys : ∀ track : Track, (whereFor S db (parametersOf input duplicates) false track &&
            Condition.holds none track.2) = keyFilter db (parametersOf input duplicates) false track.1 := by
          intro track
          simp [whereFor, likeFilter, hsearch, Condition.holds]
        simp only [countRows, hsearch, hkeys]
        rw [((matchKeys_perm h phrase).filter _).length_eq, List.filter_map, List.length_map]
        rfl
      | some tested =>
        simp only [countRows, hsearch]
        exact ((matchRows_perm S db phrase).filter _).length_eq

theorem scannedTracks_eq_countP (tracks : OrderedMap (String × String) TrackRow) (library : String) :
    QueryDb.scannedTracks tracks library = tracks.items.countP fun track => track.1.1 = library := by
  rw [← sum_map_ite_eq_countP, QueryDb.scannedTracks, OrderedMap.sumBy]
  simp

/-- The totals of the scope are the count of its rows. -/
theorem scopeTotal_eq (h : db.Projected) (scope : Option (List String)) :
    scopeTotal db scope = (db.rows.tracks.items.filter fun track => inScope scope track.1.1).length := by
  have hcounts : ∀ row ∈ db.totals.items,
      row.2.trackCount = db.rows.tracks.items.countP fun track => track.1.1 = row.1 := by
    intro row hm
    have hget : db.totals.get row.1 = some row.2 := (OrderedMap.get_eq_some_iff _ _ _).mpr hm
    rw [← scannedTracks_eq_countP, ← h.kept.tallied.trackCount, AggregateDb.totalsOf, hget]
    rfl
  have hkept : ∀ track ∈ db.rows.tracks.items, db.totals.has track.1.1 = true := by
    intro track hm
    by_contra hmissing
    have hnone : db.totals.get track.1.1 = none := by simpa [OrderedMap.has] using hmissing
    have hzero := h.kept.tallied.trackCount track.1.1
    rw [AggregateDb.totalsOf, hnone, scannedTracks_eq_countP, eq_comm] at hzero
    have hnot := List.countP_eq_zero.mp (Int.natCast_eq_zero.mp hzero) track hm
    simp at hnot
  have hnodup : ((db.totals.items.filter fun row => inScope scope row.1).map Prod.fst).Nodup :=
    db.totals.keys_nodup.sublist (List.filter_sublist.map _)
  have hsum := sum_map_countP (fun track : Track => track.1.1) hnodup db.rows.tracks.items
  rw [scopeTotal, List.map_congr_left fun row hm => hcounts row (List.mem_of_mem_filter hm),
    ← List.countP_eq_length_filter]
  rw [List.map_map] at hsum
  refine hsum.trans (congrArg Nat.cast (List.countP_congr fun track hm => ?_))
  obtain ⟨totals, htotals⟩ := (OrderedMap.has_iff _ _).mp (hkept track hm)
  simp only [decide_eq_true_iff, List.mem_map, List.mem_filter]
  constructor
  · rintro ⟨row, ⟨-, hscope⟩, heq⟩
    exact heq ▸ hscope
  · intro hscope
    exact ⟨(track.1.1, totals), ⟨(OrderedMap.get_eq_some_iff _ _ _).mp htotals, hscope⟩, rfl⟩

/-- A track id in scope has its row. -/
theorem exists_represents (input : ListTracksInput) {trackId : String}
    (hheld : ∃ track ∈ db.rows.tracks.items, track.1.2 = trackId ∧ inScope input.libraryAddresses track.1.1 = true) :
    ∃ track ∈ db.rows.tracks.items, track.1.2 = trackId ∧ Represents db input track := by
  obtain ⟨held, hheld, hid, hscope⟩ := hheld
  have hmem : held ∈ db.rows.tracks.items.filter fun track =>
      track.1.2 = trackId && inScope input.libraryAddresses track.1.1 :=
    List.mem_filter.mpr ⟨hheld, by simp [hid, hscope]⟩
  cases hmin : List.argmin (fun track : Track => rank input.ownLibraryAddresses track.1.1)
      (db.rows.tracks.items.filter fun track => track.1.2 = trackId && inScope input.libraryAddresses track.1.1) with
  | none =>
    rw [List.argmin_eq_none.mp hmin] at hmem
    cases hmem
  | some least =>
    obtain ⟨hm, hleast⟩ := List.mem_filter.mp (List.argmin_mem hmin)
    rw [Bool.and_eq_true, decide_eq_true_iff] at hleast
    refine ⟨least, hm, hleast.1, hleast.2, fun other ho hother hotherScope => ?_⟩
    have hcandidate : other ∈ db.rows.tracks.items.filter fun track =>
        track.1.2 = trackId && inScope input.libraryAddresses track.1.1 :=
      List.mem_filter.mpr ⟨ho, by simp [hother.trans hleast.1, hotherScope]⟩
    exact List.le_of_mem_argmin (f := fun track : Track => rank input.ownLibraryAddresses track.1.1) hcandidate hmin

theorem mem_intersect (first second : List String) (x : String) :
    x ∈ intersect first second ↔ x ∈ first ∧ x ∈ second := by
  simp [intersect, OrderedSet.mem_items]

theorem mem_intersectAll {sets : List (List String)} (hne : sets ≠ []) (x : String) :
    x ∈ intersectAll sets ↔ ∀ set ∈ sets, x ∈ set := by
  induction sets using intersectAll.induct with
  | case1 => exact (hne rfl).elim
  | case2 set => simp [intersectAll]
  | case3 first second rest ih =>
    rw [intersectAll, ih (List.cons_ne_nil _ _)]
    simp [mem_intersect, and_assoc]

/-- An intersection lists each track id once; a single set stands as it was read. -/
theorem nodup_intersectAll {sets : List (List String)} (hone : ∀ set, sets = [set] → set.Nodup) :
    (intersectAll sets).Nodup := by
  induction sets using intersectAll.induct with
  | case1 => simp [intersectAll]
  | case2 set => simpa [intersectAll] using hone set rfl
  | case3 first second rest ih =>
    rw [intersectAll]
    refine ih fun set hset => ?_
    obtain ⟨rfl, -⟩ := List.cons.inj hset
    exact (OrderedSet.ofList first).nodup.filter _

/-- The label count counts a track id for each of its label rows: one group alone is asked for,
no search is made, and a track id held in scope has two labels of the group. -/
def Overcounts (db : AggregateDb) (input : ListTracksInput) : Prop :=
  searchOf input.query = none ∧ ∃ group, groupsOf input = [group] ∧
    ∃ first ∈ db.rows.tags.items, ∃ second ∈ db.rows.tags.items, first ≠ second ∧ first.1.2.1 = second.1.2.1 ∧
      (inScope input.labelLibraries first.1.1 = true ∧ first.1.2.2 ∈ group) ∧
      (inScope input.labelLibraries second.1.1 = true ∧ second.1.2.2 ∈ group) ∧
      ∃ track ∈ db.rows.tracks.items, track.1.2 = first.1.2.1 ∧ inScope input.libraryAddresses track.1.1 = true

/-- The track ids the label count counts. -/
def countedIds (db : AggregateDb) (input : ListTracksInput) : List String :=
  (intersectAll ((groupsOf input).map (labelled db input.labelLibraries))).filter fun trackId =>
    db.rows.tracks.items.any fun track => track.1.2 = trackId && inScope input.libraryAddresses track.1.1

theorem labelCount_eq (hgroups : groupsOf input ≠ []) (duplicates : Bool) :
    labelCount db (parametersOf input duplicates) = (countedIds db input).length := by
  simp only [labelCount, parametersOf, if_neg hgroups]
  rfl

theorem mem_countedIds (h : db.Projected) (hgroups : groupsOf input ≠ []) (hsearch : searchOf input.query = none)
    (trackId : String) :
    trackId ∈ countedIds db input ↔ trackId ∈ (selected S db input).map fun track => track.1.2 := by
  have hlabelled : trackId ∈ intersectAll ((groupsOf input).map (labelled db input.labelLibraries)) ↔
      Labelled db input trackId := by
    rw [mem_intersectAll (by simpa using hgroups), Labelled, ← groupsOf_iff]
    simp only [List.forall_mem_map, mem_labelled h]
  simp only [countedIds, selected, List.mem_filter, List.mem_map, hlabelled, List.any_eq_true, Bool.and_eq_true,
    decide_eq_true_iff, hsearch, found, matched, likeFilter, and_true]
  constructor
  · rintro ⟨hl, hheld⟩
    obtain ⟨track, hm, rfl, hr⟩ := exists_represents input hheld
    exact ⟨track, ⟨hm, hr, hl⟩, rfl⟩
  · rintro ⟨track, ⟨hm, hr, hl⟩, rfl⟩
    exact ⟨hl, track, hm, rfl, hr.1⟩

theorem nodup_countedIds (h : db.Projected) (hsearch : searchOf input.query = none) :
    (countedIds db input).Nodup ↔ ¬ Overcounts db input := by
  by_cases hone : ∃ group, groupsOf input = [group]
  · obtain ⟨group, hgroup⟩ := hone
    have hrows : (db.rows.tags.items.filter fun row =>
        labelScope db input.labelLibraries row.1.1 && group.contains row.1.2.2).Nodup :=
      db.rows.tags.keys_nodup.of_map.filter _
    rw [countedIds, hgroup, List.map_singleton, intersectAll, labelled, List.filter_map,
      List.nodup_map_iff_inj_on (hrows.filter _)]
    simp only [List.mem_filter, Bool.and_eq_true, Function.comp_apply, List.contains_iff_mem, List.any_eq_true,
      decide_eq_true_iff]
    constructor
    · rintro hinj ⟨-, group', hgroup', first, hfirst, second, hsecond, hne, hid, hf, hs, track, htrack, htid, htscope⟩
      obtain rfl := (List.cons.inj (hgroup.symm.trans hgroup')).1
      refine hne (hinj first ⟨⟨hfirst, ?_, hf.2⟩, track, htrack, htid, htscope⟩ second
        ⟨⟨hsecond, ?_, hs.2⟩, track, htrack, htid.trans hid, htscope⟩ hid)
      · exact (labelScope_eq h _ hfirst).trans hf.1
      · exact (labelScope_eq h _ hsecond).trans hs.1
    · rintro hover first ⟨⟨hfirst, hf⟩, track, htrack, htid, htscope⟩ second ⟨⟨hsecond, hs⟩, -⟩ hid
      by_contra hne
      refine hover ⟨hsearch, group, hgroup, first, hfirst, second, hsecond, hne, hid, ⟨?_, hf.2⟩, ⟨?_, hs.2⟩,
        track, htrack, htid, htscope⟩
      · exact (labelScope_eq h _ hfirst).symm.trans hf.1
      · exact (labelScope_eq h _ hsecond).symm.trans hs.1
  · refine iff_of_true (List.Nodup.filter _ (nodup_intersectAll fun set hset => ?_)) ?_
    · obtain ⟨group, hgroup, -⟩ := List.map_eq_singleton_iff.mp hset
      exact (hone ⟨group, hgroup⟩).elim
    · rintro ⟨-, group, hgroup, -⟩
      exact hone ⟨group, hgroup⟩

/-- The label count is the length of the list exactly where it does not count a track id twice. -/
theorem labelCount_eq_length_iff (h : db.Projected) (hgroups : groupsOf input ≠ [])
    (hsearch : searchOf input.query = none) (duplicates : Bool) :
    labelCount db (parametersOf input duplicates) = (selected S db input).length ↔ ¬ Overcounts db input := by
  have hlength := length_eq_iff_nodup (selected_ids S db input) (mem_countedIds h hgroups hsearch)
  rw [List.length_map] at hlength
  rw [labelCount_eq hgroups, hlength, nodup_countedIds h hsearch]

end Counts

end RecordNode
