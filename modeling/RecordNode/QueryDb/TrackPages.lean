import RecordNode.QueryDb.TrackReference

/-! # Pages of a track list

The counts a connection keeps are those of the tables it reads, as long as the change
count has not moved. A page is then the stretch of the reference list at its offset,
whatever counts and sources it was read through, and the total beside it is the length of
the list, unless the label count counted a track id twice. -/

namespace RecordNode

open Foundation

/-! ## Track ids in two libraries -/

section Duplicates
variable {db : AggregateDb}

theorem distinct_of_duplicateIds {scope : Option (List String)} (h : duplicateIds db scope = false) :
    Distinct db scope := by
  have hnodup : ((db.rows.tracks.items.filter fun track => inScope scope track.1.1).map
      fun track => track.1.2).Nodup := by
    refine List.nodup_iff_count_le_one.mpr fun id => ?_
    by_cases hm : id ∈ (db.rows.tracks.items.filter fun track => inScope scope track.1.1).map fun track => track.1.2
    · have hcount := List.any_eq_false.mp h id hm
      rw [decide_eq_true_iff] at hcount
      exact not_lt.mp hcount
    · rw [List.count_eq_zero.mpr hm]
      exact Nat.zero_le 1
  intro a ha b hb hscopeA hscopeB hid
  have heq := List.inj_on_of_nodup_map hnodup (List.mem_filter.mpr ⟨ha, hscopeA⟩) (List.mem_filter.mpr ⟨hb, hscopeB⟩) hid
  rw [heq]

/-- The rows of one library have a track id each. -/
theorem distinct_of_oneLibrary {scope : Option (List String)} (h : oneLibrary scope = true) : Distinct db scope := by
  cases scope with
  | none => cases h
  | some addresses =>
    have hsize : (OrderedSet.ofList addresses).items.length ≤ 1 := of_decide_eq_true h
    intro a ha b hb hscopeA hscopeB _
    have hmem : ∀ library, inScope (some addresses) library = true →
        library ∈ (OrderedSet.ofList addresses).items := by
      intro library hl
      rw [OrderedSet.mem_items, OrderedSet.mem_ofList]
      simpa [inScope] using hl
    cases hitems : (OrderedSet.ofList addresses).items with
    | nil =>
      have hin := hmem _ hscopeA
      rw [hitems] at hin
      cases hin
    | cons library rest =>
      rw [hitems] at hmem hsize
      obtain rfl : rest = [] := List.length_eq_zero_iff.mp (by simpa using hsize)
      rw [List.mem_singleton.mp (hmem _ hscopeA), List.mem_singleton.mp (hmem _ hscopeB)]

end Duplicates

/-! ## The counts kept -/

namespace QueryConnection

variable {S : SqlEngine} {s later : QueryConnection}

/-- Outside a batch what is read is what was committed, and a count kept in this generation is
that of the tables. -/
structure Sound (S : SqlEngine) (s : QueryConnection) : Prop where
  closed : s.inTransaction = false → s.index.db = s.index.committed
  generation : ∀ cache, s.cache = some cache → cache.generation ≤ s.changes
  settled : ∀ cache, s.cache = some cache → cache.generation = s.changes → s.index.db = s.index.committed
  right : ∀ cache, s.cache = some cache → cache.generation = s.changes →
    ∀ key value, cache.counts.get key = some value → value = countOf S s.db key

/-- A read changes nothing but the counts kept. -/
structure Reads (S : SqlEngine) (s later : QueryConnection) : Prop where
  same : ∃ cache, later = { s with cache := cache }
  sound : later.Sound S

theorem Reads.db_eq (h : Reads S s later) : later.db = s.db := by
  obtain ⟨cache, rfl⟩ := h.same
  rfl

theorem Reads.trans {last : QueryConnection} (h : Reads S s later) (k : Reads S later last) : Reads S s last where
  same := by
    obtain ⟨cache, rfl⟩ := h.same
    obtain ⟨cache', rfl⟩ := k.same
    exact ⟨cache', rfl⟩
  sound := k.sound

theorem Sound.refl (h : s.Sound S) : Reads S s s := ⟨⟨s.cache, rfl⟩, h⟩

theorem currentCache_generation (s : QueryConnection) : s.currentCache.generation = s.changes := by
  unfold currentCache
  split
  · rfl
  · split
    · rfl
    case isFalse hcurrent =>
      simp only [Bool.or_eq_true, not_or, decide_eq_true_iff, not_not] at hcurrent
      exact hcurrent.1

theorem Sound.currentCache_right (h : s.Sound S) {key : CountKey} {value : ℤ}
    (hget : s.currentCache.counts.get key = some value) : value = countOf S s.db key := by
  unfold currentCache at hget
  split at hget
  · cases hget
  case h_2 cache hcache =>
    split at hget
    · cases hget
    case isFalse hcurrent =>
      simp only [Bool.or_eq_true, not_or, decide_eq_true_iff, not_not] at hcurrent
      exact h.right cache hcache hcurrent.1 key value hget

/-- Counts taken outside a batch may be kept. -/
theorem Sound.keep (h : s.Sound S) (hclosed : s.inTransaction = false) {cache : CountCache}
    (hg : cache.generation = s.changes)
    (hr : ∀ key value, cache.counts.get key = some value → value = countOf S s.db key) :
    Sound S { s with cache := some cache } where
  closed := h.closed
  generation found hfound := by
    obtain rfl := Option.some_inj.mp hfound
    exact hg.le
  settled _ _ _ := h.closed hclosed
  right found hfound _ := by
    obtain rfl := Option.some_inj.mp hfound
    exact hr

/-- A count is the one the tables give, kept or not. -/
theorem cachedCount_spec (h : s.Sound S) (key : CountKey) :
    (s.cachedCount S key).1 = countOf S s.db key ∧ Reads S s (s.cachedCount S key).2 := by
  unfold cachedCount
  split
  · exact ⟨rfl, h.refl⟩
  case isFalse hclosed =>
    rw [Bool.not_eq_true] at hclosed
    split
    case h_1 value hvalue =>
      refine ⟨h.currentCache_right hvalue, ⟨⟨some s.currentCache, rfl⟩, ?_⟩⟩
      exact h.keep hclosed s.currentCache_generation fun key value => h.currentCache_right
    case h_2 hmissing =>
      refine ⟨rfl, ⟨⟨_, rfl⟩, ?_⟩⟩
      refine h.keep hclosed s.currentCache_generation fun other value hget => ?_
      rw [OrderedMap.get_set] at hget
      split at hget
      case isTrue heq =>
        subst heq
        exact (Option.some_inj.mp hget).symm
      case isFalse => exact h.currentCache_right hget

end QueryConnection

/-! ## The reads of a page -/

section Reads
variable {S : SqlEngine} {s : QueryConnection} {input : ListTracksInput}

open QueryConnection

/-- The probe is skipped only where no track id has two rows in scope. -/
theorem readDuplicates_spec (h : s.Sound S) (scope : Option (List String)) :
    ((readDuplicates S s scope).1 = false → Distinct s.db scope) ∧ Reads S s (readDuplicates S s scope).2 := by
  unfold readDuplicates
  split
  case isTrue hone => exact ⟨fun _ => distinct_of_oneLibrary hone, h.refl⟩
  case isFalse =>
    obtain ⟨hvalue, hreads⟩ := cachedCount_spec h (.duplicates scope)
    refine ⟨fun hfound => distinct_of_duplicateIds ?_, hreads⟩
    dsimp only at hfound
    rw [hvalue, countOf] at hfound
    by_contra hdup
    rw [Bool.not_eq_false] at hdup
    simp [hdup] at hfound

/-- The total of a query: the label count where only labels filter, else the length of the list. -/
def listTotal (S : SqlEngine) (db : AggregateDb) (input : ListTracksInput) : ℤ :=
  if groupsOf input ≠ [] ∧ searchOf input.query = none then (countedIds db input).length
  else (selected S db input).length

theorem readTotal_spec (input : ListTracksInput) (hp : s.db.Projected) (h : s.Sound S) {duplicates : Bool}
    (hd : duplicates = false → Distinct s.db input.libraryAddresses) :
    (readTotal S s (parametersOf input duplicates)).1 = listTotal S s.db input ∧
      Reads S s (readTotal S s (parametersOf input duplicates)).2 := by
  have hsearch : (parametersOf input duplicates).search = searchOf input.query := rfl
  have hgroups : (parametersOf input duplicates).tagGroups = groupsOf input := rfl
  unfold readTotal listTotal
  rw [hsearch, hgroups]
  by_cases hlabels : groupsOf input ≠ [] ∧ searchOf input.query = none
  · obtain ⟨hvalue, hreads⟩ := cachedCount_spec h (.labels (parametersOf input duplicates))
    rw [if_pos hlabels, if_pos (by simp [hlabels])]
    refine ⟨?_, hreads⟩
    rw [hvalue, countOf, labelCount_eq hlabels.1]
  · rw [if_neg hlabels, if_neg (by simpa using hlabels)]
    split
    case isTrue =>
      obtain ⟨hvalue, hreads⟩ := cachedCount_spec h (.rows none (parametersOf input duplicates))
      refine ⟨?_, hreads⟩
      rw [hvalue, countOf, countRows_eq hp hd]
      simp [Condition.holds]
    case isFalse hplain =>
      simp only [Bool.or_eq_true, not_or, decide_eq_true_iff, not_not, Bool.not_eq_true, Option.isSome_eq_false_iff,
        Option.isNone_iff_eq_none] at hplain
      obtain ⟨⟨hnone, hempty⟩, hown⟩ := hplain
      obtain rfl : duplicates = false := by
        cases duplicates with
        | false => rfl
        | true => cases hown
      refine ⟨?_, h.refl⟩
      dsimp only
      rw [scopeTotal_eq hp, selected]
      refine congrArg (fun rows : List Track => (rows.length : ℤ)) (List.filter_congr fun track hm => ?_)
      have hlabelled : Labelled s.db input track.1.2 := by
        rw [Labelled, ← groupsOf_iff, hempty]
        intro group hg
        cases hg
      have hrepresents := representative_iff hd hm
      rw [Bool.eq_iff_iff, decide_eq_true_iff, ← hrepresents]
      simp [representative, parametersOf, hnone, hlabelled, found, matched, likeFilter]

/-- The two ordered parts make the list. -/
theorem reference_eq_append (S : SqlEngine) (db : AggregateDb) (input : ListTracksInput) {present absent : List Track}
    (hpresent : present.Perm ((selected S db input).filter fun track => (sortKey track.2 input.sort).isSome))
    (habsent : absent.Perm ((selected S db input).filter fun track => !(sortKey track.2 input.sort).isSome)) :
    reference S db input = orderByKey input present ++ orderById input absent := by
  refine nullsLast_eq_append ?_ hpresent habsent
  have hids := (selected_ids S db input).map codeUnits_injective
  rwa [List.map_map] at hids

theorem sortKey_isSome {sort : TrackSort} (h : sort.nullable = false) (row : TrackRow) : (sortKey row sort).isSome := by
  cases sort <;> first | rfl | cases h

theorem reference_of_nonnull {rows : List Track} {db : AggregateDb} (hnull : input.sort.nullable = false)
    (hrows : rows.Perm (selected S db input)) : reference S db input = orderByKey input rows := by
  have hall : ((selected S db input).filter fun track => (sortKey track.2 input.sort).isSome) = selected S db input :=
    List.filter_eq_self.mpr fun track _ => sortKey_isSome hnull track.2
  have hnil : ((selected S db input).filter fun track => !(sortKey track.2 input.sort).isSome) = [] :=
    List.filter_eq_nil_iff.mpr fun track _ => by simp [sortKey_isSome hnull track.2]
  have habsent : ([] : List Track).Perm ((selected S db input).filter fun track =>
      !(sortKey track.2 input.sort).isSome) := by rw [hnil]
  rw [reference_eq_append S db input (hall.symm ▸ hrows) habsent]
  exact List.append_nil _

/-- The keys of a page are those of the list at its offset. -/
theorem pageKeys_spec (input : ListTracksInput) (hp : s.db.Projected) (h : s.Sound S) {duplicates : Bool}
    (hd : duplicates = false → Distinct s.db input.libraryAddresses) (offset limit : ℕ) (total : ℤ) :
    (pageKeys S s input (parametersOf input duplicates) offset limit total).1 =
        (page offset limit (reference S s.db input)).map Prod.fst ∧
      Reads S s (pageKeys S s input (parametersOf input duplicates) offset limit total).2 := by
  unfold pageKeys
  dsimp only
  generalize hwalked : walksIndex s.db (parametersOf input duplicates) offset limit total = walked
  have hrows := fun condition => pageRows_perm (S := S) hp hd walked total condition
  split
  case isTrue hnull =>
    refine ⟨?_, h.refl⟩
    have hall : ((selected S s.db input).filter fun track => Condition.holds none track.2) = selected S s.db input :=
      List.filter_eq_self.mpr fun _ _ => rfl
    rw [reference_of_nonnull (by simpa using hnull) (hall ▸ hrows none)]
  case isFalse =>
    have hpresent : ∀ row : TrackRow, Condition.holds (some (input.sort, true)) row = (sortKey row input.sort).isSome := by
      intro row
      simp [Condition.holds]
    have habsent : ∀ row : TrackRow,
        Condition.holds (some (input.sort, false)) row = !(sortKey row input.sort).isSome := by
      intro row
      rw [Condition.holds]
      cases sortKey row input.sort <;> rfl
    have hcount := countRows_eq (S := S) hp hd (some (input.sort, true))
    have hpart := hrows (some (input.sort, true))
    have hrest := hrows (some (input.sort, false))
    simp only [hpresent] at hpart hcount
    simp only [habsent] at hrest
    rw [reference_eq_append S s.db input hpart hrest, page_append]
    generalize hfirst : orderByKey input (pageRows S s.db (parametersOf input duplicates) walked total
      (some (input.sort, true))) = first
    have hlength : first.length = countRows S s.db (parametersOf input duplicates) (some (input.sort, true)) := by
      rw [hcount, ← hfirst]
      exact ((orderBy_perm _ _ _).trans hpart).length_eq
    rw [List.map_append, List.length_map]
    split
    case isTrue hfull =>
      refine ⟨?_, h.refl⟩
      rw [hfull, Nat.sub_self, page, page, List.take_zero, List.map_nil, List.append_nil]
    case isFalse =>
      split
      case isTrue hsome =>
        -- The page began among the rows with a key, so the others are read from their first.
        refine ⟨?_, h.refl⟩
        rw [length_page] at hsome
        have hzero : offset - first.length = 0 := by omega
        rw [hzero]
        rfl
      case isFalse =>
        obtain ⟨hvalue, hreads⟩ := cachedCount_spec h (.rows (some (input.sort, true)) (parametersOf input duplicates))
        refine ⟨?_, hreads⟩
        have hskipped : ((offset : ℤ) - countOf S s.db (.rows (some (input.sort, true)) (parametersOf input duplicates))).toNat
            = offset - first.length := by
          rw [countOf, ← hlength]
          exact Int.toNat_sub _ _
        dsimp only
        rw [hvalue, hskipped]

end Reads

/-! ## Full rows -/

section Rows
variable {db : AggregateDb}

/-- A key's text gives the key back, as no track id holds a blank. -/
theorem joinedKey_injective {a b : String × String} (ha : ' ' ∉ a.2.toList) (hb : ' ' ∉ b.2.toList)
    (h : a.1 ++ " " ++ a.2 = b.1 ++ " " ++ b.2) : a = b := by
  have hlast : ∀ key : String × String, ' ' ∉ key.2.toList →
      ((key.1 ++ " " ++ key.2).toList.reverse.takeWhile fun c => c ≠ ' ') = key.2.toList.reverse := by
    intro key hkey
    have hall : ∀ c ∈ key.2.toList.reverse, decide (c ≠ ' ') = true := by
      intro c hc
      refine decide_eq_true fun heq => hkey ?_
      rw [← heq]
      exact List.mem_reverse.mp hc
    simp only [String.toList_append, List.reverse_append]
    rw [List.takeWhile_append_of_pos hall]
    simp
  have hids : a.2 = b.2 := by
    have hrev := hlast a ha
    rw [h, hlast b hb] at hrev
    exact (String.toList_inj.mp (List.reverse_injective hrev)).symm
  rw [hids] at h
  have hchars := congrArg String.toList h
  simp only [String.toList_append, List.append_left_inj] at hchars
  exact Prod.ext (String.toList_inj.mp hchars) hids

theorem rowsByKey_spec (h : db.Projected) {rows : List Track} (hrows : ∀ track ∈ rows, track ∈ db.rows.tracks.items) :
    rowsByKey db (rows.map Prod.fst) = rows := by
  have hplain : ∀ track ∈ db.rows.tracks.items, ' ' ∉ track.1.2.toList := by
    intro track hm
    refine h.readable.plain track.1 ((OrderedMap.has_iff _ _).mpr ⟨track.2, ?_⟩)
    exact (OrderedMap.get_eq_some_iff _ _ _).mpr hm
  have hget : ∀ track ∈ rows, ((db.rows.tracks.items.filter fun track => (rows.map Prod.fst).contains track.1).foldl
      (fun found track => found.set (track.1.1 ++ " " ++ track.1.2) track) OrderedMap.empty).get
        (track.1.1 ++ " " ++ track.1.2) = some track := by
    intro track hm
    refine (OrderedMap.get_setEach_empty (f := fun track : Track => some (track.1.1 ++ " " ++ track.1.2, track))
      (fun a ha b hb v w hv hw => ?_) track).mpr ⟨track, ?_, rfl⟩
    · obtain ⟨htext, rfl⟩ := Prod.mk.inj (Option.some_inj.mp hv)
      obtain ⟨htext', rfl⟩ := Prod.mk.inj (Option.some_inj.mp hw)
      have ha' := List.mem_of_mem_filter ha
      have hb' := List.mem_of_mem_filter hb
      exact eq_of_key ha' hb' (joinedKey_injective (hplain _ ha') (hplain _ hb') (htext.trans htext'.symm))
    · refine List.mem_filter.mpr ⟨hrows track hm, ?_⟩
      rw [List.contains_iff_mem]
      exact List.mem_map_of_mem hm
  unfold rowsByKey
  dsimp only
  rw [List.filterMap_map]
  exact (List.filterMap_congr fun track hm => hget track hm).trans List.filterMap_some

end Rows

/-! ## One page -/

section Page
variable {S : SqlEngine} {s : QueryConnection} {input : ListTracksInput}

open QueryConnection

theorem assertPage_ok {offset limit : ℕ} (hoffset : offset ≤ Value.maxSafeInteger) (hmin : 1 ≤ limit)
    (hmax : limit ≤ maxLimit) : assertPage offset limit = .ok () := by
  have hsafe : limit ≤ Value.maxSafeInteger := hmax.trans (by decide)
  have hsafeOffset : isSafeInteger offset = true := decide_eq_true (by simpa using hoffset)
  have hsafeLimit : isSafeInteger limit = true := decide_eq_true (by simpa using hsafe)
  have hneg : ¬ (offset : ℤ) < 0 := by omega
  have hlow : ¬ (limit : ℤ) < 1 := by omega
  have hhigh : ¬ (limit : ℤ) > maxLimit := by
    rw [gt_iff_lt, Nat.cast_lt]
    exact not_lt.mpr hmax
  simp [assertPage, hsafeOffset, hsafeLimit, hneg, hlow, hhigh]

theorem listTracks_eq (h : assertPage input.offset input.limit = .ok ()) :
    listTracks S s input =
      let duplicates := readDuplicates S s input.libraryAddresses
      let p := parametersOf input duplicates.1
      let total := readTotal S duplicates.2 p
      let keys := pageKeys S total.2 input p input.offset.toNat input.limit.toNat total.1
      .ok (⟨rowsByKey keys.2.db keys.1, total.1⟩, keys.2) := by
  unfold listTracks
  rw [h]
  rfl

/-- A page is the stretch of the list at its offset. -/
theorem listTracks_spec (input : ListTracksInput) (hp : s.db.Projected) (h : s.Sound S) {offset limit : ℕ} (hoffset : input.offset = offset)
    (hlimit : input.limit = limit) (hsafe : offset ≤ Value.maxSafeInteger) (hmin : 1 ≤ limit)
    (hmax : limit ≤ maxLimit) :
    ∃ later, listTracks S s input =
        .ok (⟨page offset limit (reference S s.db input), listTotal S s.db input⟩, later) ∧ Reads S s later := by
  obtain ⟨hdistinct, hfirst⟩ := readDuplicates_spec h input.libraryAddresses
  have hdb := hfirst.db_eq
  obtain ⟨htotal, hsecond⟩ := readTotal_spec input (hdb ▸ hp) hfirst.sound (hdb.symm ▸ hdistinct)
  have hdb2 := (hfirst.trans hsecond).db_eq
  obtain ⟨hkeys, hthird⟩ := pageKeys_spec input (hdb2 ▸ hp) hsecond.sound (hdb2.symm ▸ hdistinct)
    offset limit (readTotal S (readDuplicates S s input.libraryAddresses).2
      (parametersOf input (readDuplicates S s input.libraryAddresses).1)).1
  have hreads := (hfirst.trans hsecond).trans hthird
  have hmem : ∀ track ∈ page offset limit (reference S s.db input), track ∈ s.db.rows.tracks.items := by
    intro track hm
    have hin : track ∈ reference S s.db input := List.mem_of_mem_drop (List.mem_of_mem_take hm)
    exact List.mem_of_mem_filter ((nullsLast_perm _).mem_iff.mp hin)
  refine ⟨_, ?_, hreads⟩
  rw [listTracks_eq (by rw [hoffset, hlimit]; exact assertPage_ok hsafe hmin hmax), hoffset, hlimit]
  dsimp only [Int.toNat_natCast]
  rw [hkeys, hreads.db_eq, hdb2, rowsByKey_spec hp hmem, htotal, hdb]

end Page

/-! ## Runs -/

theorem assertPage_eq_ok {offset limit : ℤ} (h : assertPage offset limit = .ok ()) :
    ∃ o l : ℕ, offset = o ∧ limit = l ∧ o ≤ Value.maxSafeInteger ∧ 1 ≤ l ∧ l ≤ maxLimit := by
  unfold assertPage at h
  split at h
  · cases h
  case isFalse hoffset =>
    split at h
    · cases h
    case isFalse hlimit =>
      simp only [Bool.or_eq_true, Bool.not_eq_true', not_or, decide_eq_true_iff, Bool.not_eq_false, not_lt,
        isSafeInteger, gt_iff_lt] at hoffset hlimit
      refine ⟨offset.toNat, limit.toNat, ?_, ?_, ?_, ?_, ?_⟩ <;> omega

namespace QueryConnection

variable {S : SqlEngine} {s later : QueryConnection}

theorem reads_of_listTracks (hp : s.db.Projected) (h : s.Sound S) {input : ListTracksInput} {found : TrackPage}
    (hok : listTracks S s input = .ok (found, later)) : Reads S s later := by
  cases hassert : assertPage input.offset input.limit with
  | error message =>
    unfold listTracks at hok
    rw [hassert] at hok
    cases hok
  | ok _ =>
    obtain ⟨offset, limit, hoffset, hlimit, hsafe, hmin, hmax⟩ := assertPage_eq_ok hassert
    obtain ⟨last, hlast, hreads⟩ := listTracks_spec input hp h hoffset hlimit hsafe hmin hmax
    rw [hlast] at hok
    obtain ⟨-, rfl⟩ := Prod.mk.inj (Except.ok.inj hok)
    exact hreads

/-- A transaction that changed no row left the tables as they were, so the counts stay right. -/
theorem sound_transact (h : s.Sound S) (t : Transaction) {index : IndexConnection}
    (hstep : s.index.step (.transact t) = some index) :
    Sound S { s with
      index := index
      inTransaction := (runLabels AggregateDb.exec s.db (t.statements s.db.rows)).isSome
      changes := s.changes + S.changed s.db t } := by
  have hgeneration : ∀ cache, s.cache = some cache → cache.generation ≤ s.changes + S.changed s.db t :=
    fun cache hc => (h.generation cache hc).trans (Nat.le_add_right _ _)
  have hunmoved : ∀ cache, s.cache = some cache → cache.generation = s.changes + S.changed s.db t →
      cache.generation = s.changes ∧ S.changed s.db t = 0 := by
    intro cache hc hg
    have hle := h.generation cache hc
    omega
  simp only [IndexConnection.step] at hstep
  split at hstep
  case h_1 db hrun =>
    obtain rfl := Option.some_inj.mp hstep
    have hsame : ∀ cache, s.cache = some cache → cache.generation = s.changes + S.changed s.db t →
        db = s.index.db := fun cache hc hg => S.eq_of_changed hrun (hunmoved cache hc hg).2
    refine ⟨fun hclosed => ?_, hgeneration, fun cache hc hg => ?_, fun cache hc hg => ?_⟩
    · have hopen : runLabels AggregateDb.exec s.db (t.statements s.db.rows) = some db := hrun
      rw [hopen] at hclosed
      cases hclosed
    · exact (hsame cache hc hg).trans (h.settled cache hc (hunmoved cache hc hg).1)
    · intro key value hget
      have hdb : db = s.db := hsame cache hc hg
      exact (h.right cache hc (hunmoved cache hc hg).1 key value hget).trans (by rw [← hdb]; rfl)
  case h_2 =>
    obtain rfl := Option.some_inj.mp hstep
    refine ⟨fun _ => rfl, hgeneration, fun _ _ _ => rfl, fun cache hc hg key value hget => ?_⟩
    have hcurrent := (hunmoved cache hc hg).1
    refine (h.right cache hc hcurrent key value hget).trans ?_
    exact congrArg (fun db => countOf S db key) (h.settled cache hc hcurrent)

/-- What holds all along a run. -/
theorem sound_of_run {allowed : QueryConnection → QueryLabel → Prop} (h : Run (step S) (· = .start) allowed s) :
    s.Sound S ∧ s.db.Projected := by
  have hinv : s.Sound S ∧ Run IndexConnection.step (· = .start) anyLabel s.index := by
    refine h.invariant (I := fun s => s.Sound S ∧ Run IndexConnection.step (· = .start) anyLabel s.index)
      (fun s hs => ?_) fun s l t hi _ hs => ?_
    · subst hs
      exact ⟨⟨fun _ => rfl, fun _ hc => (by cases hc), fun _ hc => (by cases hc), fun _ hc => (by cases hc)⟩, .start rfl⟩
    · obtain ⟨hsound, hrun⟩ := hi
      cases l with
      | transact transaction =>
        obtain ⟨index, hindex, rfl⟩ := Option.map_eq_some_iff.mp hs
        exact ⟨sound_transact hsound transaction hindex, .next _ hrun trivial hindex⟩
      | commit =>
        obtain rfl := Option.some_inj.mp hs
        refine ⟨⟨fun _ => rfl, hsound.generation, fun _ _ _ => rfl, hsound.right⟩, ?_⟩
        exact .next .commit hrun trivial rfl
      | other rows =>
        obtain rfl := Option.some_inj.mp hs
        refine ⟨⟨hsound.closed, fun cache hc => ?_, fun cache hc hg => ?_, fun cache hc hg => ?_⟩, hrun⟩
        · exact (hsound.generation cache hc).trans (Nat.le_add_right _ _)
        · have := hsound.generation cache hc
          exact hsound.settled cache hc (by dsimp only at hg; omega)
        · have := hsound.generation cache hc
          exact hsound.right cache hc (by dsimp only at hg; omega)
      | list input =>
        dsimp only [step] at hs
        split at hs
        case h_1 found later hok =>
          obtain rfl := Option.some_inj.mp hs
          have hreads := reads_of_listTracks (IndexConnection.projected_of_run hrun).1 hsound hok
          refine ⟨hreads.sound, ?_⟩
          obtain ⟨cache, rfl⟩ := hreads.same
          exact hrun
        case h_2 =>
          obtain rfl := Option.some_inj.mp hs
          exact ⟨hsound, hrun⟩
  exact ⟨hinv.1, (IndexConnection.projected_of_run hinv.2).1⟩

end QueryConnection

/-! ## Pages one after the other -/

section Pages
variable {S : SqlEngine} {s : QueryConnection} {input : ListTracksInput}

/-- The query at an offset. -/
def ListTracksInput.at (input : ListTracksInput) (offset : ℕ) : ListTracksInput := { input with offset := offset }

/-- The first pages of a list, each read where the one before it ended. -/
def readPages (S : SqlEngine) (s : QueryConnection) (input : ListTracksInput) :
    ℕ → Except String (List TrackPage × QueryConnection)
  | 0 => .ok ([], s)
  | n + 1 => do
    let (pages, s) ← readPages S s input n
    let (page, s) ← listTracks S s (input.at (n * input.limit.toNat))
    return (pages ++ [page], s)

/-- However many pages are read, as far as an offset is a safe integer, they are the reference list
from its start, without gap or repeat, and each total is its length. -/
def PagesRight (S : SqlEngine) (s : QueryConnection) (input : ListTracksInput) : Prop :=
  ∀ n, (∀ i < n, i * input.limit.toNat ≤ Value.maxSafeInteger) →
    ∃ pages later, readPages S s input n = .ok (pages, later) ∧
      pages.flatMap TrackPage.items = (reference S s.db input).take (n * input.limit.toNat) ∧
      ∀ page ∈ pages, page.total = (reference S s.db input).length

theorem readPages_spec (hp : s.db.Projected) (h : s.Sound S) {limit : ℕ} (hlimit : input.limit = limit)
    (hmin : 1 ≤ limit) (hmax : limit ≤ maxLimit) {n : ℕ} (hn : ∀ i < n, i * limit ≤ Value.maxSafeInteger) :
    ∃ later, readPages S s input n = .ok ((List.range n).map fun i =>
        ⟨page (i * limit) limit (reference S s.db input), listTotal S s.db input⟩, later) ∧
      QueryConnection.Reads S s later := by
  induction n with
  | zero => exact ⟨s, rfl, h.refl⟩
  | succ n ih =>
    obtain ⟨mid, hmid, hfirst⟩ := ih fun i hi => hn i (by omega)
    have hdb := hfirst.db_eq
    obtain ⟨later, hlater, hsecond⟩ := listTracks_spec (input.at (n * limit)) (hdb ▸ hp) hfirst.sound rfl
      hlimit (hn n (by omega)) hmin hmax
    refine ⟨later, ?_, hfirst.trans hsecond⟩
    rw [hdb] at hlater
    rw [readPages, hmid, hlimit, Int.toNat_natCast, List.range_succ, List.map_append]
    change (listTracks S mid (input.at (n * limit)) >>= fun found => Except.ok (_ ++ [found.1], found.2)) = _
    rw [hlater]
    rfl

theorem length_reference (S : SqlEngine) (db : AggregateDb) (input : ListTracksInput) :
    (reference S db input).length = (selected S db input).length :=
  (nullsLast_perm _).length_eq

/-- The total is the length of the list exactly where no track id is counted twice. -/
theorem listTotal_eq_iff {db : AggregateDb} (hp : db.Projected) :
    listTotal S db input = (reference S db input).length ↔ ¬ Overcounts db input := by
  rw [length_reference, listTotal]
  split
  case isTrue hlabels =>
    rw [← labelCount_eq_length_iff (S := S) hp hlabels.1 hlabels.2 false, labelCount_eq hlabels.1]
    exact Nat.cast_inj
  case isFalse hlabels =>
    refine iff_of_true rfl ?_
    rintro ⟨hsearch, group, hgroup, -⟩
    exact hlabels ⟨by simp [hgroup], hsearch⟩

theorem pagesRight_iff (hp : s.db.Projected) (h : s.Sound S) (hmin : 1 ≤ input.limit) (hmax : input.limit ≤ maxLimit) :
    PagesRight S s input ↔ ¬ Overcounts s.db input := by
  obtain ⟨limit, hlimit⟩ : ∃ limit : ℕ, input.limit = limit := ⟨input.limit.toNat, by omega⟩
  have hmin' : 1 ≤ limit := by omega
  have hmax' : limit ≤ maxLimit := by omega
  rw [← listTotal_eq_iff (S := S) hp]
  unfold PagesRight
  rw [hlimit, Int.toNat_natCast]
  constructor
  · intro hright
    have hone : ∀ i < 1, i * limit ≤ Value.maxSafeInteger := by
      intro i hi
      obtain rfl : i = 0 := by omega
      rw [Nat.zero_mul]
      exact Nat.zero_le _
    obtain ⟨pages, later, hpages, -, htotals⟩ := hright 1 hone
    obtain ⟨last, hlast, -⟩ := readPages_spec hp h hlimit hmin' hmax' hone
    rw [hlast] at hpages
    obtain ⟨rfl, -⟩ := Prod.mk.inj (Except.ok.inj hpages)
    exact htotals _ (List.mem_map_of_mem (List.mem_range.mpr Nat.one_pos))
  · intro htotal n hn
    obtain ⟨later, hlater, -⟩ := readPages_spec hp h hlimit hmin' hmax' hn
    refine ⟨_, later, hlater, ?_, fun page hpage => ?_⟩
    · rw [List.flatMap_map, ← flatMap_page]
    · obtain ⟨i, -, rfl⟩ := List.mem_map.mp hpage
      exact htotal

end Pages

/-! ## A track with two labels

One library holds one track under the labels `a` and `b`, and no content yet. Asked for
either label, the label count counts the track twice. -/

namespace LabelledTwice

open QueryConnection

/-- An engine whose change count is the statements it ran. -/
def engine : SqlEngine where
  like _ _ := false
  matchPhrase _ _ := false
  changed db t := (t.statements db.rows).length
  eq_of_changed hrun hzero := by
    rw [List.length_eq_zero_iff.mp hzero] at hrun
    exact (Option.some_inj.mp hrun).symm

def id : TrackId := Overflow.trackId 0

def put : VerifiedEntry := Overflow.entry 0

def labels : VerifiedEntry where
  digest := ⟨1 :: List.replicate 63 0, by simp⟩
  bytes := []
  entry := ⟨"library", .null, [], [], ⟨"", 2⟩, "", ""⟩
  operation := .labels "" ⟨1, [(id, "a"), (id, "b")], []⟩ none

def labelKey (tag : String) : String := labelStateKey (id, tag)

def oplog : Oplog :=
  { createOplog ⟨"library", "", .recordstore, [], "", "", ""⟩ with
    entries := (OrderedMap.empty.set put.hash put).set labels.hash labels
    heads := .ofList [put.hash, labels.hash]
    keyEntries := ((OrderedMap.empty.set id.text (.ofList [put.hash])).set (labelKey "a") (.ofList [labels.hash])).set
      (labelKey "b") (.ofList [labels.hash])
    current := ((OrderedMap.empty.set (labelKey "a") labels).set (labelKey "b") labels).set id.text put }

def transaction : Transaction := .round oplog [labelKey "a", labelKey "b"] [⟨id.text, some put, none⟩]

theorem labelPairOf_labelKey (tag : String) : labelPairOf (labelKey tag) = (id.text, tag) := by
  have hlength : id.text.toList.length = 64 := by
    have hhex := id.isHex
    rw [isHex64, Bool.and_eq_true, beq_iff_eq] at hhex
    exact hhex.1
  have hchars : (labelKey tag).toList =
      'l' :: 'a' :: 'b' :: 'e' :: 'l' :: ':' :: (id.text.toList ++ ':' :: tag.toList) := by
    simp [labelKey, labelStateKey]
  have hlabel : (id.text.toList ++ ':' :: tag.toList).drop 65 = tag.toList := by
    rw [show 65 = id.text.toList.length + 1 by rw [hlength], List.drop_append]
    simp
  simp only [labelPairOf, hchars, List.drop_succ_cons, List.drop_zero]
  rw [hlabel, List.take_left' hlength, String.ofList_toList, String.ofList_toList]

theorem labelKey_ne : labelKey "a" ≠ labelKey "b" := by
  intro h
  have hpair := (labelPairOf_labelKey "a").symm.trans ((congrArg labelPairOf h).trans (labelPairOf_labelKey "b"))
  exact absurd (Prod.mk.inj hpair).2 (by decide)

theorem labelKey_ne_id (tag : String) : labelKey tag ≠ id.text := by
  intro h
  have hhead := congrArg (fun text : String => text.toList.head?) h
  simp [labelKey, labelStateKey, id, Overflow.trackId, Overflow.digits] at hhead
  exact absurd hhead (by decide)

theorem labelRow_oplog {tag : String} (h : tag = "a" ∨ tag = "b") :
    labelRow oplog (labelKey tag) = some labels.hash := by
  have hcurrent : oplog.current.get (labelKey tag) = some labels := by
    rcases h with rfl | rfl <;> simp [oplog, labelKey_ne, labelKey_ne_id]
  have happlies : appliesLabel ⟨1, [(id, "a"), (id, "b")], []⟩ (labelKey tag) = true := by
    rcases h with rfl | rfl <;> simp [appliesLabel, labelKey]
  rw [labelRow, hcurrent]
  exact if_pos happlies

theorem labelStatements_oplog {tag : String} (h : tag = "a" ∨ tag = "b") : labelStatements oplog (labelKey tag) =
    [.deleteLabel "library" id.text tag, .insertLabel "library" id.text tag labels.hash] := by
  rw [labelStatements, labelPairOf_labelKey, labelRow_oplog h]
  rfl

theorem statements_eq : ∃ row columns marker, transaction.statements .empty =
    [.deleteLabel "library" id.text "a", .insertLabel "library" id.text "a" labels.hash,
      .deleteLabel "library" id.text "b", .insertLabel "library" id.text "b" labels.hash,
      .clearKey "library" id.text, .deleteEntry "library" id.text, .insertEntry "library" id.text row,
      .insertTrack "library" id.text columns, .upsertMarker "library" marker] := by
  have hsplit : transaction.statements .empty =
      labelStatements oplog (labelKey "a") ++ (labelStatements oplog (labelKey "b") ++ []) ++
        (keyStatements oplog ⟨id.text, some put, none⟩ ++ []) ++ [.upsertMarker "library" ⟨headsOf oplog,
          sortBy compareText (touchPending (pendingOf .empty "library") ⟨id.text, some put, none⟩).items⟩] := rfl
  rw [labelStatements_oplog (.inl rfl), labelStatements_oplog (.inr rfl)] at hsplit
  exact ⟨_, _, _, hsplit⟩

theorem transaction_loaded : transaction.Loaded plainEnvironment := by
  intro key hkey
  obtain rfl := List.mem_singleton.mp hkey
  refine ⟨?_, .empty, rfl⟩
  simp [oplog]

theorem transaction_free : Statement.AllFree AggregateDb.empty.rows (transaction.statements .empty) := by
  obtain ⟨row, columns, marker, hstatements⟩ := statements_eq
  rw [hstatements]
  refine ⟨rfl, rfl, rfl, ?_, rfl, rfl, rfl, rfl, rfl, trivial⟩
  simp [Statement.conflicts, Statement.apply, QueryDb.deleteLabel, QueryDb.insertLabel, OrderedMap.has]

theorem write_tags (key : String × String × String) : (transaction.write .empty).tags.has key = true ↔
    key = ("library", id.text, "a") ∨ key = ("library", id.text, "b") := by
  obtain ⟨row, columns, marker, hstatements⟩ := statements_eq
  have hne : ("a" : String) ≠ "b" := by decide
  rw [← Transaction.foldl_statements, hstatements]
  simp only [List.foldl_cons, List.foldl_nil, Statement.apply, QueryDb.deleteLabel, QueryDb.insertLabel,
    QueryDb.clearKey, QueryDb.deleteEntry, QueryDb.insertEntry, QueryDb.insertTrack, QueryDb.upsertMarker,
    OrderedMap.has_set, OrderedMap.has_delete]
  constructor
  · rintro (rfl | ⟨rfl | ⟨hempty, -⟩, -⟩)
    · exact Or.inr rfl
    · exact Or.inl rfl
    · cases hempty
  · rintro (rfl | rfl)
    · exact Or.inr ⟨Or.inl rfl, by simp [hne]⟩
    · exact Or.inl rfl

theorem write_tracks : (transaction.write .empty).tracks.has ("library", id.text) = true := by
  obtain ⟨row, columns, marker, hstatements⟩ := statements_eq
  rw [← Transaction.foldl_statements, hstatements]
  exact (OrderedMap.has_set _ _ _ _).mpr (Or.inl rfl)

/-- The projector writes the track and its labels, and commits. -/
theorem exists_run : ∃ s, Run (step engine) (· = .start) (Projecting plainEnvironment) s ∧
    s.db.rows = transaction.write .empty := by
  obtain ⟨db, hrun⟩ : ∃ db, runLabels AggregateDb.exec .empty (transaction.statements .empty) = some db :=
    AggregateDb.runLabels_isSome AggregateDb.kept_empty transaction_free
  have hread : runLabels AggregateDb.exec start.db (transaction.statements start.db.rows) = some db := hrun
  obtain ⟨changes, hstep⟩ : ∃ changes, step engine start (.transact transaction) =
      some ⟨⟨db, .empty⟩, true, changes, none⟩ := by
    simp only [step]
    rw [IndexConnection.step_transact hread, hread]
    exact ⟨_, rfl⟩
  refine ⟨⟨⟨db, db⟩, false, changes, none⟩,
    .next .commit (.next (.transact transaction) (.start rfl) transaction_loaded hstep) trivial rfl, ?_⟩
  have hrows := AggregateDb.runLabels_exec_rows hrun
  rw [show AggregateDb.empty.rows = QueryDb.empty from rfl, Transaction.foldl_statements] at hrows
  exact hrows

end LabelledTwice

open QueryConnection in
/-- In every reachable state of the connection and for every query with a page size it takes, the
pages are the reference list and the totals its length, exactly where the label count does not
count a track id twice. -/
theorem list_tracks_pages {S : SqlEngine} {E : Environment} {s : QueryConnection}
    (h : Run (step S) (· = .start) (Projecting E) s) (input : ListTracksInput) (hmin : 1 ≤ input.limit)
    (hmax : input.limit ≤ maxLimit) : PagesRight S s input ↔ ¬ Overcounts s.db input := by
  obtain ⟨hsound, hprojected⟩ := sound_of_run h
  exact pagesRight_iff hprojected hsound hmin hmax

open QueryConnection LabelledTwice in
theorem list_tracks_pages_one_label : ∃ s, Run (step engine) (· = .start) (Projecting plainEnvironment) s ∧
    PagesRight engine s { tags := ["a"] } := by
  obtain ⟨s, hrun, hrows⟩ := exists_run
  have htags := write_tags
  rw [← hrows] at htags
  refine ⟨s, hrun, (list_tracks_pages hrun { tags := ["a"] } (by decide) (by decide)).mpr ?_⟩
  rintro ⟨-, group, hgroup, first, hfirst, second, hsecond, hne, -, ⟨-, hf⟩, ⟨-, hs⟩, -⟩
  obtain rfl : ["a"] = group := (List.cons.inj hgroup).1
  have honly : ∀ row ∈ s.db.rows.tags.items, row.1.2.2 ∈ ["a"] → row.1 = ("library", id.text, "a") := by
    intro row hm hlabel
    have hhas : s.db.rows.tags.has row.1 = true :=
      (OrderedMap.has_iff _ _).mpr ⟨row.2, (OrderedMap.get_eq_some_iff _ _ _).mpr hm⟩
    rcases (htags row.1).mp hhas with ha | hb
    · exact ha
    · rw [hb] at hlabel
      exact absurd hlabel (by decide)
  refine hne (List.inj_on_of_nodup_map s.db.rows.tags.keys_nodup hfirst hsecond ?_)
  rw [honly first hfirst hf, honly second hsecond hs]

open QueryConnection LabelledTwice in
/-- A query for either of two labels counts the track that has both twice. -/
theorem list_tracks_pages_two_labels : ¬ ∀ (S : SqlEngine) (E : Environment) (s : QueryConnection),
    Run (step S) (· = .start) (Projecting E) s → ∀ input : ListTracksInput, 1 ≤ input.limit →
      input.limit ≤ maxLimit → PagesRight S s input := by
  intro h
  obtain ⟨s, hrun, hrows⟩ := exists_run
  have htags := write_tags
  have htrack := write_tracks
  rw [← hrows] at htags htrack
  obtain ⟨hsound, hprojected⟩ := sound_of_run hrun
  have hright := h engine plainEnvironment s hrun { tagGroups := [["a", "b"]] } (by decide) (by decide)
  refine (pagesRight_iff hprojected hsound (by decide) (by decide)).mp hright ?_
  obtain ⟨first, hfirst⟩ := (OrderedMap.has_iff _ _).mp ((htags _).mpr (Or.inl rfl))
  obtain ⟨second, hsecond⟩ := (OrderedMap.has_iff _ _).mp ((htags _).mpr (Or.inr rfl))
  obtain ⟨row, hrow⟩ := (OrderedMap.has_iff _ _).mp htrack
  refine ⟨rfl, ["a", "b"], by decide, _, (OrderedMap.get_eq_some_iff _ _ _).mp hfirst, _,
    (OrderedMap.get_eq_some_iff _ _ _).mp hsecond, ?_, rfl, ⟨rfl, by simp⟩, ⟨rfl, by simp⟩,
    _, (OrderedMap.get_eq_some_iff _ _ _).mp hrow, rfl, rfl⟩
  intro heq
  have htag : "a" = "b" := congrArg (fun row : (String × String × String) × Hash => row.1.2.2) heq
  exact absurd htag (by decide)

end RecordNode
