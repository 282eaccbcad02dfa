import RecordNode.Entry.CanonicalBlock
import RecordNode.QueryDb.Triggers

/-! # The aggregates of the index

Whatever the projector runs, the totals of a library are those of its rows, each track
counts its listens, and each has one search row with its fields. The one way out is a
library whose tracks declare more bytes than 64 bits hold: from there on the sum is
kept in floating point. -/

namespace RecordNode

open Foundation

/-! ## What the triggers keep -/

/-- The bytes a track row declares, as a number. -/
def TrackColumns.size (columns : TrackColumns) : ℕ := (columns.audioSizeBytes.getD 0).num.toNat

/-- The declared size is a safe unsigned integer, or none. -/
def TrackColumns.Sized (columns : TrackColumns) : Prop :=
  columns.audioSizeBytes.getD 0 = columns.size ∧ columns.size < 2 ^ 53

theorem TrackColumns.Sized.bytes_eq {columns : TrackColumns} (h : columns.Sized) :
    columns.bytes = .integer columns.size := by
  obtain ⟨hsize, hlt⟩ := h
  unfold bytes
  cases hs : columns.audioSizeBytes with
  | none => simp [size, hs]
  | some x =>
    rw [hs, Option.getD_some] at hsize
    rw [Option.elim_some, hsize]
    exact SqlNumber.stored_natCast hlt

namespace QueryDb

/-- The library's tracks, counted. -/
def scannedTracks (tracks : OrderedMap (String × String) TrackRow) (library : String) : ℤ :=
  tracks.sumBy fun key _ => if key.1 = library then 1 else 0

/-- The bytes the library's tracks declare. -/
def scannedBytes (tracks : OrderedMap (String × String) TrackRow) (library : String) : ℚ :=
  tracks.sumBy fun key row => if key.1 = library then row.audioSizeBytes.getD 0 else 0

def scannedSize (tracks : OrderedMap (String × String) TrackRow) (library : String) : ℤ :=
  tracks.sumBy fun key row => if key.1 = library then (row.size : ℤ) else 0

/-- The library's entries that are PUTs, counted. -/
def scannedPuts (entries : OrderedMap (String × String) EntryRow) (library : String) : ℤ :=
  entries.sumBy fun key row => if key.1 = library then row.putDelta else 0

def SizedTracks (tracks : OrderedMap (String × String) TrackRow) : Prop :=
  ∀ key row, tracks.get key = some row → row.Sized

theorem scannedSize_nonneg (tracks : OrderedMap (String × String) TrackRow) (library : String) :
    0 ≤ scannedSize tracks library := by
  apply OrderedMap.sumBy_nonneg
  intro key row _
  split
  · exact Int.natCast_nonneg _
  · exact le_rfl

theorem scannedTracks_nonneg (tracks : OrderedMap (String × String) TrackRow) (library : String) :
    0 ≤ scannedTracks tracks library := by
  apply OrderedMap.sumBy_nonneg
  intro key row _
  split <;> norm_num

theorem scannedPuts_nonneg (entries : OrderedMap (String × String) EntryRow) (library : String) :
    0 ≤ scannedPuts entries library := by
  apply OrderedMap.sumBy_nonneg
  intro key row _
  unfold EntryRow.putDelta
  split_ifs <;> norm_num

section Absent
variable {tracks : OrderedMap (String × String) TrackRow} {entries : OrderedMap (String × String) EntryRow}
  {library : String}

theorem scannedTracks_eq_zero (h : ∀ key row, tracks.get key = some row → key.1 ≠ library) :
    scannedTracks tracks library = 0 :=
  OrderedMap.sumBy_eq_zero _ fun key row hrow => if_neg (h key row hrow)

theorem scannedSize_eq_zero (h : ∀ key row, tracks.get key = some row → key.1 ≠ library) :
    scannedSize tracks library = 0 :=
  OrderedMap.sumBy_eq_zero _ fun key row hrow => if_neg (h key row hrow)

theorem scannedPuts_eq_zero (h : ∀ key row, entries.get key = some row → key.1 ≠ library) :
    scannedPuts entries library = 0 :=
  OrderedMap.sumBy_eq_zero _ fun key row hrow => if_neg (h key row hrow)

end Absent

/-- Declared sizes add up to a number of bytes. -/
theorem scannedBytes_eq {tracks : OrderedMap (String × String) TrackRow} (h : SizedTracks tracks)
    (library : String) : scannedBytes tracks library = scannedSize tracks library := by
  have hcast : ((scannedSize tracks library : ℤ) : ℚ) =
      tracks.sumBy fun key row => ((if key.1 = library then (row.size : ℤ) else 0 : ℤ) : ℚ) := by
    simp only [scannedSize, OrderedMap.sumBy, ← Int.coe_castRingHom, map_list_sum, List.map_map]
    rfl
  rw [hcast]
  apply OrderedMap.sumBy_congr
  intro key row hrow
  split
  · simp [(h key row hrow).1]
  · simp

end QueryDb

/-- The search rows are those of the tracks with these fields: each track has a key of its
own, and the row under it carries the track's fields. -/
structure Searched (fields : String × String → Option SearchRow) (keys : OrderedMap (String × String) ℕ)
    (search : OrderedMap ℕ SearchRow) : Prop where
  keyed : ∀ key, keys.has key = (fields key).isSome
  ids : ∀ key other id, keys.get key = some id → keys.get other = some id → key = other
  rows : ∀ id row, search.get id = some row ↔ ∃ key, keys.get key = some id ∧ fields key = some row

def fieldsOf (tracks : OrderedMap (String × String) TrackRow) (key : String × String) : Option SearchRow :=
  (tracks.get key).map fun row => row.searchRow

/-- The counts and the search rows are those of these tracks and entries. -/
structure Tallied (tracks : OrderedMap (String × String) TrackRow) (entries : OrderedMap (String × String) EntryRow)
    (db : AggregateDb) : Prop where
  trackCount : ∀ library, (db.totalsOf library).trackCount = QueryDb.scannedTracks tracks library
  putCount : ∀ library, (db.totalsOf library).putCount = QueryDb.scannedPuts entries library
  searched : Searched (fieldsOf tracks) db.searchKeys db.search

/-- The byte sums are those of these tracks, whose sizes are numbers that add up within 64 bits. -/
structure Weighed (tracks : OrderedMap (String × String) TrackRow) (db : AggregateDb) : Prop where
  bytes : ∀ library, (db.totalsOf library).audioSizeBytes = .integer (QueryDb.scannedSize tracks library)
  sized : QueryDb.SizedTracks tracks
  bounded : ∀ library, QueryDb.scannedSize tracks library < 2 ^ 63

/-! ## The search triggers -/

namespace Searched

variable {fields : String × String → Option SearchRow} {db : AggregateDb}

theorem congr {other : String × String → Option SearchRow} {keys : OrderedMap (String × String) ℕ}
    {search : OrderedMap ℕ SearchRow} (h : Searched fields keys search) (heq : ∀ key, fields key = other key) :
    Searched other keys search := by
  obtain rfl := funext heq
  exact h

/-- The key of a deleted track goes, with the one row under its id. -/
theorem searchDelete (h : Searched fields db.searchKeys db.search) (key : String × String) :
    Searched (fun k => if k = key then none else fields k) (db.searchDelete key).searchKeys
      (db.searchDelete key).search where
  keyed k := by
    rw [Bool.eq_iff_iff]
    change (db.searchKeys.delete key).has k = true ↔ _
    rw [OrderedMap.has_delete, h.keyed]
    by_cases hk : k = key <;> simp [hk]
  ids k other id hk ho :=
    h.ids k other id ((OrderedMap.get_delete_eq_some _).mp hk).2 ((OrderedMap.get_delete_eq_some _).mp ho).2
  rows id row := by
    simp only [AggregateDb.searchDelete]
    have hgone : (∃ k, (db.searchKeys.delete key).get k = some id ∧ (if k = key then none else fields k) = some row) ↔
        ∃ k, k ≠ key ∧ db.searchKeys.get k = some id ∧ fields k = some row := by
      apply exists_congr
      intro k
      rw [OrderedMap.get_delete_eq_some, Option.ite_none_left_eq_some]
      tauto
    rw [hgone]
    cases hkey : db.searchKeys.get key with
    | none =>
      dsimp only
      rw [h.rows]
      apply exists_congr
      intro k
      rw [iff_and_self]
      rintro ⟨hk, -⟩ rfl
      rw [hkey] at hk
      cases hk
    | some old =>
      dsimp only
      rw [OrderedMap.get_delete_eq_some, h.rows]
      constructor
      · rintro ⟨hne, k, hk, hf⟩
        refine ⟨k, ?_, hk, hf⟩
        rintro rfl
        exact hne (Option.some_inj.mp (hk.symm.trans hkey))
      · rintro ⟨k, hne, hk, hf⟩
        refine ⟨?_, k, hk, hf⟩
        rintro rfl
        exact hne (h.ids k key id hk hkey)

theorem lt_nextId {keys : OrderedMap (String × String) ℕ} {key : String × String} {id : ℕ}
    (h : keys.get key = some id) : id < AggregateDb.nextId keys := by
  have hle : ∀ ids : List ℕ, id ∈ ids → id ≤ ids.foldr max 0 := by
    intro ids
    induction ids with
    | nil => simp
    | cons i rest ih =>
      intro hi
      rcases List.mem_cons.mp hi with rfl | hi
      · exact Nat.le_max_left _ _
      · exact (ih hi).trans (Nat.le_max_right _ _)
  exact Nat.lt_succ_of_le (hle _ ((OrderedMap.mem_values_iff _ _).mpr ⟨key, h⟩))

/-- A new track finds its key and its id free. -/
theorem searchInsert_some (h : Searched fields db.searchKeys db.search) {key : String × String}
    (hnew : fields key = none) (row : SearchRow) : db.searchInsert key row = some { db with
      searchKeys := db.searchKeys.set key (AggregateDb.nextId db.searchKeys)
      search := db.search.set (AggregateDb.nextId db.searchKeys) row } := by
  have hkey : db.searchKeys.has key = false := by rw [h.keyed, hnew]; rfl
  have hid : db.search.has (AggregateDb.nextId db.searchKeys) = false := by
    rw [Bool.eq_false_iff]
    intro hhas
    obtain ⟨old, hold⟩ := (OrderedMap.has_iff _ _).mp hhas
    obtain ⟨other, hother, -⟩ := (h.rows _ _).mp hold
    exact lt_irrefl _ (lt_nextId hother)
  simp only [AggregateDb.searchInsert, hkey, hid]
  rfl

theorem searchInsert (h : Searched fields db.searchKeys db.search) {key : String × String}
    (hnew : fields key = none) (row : SearchRow) :
    Searched (fun k => if k = key then some row else fields k)
      (db.searchKeys.set key (AggregateDb.nextId db.searchKeys))
      (db.search.set (AggregateDb.nextId db.searchKeys) row) where
  keyed k := by
    rw [Bool.eq_iff_iff, OrderedMap.has_set, h.keyed]
    by_cases hk : k = key <;> simp [hk]
  ids k other id hk ho := by
    rw [OrderedMap.get_set] at hk ho
    split at hk
    case isTrue hk' =>
      obtain rfl := Option.some_inj.mp hk
      split at ho
      case isTrue ho' => rw [hk', ho']
      case isFalse => exact absurd (lt_nextId ho) (lt_irrefl _)
    case isFalse =>
      split at ho
      case isTrue =>
        obtain rfl := Option.some_inj.mp ho
        exact absurd (lt_nextId hk) (lt_irrefl _)
      case isFalse => exact h.ids k other id hk ho
  rows id found := by
    have hfree : db.searchKeys.get key = none := by
      have := h.keyed key
      rw [hnew] at this
      simpa [OrderedMap.has] using this
    rw [OrderedMap.get_set]
    split
    case isTrue hid =>
      subst hid
      constructor
      · intro heq
        exact ⟨key, by simp, by simpa using heq⟩
      · rintro ⟨k, hk, hf⟩
        rw [OrderedMap.get_set] at hk
        split at hk
        case isTrue hk' => simpa [hk'] using hf
        case isFalse => exact absurd (lt_nextId hk) (lt_irrefl _)
    case isFalse hid =>
      rw [h.rows]
      apply exists_congr
      intro k
      by_cases hk : k = key
      · subst hk
        simp [hfree, Ne.symm hid]
      · simp [hk]

end Searched

/-! ## The totals triggers -/

namespace AggregateDb

theorem totalsOf_countTrack (db : AggregateDb) (library : String) (count : ℤ) (bytes : SqlNumber) (address : String) :
    (db.countTrack library count bytes).totalsOf address = if address = library then
      { db.totalsOf library with
        trackCount := (db.totalsOf library).trackCount + count
        audioSizeBytes := ((db.totalsOf library).audioSizeBytes.add bytes).stored }
      else db.totalsOf address := by
  change ((db.totals.set library _).get address).getD .zero = _
  rw [OrderedMap.get_set]
  split <;> rfl

theorem totalsOf_countEntry (db : AggregateDb) (library : String) (puts : ℤ) (address : String) :
    (db.countEntry library puts).totalsOf address = if address = library then
      { db.totalsOf library with putCount := (db.totalsOf library).putCount + puts }
      else db.totalsOf address := by
  change ((db.totals.set library _).get address).getD .zero = _
  rw [OrderedMap.get_set]
  split <;> rfl

theorem counts_foldl_trackDeleted (gone : List ((String × String) × TrackRow)) (db : AggregateDb) (library : String) :
    ((gone.foldl trackDeleted db).totalsOf library).trackCount = (db.totalsOf library).trackCount -
        (gone.map fun p => if p.1.1 = library then (1 : ℤ) else 0).sum ∧
      ((gone.foldl trackDeleted db).totalsOf library).putCount = (db.totalsOf library).putCount := by
  induction gone generalizing db with
  | nil => simp
  | cons p rest ih =>
    have hstep : (trackDeleted db p).totalsOf library = _ := totalsOf_countTrack db p.1.1 (-1) p.2.bytes.neg library
    obtain ⟨htracks, hputs⟩ := ih (trackDeleted db p)
    rw [List.foldl_cons, List.map_cons, List.sum_cons, htracks, hputs, hstep]
    by_cases hp : p.1.1 = library
    · simp only [hp, if_true, and_true]
      omega
    · simp [hp, Ne.symm hp]

/-- Deleted rows leave the byte sum one after the other; it stays in range on the way. -/
theorem bytes_foldl_trackDeleted {gone : List ((String × String) × TrackRow)} (hs : ∀ p ∈ gone, p.2.Sized)
    (library : String) {db : AggregateDb} {size : ℤ} (h : (db.totalsOf library).audioSizeBytes = .integer size)
    (hlt : size < 2 ^ 63) (hle : (gone.map fun p => if p.1.1 = library then (p.2.size : ℤ) else 0).sum ≤ size) :
    ((gone.foldl trackDeleted db).totalsOf library).audioSizeBytes =
      .integer (size - (gone.map fun p => if p.1.1 = library then (p.2.size : ℤ) else 0).sum) := by
  induction gone generalizing db size with
  | nil => simpa using h
  | cons p rest ih =>
    have hsp := hs p List.mem_cons_self
    have hrest : 0 ≤ (rest.map fun p => if p.1.1 = library then (p.2.size : ℤ) else 0).sum := by
      apply List.sum_nonneg
      intro x hx
      obtain ⟨q, -, rfl⟩ := List.mem_map.mp hx
      split
      · exact Int.natCast_nonneg _
      · exact le_rfl
    have hstep : (trackDeleted db p).totalsOf library = _ := totalsOf_countTrack db p.1.1 (-1) p.2.bytes.neg library
    have hsr : ∀ q ∈ rest, q.2.Sized := fun q hq => hs q (List.mem_cons_of_mem _ hq)
    rw [List.map_cons, List.sum_cons] at hle
    rw [List.foldl_cons, List.map_cons, List.sum_cons]
    by_cases hp : p.1.1 = library
    · subst hp
      rw [if_pos rfl] at hle hstep
      have hadd : ((db.totalsOf p.1.1).audioSizeBytes.add p.2.bytes.neg).stored = .integer (size + -p.2.size) := by
        rw [h, hsp.bytes_eq, SqlNumber.neg, SqlNumber.add_integer ⟨by omega, by omega⟩]
        rfl
      have hnext : ((trackDeleted db p).totalsOf p.1.1).audioSizeBytes = .integer (size + -p.2.size) := by
        rw [hstep, hadd]
      rw [ih hsr hnext (by omega) (by omega), if_pos rfl]
      congr 1
      omega
    · rw [if_neg (Ne.symm hp)] at hstep
      rw [if_neg hp, zero_add] at hle
      rw [if_neg hp, zero_add]
      exact ih hsr (hstep ▸ h) hlt hle

theorem searched_foldl_trackDeleted (gone : List ((String × String) × TrackRow)) {db : AggregateDb}
    {fields : String × String → Option SearchRow} (h : Searched fields db.searchKeys db.search) :
    Searched (fun k => if k ∈ gone.map Prod.fst then none else fields k) (gone.foldl trackDeleted db).searchKeys
      (gone.foldl trackDeleted db).search := by
  induction gone generalizing db fields with
  | nil => simpa using h
  | cons p rest ih =>
    have hcounted : Searched fields (db.countTrack p.1.1 (-1) p.2.bytes.neg).searchKeys
        (db.countTrack p.1.1 (-1) p.2.bytes.neg).search := h
    have hp : Searched (fun k => if k = p.1 then none else fields k) (trackDeleted db p).searchKeys
        (trackDeleted db p).search := hcounted.searchDelete p.1
    apply (ih hp).congr
    intro k
    by_cases hk : k = p.1
    · simp [hk]
    · simp only [hk, List.map_cons, List.mem_cons, false_or, if_false]

theorem totalsOf_foldl_entryDeleted (gone : List ((String × String) × EntryRow)) (db : AggregateDb)
    (library : String) : (gone.foldl entryDeleted db).totalsOf library = { db.totalsOf library with
      putCount := (db.totalsOf library).putCount -
        (gone.map fun p => if p.1.1 = library then p.2.putDelta else 0).sum } := by
  induction gone generalizing db with
  | nil => simp
  | cons p rest ih =>
    rw [List.foldl_cons, ih, entryDeleted, totalsOf_countEntry, List.map_cons, List.sum_cons]
    by_cases hp : p.1.1 = library
    · simp only [hp, if_true]
      congr 1
      omega
    · simp [hp, Ne.symm hp]

theorem foldl_entryDeleted_search (gone : List ((String × String) × EntryRow)) (db : AggregateDb) :
    (gone.foldl entryDeleted db).searchKeys = db.searchKeys ∧ (gone.foldl entryDeleted db).search = db.search := by
  induction gone generalizing db with
  | nil => exact ⟨rfl, rfl⟩
  | cons p rest ih => exact ih (entryDeleted db p)

end AggregateDb

/-! ## Rows that come and go -/

section Rows

variable {tracks : OrderedMap (String × String) TrackRow} {entries : OrderedMap (String × String) EntryRow}
  {db : AggregateDb}

theorem Tallied.tracksDeleted (h : Tallied tracks entries db) (p : String × String → Bool) :
    Tallied (tracks.filterKeys fun k => !p k) entries
      ((tracks.filterKeys p).items.foldl AggregateDb.trackDeleted db) where
  trackCount library := by
    have hcount := OrderedMap.sumBy_filterKeys (fun (k : String × String) (_ : TrackRow) =>
      if k.1 = library then (1 : ℤ) else 0) tracks p
    rw [(AggregateDb.counts_foldl_trackDeleted _ db library).1, h.trackCount]
    exact sub_eq_of_eq_add' hcount
  putCount library := by
    rw [(AggregateDb.counts_foldl_trackDeleted _ db library).2, h.putCount]
  searched := by
    apply (AggregateDb.searched_foldl_trackDeleted _ h.searched).congr
    intro key
    have hmem : key ∈ ((tracks.filterKeys p).items.map Prod.fst) ↔ p key = true ∧ ∃ row, tracks.get key = some row := by
      change key ∈ (tracks.filterKeys p).keys ↔ _
      rw [OrderedMap.mem_keys_iff]
      simp
    rw [fieldsOf, fieldsOf, OrderedMap.get_filterKeys]
    cases hp : p key with
    | false => simp [hmem, hp]
    | true =>
      cases hget : tracks.get key with
      | none => simp
      | some row => simp [hmem, hp, hget]

theorem scannedSize_filterKeys_le (tracks : OrderedMap (String × String) TrackRow) (p : String × String → Bool)
    (library : String) : QueryDb.scannedSize (tracks.filterKeys p) library ≤ QueryDb.scannedSize tracks library := by
  have hsplit := OrderedMap.sumBy_filterKeys (fun (k : String × String) (row : TrackRow) =>
    if k.1 = library then (row.size : ℤ) else 0) tracks p
  have hgone := QueryDb.scannedSize_nonneg (tracks.filterKeys fun k => !p k) library
  rw [QueryDb.scannedSize] at hgone
  rw [QueryDb.scannedSize, QueryDb.scannedSize]
  omega

theorem sized_filterKeys (h : QueryDb.SizedTracks tracks) (p : String × String → Bool) :
    QueryDb.SizedTracks (tracks.filterKeys p) := by
  intro key row hrow
  rw [OrderedMap.get_filterKeys] at hrow
  split at hrow
  · exact h key row hrow
  · cases hrow

theorem Weighed.tracksDeleted (h : Weighed tracks db) (p : String × String → Bool) :
    Weighed (tracks.filterKeys fun k => !p k) ((tracks.filterKeys p).items.foldl AggregateDb.trackDeleted db) where
  bytes library := by
    have hgone : ∀ q ∈ (tracks.filterKeys p).items, q.2.Sized := fun q hq =>
      sized_filterKeys h.sized p q.1 q.2 ((OrderedMap.get_eq_some_iff _ q.1 q.2).mpr hq)
    have hsize := OrderedMap.sumBy_filterKeys (fun (k : String × String) (row : TrackRow) =>
      if k.1 = library then (row.size : ℤ) else 0) tracks p
    rw [AggregateDb.bytes_foldl_trackDeleted hgone library (h.bytes library) (h.bounded library)
      (scannedSize_filterKeys_le tracks p library)]
    congr 1
    exact sub_eq_of_eq_add' hsize
  sized := sized_filterKeys h.sized _
  bounded library := (scannedSize_filterKeys_le tracks _ library).trans_lt (h.bounded library)

theorem Tallied.entriesDeleted (h : Tallied tracks entries db) (p : String × String → Bool) :
    Tallied tracks (entries.filterKeys fun k => !p k)
      ((entries.filterKeys p).items.foldl AggregateDb.entryDeleted db) where
  trackCount library := by
    rw [AggregateDb.totalsOf_foldl_entryDeleted]
    exact h.trackCount library
  putCount library := by
    have hputs := OrderedMap.sumBy_filterKeys (fun (k : String × String) (row : EntryRow) =>
      if k.1 = library then row.putDelta else 0) entries p
    rw [AggregateDb.totalsOf_foldl_entryDeleted]
    dsimp only
    rw [h.putCount]
    exact sub_eq_of_eq_add' hputs
  searched := by
    obtain ⟨hkeys, hrows⟩ := AggregateDb.foldl_entryDeleted_search (entries.filterKeys p).items db
    rw [hkeys, hrows]
    exact h.searched

theorem Weighed.entriesDeleted (h : Weighed tracks db) (gone : List ((String × String) × EntryRow)) :
    Weighed tracks (gone.foldl AggregateDb.entryDeleted db) where
  bytes library := by
    rw [AggregateDb.totalsOf_foldl_entryDeleted]
    exact h.bytes library
  sized := h.sized
  bounded := h.bounded

theorem Tallied.entryInserted (h : Tallied tracks entries db) {key : String × String} (hnew : entries.get key = none)
    (row : EntryRow) : Tallied tracks (entries.set key row) (db.countEntry key.1 row.putDelta) where
  trackCount library := by
    rw [AggregateDb.totalsOf_countEntry]
    split
    case isTrue hk => exact hk ▸ h.trackCount library
    case isFalse => exact h.trackCount library
  putCount library := by
    rw [AggregateDb.totalsOf_countEntry, QueryDb.scannedPuts, OrderedMap.sumBy_set _ hnew]
    by_cases hk : library = key.1
    · simp only [hk, if_true, h.putCount]
      rfl
    · simp only [hk, Ne.symm hk, if_false, h.putCount, add_zero]
      rfl
  searched := h.searched

theorem Weighed.entryInserted (h : Weighed tracks db) (library : String) (puts : ℤ) :
    Weighed tracks (db.countEntry library puts) where
  bytes address := by
    rw [AggregateDb.totalsOf_countEntry]
    split
    case isTrue ha => exact ha ▸ h.bytes address
    case isFalse => exact h.bytes address
  sized := h.sized
  bounded := h.bounded

/-- A new track row is counted and gets a search row. -/
theorem Tallied.trackInserted (h : Tallied tracks entries db) {key : String × String} (hnew : tracks.get key = none)
    (row : TrackRow) : ∃ later, (db.countTrack key.1 1 row.bytes).searchInsert key row.searchRow = some later ∧
      Tallied (tracks.set key row) entries later := by
  have hnone : fieldsOf tracks key = none := by rw [fieldsOf, hnew]; rfl
  have hsearched : Searched (fieldsOf tracks) (db.countTrack key.1 1 row.bytes).searchKeys
      (db.countTrack key.1 1 row.bytes).search := h.searched
  refine ⟨_, hsearched.searchInsert_some hnone row.searchRow, ?_, ?_, ?_⟩
  · intro library
    change ((db.countTrack key.1 1 row.bytes).totalsOf library).trackCount = _
    rw [AggregateDb.totalsOf_countTrack, QueryDb.scannedTracks, OrderedMap.sumBy_set _ hnew]
    by_cases hk : library = key.1
    · simp only [hk, if_true, h.trackCount]
      rfl
    · simp only [hk, Ne.symm hk, if_false, h.trackCount, add_zero]
      rfl
  · intro library
    change ((db.countTrack key.1 1 row.bytes).totalsOf library).putCount = _
    rw [AggregateDb.totalsOf_countTrack]
    split
    case isTrue hk => exact hk ▸ h.putCount library
    case isFalse => exact h.putCount library
  · apply (hsearched.searchInsert hnone row.searchRow).congr
    intro k
    rw [fieldsOf, fieldsOf, OrderedMap.get_set]
    by_cases hk : k = key <;> simp [hk]

/-- The search rows come after the totals and leave them. -/
theorem totalsOf_searchInsert {later : AggregateDb} {key : String × String} {row : SearchRow}
    (h : db.searchInsert key row = some later) (library : String) : later.totalsOf library = db.totalsOf library := by
  simp only [AggregateDb.searchInsert] at h
  split at h
  · cases h
  · obtain rfl := Option.some_inj.mp h
    rfl

theorem Weighed.trackInserted (h : Weighed tracks db) {later : AggregateDb} {key : String × String}
    (hnew : tracks.get key = none) {row : TrackRow} (hs : row.Sized)
    (hfits : QueryDb.scannedSize tracks key.1 + row.size < 2 ^ 63)
    (hlater : (db.countTrack key.1 1 row.bytes).searchInsert key row.searchRow = some later) :
    Weighed (tracks.set key row) later where
  bytes library := by
    rw [totalsOf_searchInsert hlater, AggregateDb.totalsOf_countTrack, QueryDb.scannedSize, OrderedMap.sumBy_set _ hnew]
    by_cases hk : library = key.1
    · have hlow := QueryDb.scannedSize_nonneg tracks key.1
      subst hk
      simp only [if_true, h.bytes, hs.bytes_eq]
      rw [SqlNumber.add_integer ⟨by omega, hfits⟩]
      rfl
    · simp only [hk, Ne.symm hk, if_false, h.bytes, add_zero]
      rfl
  sized k found hfound := by
    rw [OrderedMap.get_set] at hfound
    split at hfound
    · exact Option.some_inj.mp hfound ▸ hs
    · exact h.sized k found hfound
  bounded library := by
    rw [QueryDb.scannedSize, OrderedMap.sumBy_set _ hnew]
    by_cases hk : key.1 = library
    · subst hk
      rw [if_pos rfl]
      exact hfits
    · rw [if_neg hk, add_zero]
      exact h.bounded library

/-- Listens change neither a size nor a searched field. -/
theorem Tallied.addListens (h : Tallied tracks entries db) (trackId : String) (n : ℤ) :
    Tallied (QueryDb.addListens tracks trackId n) entries db where
  trackCount library := by
    rw [h.trackCount, QueryDb.scannedTracks, QueryDb.scannedTracks, QueryDb.addListens, OrderedMap.sumBy_mapValues]
  putCount := h.putCount
  searched := by
    apply h.searched.congr
    intro key
    have hcolumns := congrArg (Option.map TrackColumns.searchRow) (QueryDb.addListens_columns tracks trackId n key)
    rw [Option.map_map, Option.map_map] at hcolumns
    exact hcolumns.symm

theorem scannedSize_addListens (tracks : OrderedMap (String × String) TrackRow) (trackId : String) (n : ℤ)
    (library : String) :
    QueryDb.scannedSize (QueryDb.addListens tracks trackId n) library = QueryDb.scannedSize tracks library := by
  rw [QueryDb.scannedSize, QueryDb.addListens, OrderedMap.sumBy_mapValues]
  apply OrderedMap.sumBy_congr
  intro key row _
  by_cases hk : key.2 = trackId <;> simp [hk]

theorem Weighed.addListens (h : Weighed tracks db) (trackId : String) (n : ℤ) :
    Weighed (QueryDb.addListens tracks trackId n) db where
  bytes library := by
    rw [scannedSize_addListens]
    exact h.bytes library
  sized key row hrow := by
    rw [QueryDb.addListens, OrderedMap.get_mapValues] at hrow
    obtain ⟨old, hold, rfl⟩ := Option.map_eq_some_iff.mp hrow
    split <;> exact h.sized key old hold
  bounded library := by
    rw [scannedSize_addListens]
    exact h.bounded library

theorem Tallied.foldl_addListens (h : Tallied tracks entries db) (rows : List ListenRow) (n : ℤ) :
    Tallied (rows.foldl (fun tracks row => QueryDb.addListens tracks row.trackId n) tracks) entries db := by
  induction rows generalizing tracks with
  | nil => exact h
  | cons row rest ih => exact ih (h.addListens row.trackId n)

theorem Weighed.foldl_addListens (h : Weighed tracks db) (rows : List ListenRow) (n : ℤ) :
    Weighed (rows.foldl (fun tracks row => QueryDb.addListens tracks row.trackId n) tracks) db := by
  induction rows generalizing tracks with
  | nil => exact h
  | cons row rest ih => exact ih (h.addListens row.trackId n)

end Rows

/-! ## One statement -/

namespace Statement

/-- A track row is inserted with a size that is one. -/
def Sized : Statement → Prop
  | insertTrack _ _ columns => columns.Sized
  | _ => True

/-- A track row is inserted only while the bytes its library's tracks declare, with its own,
fit 64 bits. -/
def Fits (rows : QueryDb) : Statement → Prop
  | insertTrack library _ columns =>
    QueryDb.scannedBytes rows.tracks library + columns.audioSizeBytes.getD 0 < 2 ^ 63
  | _ => True

end Statement

/-- What holds of the index whatever is projected. -/
structure AggregateDb.Kept (db : AggregateDb) : Prop where
  tallied : Tallied db.rows.tracks db.rows.entries db
  counted : db.rows.Counted

namespace QueryDb

/-- Rows that only go keep the listen counts. -/
theorem Counted.of_get {db later : QueryDb} (h : db.Counted) (hl : later.listens = db.listens)
    (ht : ∀ key row, later.tracks.get key = some row → db.tracks.get key = some row) : later.Counted := by
  intro key row hrow
  rw [hl]
  exact h key row (ht key row hrow)

/-- No row of a removed library is left. -/
theorem removeLibrary_tracks_absent (db : QueryDb) (library : String) :
    ∀ key row, (db.removeLibrary library).tracks.get key = some row → key.1 ≠ library := by
  intro key row hrow heq
  rw [removeLibrary, get_foldl_addListens, OrderedMap.get_filterKeys, heq] at hrow
  simp at hrow

theorem removeLibrary_entries_absent (db : QueryDb) (library : String) :
    ∀ key row, (db.removeLibrary library).entries.get key = some row → key.1 ≠ library := by
  intro key row hrow heq
  rw [removeLibrary, OrderedMap.get_filterKeys, heq] at hrow
  simp at hrow

end QueryDb

namespace AggregateDb

variable {db later : AggregateDb}

theorem remove_kept (h : Kept db) (library : String) (he : db.exec (.removeLibrary library) = some later) :
    Kept later := by
  obtain ⟨-, fired, hfired, rfl⟩ := exec_eq_some he
  obtain rfl := Option.some_inj.mp hfired
  have hother : (fun k : String × String => decide (k.1 ≠ library)) = fun k => !decide (k.1 = library) := by
    funext k
    exact decide_not
  have hlistens := ((h.tallied.tracksDeleted fun k => k.1 = library).entriesDeleted fun k =>
    k.1 = library).foldl_addListens (db.rows.listens.filterKeys fun k => k.1 = library).values (-1)
  rw [← hother] at hlistens
  refine ⟨⟨fun address => ?_, fun address => ?_, hlistens.searched⟩, QueryDb.removeLibrary_counted h.counted library⟩
  · dsimp only [totalsOf]
    rw [OrderedMap.get_delete]
    split
    case isTrue ha =>
      subst ha
      exact (QueryDb.scannedTracks_eq_zero (db.rows.removeLibrary_tracks_absent address)).symm
    case isFalse => exact hlistens.trackCount address
  · dsimp only [totalsOf]
    rw [OrderedMap.get_delete]
    split
    case isTrue ha =>
      subst ha
      exact (QueryDb.scannedPuts_eq_zero (db.rows.removeLibrary_entries_absent address)).symm
    case isFalse => exact hlistens.putCount address

theorem remove_weighed (h : Weighed db.rows.tracks db) (library : String)
    (he : db.exec (.removeLibrary library) = some later) : Weighed later.rows.tracks later := by
  obtain ⟨-, fired, hfired, rfl⟩ := exec_eq_some he
  obtain rfl := Option.some_inj.mp hfired
  have hother : (fun k : String × String => decide (k.1 ≠ library)) = fun k => !decide (k.1 = library) := by
    funext k
    exact decide_not
  have hlistens := ((h.tracksDeleted fun k => k.1 = library).entriesDeleted
    (db.rows.entries.filterKeys fun k => k.1 = library).items).foldl_addListens
      (db.rows.listens.filterKeys fun k => k.1 = library).values (-1)
  rw [← hother] at hlistens
  refine ⟨fun address => ?_, hlistens.sized, hlistens.bounded⟩
  dsimp only [totalsOf]
  rw [OrderedMap.get_delete]
  split
  case isTrue ha =>
    subst ha
    exact congrArg SqlNumber.integer
      (QueryDb.scannedSize_eq_zero (db.rows.removeLibrary_tracks_absent address)).symm
  case isFalse => exact hlistens.bytes address

/-- Every statement that runs keeps the counts and the search rows. -/
theorem exec_kept (h : Kept db) {statement : Statement} (he : db.exec statement = some later) : Kept later := by
  obtain ⟨hfree, fired, hfired, hlater⟩ := exec_eq_some he
  cases statement with
  | clearKey library key =>
    obtain rfl := Option.some_inj.mp hfired
    subst hlater
    refine ⟨?_, h.counted.of_get rfl fun k row hrow => ?_⟩
    · have hdeleted := h.tallied.tracksDeleted fun k => k = (library, key)
      rw [← OrderedMap.delete_eq_filterKeys] at hdeleted
      exact ⟨hdeleted.trackCount, hdeleted.putCount, hdeleted.searched⟩
    · exact ((OrderedMap.get_delete_eq_some _).mp hrow).2
  | deleteEntry library key =>
    obtain rfl := Option.some_inj.mp hfired
    subst hlater
    have hdeleted := h.tallied.entriesDeleted fun k => k = (library, key)
    rw [← OrderedMap.delete_eq_filterKeys] at hdeleted
    exact ⟨⟨hdeleted.trackCount, hdeleted.putCount, hdeleted.searched⟩, h.counted⟩
  | insertEntry library key row =>
    obtain rfl := Option.some_inj.mp hfired
    subst hlater
    have hnew : db.rows.entries.get (library, key) = none := by
      simpa [Statement.conflicts, OrderedMap.has] using hfree
    have hinserted := h.tallied.entryInserted hnew row
    exact ⟨⟨hinserted.trackCount, hinserted.putCount, hinserted.searched⟩, h.counted⟩
  | insertTrack library trackId columns =>
    have hnew : db.rows.tracks.get (library, trackId) = none := by
      simpa [Statement.conflicts, OrderedMap.has] using hfree
    obtain ⟨inserted, hsome, htallied⟩ := h.tallied.trackInserted hnew
      ⟨columns, QueryDb.countListens db.rows.listens trackId⟩
    obtain rfl := Option.some_inj.mp (hsome.symm.trans hfired)
    subst hlater
    exact ⟨⟨htallied.trackCount, htallied.putCount, htallied.searched⟩,
      QueryDb.insertTrack_counted h.counted library trackId columns⟩
  | insertResolver library trackId extractor id row =>
    obtain rfl := Option.some_inj.mp hfired
    subst hlater
    obtain ⟨hsame, he, ht, -⟩ := QueryDb.insertResolver_same library trackId db.rows extractor id row
    refine ⟨?_, h.counted.of_get hsame.listens fun k row hrow => ?_⟩
    · simp only [Statement.apply, he, ht]
      exact ⟨h.tallied.trackCount, h.tallied.putCount, h.tallied.searched⟩
    · rwa [← ht]
  | insertListen library hash row =>
    obtain rfl := Option.some_inj.mp hfired
    subst hlater
    refine ⟨?_, QueryDb.insertListen_counted h.counted library hash row⟩
    simp only [Statement.apply, QueryDb.insertListen]
    split
    · exact ⟨h.tallied.trackCount, h.tallied.putCount, h.tallied.searched⟩
    · have hlistens := h.tallied.addListens row.trackId 1
      exact ⟨hlistens.trackCount, hlistens.putCount, hlistens.searched⟩
  | removeLibrary library => exact remove_kept h library he
  | _ =>
    obtain rfl := Option.some_inj.mp hfired
    subst hlater
    exact ⟨⟨h.tallied.trackCount, h.tallied.putCount, h.tallied.searched⟩, h.counted⟩

/-- A statement that fits keeps the byte sums. -/
theorem exec_weighed (h : Weighed db.rows.tracks db) {statement : Statement} (he : db.exec statement = some later)
    (hs : statement.Sized) (hf : statement.Fits db.rows) : Weighed later.rows.tracks later := by
  obtain ⟨hfree, fired, hfired, hlater⟩ := exec_eq_some he
  cases statement with
  | clearKey library key =>
    obtain rfl := Option.some_inj.mp hfired
    subst hlater
    have hdeleted := h.tracksDeleted fun k => k = (library, key)
    rw [← OrderedMap.delete_eq_filterKeys] at hdeleted
    exact ⟨hdeleted.bytes, hdeleted.sized, hdeleted.bounded⟩
  | deleteEntry library key =>
    obtain rfl := Option.some_inj.mp hfired
    subst hlater
    have hdeleted := h.entriesDeleted (db.rows.entries.filterKeys fun k => k = (library, key)).items
    exact ⟨hdeleted.bytes, hdeleted.sized, hdeleted.bounded⟩
  | insertEntry library key row =>
    obtain rfl := Option.some_inj.mp hfired
    subst hlater
    have hinserted := h.entryInserted library row.putDelta
    exact ⟨hinserted.bytes, hinserted.sized, hinserted.bounded⟩
  | insertTrack library trackId columns =>
    have hnew : db.rows.tracks.get (library, trackId) = none := by
      simpa [Statement.conflicts, OrderedMap.has] using hfree
    have hfits : QueryDb.scannedSize db.rows.tracks library + columns.size < 2 ^ 63 := by
      have hbytes : QueryDb.scannedBytes db.rows.tracks library + columns.audioSizeBytes.getD 0 < 2 ^ 63 := hf
      rw [QueryDb.scannedBytes_eq h.sized, hs.1] at hbytes
      exact_mod_cast hbytes
    have hrow : TrackColumns.Sized (⟨columns, QueryDb.countListens db.rows.listens trackId⟩ : TrackRow).toTrackColumns :=
      hs
    have hinserted := h.trackInserted hnew hrow hfits hfired
    subst hlater
    exact ⟨hinserted.bytes, hinserted.sized, hinserted.bounded⟩
  | insertResolver library trackId extractor id row =>
    obtain rfl := Option.some_inj.mp hfired
    subst hlater
    obtain ⟨-, -, ht, -⟩ := QueryDb.insertResolver_same library trackId db.rows extractor id row
    simp only [Statement.apply, ht]
    exact ⟨h.bytes, h.sized, h.bounded⟩
  | insertListen library hash row =>
    obtain rfl := Option.some_inj.mp hfired
    subst hlater
    simp only [Statement.apply, QueryDb.insertListen]
    split
    · exact ⟨h.bytes, h.sized, h.bounded⟩
    · have hlistens := h.addListens row.trackId 1
      exact ⟨hlistens.bytes, hlistens.sized, hlistens.bounded⟩
  | removeLibrary library => exact remove_weighed h library he
  | _ =>
    obtain rfl := Option.some_inj.mp hfired
    subst hlater
    exact ⟨h.bytes, h.sized, h.bounded⟩

/-- A statement that meets no row under its key runs. -/
theorem exec_isSome (h : Searched (fieldsOf db.rows.tracks) db.searchKeys db.search) {statement : Statement}
    (hfree : statement.conflicts db.rows = false) : ∃ later, db.exec statement = some later := by
  have hfire : ∃ fired, statement.fire db = some fired := by
    cases statement with
    | insertTrack library trackId columns =>
      have hnone : fieldsOf db.rows.tracks (library, trackId) = none := by
        simpa [fieldsOf, Statement.conflicts, OrderedMap.has] using hfree
      have hcounted : Searched (fieldsOf db.rows.tracks) (db.countTrack library 1 columns.bytes).searchKeys
          (db.countTrack library 1 columns.bytes).search := h
      exact ⟨_, hcounted.searchInsert_some hnone columns.searchRow⟩
    | _ => exact ⟨_, rfl⟩
  obtain ⟨fired, hfired⟩ := hfire
  refine ⟨{ fired with rows := statement.apply db.rows }, ?_⟩
  rw [exec, hfree, hfired]
  rfl

end AggregateDb

/-! ## Whole transactions -/

namespace Statement

/-- Each statement fits where it is run. -/
def AllFit : QueryDb → List Statement → Prop
  | _, [] => True
  | rows, statement :: rest => statement.Fits rows ∧ AllFit (statement.apply rows) rest

/-- No statement meets a row under its key where it is run. -/
def AllFree : QueryDb → List Statement → Prop
  | _, [] => True
  | rows, statement :: rest => statement.conflicts rows = false ∧ AllFree (statement.apply rows) rest

end Statement

theorem AggregateDb.runLabels_kept {db later : AggregateDb} (h : db.Kept) {statements : List Statement}
    (hrun : runLabels exec db statements = some later) : later.Kept := by
  induction statements generalizing db with
  | nil => exact Option.some_inj.mp hrun ▸ h
  | cons statement rest ih =>
    obtain ⟨mid, hmid, hrest⟩ := Option.bind_eq_some_iff.mp hrun
    exact ih (exec_kept h hmid) hrest

theorem AggregateDb.runLabels_isSome {db : AggregateDb} (h : db.Kept) {statements : List Statement}
    (hf : Statement.AllFree db.rows statements) : ∃ later, runLabels exec db statements = some later := by
  induction statements generalizing db with
  | nil => exact ⟨db, rfl⟩
  | cons statement rest ih =>
    obtain ⟨mid, hmid⟩ := exec_isSome h.tallied.searched hf.1
    rw [runLabels_cons hmid]
    exact ih (exec_kept h hmid) (exec_rows hmid ▸ hf.2)

theorem AggregateDb.runLabels_weighed {db later : AggregateDb} (h : Weighed db.rows.tracks db)
    {statements : List Statement} (hs : ∀ statement ∈ statements, statement.Sized)
    (hf : Statement.AllFit db.rows statements) (hrun : runLabels exec db statements = some later) :
    Weighed later.rows.tracks later := by
  induction statements generalizing db with
  | nil => exact Option.some_inj.mp hrun ▸ h
  | cons statement rest ih =>
    obtain ⟨mid, hmid, hrest⟩ := Option.bind_eq_some_iff.mp hrun
    have hrows := exec_rows hmid
    exact ih (exec_weighed h hmid (hs statement List.mem_cons_self) hf.1)
      (fun other ho => hs other (List.mem_cons_of_mem _ ho)) (hrows ▸ hf.2) hrest

/-- A validated payload declares a safe unsigned size. -/
theorem size_of_validateTrackContent {E : Environment} {value : Value} {fields : Fields}
    (h : validateTrackContent E value = .ok fields) :
    ∃ n : ℕ, n ≤ Value.maxSafeInteger ∧ fields.get "size" = some (.number n) := by
  unfold validateTrackContent at h
  split at h
  · cases h
  case h_2 found hfound =>
    simp only [bind_eq_ok, require_eq_ok_iff] at h
    obtain ⟨-, -, -, hsize, h⟩ := h
    split at h
    · cases h
    · simp only [bind_eq_ok] at h
      obtain ⟨-, -, -, -, -, -, -, -, h⟩ := h
      obtain rfl := Except.ok.inj h
      obtain ⟨n, hn⟩ := Option.isSome_iff_exists.mp hsize
      obtain ⟨v, hget, huint⟩ := Option.bind_eq_some_iff.mp hn
      obtain rfl := eq_natCast_of_asUint huint
      refine ⟨n, ?_, hget⟩
      rw [Value.asUint_natCast] at huint
      by_contra hlarge
      rw [if_neg hlarge] at huint
      cases huint

theorem trackColumns_sized {E : Environment} {store : BlockStore} {entry : Option VerifiedEntry}
    (e : VerifiedEntry) (envelope : Envelope) (addedAtMs : Option ℕ) :
    (trackColumns e envelope (loadContent E store entry) addedAtMs).Sized := by
  cases hcontent : loadContent E store entry with
  | none => exact ⟨by norm_num [trackColumns, Fields.get, numberOf, TrackColumns.size],
      by norm_num [trackColumns, Fields.get, numberOf, TrackColumns.size]⟩
  | some fields =>
    have hvalid : ∃ value, validateTrackContent E value = .ok fields := by
      unfold loadContent at hcontent
      split at hcontent
      case h_1 =>
        obtain ⟨bytes, -, hbytes⟩ := Option.bind_eq_some_iff.mp hcontent
        cases hchecked : decodePayload E bytes >>= validateTrackContent E with
        | error error =>
          rw [hchecked] at hbytes
          cases hbytes
        | ok found =>
          rw [hchecked] at hbytes
          obtain rfl := Option.some_inj.mp hbytes
          obtain ⟨value, -, hvalue⟩ := (bind_eq_ok _ _ _).mp hchecked
          exact ⟨value, hvalue⟩
      case h_2 => cases hcontent
    obtain ⟨value, hvalue⟩ := hvalid
    obtain ⟨n, hn, hsize⟩ := size_of_validateTrackContent hvalue
    have hcolumn : (trackColumns e envelope (some fields) addedAtMs).audioSizeBytes = some (n : ℚ) := by
      change numberOf (fields.get "size") = some (n : ℚ)
      rw [hsize]
      rfl
    have hmax : Value.maxSafeInteger < 2 ^ 53 := by decide
    rw [TrackColumns.Sized, TrackColumns.size, hcolumn, Option.getD_some, Rat.num_natCast, Int.toNat_natCast]
    exact ⟨rfl, hn.trans_lt hmax⟩

namespace Transaction

/-- The keys of a round carry the current entries and what a load of their content found. -/
def Loaded (E : Environment) : Transaction → Prop
  | round o _ stable => ∀ loaded ∈ stable, loaded.entry = o.current.get loaded.key ∧
      ∃ store, loaded.content = loadContent E store loaded.entry
  | _ => True

/-- A track row is only inserted for a key of a round, with the columns of its content. -/
theorem columns_of_insertTrack {t : Transaction} {rows : QueryDb} {library trackId : String}
    {columns : TrackColumns} (h : Statement.insertTrack library trackId columns ∈ t.statements rows) :
    ∃ o labels stable, t = .round o labels stable ∧ ∃ loaded ∈ stable, ∃ e envelope,
      columns = trackColumns e envelope loaded.content (addedAtOf o envelope.id.text) := by
  cases t with
  | round o labels stable =>
    refine ⟨o, labels, stable, rfl, ?_⟩
    simp only [statements, List.mem_append, List.mem_flatMap, List.mem_singleton, reduceCtorEq, or_false] at h
    rcases h with ⟨key, -, hm⟩ | ⟨loaded, hl, hm⟩
    · unfold labelStatements at hm
      dsimp only at hm
      split at hm <;> simp at hm
    · refine ⟨loaded, hl, ?_⟩
      unfold keyStatements at hm
      dsimp only at hm
      split at hm
      · simp at hm
      case h_2 e _ =>
        split at hm
        · simp at hm
        case h_2 envelope c hop =>
          simp [resolverStatements] at hm
          exact ⟨e, envelope, hm.2.2⟩
        · simp at hm
        · simp at hm
  | listens o entries =>
    simp only [statements, List.mem_append, List.mem_flatMap, List.mem_singleton, reduceCtorEq, or_false] at h
    obtain ⟨entry, -, hm⟩ := h
    unfold listenStatements at hm
    split at hm <;> simp at hm
  | identity o => simp [statements] at h
  | remove library => simp [statements] at h

theorem statements_sized {E : Environment} {t : Transaction} (h : t.Loaded E) (rows : QueryDb) :
    ∀ statement ∈ t.statements rows, statement.Sized := by
  intro statement hm
  cases statement with
  | insertTrack library trackId columns =>
    obtain ⟨o, labels, stable, rfl, loaded, hl, e, envelope, rfl⟩ := columns_of_insertTrack hm
    obtain ⟨-, store, hcontent⟩ := h loaded hl
    rw [hcontent]
    exact trackColumns_sized e envelope _
  | _ => trivial

end Transaction

/-! ## Runs -/

/-- The connection: what it reads, and what the last commit left. -/
structure IndexConnection where
  db : AggregateDb
  committed : AggregateDb

inductive IndexLabel where
  | transact (t : Transaction)
  | commit

namespace IndexConnection

def start : IndexConnection := ⟨.empty, .empty⟩

/-- A transaction that throws rolls the open batch back. -/
def step (s : IndexConnection) : IndexLabel → Option IndexConnection
  | .transact t =>
    match runLabels AggregateDb.exec s.db (t.statements s.db.rows) with
    | some db => some { s with db := db }
    | none => some { s with db := s.committed }
  | .commit => some { s with committed := s.db }

/-- The projector's own transactions: any number of libraries, in any order. -/
def Projecting (E : Environment) (_ : IndexConnection) : IndexLabel → Prop
  | .transact t => t.Loaded E
  | .commit => True

/-- Projecting, with no library's declared bytes past 64 bits. -/
def Fitting (E : Environment) (s : IndexConnection) : IndexLabel → Prop
  | .transact t => t.Loaded E ∧ Statement.AllFit s.db.rows (t.statements s.db.rows)
  | .commit => True

end IndexConnection

/-- The trigger-kept tables say what the rows say. -/
structure AggregateDb.Agrees (db : AggregateDb) : Prop where
  trackCount : ∀ library, (db.totalsOf library).trackCount = QueryDb.scannedTracks db.rows.tracks library
  audioSizeBytes : ∀ library,
    (db.totalsOf library).audioSizeBytes.value = QueryDb.scannedBytes db.rows.tracks library
  putCount : ∀ library, (db.totalsOf library).putCount = QueryDb.scannedPuts db.rows.entries library
  listenCount : ∀ key row, db.rows.tracks.get key = some row →
    row.listenCount = QueryDb.countListens db.rows.listens key.2
  search : Searched (fieldsOf db.rows.tracks) db.searchKeys db.search
  totalsNonneg : ∀ library, 0 ≤ (db.totalsOf library).trackCount ∧
    0 ≤ (db.totalsOf library).audioSizeBytes.value ∧ 0 ≤ (db.totalsOf library).putCount
  listensNonneg : ∀ key row, db.rows.tracks.get key = some row → 0 ≤ row.listenCount

theorem AggregateDb.kept_empty : AggregateDb.empty.Kept where
  tallied := {
    trackCount := fun _ => rfl
    putCount := fun _ => rfl
    searched := ⟨fun _ => rfl, fun _ _ _ h => (by cases h), fun _ _ => (by simp [AggregateDb.empty])⟩ }
  counted _ _ h := by cases h

theorem AggregateDb.weighed_empty : Weighed AggregateDb.empty.rows.tracks AggregateDb.empty where
  bytes _ := rfl
  sized _ _ h := by cases h
  bounded _ := (by decide : (0 : ℤ) < 2 ^ 63)

theorem AggregateDb.Kept.agrees {db : AggregateDb} (h : db.Kept) (hw : Weighed db.rows.tracks db) : db.Agrees where
  trackCount := h.tallied.trackCount
  audioSizeBytes library := by
    rw [hw.bytes, QueryDb.scannedBytes_eq hw.sized]
    rfl
  putCount := h.tallied.putCount
  listenCount := h.counted
  search := h.tallied.searched
  totalsNonneg library := by
    rw [h.tallied.trackCount, hw.bytes, h.tallied.putCount]
    refine ⟨QueryDb.scannedTracks_nonneg _ _, ?_, QueryDb.scannedPuts_nonneg _ _⟩
    exact Int.cast_nonneg (QueryDb.scannedSize_nonneg _ _)
  listensNonneg key row hrow := by
    rw [h.counted key row hrow]
    exact Int.natCast_nonneg _

namespace IndexConnection

theorem step_cases {s t : IndexConnection} {l : IndexLabel} (h : s.step l = some t) :
    (∃ transaction db, l = .transact transaction ∧
        runLabels AggregateDb.exec s.db (transaction.statements s.db.rows) = some db ∧ t = { s with db := db }) ∨
      (∃ transaction, l = .transact transaction ∧ t = { s with db := s.committed }) ∨
      (l = .commit ∧ t = { s with committed := s.db }) := by
  cases l with
  | transact transaction =>
    simp only [step] at h
    split at h
    case h_1 db hrun => exact Or.inl ⟨transaction, db, rfl, hrun, (Option.some_inj.mp h).symm⟩
    case h_2 => exact Or.inr (Or.inl ⟨transaction, rfl, (Option.some_inj.mp h).symm⟩)
  | commit => exact Or.inr (Or.inr ⟨rfl, (Option.some_inj.mp h).symm⟩)

theorem step_transact {s : IndexConnection} {t : Transaction} {db : AggregateDb}
    (hrun : runLabels AggregateDb.exec s.db (t.statements s.db.rows) = some db) :
    s.step (.transact t) = some { s with db := db } := by
  simp only [step, hrun]

/-- In every run the counts, the listens and the search rows are right. -/
theorem kept_of_run {allowed : IndexConnection → IndexLabel → Prop} {s : IndexConnection}
    (h : Run step (· = .start) allowed s) : s.db.Kept ∧ s.committed.Kept := by
  refine h.invariant (I := fun s => s.db.Kept ∧ s.committed.Kept) (fun s hs => ?_) fun s l t hi _ hs => ?_
  · subst hs
    exact ⟨AggregateDb.kept_empty, AggregateDb.kept_empty⟩
  · obtain ⟨transaction, db, rfl, hrun, rfl⟩ | ⟨transaction, rfl, rfl⟩ | ⟨rfl, rfl⟩ := step_cases hs
    · exact ⟨AggregateDb.runLabels_kept hi.1 hrun, hi.2⟩
    · exact ⟨hi.2, hi.2⟩
    · exact ⟨hi.1, hi.1⟩

theorem weighed_of_run {E : Environment} {s : IndexConnection} (h : Run step (· = .start) (Fitting E) s) :
    Weighed s.db.rows.tracks s.db ∧ Weighed s.committed.rows.tracks s.committed := by
  refine h.invariant (I := fun s => Weighed s.db.rows.tracks s.db ∧ Weighed s.committed.rows.tracks s.committed)
    (fun s hs => ?_) fun s l t hi hl hs => ?_
  · subst hs
    exact ⟨AggregateDb.weighed_empty, AggregateDb.weighed_empty⟩
  · obtain ⟨transaction, db, rfl, hrun, rfl⟩ | ⟨transaction, rfl, rfl⟩ | ⟨rfl, rfl⟩ := step_cases hs
    · exact ⟨AggregateDb.runLabels_weighed hi.1 (Transaction.statements_sized hl.1 _) hl.2 hrun, hi.2⟩
    · exact ⟨hi.2, hi.2⟩
    · exact ⟨hi.1, hi.1⟩

end IndexConnection

/-- After every transaction of every run in which no library's declared bytes pass 64 bits, the
tables the triggers keep say what the rows say. -/
theorem index_aggregates {E : Environment} {s : IndexConnection}
    (h : Run IndexConnection.step (· = .start) (IndexConnection.Fitting E) s) :
    s.db.Agrees ∧ s.committed.Agrees := by
  obtain ⟨hdb, hcommitted⟩ := IndexConnection.kept_of_run h
  obtain ⟨hweighed, hweighedCommitted⟩ := IndexConnection.weighed_of_run h
  exact ⟨hdb.agrees hweighed, hcommitted.agrees hweighedCommitted⟩

/-! ## A library that declares too much

Tracks that each declare the largest safe size, in an environment whose codec writes the
numbers of a record in units of that size. -/

namespace Overflow

def scaleNumber (c : ℚ) : Value → Value
  | .number x => .number (x * c)
  | v => v

def scaleNumbers (c : ℚ) : Value → Value
  | .record fields => .record (fields.map fun p => (p.1, scaleNumber c p.2))
  | v => v

theorem scaleNumber_scaleNumber {c d : ℚ} (h : c * d = 1) (v : Value) : scaleNumber d (scaleNumber c v) = v := by
  cases v <;> simp [scaleNumber, mul_assoc, h]

theorem scaleNumbers_scaleNumbers {c d : ℚ} (h : c * d = 1) (v : Value) : scaleNumbers d (scaleNumbers c v) = v := by
  cases v with
  | record fields => simp [scaleNumbers, Function.comp_def, scaleNumber_scaleNumber h]
  | _ => rfl

def environment : Environment :=
  { plainEnvironment with
    encode := fun v => plainEnvironment.encode (scaleNumbers (1 / Value.maxSafeInteger) v)
    decode := fun b => (plainEnvironment.decode b).map (scaleNumbers Value.maxSafeInteger) }

theorem decode_encode (v : Value) : environment.decode (environment.encode v) = some v := by
  have hplain (v : Value) : plainEnvironment.decode (plainEnvironment.encode v) = some v := by
    have h := Plain.get_put v (Plain.put v).length [] (Nat.le_refl _)
    rw [List.append_nil] at h
    simp [plainEnvironment, h]
  have hunit : (1 / Value.maxSafeInteger : ℚ) * Value.maxSafeInteger = 1 := by norm_num [Value.maxSafeInteger]
  change (plainEnvironment.decode (plainEnvironment.encode _)).map _ = _
  rw [hplain, Option.map_some, scaleNumbers_scaleNumbers hunit]

def content : Fields := [
  ("hash", .string (String.ofList (List.replicate 95 'z'))),
  ("size", .number Value.maxSafeInteger),
  ("tags", .record [("acoustid_fingerprint", .string "AQAA")]),
  ("audio", .record []),
  ("artwork", .array []),
  ("resolver", .array [])]

def block : Bytes := environment.encode (.record content)

def store : BlockStore := OrderedMap.empty.set (computeCidString environment block) block

theorem block_length : block.length ≤ payloadMaxBytes := by
  have hone : (Value.maxSafeInteger : ℚ) * (1 / Value.maxSafeInteger) = 1 := by norm_num [Value.maxSafeInteger]
  have hlen : ["hash", "size", "tags", "audio", "artwork", "resolver", "acoustid_fingerprint", "AQAA"].map
      String.length = [4, 4, 4, 5, 7, 8, 20, 4] := by decide
  simp only [List.map_cons, List.map_nil, List.cons.injEq, and_true] at hlen
  simp only [block, environment, plainEnvironment, content, scaleNumbers, scaleNumber, List.map_cons, List.map_nil,
    hone, Plain.put, Plain.putFields, Plain.putItems, Plain.putString_length, List.length_cons, List.length_append,
    List.length_nil, Plain.putInt, Plain.putNat_length, hlen, String.length_ofList, List.length_replicate,
    Rat.num_one, Rat.den_one, Int.natAbs_one, payloadMaxBytes]
  norm_num

theorem decodePayload_block : decodePayload environment block = .ok (.record content) := by
  have hcanonical : decodeCanonical environment block = .ok (.record content) := by
    rw [decodeCanonical, block, decode_encode]
    exact if_pos rfl
  rw [decodePayload, bind_eq_ok]
  exact ⟨(), (require_eq_ok_iff _).mpr (decide_eq_true block_length), hcanonical⟩

theorem validate_content : validateTrackContent environment (.record content) = .ok content := by
  have hcid : isCidString environment (content.get "hash") = true := by
    change decide ((String.ofList (List.replicate 95 'z')).toList.length = 95) = true
    simp
  have hsize : (content.uint? "size").isSome = true := by
    change ((Value.number (Value.maxSafeInteger : ℕ)).asUint?).isSome = true
    rw [Value.asUint_natCast, if_pos le_rfl]
    rfl
  simp only [validateTrackContent, Value.fields?, bind_eq_ok, require_eq_ok_iff, hcid, hsize]
  exact ⟨(), trivial, (), trivial, rfl⟩

def digits (n : ℕ) : List Char :=
  [hexDigit (n / 4096 % 16), hexDigit (n / 256 % 16), hexDigit (n / 16 % 16), hexDigit (n % 16)]

theorem digits_injective {m n : ℕ} (hm : m < 65536) (hn : n < 65536) (h : digits m = digits n) : m = n := by
  have hdigit : ∀ a < 16, ∀ b < 16, hexDigit a = hexDigit b → a = b := by decide
  simp only [digits, List.cons.injEq, and_true] at h
  have h1 := hdigit _ (by omega) _ (by omega) h.1
  have h2 := hdigit _ (by omega) _ (by omega) h.2.1
  have h3 := hdigit _ (by omega) _ (by omega) h.2.2.1
  have h4 := hdigit _ (by omega) _ (by omega) h.2.2.2
  omega

def trackId (n : ℕ) : TrackId where
  text := String.ofList (digits n ++ List.replicate 60 '0')
  isHex := by
    have hall : ∀ c ∈ digits n ++ List.replicate 60 '0', isLowerHex c = true := by
      intro c hc
      simp only [digits, List.mem_append, List.mem_cons, List.mem_replicate, List.not_mem_nil, or_false] at hc
      rcases hc with (rfl | rfl | rfl | rfl) | ⟨-, rfl⟩
      · exact isLowerHex_hexDigit _ (Nat.mod_lt _ (by decide))
      · exact isLowerHex_hexDigit _ (Nat.mod_lt _ (by decide))
      · exact isLowerHex_hexDigit _ (Nat.mod_lt _ (by decide))
      · exact isLowerHex_hexDigit _ (Nat.mod_lt _ (by decide))
      · decide
    rw [isHex64, String.toList_ofList, List.all_eq_true.mpr hall]
    rfl

/-- The PUT of a track of its own, over the one content block. -/
def entry (n : ℕ) : VerifiedEntry where
  digest := ⟨UInt8.ofNat (n / 256) :: UInt8.ofNat n :: List.replicate 62 0, by simp⟩
  bytes := []
  entry := ⟨"library", .null, [], [], ⟨"", 1⟩, "", ""⟩
  operation := .track ⟨trackId n, n, computeCidString environment block⟩ none

theorem trackId_injective : ∀ i < 1025, ∀ j < 1025, (trackId i).text = (trackId j).text → i = j := by
  intro i hi j hj h
  have hchars : digits i ++ List.replicate 60 '0' = digits j ++ List.replicate 60 '0' := String.ofList_injective h
  exact digits_injective (by omega) (by omega) (List.append_cancel_right hchars)

theorem hash_injective : ∀ i < 1025, ∀ j < 1025, (entry i).hash = (entry j).hash → i = j := by
  intro i hi j hj h
  have hbytes := congrArg Digest.bytes (formatProtocolCid_injective h)
  simp only [entry, List.cons.injEq, and_true] at hbytes
  have hhigh := congrArg UInt8.toNat hbytes.1
  have hlow := congrArg UInt8.toNat hbytes.2
  simp only [UInt8.toNat_ofNat'] at hhigh hlow
  omega

/-- The oplog of a recordstore with 1025 tracks. -/
def oplog : Oplog :=
  { createOplog ⟨"library", "", .recordstore, [], "", "", ""⟩ with
    entries := .tabulate 1025 (fun n => (entry n).hash) entry hash_injective
    heads := .ofList ((List.range 1025).map fun n => (entry n).hash)
    keyEntries := .tabulate 1025 (fun n => (trackId n).text) (fun n => .ofList [(entry n).hash]) trackId_injective
    current := .tabulate 1025 (fun n => (trackId n).text) entry trackId_injective }

def loaded (n : ℕ) : LoadedKey := ⟨(trackId n).text, some (entry n), some content⟩

def putTrack (n : ℕ) : Transaction := .round oplog [] [loaded n]

theorem putTrack_loaded {n : ℕ} (hn : n < 1025) : (putTrack n).Loaded environment := by
  intro key hkey
  obtain rfl := List.mem_singleton.mp hkey
  refine ⟨(OrderedMap.get_tabulate entry trackId_injective hn).symm, store, ?_⟩
  have hget : store.get (computeCidString environment block) = some block := by
    rw [store, OrderedMap.get_set, if_pos rfl]
  have hchecked : (decodePayload environment block >>= validateTrackContent environment) = .ok content :=
    (bind_eq_ok _ _ _).mpr ⟨_, decodePayload_block, validate_content⟩
  rw [loaded, loadContent, Option.map_some, entry]
  dsimp only
  rw [hget, Option.bind_some, hchecked]
  rfl

def columns (n : ℕ) : TrackColumns :=
  trackColumns (entry n) ⟨trackId n, n, computeCidString environment block⟩ (some content)
    (addedAtOf oplog (trackId n).text)

theorem columns_bytes (n : ℕ) : (columns n).audioSizeBytes.getD 0 = Value.maxSafeInteger := rfl

theorem columns_size (n : ℕ) : (columns n).size = Value.maxSafeInteger := by
  rw [TrackColumns.size, columns_bytes, Rat.num_natCast, Int.toNat_natCast]

theorem columns_sized (n : ℕ) : (columns n).Sized := by
  rw [TrackColumns.Sized, columns_size]
  exact ⟨columns_bytes n, by decide⟩

theorem putTrack_statements (n : ℕ) (rows : QueryDb) : ∃ row marker, (putTrack n).statements rows =
    [.clearKey "library" (trackId n).text, .deleteEntry "library" (trackId n).text,
      .insertEntry "library" (trackId n).text row, .insertTrack "library" (trackId n).text (columns n),
      .upsertMarker "library" marker] :=
  ⟨_, _, rfl⟩

/-- Putting a track that is not there, whatever the sum comes to. -/
theorem putTrack_run {db : AggregateDb} (h : db.Kept) (hw : Weighed db.rows.tracks db) {n : ℕ}
    (hnew : db.rows.tracks.get ("library", (trackId n).text) = none) :
    ∃ later, runLabels AggregateDb.exec db ((putTrack n).statements db.rows) = some later ∧
      later.rows.tracks = db.rows.tracks.set ("library", (trackId n).text)
        ⟨columns n, QueryDb.countListens db.rows.listens (trackId n).text⟩ ∧
      (later.totalsOf "library").audioSizeBytes =
        ((SqlNumber.integer (QueryDb.scannedSize db.rows.tracks "library")).add (.integer Value.maxSafeInteger)).stored := by
  obtain ⟨row, marker, hstatements⟩ := putTrack_statements n db.rows
  obtain ⟨cleared, hcleared⟩ : ∃ later, db.exec (.clearKey "library" (trackId n).text) = some later :=
    AggregateDb.exec_isSome h.tallied.searched rfl
  have hkept := AggregateDb.exec_kept h hcleared
  have hweighed := AggregateDb.exec_weighed hw hcleared trivial trivial
  obtain ⟨deleted, hdeleted⟩ : ∃ later, cleared.exec (.deleteEntry "library" (trackId n).text) = some later :=
    AggregateDb.exec_isSome hkept.tallied.searched rfl
  have hkept := AggregateDb.exec_kept hkept hdeleted
  have hweighed := AggregateDb.exec_weighed hweighed hdeleted trivial trivial
  have hrows : deleted.rows = (db.rows.clearKey "library" (trackId n).text).deleteEntry "library" (trackId n).text := by
    rw [AggregateDb.exec_rows hdeleted, AggregateDb.exec_rows hcleared]
    rfl
  obtain ⟨inserted, hinserted⟩ : ∃ later, deleted.exec (.insertEntry "library" (trackId n).text row) = some later := by
    apply AggregateDb.exec_isSome hkept.tallied.searched
    rw [hrows]
    simp [Statement.conflicts, QueryDb.deleteEntry, OrderedMap.has]
  have hkept := AggregateDb.exec_kept hkept hinserted
  have hweighed := AggregateDb.exec_weighed hweighed hinserted trivial trivial
  have htracks : inserted.rows.tracks = db.rows.tracks := by
    rw [AggregateDb.exec_rows hinserted, hrows]
    exact OrderedMap.delete_of_get_none hnew
  have hlistens : inserted.rows.listens = db.rows.listens := by
    rw [AggregateDb.exec_rows hinserted, hrows]
    rfl
  obtain ⟨put, hput⟩ : ∃ later, inserted.exec (.insertTrack "library" (trackId n).text (columns n)) = some later := by
    apply AggregateDb.exec_isSome hkept.tallied.searched
    simp [Statement.conflicts, OrderedMap.has, htracks, hnew]
  have htotals : put.totalsOf "library" = (inserted.countTrack "library" 1 (columns n).bytes).totalsOf "library" := by
    obtain ⟨-, fired, hfired, rfl⟩ := AggregateDb.exec_eq_some hput
    exact totalsOf_searchInsert hfired "library"
  refine ⟨{ put with rows := put.rows.upsertMarker "library" marker }, ?_, ?_, ?_⟩
  · rw [hstatements, runLabels_cons hcleared, runLabels_cons hdeleted, runLabels_cons hinserted, runLabels_cons hput]
    rfl
  · change put.rows.tracks = _
    rw [AggregateDb.exec_rows hput, ← htracks, ← hlistens]
    rfl
  · change (put.totalsOf "library").audioSizeBytes = _
    rw [htotals, AggregateDb.totalsOf_countTrack, if_pos rfl, hweighed.bytes, htracks,
      (columns_sized n).bytes_eq, columns_size]

theorem scannedSize_put {tracks : OrderedMap (String × String) TrackRow} {n : ℕ}
    (hnew : tracks.get ("library", (trackId n).text) = none) (count : ℤ) :
    QueryDb.scannedSize (tracks.set ("library", (trackId n).text) ⟨columns n, count⟩) "library" =
      QueryDb.scannedSize tracks "library" + Value.maxSafeInteger := by
  rw [QueryDb.scannedSize, OrderedMap.sumBy_set _ hnew, if_pos rfl]
  exact congrArg (fun size : ℕ => _ + (size : ℤ)) (columns_size n)

/-- One track after the other, the sum fits up to 1024 of them. -/
theorem exists_run {n : ℕ} (hn : n ≤ 1024) :
    ∃ s, Run IndexConnection.step (· = .start) (IndexConnection.Fitting environment) s ∧
      QueryDb.scannedSize s.db.rows.tracks "library" = n * Value.maxSafeInteger ∧
      ∀ i, n ≤ i → i < 1025 → s.db.rows.tracks.get ("library", (trackId i).text) = none := by
  induction n with
  | zero => exact ⟨.start, .start rfl, by simp [IndexConnection.start]; rfl, fun i _ _ => rfl⟩
  | succ n ih =>
    obtain ⟨s, hrun, hsize, hfree⟩ := ih (by omega)
    have hweighed := (IndexConnection.weighed_of_run hrun).1
    have hnew := hfree n le_rfl (by omega)
    obtain ⟨later, hlater, htracks, -⟩ := putTrack_run (IndexConnection.kept_of_run hrun).1 hweighed hnew
    have hfit : Statement.AllFit s.db.rows ((putTrack n).statements s.db.rows) := by
      obtain ⟨row, marker, hstatements⟩ := putTrack_statements n s.db.rows
      rw [hstatements]
      refine ⟨trivial, trivial, trivial, ?_, trivial, trivial⟩
      change QueryDb.scannedBytes (s.db.rows.tracks.delete ("library", (trackId n).text)) "library" +
        (columns n).audioSizeBytes.getD 0 < 2 ^ 63
      rw [OrderedMap.delete_of_get_none hnew, QueryDb.scannedBytes_eq hweighed.sized, hsize, columns_bytes]
      have hbound : (n : ℤ) * Value.maxSafeInteger + Value.maxSafeInteger < 2 ^ 63 := by
        have hmax : (Value.maxSafeInteger : ℤ) = 9007199254740991 := by decide
        rw [hmax]
        omega
      exact_mod_cast hbound
    have hstep := IndexConnection.step_transact hlater
    refine ⟨_, hrun.next (.transact (putTrack n)) ⟨putTrack_loaded (by omega), hfit⟩ hstep, ?_, ?_⟩
    · change QueryDb.scannedSize later.rows.tracks "library" = _
      rw [htracks, scannedSize_put hnew, hsize]
      push_cast
      ring
    · intro i hi hlt
      change later.rows.tracks.get _ = none
      rw [htracks, OrderedMap.get_set, if_neg, hfree i (by omega) hlt]
      intro heq
      have := trackId_injective i hlt n (by omega) (Prod.mk.inj heq).2
      omega

end Overflow

/-- A library of one track of the largest size has its totals. -/
theorem index_aggregates_one : ∃ s, Run IndexConnection.step (· = .start)
    (IndexConnection.Fitting Overflow.environment) s ∧ s.db.Agrees ∧
      (s.db.totalsOf "library").audioSizeBytes.value = Value.maxSafeInteger := by
  obtain ⟨s, hrun, hsize, -⟩ := Overflow.exists_run (n := 1) (by norm_num)
  have hagrees := (index_aggregates hrun).1
  refine ⟨s, hrun, hagrees, ?_⟩
  rw [hagrees.audioSizeBytes, QueryDb.scannedBytes_eq (IndexConnection.weighed_of_run hrun).1.sized, hsize]
  norm_num

/-- The 1025th track takes the sum out of 64 bits: it is odd, and what is kept is even. -/
theorem index_aggregates_past_range : ¬ ∀ s, Run IndexConnection.step (· = .start)
    (IndexConnection.Projecting Overflow.environment) s → s.db.Agrees := by
  intro hall
  obtain ⟨s, hrun, hsize, hfree⟩ := Overflow.exists_run (n := 1024) le_rfl
  have hweighed := (IndexConnection.weighed_of_run hrun).1
  have hnew := hfree 1024 le_rfl (by norm_num)
  obtain ⟨later, hlater, htracks, htotal⟩ := Overflow.putTrack_run (IndexConnection.kept_of_run hrun).1 hweighed hnew
  have hstep := IndexConnection.step_transact hlater
  have hprojecting : Run IndexConnection.step (· = .start) (IndexConnection.Projecting Overflow.environment) s := by
    refine hrun.mono fun s l hl => ?_
    cases l with
    | transact t => exact hl.1
    | commit => trivial
  have hagrees := hall _ (hprojecting.next (.transact (Overflow.putTrack 1024))
    (Overflow.putTrack_loaded (by norm_num)) hstep)
  have hmax : (Value.maxSafeInteger : ℤ) = 9007199254740991 := by decide
  obtain ⟨k, hk⟩ := SqlNumber.exists_add_eq_two_mul (m := 1024 * Value.maxSafeInteger) (n := Value.maxSafeInteger)
    (by rw [hmax]; norm_num) (by rw [hmax]; norm_num) (by rw [hmax]; norm_num)
  have hbytes := hagrees.audioSizeBytes "library"
  change (later.totalsOf "library").audioSizeBytes.value = QueryDb.scannedBytes later.rows.tracks "library" at hbytes
  have hscan : QueryDb.scannedBytes later.rows.tracks "library" =
      ((1024 * Value.maxSafeInteger + Value.maxSafeInteger : ℤ) : ℚ) := by
    rw [htracks, QueryDb.scannedBytes, OrderedMap.sumBy_set _ hnew, if_pos rfl]
    change QueryDb.scannedBytes s.db.rows.tracks "library" + (Overflow.columns 1024).audioSizeBytes.getD 0 = _
    rw [QueryDb.scannedBytes_eq hweighed.sized, hsize, Overflow.columns_bytes]
    push_cast
    rfl
  rw [htotal, SqlNumber.value_stored, hsize, hscan] at hbytes
  have heven : ((1024 * Value.maxSafeInteger + Value.maxSafeInteger : ℤ) : ℚ) = ((2 * k : ℤ) : ℚ) := by
    rw [← hbytes]
    push_cast
    exact hk
  have hodd := Int.cast_injective heven
  omega

end RecordNode
