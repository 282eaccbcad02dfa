import RecordNode.Entry.Types
import RecordNode.Foundation.OrderedMap
import Mathlib.Tactic.Ring

/-! # The tables of the query index

Each table by its primary key, with the statements the projector prepares. A plain
`INSERT` only ever follows the deletion of its key. The listens triggers keep every
track's listen count; the tables that other triggers keep are added over these. -/

namespace RecordNode

open Foundation

/-- The `type` column of the entries table. -/
inductive RowType where
  | track
  | about
deriving DecidableEq

structure EntryRow where
  entryHash : Hash
  op : OpKind
  type : RowType
  clockTime : ℕ
  timestamp : ℕ
deriving DecidableEq

/-- A track's columns but its listen count. Lists are stored as their JSON text; an
earliest timestamp of none is the source's `Infinity`. -/
structure TrackColumns where
  entryHash : Hash
  contentCid : String
  audioCid : Option String
  audioSizeBytes : Option ℚ
  title : Option String
  artist : Option String
  artists : List String
  album : Option String
  albumArtist : Option String
  remixer : Option String
  genre : List String
  bpm : Option ℚ
  durationSeconds : Option ℚ
  bitrate : Option ℚ
  codec : Option String
  sampleRate : Option ℚ
  lossless : Option Bool
  artwork : List String
  addedAtMs : Option ℕ
deriving DecidableEq

structure TrackRow extends TrackColumns where
  listenCount : ℤ
deriving DecidableEq

structure ResolverRow where
  fulltitle : Option String
  thumbnail : Option String
  artist : Option String
  altTitle : Option String
  uploadDate : Option String
  webpageUrl : Option String
  durationSeconds : Option ℚ
deriving DecidableEq

structure AboutRow where
  entryHash : Hash
  name : String
deriving DecidableEq

structure ListenRow where
  trackId : String
  address : String
  timestamp : ℕ
deriving DecidableEq

/-- A row of `library_heads`. -/
structure Marker where
  heads : List Hash
  pending : List String
deriving DecidableEq

/-- Keys start with the library's address. -/
structure QueryDb where
  entries : OrderedMap (String × String) EntryRow
  tracks : OrderedMap (String × String) TrackRow
  tags : OrderedMap (String × String × String) Hash
  resolvers : OrderedMap (String × String × String × String) ResolverRow
  about : OrderedMap (String × String) AboutRow
  listens : OrderedMap (String × Hash) ListenRow
  libraryHeads : OrderedMap String Marker

namespace QueryDb

def empty : QueryDb := ⟨.empty, .empty, .empty, .empty, .empty, .empty, .empty⟩

/-- `SELECT count(*) FROM listens WHERE track_id = ?`. -/
def countListens (listens : OrderedMap (String × Hash) ListenRow) (trackId : String) : ℤ :=
  listens.values.countP fun row => row.trackId = trackId

/-! ## The statements -/

def clearKey (db : QueryDb) (library key : String) : QueryDb :=
  { db with
    tracks := db.tracks.delete (library, key)
    resolvers := db.resolvers.filterKeys fun k => !(k.1 = library && k.2.1 = key)
    about := db.about.delete (library, key) }

def deleteEntry (db : QueryDb) (library key : String) : QueryDb :=
  { db with entries := db.entries.delete (library, key) }

def insertEntry (db : QueryDb) (library key : String) (row : EntryRow) : QueryDb :=
  { db with entries := db.entries.set (library, key) row }

def insertTrack (db : QueryDb) (library trackId : String) (columns : TrackColumns) : QueryDb :=
  { db with tracks := db.tracks.set (library, trackId) ⟨columns, countListens db.listens trackId⟩ }

/-- `INSERT OR IGNORE`, which also ignores a row without its source pointer. -/
def insertResolver (db : QueryDb) (library trackId : String) (extractor id : Option String)
    (row : ResolverRow) : QueryDb :=
  match extractor, id with
  | some extractor, some id =>
    if db.resolvers.has (library, trackId, extractor, id) then db
    else { db with resolvers := db.resolvers.set (library, trackId, extractor, id) row }
  | _, _ => db

def insertAbout (db : QueryDb) (library key : String) (row : AboutRow) : QueryDb :=
  { db with about := db.about.set (library, key) row }

def deleteLabel (db : QueryDb) (library trackId tag : String) : QueryDb :=
  { db with tags := db.tags.delete (library, trackId, tag) }

def insertLabel (db : QueryDb) (library trackId tag : String) (hash : Hash) : QueryDb :=
  { db with tags := db.tags.set (library, trackId, tag) hash }

/-- `UPDATE tracks SET listen_count = listen_count + ? WHERE track_id = ?`. -/
def addListens (tracks : OrderedMap (String × String) TrackRow) (trackId : String) (n : ℤ) :
    OrderedMap (String × String) TrackRow :=
  tracks.mapValues fun key row =>
    if key.2 = trackId then { row with listenCount := row.listenCount + n } else row

/-- `INSERT OR IGNORE` with the trigger `listens_count_insert`. -/
def insertListen (db : QueryDb) (library : String) (hash : Hash) (row : ListenRow) : QueryDb :=
  if db.listens.has (library, hash) then db
  else { db with
    listens := db.listens.set (library, hash) row
    tracks := addListens db.tracks row.trackId 1 }

def upsertMarker (db : QueryDb) (library : String) (marker : Marker) : QueryDb :=
  { db with libraryHeads := db.libraryHeads.set library marker }

/-- Every row of the library, with the trigger `listens_count_delete`, and its marker. -/
def removeLibrary (db : QueryDb) (library : String) : QueryDb :=
  let listens := db.listens.filterKeys fun k => k.1 = library
  { entries := db.entries.filterKeys fun k => k.1 ≠ library
    tracks := listens.values.foldl (fun tracks row => addListens tracks row.trackId (-1))
      (db.tracks.filterKeys fun k => k.1 ≠ library)
    tags := db.tags.filterKeys fun k => k.1 ≠ library
    resolvers := db.resolvers.filterKeys fun k => k.1 ≠ library
    about := db.about.filterKeys fun k => k.1 ≠ library
    listens := db.listens.filterKeys fun k => k.1 ≠ library
    libraryHeads := db.libraryHeads.delete library }

/-! ## Listen counts -/

/-- Each track's listen count is that of the listens table. -/
def Counted (db : QueryDb) : Prop :=
  ∀ key row, db.tracks.get key = some row → row.listenCount = countListens db.listens key.2

theorem addListens_columns (tracks : OrderedMap (String × String) TrackRow) (trackId : String) (n : ℤ)
    (key : String × String) :
    ((addListens tracks trackId n).get key).map TrackRow.toTrackColumns =
      (tracks.get key).map TrackRow.toTrackColumns := by
  rw [addListens, OrderedMap.get_mapValues, Option.map_map]
  congr 1
  funext row
  rw [Function.comp_apply]
  split <;> rfl

/-- A new listen counts once, for its own track. -/
theorem insertListen_counted {db : QueryDb} (h : db.Counted) (library : String) (hash : Hash) (row : ListenRow) :
    (db.insertListen library hash row).Counted := by
  unfold insertListen
  split
  · exact h
  case isFalse hnew =>
    intro key track ht
    have hnone : db.listens.get (library, hash) = none := by simpa [OrderedMap.has] using hnew
    obtain ⟨old, hold, rfl⟩ : ∃ old, db.tracks.get key = some old ∧
        (if key.2 = row.trackId then { old with listenCount := old.listenCount + 1 } else old) = track := by
      simpa [addListens] using ht
    rw [countListens, OrderedMap.values_set _ hnone, List.countP_append]
    have hcount := h key old hold
    rw [countListens] at hcount
    by_cases hk : key.2 = row.trackId
    · rw [hk] at hcount
      simp [hk, hcount]
    · simp [hk, Ne.symm hk, hcount]

/-- A run of listen updates adds up over the listens of a track. -/
theorem get_foldl_addListens (rows : List ListenRow) (n : ℤ) (tracks : OrderedMap (String × String) TrackRow)
    (key : String × String) :
    (rows.foldl (fun tracks row => addListens tracks row.trackId n) tracks).get key =
      (tracks.get key).map fun track => { track with
        listenCount := track.listenCount + n * rows.countP fun row => row.trackId = key.2 } := by
  induction rows generalizing tracks with
  | nil => simp
  | cons row rest ih =>
    rw [List.foldl_cons, ih, addListens, OrderedMap.get_mapValues, Option.map_map]
    congr 1
    funext track
    by_cases hk : row.trackId = key.2
    · simp [hk]
      ring
    · simp [hk, Ne.symm hk]

/-- Removing a library takes its listens out of every count. -/
theorem removeLibrary_counted {db : QueryDb} (h : db.Counted) (library : String) :
    (db.removeLibrary library).Counted := by
  intro key track ht
  have hsplit : ∀ id, countListens db.listens id =
      countListens (db.listens.filterKeys fun k => k.1 = library) id +
        countListens (db.listens.filterKeys fun k => k.1 ≠ library) id := fun id => by
    simp only [countListens, OrderedMap.values, OrderedMap.filterKeys]
    generalize db.listens.items = items
    induction items with
    | nil => rfl
    | cons p rest ih =>
      by_cases hp : p.1.1 = library
      · by_cases ht : p.2.trackId = id <;> simp_all
        ring
      · by_cases ht : p.2.trackId = id <;> simp_all
        ring
  simp only [removeLibrary, get_foldl_addListens, OrderedMap.get_filterKeys, Option.map_eq_some_iff] at ht
  obtain ⟨old, hold, rfl⟩ := ht
  split at hold
  · have hcount := h key old hold
    rw [hsplit] at hcount
    change old.listenCount + -1 * countListens (db.listens.filterKeys fun k => k.1 = library) key.2 =
      countListens (db.listens.filterKeys fun k => k.1 ≠ library) key.2
    rw [hcount]
    ring
  · simp at hold

end QueryDb

end RecordNode
