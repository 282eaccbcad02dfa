import RecordNode.Foundation.Run
import RecordNode.Foundation.Sql
import RecordNode.QueryDb.Projector
import RecordNode.QueryDb.Writes

/-! # The tables the triggers keep

Beside the projected rows the index holds each library's totals and a search row for
each track, which only triggers write: one pair on the entries, two on the tracks. The
listens triggers are part of `insertListen` and `removeLibrary`. The projector runs its
statements in transactions; one that a constraint refuses rolls back to the last
commit, which the batcher may have put off over several transactions. -/

namespace RecordNode

open Foundation

/-- A row of `library_totals`. -/
structure Totals where
  trackCount : ℤ
  audioSizeBytes : SqlNumber
  putCount : ℤ
deriving DecidableEq

/-- The column defaults. -/
def Totals.zero : Totals := ⟨0, .integer 0, 0⟩

/-- The columns of `track_search`. -/
structure SearchRow where
  title : Option String
  artist : Option String
  album : Option String
  remixer : Option String
deriving DecidableEq

def TrackColumns.searchRow (columns : TrackColumns) : SearchRow :=
  ⟨columns.title, columns.artist, columns.album, columns.remixer⟩

/-- `coalesce(audio_size_bytes, 0)`, of a column of integer affinity. -/
def TrackColumns.bytes (columns : TrackColumns) : SqlNumber :=
  (columns.audioSizeBytes.elim (.integer 0) fun size => (SqlNumber.real size).stored)

/-- `op = 'PUT'`. -/
def EntryRow.putDelta (row : EntryRow) : ℤ := if row.op = .put then 1 else 0

/-- The index with what its triggers keep: the totals by library, the search keys by
library and track id, and the search rows by id. -/
structure AggregateDb where
  rows : QueryDb
  totals : OrderedMap String Totals
  searchKeys : OrderedMap (String × String) ℕ
  search : OrderedMap ℕ SearchRow

namespace AggregateDb

def empty : AggregateDb := ⟨.empty, .empty, .empty, .empty⟩

/-- A library's totals; a missing row means zeros. -/
def totalsOf (db : AggregateDb) (library : String) : Totals := (db.totals.get library).getD .zero

/-! ## The triggers -/

/-- `counted` over the tracks. -/
def countTrack (db : AggregateDb) (library : String) (count : ℤ) (bytes : SqlNumber) : AggregateDb :=
  let old := db.totalsOf library
  let new := { old with
    trackCount := old.trackCount + count
    audioSizeBytes := (old.audioSizeBytes.add bytes).stored }
  { db with totals := db.totals.set library new }

/-- `counted` over the entries. -/
def countEntry (db : AggregateDb) (library : String) (puts : ℤ) : AggregateDb :=
  let old := db.totalsOf library
  let new := { old with putCount := old.putCount + puts }
  { db with totals := db.totals.set library new }

/-- The id a new row takes: one past the largest. -/
def nextId (keys : OrderedMap (String × String) ℕ) : ℕ := keys.values.foldr max 0 + 1

/-- `tracks_search_insert`; the key is unique, and so is the row id. -/
def searchInsert (db : AggregateDb) (key : String × String) (row : SearchRow) : Option AggregateDb :=
  let id := nextId db.searchKeys
  if db.searchKeys.has key || db.search.has id then none
  else some { db with searchKeys := db.searchKeys.set key id, search := db.search.set id row }

/-- `tracks_search_delete`, which finds no search row by a key that is not there. -/
def searchDelete (db : AggregateDb) (key : String × String) : AggregateDb :=
  { db with
    search := match db.searchKeys.get key with
      | some id => db.search.delete id
      | none => db.search
    searchKeys := db.searchKeys.delete key }

/-- The triggers of a deleted track row. -/
def trackDeleted (db : AggregateDb) (gone : (String × String) × TrackRow) : AggregateDb :=
  (db.countTrack gone.1.1 (-1) gone.2.bytes.neg).searchDelete gone.1

def entryDeleted (db : AggregateDb) (gone : (String × String) × EntryRow) : AggregateDb :=
  db.countEntry gone.1.1 (-gone.2.putDelta)

end AggregateDb

/-! ## The statements -/

/-- The projector's statements; those of `clear_key` and of `remove_library` run together. -/
inductive Statement where
  | clearKey (library key : String)
  | deleteEntry (library key : String)
  | insertEntry (library key : String) (row : EntryRow)
  | insertTrack (library trackId : String) (columns : TrackColumns)
  | insertResolver (library trackId : String) (extractor id : Option String) (row : ResolverRow)
  | insertAbout (library key : String) (row : AboutRow)
  | deleteLabel (library trackId tag : String)
  | insertLabel (library trackId tag : String) (hash : Hash)
  | insertListen (library : String) (hash : Hash) (row : ListenRow)
  | upsertMarker (library : String) (marker : Marker)
  | removeLibrary (library : String)

namespace Statement

/-- What a statement does to the projected rows. -/
def apply (rows : QueryDb) : Statement → QueryDb
  | clearKey library key => rows.clearKey library key
  | deleteEntry library key => rows.deleteEntry library key
  | insertEntry library key row => rows.insertEntry library key row
  | insertTrack library trackId columns => rows.insertTrack library trackId columns
  | insertResolver library trackId extractor id row => rows.insertResolver library trackId extractor id row
  | insertAbout library key row => rows.insertAbout library key row
  | deleteLabel library trackId tag => rows.deleteLabel library trackId tag
  | insertLabel library trackId tag hash => rows.insertLabel library trackId tag hash
  | insertListen library hash row => rows.insertListen library hash row
  | upsertMarker library marker => rows.upsertMarker library marker
  | removeLibrary library => rows.removeLibrary library

/-- A plain insert over a key that is there. -/
def conflicts (rows : QueryDb) : Statement → Bool
  | insertEntry library key _ => rows.entries.has (library, key)
  | insertTrack library trackId _ => rows.tracks.has (library, trackId)
  | insertAbout library key _ => rows.about.has (library, key)
  | insertLabel library trackId tag _ => rows.tags.has (library, trackId, tag)
  | _ => false

/-- The triggers a statement fires, row by row. -/
def fire (db : AggregateDb) : Statement → Option AggregateDb
  | clearKey library key =>
    some ((db.rows.tracks.filterKeys fun k => k = (library, key)).items.foldl AggregateDb.trackDeleted db)
  | deleteEntry library key =>
    some ((db.rows.entries.filterKeys fun k => k = (library, key)).items.foldl AggregateDb.entryDeleted db)
  | insertEntry library _ row => some (db.countEntry library row.putDelta)
  | insertTrack library trackId columns =>
    (db.countTrack library 1 columns.bytes).searchInsert (library, trackId) columns.searchRow
  | removeLibrary library =>
    let tracksGone := (db.rows.tracks.filterKeys fun k => k.1 = library).items.foldl AggregateDb.trackDeleted db
    let entriesGone := (db.rows.entries.filterKeys fun k => k.1 = library).items.foldl AggregateDb.entryDeleted tracksGone
    some { entriesGone with totals := entriesGone.totals.delete library }
  | _ => some db

end Statement

namespace AggregateDb

/-- One statement with its triggers; nothing when a constraint refuses it. -/
def exec (db : AggregateDb) (statement : Statement) : Option AggregateDb :=
  if statement.conflicts db.rows then none
  else (statement.fire db).map fun fired => { fired with rows := statement.apply db.rows }

end AggregateDb

/-! ## The transactions -/

section Transactions
variable (o : Oplog)

def labelStatements (key : String) : List Statement :=
  let library := o.chain.address
  let (trackId, label) := labelPairOf key
  match labelRow o key with
  | none => [.deleteLabel library trackId label]
  | some hash => [.deleteLabel library trackId label, .insertLabel library trackId label hash]

def resolverStatements (library trackId : String) (resolvers : List Fields) : List Statement :=
  resolvers.map fun resolver => .insertResolver library trackId (textOf (resolver.get "extractor"))
    (textOf (resolver.get "id")) (resolverRow resolver)

def keyStatements (loaded : LoadedKey) : List Statement :=
  let library := o.chain.address
  let cleared := [.clearKey library loaded.key, .deleteEntry library loaded.key]
  match loaded.entry with
  | none => cleared
  | some e =>
    match e.operation with
    | .about value _ => cleared ++ [
        .insertEntry library loaded.key ⟨e.hash, .put, .about, e.time, value.timestamp⟩,
        .insertAbout library loaded.key ⟨e.hash, value.name⟩]
    | .track envelope _ => cleared ++ [
        .insertEntry library loaded.key ⟨e.hash, .put, .track, e.time, envelope.timestamp⟩,
        .insertTrack library envelope.id.text
          (trackColumns e envelope loaded.content (addedAtOf o envelope.id.text))] ++
        resolverStatements library envelope.id.text (resolversOf loaded.content)
    | .del _ timestamp _ => cleared ++ [
        .insertEntry library loaded.key ⟨e.hash, .del, .track, e.time, timestamp⟩]
    | _ => cleared

def listenStatements (entry : VerifiedEntry) : List Statement :=
  match entry.operation with
  | .listen trackId address timestamp =>
    [.insertListen o.chain.address entry.hash ⟨trackId, address, timestamp⟩]
  | _ => []

end Transactions

/-- What the projector hands to `transact`. -/
inductive Transaction where
  | round (o : Oplog) (labels : List String) (stable : List LoadedKey)
  | listens (o : Oplog) (entries : List VerifiedEntry)
  | identity (o : Oplog)
  | remove (library : String)

namespace Transaction

/-- The statements of a transaction that finds these rows; only the marker is read from them. -/
def statements (rows : QueryDb) : Transaction → List Statement
  | round o labels stable =>
    labels.flatMap (labelStatements o) ++ stable.flatMap (keyStatements o) ++
      [.upsertMarker o.chain.address
        ⟨headsOf o, sortBy compareText (stable.foldl touchPending (pendingOf rows o.chain.address)).items⟩]
  | listens o entries =>
    entries.flatMap (listenStatements o) ++ [.upsertMarker o.chain.address ⟨headsOf o, []⟩]
  | identity o => [.upsertMarker o.chain.address ⟨headsOf o, []⟩]
  | remove library => [.removeLibrary library]

/-- What a transaction leaves of the projected rows. -/
def write (rows : QueryDb) : Transaction → QueryDb
  | round o labels stable => writeRound o rows labels stable
  | listens o entries => writeListens o rows entries
  | identity o => writeIdentity o rows
  | remove library => rows.removeLibrary library

end Transaction

/-! ## The rows are those of the projector -/

section Rows
variable (o : Oplog)

theorem foldl_labelStatements (rows : QueryDb) (key : String) :
    (labelStatements o key).foldl Statement.apply rows = writeLabel o rows key := by
  unfold labelStatements writeLabel
  cases labelRow o key with
  | none => rfl
  | some hash => rfl

theorem foldl_keyStatements (rows : QueryDb) (loaded : LoadedKey) :
    (keyStatements o loaded).foldl Statement.apply rows = writeKey o rows loaded.key loaded.entry loaded.content := by
  unfold keyStatements writeKey
  cases loaded.entry with
  | none => rfl
  | some e =>
    dsimp only
    cases e.operation with
    | track envelope c =>
      dsimp only
      rw [List.foldl_append, resolverStatements, List.foldl_map]
      rfl
    | _ => rfl

theorem foldl_listenStatements (rows : QueryDb) (entry : VerifiedEntry) :
    (listenStatements o entry).foldl Statement.apply rows = writeListen rows o.chain.address entry := by
  unfold listenStatements writeListen
  cases entry.operation <;> rfl

theorem writeLabel_libraryHeads (rows : QueryDb) (key : String) :
    (writeLabel o rows key).libraryHeads = rows.libraryHeads := by
  unfold writeLabel
  dsimp only
  split <;> rfl

theorem foldl_writeLabel_libraryHeads (rows : QueryDb) (labels : List String) :
    (labels.foldl (writeLabel o) rows).libraryHeads = rows.libraryHeads := by
  induction labels generalizing rows with
  | nil => rfl
  | cons key rest ih => rw [List.foldl_cons, ih, writeLabel_libraryHeads]

theorem foldl_writeKey_libraryHeads (rows : QueryDb) (stable : List LoadedKey) :
    (stable.foldl (fun rows loaded => writeKey o rows loaded.key loaded.entry loaded.content) rows).libraryHeads =
      rows.libraryHeads := by
  induction stable generalizing rows with
  | nil => rfl
  | cons loaded rest ih => rw [List.foldl_cons, ih, (QueryDb.writeKey_same o rows _ _ _).libraryHeads]

end Rows

/-- The statements of a transaction write what the projector's functions write. -/
theorem Transaction.foldl_statements (rows : QueryDb) (t : Transaction) :
    (t.statements rows).foldl Statement.apply rows = t.write rows := by
  cases t with
  | round o labels stable =>
    have hpending : pendingOf (stable.foldl (fun rows loaded => writeKey o rows loaded.key loaded.entry loaded.content)
        (labels.foldl (writeLabel o) rows)) o.chain.address = pendingOf rows o.chain.address := by
      rw [pendingOf, pendingOf, foldl_writeKey_libraryHeads, foldl_writeLabel_libraryHeads]
    simp only [statements, write, writeRound, touchMarker, List.foldl_append, List.foldl_flatMap,
      foldl_labelStatements, foldl_keyStatements, hpending]
    rfl
  | listens o entries =>
    simp only [statements, write, writeListens, List.foldl_append, List.foldl_flatMap, foldl_listenStatements]
    rfl
  | identity o => rfl
  | remove library => rfl

namespace AggregateDb

theorem exec_eq_some {db later : AggregateDb} {statement : Statement} (h : db.exec statement = some later) :
    statement.conflicts db.rows = false ∧ ∃ fired, statement.fire db = some fired ∧
      later = { fired with rows := statement.apply db.rows } := by
  unfold exec at h
  split at h
  · cases h
  case isFalse hfree =>
    obtain ⟨fired, hfired, rfl⟩ := Option.map_eq_some_iff.mp h
    exact ⟨Bool.eq_false_iff.mpr hfree, fired, hfired, rfl⟩

theorem exec_rows {db later : AggregateDb} {statement : Statement} (h : db.exec statement = some later) :
    later.rows = statement.apply db.rows := by
  obtain ⟨-, fired, -, rfl⟩ := exec_eq_some h
  rfl

theorem runLabels_exec_rows {db later : AggregateDb} {statements : List Statement}
    (h : runLabels exec db statements = some later) : later.rows = statements.foldl Statement.apply db.rows := by
  induction statements generalizing db with
  | nil => rw [← Option.some_inj.mp h, List.foldl_nil]
  | cons statement rest ih =>
    obtain ⟨mid, hmid, hrest⟩ := Option.bind_eq_some_iff.mp h
    rw [ih hrest, exec_rows hmid, List.foldl_cons]

end AggregateDb

end RecordNode
