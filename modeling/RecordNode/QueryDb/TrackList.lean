import RecordNode.Foundation.Paging
import RecordNode.QueryDb.Aggregates
import Mathlib.Data.Sum.Order

/-! # Track lists

`list_tracks` over the index: the filters of a query as predicates on rows, the sources
a statement reads from as lists, the counts it takes and keeps, and the page of keys it
orders. The engine's own predicates and its count of changed rows are parameters. The
shuffled order and what a row of a page is hydrated with are left out. -/

namespace RecordNode

open Foundation

inductive TrackSort where
  | title
  | artist
  | album
  | bpm
  | duration
  | bitrate
  | listenCount
  | addedAt
deriving DecidableEq

inductive SortOrder where
  | asc
  | desc
deriving DecidableEq

/-- What a sort compares: numbers, `Infinity` among them, before texts. -/
abbrev SqlKey := Lex (WithTop ℚ ⊕ List ℕ)

/-- The engine: `LIKE` with a pattern, a full-text match of a search row, and how many
rows a transaction changed, which is none only where it left the tables as they were. -/
structure SqlEngine where
  like : String → String → Bool
  matchPhrase : String → SearchRow → Bool
  changed : AggregateDb → Transaction → ℕ
  eq_of_changed {db later : AggregateDb} {t : Transaction} :
    runLabels AggregateDb.exec db (t.statements db.rows) = some later → changed db t = 0 → later = db

/-- A row of `tracks` under its key. -/
abbrev Track := (String × String) × TrackRow

/-- Whether a sort's column may be null. -/
def TrackSort.nullable : TrackSort → Bool
  | listenCount | addedAt => false
  | _ => true

/-- `COLLATE NOCASE`: the letters of ASCII are folded, and the rest compares by code point.
The comparison stops at an embedded U+0000, past which only the lengths in bytes count. -/
def nocase (text : String) : List ℕ :=
  ((text.toList.takeWhile (· ≠ Char.ofNat 0)).map fun c => c.toLower.toNat) ++ [0, text.utf8ByteSize]

def textKey (text : Option String) : Option SqlKey := text.map fun t => toLex (.inr (nocase t))

def numberKey (number : Option ℚ) : Option SqlKey := number.map fun x => toLex (.inl (x : WithTop ℚ))

/-- The sort's key of a row, none where it is null. -/
def sortKey (row : TrackRow) : TrackSort → Option SqlKey
  | .title => textKey row.title
  | .artist => textKey row.artist
  | .album => textKey row.album
  | .bpm => numberKey row.bpm
  | .duration => numberKey row.durationSeconds
  | .bitrate => numberKey row.bitrate
  | .listenCount => numberKey (some row.listenCount)
  | .addedAt => some (toLex (.inl (row.addedAtMs.elim ⊤ fun ms => ((ms : ℚ) : WithTop ℚ))))

def defaultLimit : ℕ := 100
def maxLimit : ℕ := 500

structure ListTracksInput where
  ownLibraryAddresses : List String := []
  libraryAddresses : Option (List String) := none
  labelLibraries : Option (List String) := none
  tags : List String := []
  tagGroups : List (List String) := []
  query : Option String := none
  sort : TrackSort := .addedAt
  order : SortOrder := .desc
  offset : ℤ := 0
  limit : ℤ := defaultLimit

/-- `Number.isSafeInteger` of an integer. -/
def isSafeInteger (n : ℤ) : Bool := n.natAbs ≤ Value.maxSafeInteger

def assertPage (offset limit : ℤ) : Except String Unit :=
  if !isSafeInteger offset || offset < 0 then .error s!"offset must be an integer >= 0, not {offset}"
  else if !isSafeInteger limit || limit < 1 || limit > maxLimit then
    .error s!"limit must be an integer from 1 to {maxLimit}, not {limit}"
  else .ok ()

/-! ## Search texts -/

def likePattern (query : String) : String :=
  "%" ++ String.ofList (query.toList.flatMap fun c => if c = '\\' || c = '%' || c = '_' then ['\\', c] else [c]) ++ "%"

def searchPhrase (query : String) : String :=
  "\"" ++ String.ofList (query.toList.flatMap fun c => if c = '"' then ['"', '"'] else [c]) ++ "\""

/-- Three characters are what the trigram index matches; a shorter query scans with `LIKE`. -/
def trigram : ℕ := 3

inductive Search where
  | phrase (text : String)
  | pattern (text : String)
deriving DecidableEq

def searchOf (query : Option String) : Option Search :=
  match query with
  | none => none
  | some text =>
    if text = "" then none
    else if trigram ≤ text.length then some (.phrase (searchPhrase text))
    else some (.pattern (likePattern text))

/-! ## The filters -/

/-- The parameters of a statement, which also decide its text: own libraries only where
the duplicate probe is made, label libraries only where there are groups. -/
structure Parameters where
  ownLibraryAddresses : Option (List String)
  libraryAddresses : Option (List String)
  labelLibraries : Option (List String)
  search : Option Search
  tagGroups : List (List String)
deriving DecidableEq

/-- Every group must match, by any of its labels; a tags label is a group of one. -/
def groupsOf (input : ListTracksInput) : List (List String) :=
  (OrderedSet.ofList input.tags).items.map (fun tag => [tag]) ++
    input.tagGroups.map fun group => (OrderedSet.ofList group).items

def parametersOf (input : ListTracksInput) (duplicates : Bool) : Parameters where
  ownLibraryAddresses := if duplicates then some input.ownLibraryAddresses else none
  libraryAddresses := input.libraryAddresses
  labelLibraries := if groupsOf input = [] then none else input.labelLibraries
  search := searchOf input.query
  tagGroups := groupsOf input

def inScope (scope : Option (List String)) (library : String) : Bool := scope.all fun addresses => addresses.contains library

/-- The requestor's own libraries first, then the lowest address. -/
def rank (own : List String) (library : String) : Lex (Bool × List ℕ) :=
  toLex (!own.contains library, codeUnits library)

/-- No scoped row of the track id ranks before this one. -/
def probe (db : AggregateDb) (scope : Option (List String)) (own : List String) (key : String × String) : Bool :=
  !db.rows.tracks.items.any fun other =>
    other.1.2 = key.2 && inScope scope other.1.1 && rank own other.1.1 < rank own key.1

/-- `representative_sql`. -/
def representative (db : AggregateDb) (p : Parameters) (key : String × String) : Bool :=
  inScope p.libraryAddresses key.1 && p.ownLibraryAddresses.all fun own => probe db p.libraryAddresses own key

/-- `label_scope`: the given libraries, or every library the index holds. -/
def labelScope (db : AggregateDb) (labelLibraries : Option (List String)) (library : String) : Bool :=
  match labelLibraries with
  | none => db.rows.libraryHeads.has library || db.totals.has library
  | some libraries => libraries.contains library

/-- The track ids with a label of the group, once for each such label row. -/
def labelled (db : AggregateDb) (labelLibraries : Option (List String)) (group : List String) : List String :=
  (db.rows.tags.items.filter fun row => labelScope db labelLibraries row.1.1 && group.contains row.1.2.2).map
    fun row => row.1.2.1

/-- A label group as a filter: a set read once, or a probe of each walked row's track id. -/
def groupFilter (db : AggregateDb) (labelLibraries : Option (List String)) (correlated : Bool) (trackId : String)
    (group : List String) : Bool :=
  if correlated then
    db.rows.tags.items.any fun row =>
      row.1.2.1 = trackId && group.contains row.1.2.2 && labelScope db labelLibraries row.1.1
  else (labelled db labelLibraries group).contains trackId

def keyFilter (db : AggregateDb) (p : Parameters) (correlated : Bool) (key : String × String) : Bool :=
  representative db p key && p.tagGroups.all (groupFilter db p.labelLibraries correlated key.2)

/-- The columns a search looks at, a null one matching nothing. -/
def likeFilter (S : SqlEngine) (search : Option Search) (row : TrackRow) : Bool :=
  match search with
  | some (.pattern pattern) =>
    [row.title, row.artist, row.album, row.remixer].any fun text => text.any (S.like pattern)
  | _ => true

/-- `where_for`. -/
def whereFor (S : SqlEngine) (db : AggregateDb) (p : Parameters) (correlated : Bool) (track : Track) : Bool :=
  keyFilter db p correlated track.1 && likeFilter S p.search track.2

/-! ## The sources -/

/-- The keys of the search rows that match. -/
def matchKeys (S : SqlEngine) (db : AggregateDb) (phrase : String) : List (String × String) :=
  (db.search.items.filter fun row => S.matchPhrase phrase row.2).flatMap fun row =>
    (db.searchKeys.items.filter fun key => key.2 = row.1).map Prod.fst

def matchRows (S : SqlEngine) (db : AggregateDb) (phrase : String) : List Track :=
  (matchKeys S db phrase).flatMap fun key => db.rows.tracks.items.filter fun track => track.1 = key

def testedRows (S : SqlEngine) (db : AggregateDb) (phrase : String) : List Track :=
  db.rows.tracks.items.filter fun track => (matchKeys S db phrase).contains track.1

/-! ## The counts -/

/-- A condition on the sort's column: none, not null or null. -/
abbrev Condition := Option (TrackSort × Bool)

def Condition.holds (condition : Condition) (row : TrackRow) : Bool :=
  match condition with
  | none => true
  | some (sort, present) => (sortKey row sort).isSome = present

/-- `count`: over matched keys alone when there is no condition to test. -/
def countRows (S : SqlEngine) (db : AggregateDb) (p : Parameters) (condition : Condition) : ℕ :=
  match p.search, condition with
  | some (.phrase phrase), none => ((matchKeys S db phrase).filter (keyFilter db p false)).length
  | some (.phrase phrase), some _ =>
    ((matchRows S db phrase).filter fun track => whereFor S db p false track && condition.holds track.2).length
  | _, _ =>
    (db.rows.tracks.items.filter fun track => whereFor S db p false track && condition.holds track.2).length

/-- `scope_total`, from the trigger-kept totals. -/
def scopeTotal (db : AggregateDb) (scope : Option (List String)) : ℤ :=
  ((db.totals.items.filter fun row => inScope scope row.1).map fun row => row.2.trackCount).sum

def intersect (first second : List String) : List String :=
  (OrderedSet.ofList first).items.filter second.contains

/-- `sets.join(' INTERSECT ')`; a single set stands as it is. -/
def intersectAll : List (List String) → List String
  | [] => []
  | [set] => set
  | first :: second :: rest => intersectAll (intersect first second :: rest)
termination_by sets => sets.length

/-- `label_count`: the groups' intersection, cut to the track ids a scoped library holds. -/
def labelCount (db : AggregateDb) (p : Parameters) : ℕ :=
  ((intersectAll (p.tagGroups.map (labelled db p.labelLibraries))).filter fun trackId =>
    db.rows.tracks.items.any fun track => track.1.2 = trackId && inScope p.libraryAddresses track.1.1).length

/-- Whether two scoped rows hold one track id. -/
def duplicateIds (db : AggregateDb) (scope : Option (List String)) : Bool :=
  let ids := (db.rows.tracks.items.filter fun track => inScope scope track.1.1).map fun track => track.1.2
  ids.any fun id => 1 < ids.count id

inductive CountKey where
  | duplicates (scope : Option (List String))
  | labels (parameters : Parameters)
  | rows (condition : Condition) (parameters : Parameters)
deriving DecidableEq

/-- What a count under this key reads. -/
def countOf (S : SqlEngine) (db : AggregateDb) : CountKey → ℤ
  | .duplicates scope => if duplicateIds db scope then 1 else 0
  | .labels p => labelCount db p
  | .rows condition p => countRows S db p condition

/-! ## The counts kept -/

def maxCachedCounts : ℕ := 256

structure CountCache where
  generation : ℕ
  counts : OrderedMap CountKey ℤ

/-- The connection as its readers see it: `db.isTransaction`, `total_changes()`, and the counts. -/
structure QueryConnection where
  index : IndexConnection
  inTransaction : Bool
  changes : ℕ
  cache : Option CountCache

namespace QueryConnection

def db (s : QueryConnection) : AggregateDb := s.index.db

/-- The counts of this generation, none of them when it has moved or there are too many. -/
def currentCache (s : QueryConnection) : CountCache :=
  match s.cache with
  | none => ⟨s.changes, .empty⟩
  | some cache =>
    if cache.generation ≠ s.changes || maxCachedCounts ≤ cache.counts.size then ⟨s.changes, .empty⟩ else cache

def cachedCount (S : SqlEngine) (s : QueryConnection) (key : CountKey) : ℤ × QueryConnection :=
  if s.inTransaction then (countOf S s.db key, s)
  else
    match s.currentCache.counts.get key with
    | some value => (value, { s with cache := some s.currentCache })
    | none => (countOf S s.db key, { s with cache := some { s.currentCache with
        counts := s.currentCache.counts.set key (countOf S s.db key) } })

end QueryConnection

/-! ## Pages -/

structure TrackPage where
  items : List Track
  total : ℤ

/-- One library cannot hold a track id twice. -/
def oneLibrary (scope : Option (List String)) : Bool :=
  scope.any fun addresses => (OrderedSet.ofList addresses).size ≤ 1

def readDuplicates (S : SqlEngine) (s : QueryConnection) (scope : Option (List String)) : Bool × QueryConnection :=
  if oneLibrary scope then (false, s)
  else
    let (found, s) := s.cachedCount S (.duplicates scope)
    (found = 1, s)

def readTotal (S : SqlEngine) (s : QueryConnection) (p : Parameters) : ℤ × QueryConnection :=
  if p.tagGroups ≠ [] && p.search.isNone then s.cachedCount S (.labels p)
  else if p.search.isSome || p.tagGroups ≠ [] || p.ownLibraryAddresses.isSome then s.cachedCount S (.rows none p)
  else (scopeTotal s.db p.libraryAddresses, s)

def sortedMatchesMax : ℕ := 5000

/-- Whether the walk of a labelled page reads under half as many rows as there are matches; an
estimate, which only picks the source. -/
def walksIndex (db : AggregateDb) (p : Parameters) (offset limit : ℕ) (total : ℤ) : Bool :=
  p.tagGroups ≠ [] && p.search.isNone && 0 < total &&
    (2 * (offset + limit) * scopeTotal db p.libraryAddresses : ℚ) / total < total

def sourceRows (S : SqlEngine) (db : AggregateDb) (p : Parameters) (total : ℤ) : List Track :=
  match p.search with
  | some (.phrase phrase) => if total ≤ sortedMatchesMax then matchRows S db phrase else testedRows S db phrase
  | _ => db.rows.tracks.items

/-- The rows a page is cut from. -/
def pageRows (S : SqlEngine) (db : AggregateDb) (p : Parameters) (walked : Bool) (total : ℤ) (condition : Condition) :
    List Track :=
  (sourceRows S db p total).filter fun track => whereFor S db p walked track && condition.holds track.2

/-- The sort's key of a track, and its id. -/
def sortKeys (sort : TrackSort) (track : Track) : Option SqlKey × List ℕ :=
  (sortKey track.2 sort, codeUnits track.1.2)

/-- `ORDER BY` the sort's key and the track id, both in one direction. -/
def orderByKey (input : ListTracksInput) (rows : List Track) : List Track :=
  orderBy (input.order = .desc) (fun track => toLex ((sortKeys input.sort track).1.elim ⊤ fun x => (x : WithTop SqlKey),
    (sortKeys input.sort track).2)) rows

def orderById (input : ListTracksInput) (rows : List Track) : List Track :=
  orderBy (input.order = .desc) (fun track => (sortKeys input.sort track).2) rows

/-- The keys of one page, and the connection after the counts they took. -/
def pageKeys (S : SqlEngine) (s : QueryConnection) (input : ListTracksInput) (p : Parameters) (offset limit : ℕ)
    (total : ℤ) : List (String × String) × QueryConnection :=
  let rows := pageRows S s.db p (walksIndex s.db p offset limit total) total
  if !input.sort.nullable then ((page offset limit (orderByKey input (rows none))).map Prod.fst, s)
  else
    -- Non-null keys first, then the null-key rows by track id.
    let present := (page offset limit (orderByKey input (rows (some (input.sort, true))))).map Prod.fst
    if present.length = limit then (present, s)
    else
      let (skipped, s) :=
        if present.length > 0 then ((0 : ℤ), s)
        else
          let (count, s) := s.cachedCount S (.rows (some (input.sort, true)) p)
          (offset - count, s)
      let absent := page skipped.toNat (limit - present.length) (orderById input (rows (some (input.sort, false))))
      (present ++ absent.map Prod.fst, s)

/-- `rows_by_key`: full rows in the keys' order, found by the text of the key. -/
def rowsByKey (db : AggregateDb) (keys : List (String × String)) : List Track :=
  let rows := db.rows.tracks.items.filter fun track => keys.contains track.1
  let byKey := rows.foldl (fun found track => found.set (track.1.1 ++ " " ++ track.1.2) track) OrderedMap.empty
  keys.filterMap fun key => byKey.get (key.1 ++ " " ++ key.2)

def listTracks (S : SqlEngine) (s : QueryConnection) (input : ListTracksInput) :
    Except String (TrackPage × QueryConnection) := do
  assertPage input.offset input.limit
  let (duplicates, s) := readDuplicates S s input.libraryAddresses
  let p := parametersOf input duplicates
  let (total, s) := readTotal S s p
  let (keys, s) := pageKeys S s input p input.offset.toNat input.limit.toNat total
  return (⟨rowsByKey s.db keys, total⟩, s)

/-! ## The connection -/

inductive QueryLabel where
  | transact (t : Transaction)
  | commit
  | other (rows : ℕ)
  | list (input : ListTracksInput)

namespace QueryConnection

def start : QueryConnection := ⟨.start, false, 0, none⟩

/-- A transaction opens the batch, or stays in it, and one that throws rolls it back; the
change count moves either way. Other tables' rows move it too. -/
def step (S : SqlEngine) (s : QueryConnection) : QueryLabel → Option QueryConnection
  | .transact t => (s.index.step (.transact t)).map fun index =>
      let opened := (runLabels AggregateDb.exec s.db (t.statements s.db.rows)).isSome
      { s with index := index, inTransaction := opened, changes := s.changes + S.changed s.db t }
  | .commit => (s.index.step .commit).map fun index => { s with index := index, inTransaction := false }
  | .other rows => some { s with changes := s.changes + rows }
  | .list input =>
    match listTracks S s input with
    | .ok (_, later) => some later
    | .error _ => some s

def Projecting (E : Environment) (_ : QueryConnection) : QueryLabel → Prop
  | .transact t => t.Loaded E
  | _ => True

end QueryConnection

end RecordNode
