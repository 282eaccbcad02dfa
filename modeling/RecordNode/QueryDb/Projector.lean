import RecordNode.Entry.Payload
import RecordNode.Fabric.ContentStore
import RecordNode.Oplog.Dag
import RecordNode.QueryDb.EntryBlocks
import RecordNode.QueryDb.Tables

/-! # Projecting oplog state into the tables

The oplog's current entry of a key decides the key's rows; the projector never
resolves entries itself. The writes replace the rows of the keys they are given, and
`labelRow` says what a label pair's row names. -/

namespace RecordNode

open Foundation

/-! ## Reading a content payload -/

def textOf (value : Option Value) : Option String := value.bind Value.asString?

def numberOf (value : Option Value) : Option ℚ := value.bind Value.asNumber?

def stringsOf (value : Option Value) : List String :=
  ((value.bind Value.asArray?).getD []).filterMap Value.asString?

/-- The fields of a map, none of anything else. -/
def contentFields (value : Option Value) : Fields := (value.bind Value.fields?).getD []

/-- Single-valued artists come through as a plain string. -/
def artistsOf (value : Option Value) : List String :=
  match value with
  | some (.string artist) => [artist]
  | _ => stringsOf value

def losslessOf (value : Option Value) : Option Bool :=
  match value with
  | some (.bool lossless) => some lossless
  | _ => none

/-- The validated payload behind a PUT; none when it is not stored or not valid. -/
def loadContent (E : Environment) (store : BlockStore) (entry : Option VerifiedEntry) : Option Fields :=
  match entry.map VerifiedEntry.operation with
  | some (.track envelope _) => (store.get envelope.content).bind fun bytes =>
      (decodePayload E bytes >>= validateTrackContent E).toOption
  | _ => none

/-! ## What a key's rows are -/

def putTimestamp (o : Oplog) (hash : Hash) : Option ℕ :=
  match (o.entries.get hash).map VerifiedEntry.operation with
  | some (.track envelope _) => some envelope.timestamp
  | _ => none

/-- First sight of a track: the earliest timestamp over every known PUT of the key. -/
def addedAtOf (o : Oplog) (key : String) : Option ℕ :=
  ((((o.keyEntries.get key).map OrderedSet.items).getD []).filterMap (putTimestamp o)).min?

def trackColumns (entry : VerifiedEntry) (envelope : Envelope) (content : Option Fields)
    (addedAtMs : Option ℕ) : TrackColumns :=
  let content := content.getD []
  let tags := contentFields (content.get "tags")
  let audio := contentFields (content.get "audio")
  { entryHash := entry.hash
    contentCid := envelope.content
    audioCid := textOf (content.get "hash")
    audioSizeBytes := numberOf (content.get "size")
    title := textOf (tags.get "title")
    artist := textOf (tags.get "artist")
    artists := artistsOf (tags.get "artists")
    album := textOf (tags.get "album")
    albumArtist := textOf (tags.get "albumartist")
    remixer := textOf (tags.get "remixer")
    genre := stringsOf (tags.get "genre")
    bpm := numberOf (tags.get "bpm")
    durationSeconds := numberOf (audio.get "duration")
    bitrate := numberOf (audio.get "bitrate")
    codec := textOf (audio.get "codec")
    sampleRate := numberOf (audio.get "sampleRate")
    lossless := losslessOf (audio.get "lossless")
    artwork := stringsOf (content.get "artwork")
    addedAtMs := addedAtMs }

def resolverRow (resolver : Fields) : ResolverRow where
  fulltitle := textOf (resolver.get "fulltitle")
  thumbnail := textOf (resolver.get "thumbnail")
  artist := textOf (resolver.get "artist")
  altTitle := textOf (resolver.get "alt_title")
  uploadDate := textOf (resolver.get "upload_date")
  webpageUrl := textOf (resolver.get "webpage_url")
  durationSeconds := numberOf (resolver.get "duration")

/-- The elements of `content.resolver`, each as the map it is read as. -/
def resolversOf (content : Option Fields) : List Fields :=
  (((content.getD []).array? "resolver").getD []).map fun resolver => contentFields (some resolver)

/-! ## The writes -/

section Writes
variable (o : Oplog)

/-- `heads_of`: the sorted hashes, so equal head sets encode identically. -/
def headsOf : List Hash := sortHeads o.heads.items

def insertResolvers (db : QueryDb) (library trackId : String) (resolvers : List Fields) : QueryDb :=
  resolvers.foldl (fun db resolver => db.insertResolver library trackId (textOf (resolver.get "extractor"))
    (textOf (resolver.get "id")) (resolverRow resolver)) db

/-- `write_put` and the `write_track` it calls. -/
def writePut (db : QueryDb) (entry : VerifiedEntry) (envelope : Envelope) (content : Option Fields) : QueryDb :=
  insertResolvers
    (db.insertTrack o.chain.address envelope.id.text
      (trackColumns entry envelope content (addedAtOf o envelope.id.text)))
    o.chain.address envelope.id.text (resolversOf content)

/-- Replaces every row a key projects to with the projection of its current entry. -/
def writeKey (db : QueryDb) (key : String) (entry : Option VerifiedEntry) (content : Option Fields) : QueryDb :=
  let library := o.chain.address
  let cleared := (db.clearKey library key).deleteEntry library key
  match entry with
  | none => cleared
  | some e =>
    match e.operation with
    | .about value _ =>
      (cleared.insertEntry library key ⟨e.hash, .put, .about, e.time, value.timestamp⟩).insertAbout library key
        ⟨e.hash, value.name⟩
    | .track envelope _ =>
      writePut o (cleared.insertEntry library key ⟨e.hash, .put, .track, e.time, envelope.timestamp⟩) e
        envelope content
    | .del _ timestamp _ => cleared.insertEntry library key ⟨e.hash, .del, .track, e.time, timestamp⟩
    | _ => cleared

def labelKeyPrefix : String := "label:"

def isLabelKey (key : String) : Bool := labelKeyPrefix.toList.isPrefixOf key.toList

/-- The pair a label state key names. -/
def labelPairOf (key : String) : String × String :=
  (String.ofList ((key.toList.drop 6).take 64), String.ofList (key.toList.drop 71))

/-- Whether a label record sets the pair under the key, rather than unsetting it. -/
def appliesLabel (record : LabelsRecord) (key : String) : Bool := (record.set.map labelStateKey).contains key

/-- The entry a label pair's row names: its current label record, while that sets it. -/
def labelRow (key : String) : Option Hash :=
  match o.current.get key with
  | none => none
  | some e =>
    match e.operation with
    | .labels _ value _ => if appliesLabel value key then some e.hash else none
    | _ => none

def writeLabel (db : QueryDb) (key : String) : QueryDb :=
  let library := o.chain.address
  let (trackId, label) := labelPairOf key
  let deleted := db.deleteLabel library trackId label
  match labelRow o key with
  | none => deleted
  | some hash => deleted.insertLabel library trackId label hash

def writeListen (db : QueryDb) (library : String) (entry : VerifiedEntry) : QueryDb :=
  match entry.operation with
  | .listen trackId address timestamp => db.insertListen library entry.hash ⟨trackId, address, timestamp⟩
  | _ => db

/-- A key with its current entry when its load began, and the content that load found. -/
structure LoadedKey where
  key : String
  entry : Option VerifiedEntry
  content : Option Fields

/-- A PUT whose content is not in the store joins the pending keys, any other leaves them. -/
def touchPending (pending : OrderedSet String) (loaded : LoadedKey) : OrderedSet String :=
  let pending := pending.delete loaded.key
  if (loaded.entry.any fun e => e.operation.isPut) && loaded.content.isNone then pending.add loaded.key
  else pending

def pendingOf (db : QueryDb) (library : String) : OrderedSet String :=
  .ofList (((db.libraryHeads.get library).map Marker.pending).getD [])

def touchMarker (db : QueryDb) (stable : List LoadedKey) : QueryDb :=
  db.upsertMarker o.chain.address
    ⟨headsOf o, sortBy compareText (stable.foldl touchPending (pendingOf db o.chain.address)).items⟩

/-- The transaction of one round of `write_keys`. -/
def writeRound (db : QueryDb) (labels : List String) (stable : List LoadedKey) : QueryDb :=
  touchMarker o (stable.foldl (fun db loaded => writeKey o db loaded.key loaded.entry loaded.content)
    (labels.foldl (writeLabel o) db)) stable

def writeListens (db : QueryDb) (entries : List VerifiedEntry) : QueryDb :=
  (entries.foldl (fun db entry => writeListen db o.chain.address entry) db).upsertMarker o.chain.address
    ⟨headsOf o, []⟩

/-- An identity library projects no rows. -/
def writeIdentity (db : QueryDb) : QueryDb := db.upsertMarker o.chain.address ⟨headsOf o, []⟩

end Writes

/-- `project_library` while nothing else runs: one round over every key, or every listen. -/
def projectLibrary (E : Environment) (store : BlockStore) (o : Oplog) (db : QueryDb) : QueryDb :=
  match o.chain.type with
  | .listens => writeListens o db o.entries.values
  | .identity => writeIdentity o db
  | .recordstore | .labels =>
    writeRound o db (o.keyEntries.keys.filter isLabelKey)
      ((o.keyEntries.keys.filter fun key => !isLabelKey key).map fun key =>
        ⟨key, o.current.get key, loadContent E store (o.current.get key)⟩)

end RecordNode
