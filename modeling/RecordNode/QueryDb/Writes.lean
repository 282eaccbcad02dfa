import RecordNode.Oplog.Exact
import RecordNode.QueryDb.Projector

/-! # What the writes leave alone

A key's write changes no label row, no listen and no marker, and a track row is
written with the count of its listens. -/

namespace RecordNode

open Foundation

namespace QueryDb

/-- The tables `writeKey` leaves alone. -/
structure SameOthers (db later : QueryDb) : Prop where
  tags : later.tags = db.tags
  listens : later.listens = db.listens
  libraryHeads : later.libraryHeads = db.libraryHeads

theorem SameOthers.trans {db mid later : QueryDb} (a : SameOthers db mid) (b : SameOthers mid later) :
    SameOthers db later :=
  ⟨b.tags.trans a.tags, b.listens.trans a.listens, b.libraryHeads.trans a.libraryHeads⟩

section Resolvers
variable (library trackId : String)

theorem insertResolver_same (db : QueryDb) (extractor id : Option String) (row : ResolverRow) :
    SameOthers db (db.insertResolver library trackId extractor id row) ∧
      (db.insertResolver library trackId extractor id row).entries = db.entries ∧
      (db.insertResolver library trackId extractor id row).tracks = db.tracks ∧
      (db.insertResolver library trackId extractor id row).about = db.about := by
  unfold insertResolver
  split
  · split <;> exact ⟨⟨rfl, rfl, rfl⟩, rfl, rfl, rfl⟩
  · exact ⟨⟨rfl, rfl, rfl⟩, rfl, rfl, rfl⟩

theorem insertResolvers_same (db : QueryDb) (resolvers : List Fields) :
    SameOthers db (insertResolvers db library trackId resolvers) := by
  induction resolvers generalizing db with
  | nil => exact ⟨rfl, rfl, rfl⟩
  | cons resolver rest ih =>
    obtain ⟨h, -⟩ := insertResolver_same library trackId db (textOf (resolver.get "extractor"))
      (textOf (resolver.get "id")) (resolverRow resolver)
    exact h.trans (ih _)

end Resolvers

/-! ## One key -/

theorem insertTrack_counted {db : QueryDb} (h : db.Counted) (library trackId : String) (columns : TrackColumns) :
    (db.insertTrack library trackId columns).Counted := by
  intro key row hrow
  simp only [insertTrack, OrderedMap.get_set] at hrow
  split at hrow
  case isTrue heq =>
    subst heq
    rw [← Option.some_inj.mp hrow]
    rfl
  case isFalse => exact h key row hrow

variable (o : Oplog)

theorem writePut_same (db : QueryDb) (entry : VerifiedEntry) (envelope : Envelope) (content : Option Fields) :
    SameOthers db (writePut o db entry envelope content) := by
  have h := insertResolvers_same o.chain.address envelope.id.text
    (db.insertTrack o.chain.address envelope.id.text
      (trackColumns entry envelope content (addedAtOf o envelope.id.text))) (resolversOf content)
  exact ⟨h.tags, h.listens, h.libraryHeads⟩

theorem writeKey_same (db : QueryDb) (key : String) (entry : Option VerifiedEntry) (content : Option Fields) :
    SameOthers db (writeKey o db key entry content) := by
  unfold writeKey
  cases entry with
  | none => exact ⟨rfl, rfl, rfl⟩
  | some e =>
    dsimp only
    split
    · exact ⟨rfl, rfl, rfl⟩
    case h_2 envelope c hop =>
      have h := writePut_same o (((db.clearKey o.chain.address key).deleteEntry o.chain.address key).insertEntry
        o.chain.address key ⟨e.hash, .put, .track, e.time, envelope.timestamp⟩) e envelope content
      exact ⟨h.tags, h.listens, h.libraryHeads⟩
    · exact ⟨rfl, rfl, rfl⟩
    · exact ⟨rfl, rfl, rfl⟩

end QueryDb

end RecordNode
