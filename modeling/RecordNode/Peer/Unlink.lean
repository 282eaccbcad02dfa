import Mathlib.Logic.Relation
import RecordNode.Foundation.Run
import RecordNode.Peer.PinRecord

/-! # Unlinking a library

An unlink marks the library in the state file, deletes its link record, clears its
pin record, releases its pins, removes its heads from the state file, its rows and
its cached blocks, and clears the marker last. The state file is on disk when a call
returns; the pin index and the query index may lose their last batches in a crash.
The next start opens every marked library, which rebuilds its pin set from its heads
and its record, and unlinks it again. The avatar of the library's owner is pinned for
the library too, and only a record brings it back. -/

namespace RecordNode

open Foundation Relation

/-- An entry of the library: its block, its content payload, the blobs that names, and
whether the policy keeps them. -/
structure HeldEntry where
  hash : String
  content : Option String
  blobs : List String
  keeps : Bool

namespace HeldEntry

def pins (e : HeldEntry) : List (String × Bool) :=
  (e.hash, false) :: e.content.toList.map (fun cid => (cid, false)) ++
    if e.keeps then e.blobs.map fun cid => (cid, true) else []

/-- A recorded pin set lacks its block or its content payload. -/
def isUncovered (recorded : PinSet) (e : HeldEntry) : Bool :=
  !recorded.has e.hash || e.content.any fun cid => !recorded.has cid

end HeldEntry

/-- The library that is unlinked, with what other libraries and pin records hold. -/
structure HeldLibrary where
  chain : List String
  entries : List HeldEntry
  /-- The avatars of the library's owner, of the profiles announced so far. -/
  avatars : List String
  heldElsewhere : String → Bool

namespace HeldLibrary

def blobs (lib : HeldLibrary) : List String := lib.entries.flatMap HeldEntry.blobs

/-- What the library's entries name: their blocks, their payloads and the blobs of these. -/
def named (lib : HeldLibrary) : List String :=
  lib.entries.flatMap fun e => e.hash :: e.content.toList ++ e.blobs

/-- Every CID the library may have pinned. -/
def cids (lib : HeldLibrary) : List String := lib.chain ++ lib.avatars ++ lib.named

/-- A CID only this library held. -/
def Own (lib : HeldLibrary) (cid : String) : Prop := cid ∈ lib.cids ∧ lib.heldElsewhere cid = false

end HeldLibrary

structure PinDb where
  pinned : OrderedSet String
  record : LibraryPinRecord

/-- Whether the query index has rows and cached blocks of the library. -/
structure IndexDb where
  rows : Bool
  cached : Bool
deriving DecidableEq

/-- The library's heads in the state file: none, those of an oplog with no entries, or those of
the library's. -/
inductive PersistedHeads where
  | none
  | empty
  | full
deriving DecidableEq

/-- The step of the unlink that comes next. -/
inductive UnlinkStage where
  | idle
  | link
  | saveLink
  | clear
  | wait
  | release (cids : List String)
  | heads
  | rows
  | cache
  | marker
  | done
deriving DecidableEq

namespace UnlinkStage

/-- The release has still to take its turn after the pass. -/
def awaitsPass : UnlinkStage → Bool
  | .idle | .link | .saveLink | .clear | .wait => true
  | _ => false

/-- The library is still listed, so the end of the pass settles its record. -/
def isListed : UnlinkStage → Bool
  | .idle | .link | .saveLink => true
  | _ => false

end UnlinkStage

/-- What the running peer has of the library. -/
structure UnlinkSession where
  /-- The link record is live in the identity oplog. -/
  linked : Bool
  pins : PinSet
  /-- The open reproduced the library's entries. -/
  entries : Bool
  /-- A job that pins is queued or at work, the pass of the open or a hold, and what it has still
  to pin. -/
  passing : Bool
  pass : List (String × Bool)
  stage : UnlinkStage

structure UnlinkState where
  /-- An unlink was begun. -/
  begun : Bool
  marker : Bool
  heads : PersistedHeads
  /-- The link record is live in what is on disk of the identity library. -/
  linked : Bool
  pinDb : PinDb
  /-- Earlier states of the pin index, to which a crash may return. -/
  pinEarlier : List PinDb
  indexDb : IndexDb
  indexEarlier : List IndexDb
  session : Option UnlinkSession

namespace UnlinkState

inductive Label where
  | begin
  | advance
  /-- `hold_blobs` of an avatar of the owner or of a blob of an entry. -/
  | hold (cid : String)
  /-- The job that pins takes its next CID, or ends. -/
  | pass
  | flushPins
  | flushIndex
  /-- A crash that loses the last transactions of the pin index and of the query index. -/
  | crash (lostPins lostIndex : ℕ)
  | start

def writePins (s : UnlinkState) (db : PinDb) : UnlinkState :=
  { s with pinDb := db, pinEarlier := s.pinDb :: s.pinEarlier }

def writeIndex (s : UnlinkState) (db : IndexDb) : UnlinkState :=
  { s with indexDb := db, indexEarlier := s.indexDb :: s.indexEarlier }

def setSession (s : UnlinkState) (session : UnlinkSession) : UnlinkState := { s with session := some session }

variable (lib : HeldLibrary)

/-- The pin set an open starts with: the chain's pins and those of a clean record. -/
def openPins (recorded : PinSet) : PinSet :=
  recorded.items.foldl (fun pins p => if pins.get p.1 = some true then pins else pins.set p.1 p.2)
    (LibraryPinRecord.upsert .empty (lib.chain.map fun cid => (cid, false)))

/-- What the pass of an open has to pin, given the record and whether there are entries. -/
def passPins (recorded : Option PinSet) (entries : Bool) : List (String × Bool) :=
  if entries then
    match recorded with
    | some pins => (lib.entries.filter (HeldEntry.isUncovered pins)).flatMap HeldEntry.pins
    | none => lib.entries.flatMap HeldEntry.pins
  else []

/-- `load_library`: the chain is pinned, the oplog is that at the heads, the record taken back or
dropped, and the pass queued. -/
def openLibrary (s : UnlinkState) : UnlinkState :=
  let entries : Bool := s.heads = .full
  let recorded := s.pinDb.record.load
  let pass := passPins lib recorded entries
  let chained := s.writePins { s.pinDb with pinned := lib.chain.foldl OrderedSet.add s.pinDb.pinned }
  let cleared := if recorded.isNone then chained.writePins { chained.pinDb with record := none } else chained
  let unrecorded := (lib.chain.map fun cid => (cid, false)).filter fun p => (recorded.getD .empty).get p.1 ≠ some p.2
  let passing := !pass.isEmpty || !unrecorded.isEmpty
  let begun := if passing then cleared.writePins
    { cleared.pinDb with record := cleared.pinDb.record.begin.set unrecorded } else cleared
  { begun.writeIndex ⟨entries, entries⟩ with
    heads := if entries then .full else .empty
    session := some ⟨s.linked, openPins lib (recorded.getD .empty), entries, passing, pass,
      if s.marker then .link else .idle⟩ }

/-- The next start: a marked library is opened and unlinked again, an unlinked one is not
opened. -/
def start (s : UnlinkState) : UnlinkState :=
  if s.begun ∧ s.marker = false then s.setSession ⟨s.linked, .empty, false, false, [], .done⟩
  else s.openLibrary lib

/-- The hold begins: nothing is pinned for a library that is no longer listed. -/
def hold (s : UnlinkState) (σ : UnlinkSession) (cid : String) : Option UnlinkState :=
  if σ.passing = false ∧ σ.stage.isListed = true ∧ (cid ∈ lib.avatars ∨ cid ∈ lib.blobs) then
    some ((s.writePins { s.pinDb with record := s.pinDb.record.begin }).setSession
      { σ with passing := true, pass := [(cid, true)] })
  else none

def pass (s : UnlinkState) (σ : UnlinkSession) : Option UnlinkState :=
  match σ.passing, σ.pass with
  | true, item :: rest =>
    if σ.pins.get item.1 = some true ∨ σ.pins.get item.1 = some item.2 then some (s.setSession { σ with pass := rest })
    else some ((s.writePins ⟨s.pinDb.pinned.add item.1, s.pinDb.record.set [item]⟩).setSession
      { σ with pass := rest, pins := σ.pins.set item.1 item.2 })
  | true, [] =>
    if σ.stage.isListed then some ((s.writePins { s.pinDb with record := s.pinDb.record.settle }).setSession
      { σ with passing := false })
    else some (s.setSession { σ with passing := false })
  | false, _ => none

/-- `release` of one CID: unpinned unless held elsewhere, and out of the set and the record. -/
def unpin (s : UnlinkState) (σ : UnlinkSession) (cid : String) (rest : List String) : UnlinkState :=
  (s.writePins ⟨if lib.heldElsewhere cid then s.pinDb.pinned else s.pinDb.pinned.delete cid,
    if σ.pins.has cid then s.pinDb.record.delete cid else s.pinDb.record⟩).setSession
    { σ with pins := σ.pins.delete cid, stage := .release rest }

/-- The next step of the unlink. -/
def advance (s : UnlinkState) (σ : UnlinkSession) : Option UnlinkState :=
  let next := fun (s : UnlinkState) stage => s.setSession { σ with stage := stage }
  match σ.stage with
  | .idle | .done => none
  | .link => some (s.setSession { σ with linked := false, stage := .saveLink })
  | .saveLink => some (next { s with linked := σ.linked } .clear)
  | .clear => some (next (s.writePins { s.pinDb with record := none }) .wait)
  | .wait =>
    if σ.passing then none
    else some (next s (.release (σ.pins.keys ++ if σ.entries then lib.blobs else [])))
  | .release (cid :: rest) => some (s.unpin lib σ cid rest)
  | .release [] => some (next s .heads)
  | .heads => some (next { s with heads := .none } .rows)
  | .rows => some (next (s.writeIndex { s.indexDb with rows := false }) .cache)
  | .cache => some (next (s.writeIndex { s.indexDb with cached := false }) .marker)
  | .marker => some (next { s with marker := false } .done)

def step (s : UnlinkState) : Label → Option UnlinkState
  | .begin => s.session.bind fun σ =>
      if σ.stage = .idle then some ({ s with begun := true, marker := true }.setSession { σ with stage := .link })
      else none
  | .advance => s.session.bind (s.advance lib)
  | .hold cid => s.session.bind fun σ => s.hold lib σ cid
  | .pass => s.session.bind s.pass
  | .flushPins => some { s with pinEarlier := [] }
  | .flushIndex => some { s with indexEarlier := [] }
  | .crash lostPins lostIndex =>
    match (s.pinDb :: s.pinEarlier)[lostPins]?, (s.indexDb :: s.indexEarlier)[lostIndex]? with
    | some pins, some index => some { s with
        pinDb := pins, pinEarlier := [], indexDb := index, indexEarlier := [], session := none }
    | _, _ => none
  | .start => if s.session.isNone then some (s.start lib) else none

/-! ## What the unlink comes to -/

/-- No CID that only this library held is pinned. -/
def Freed (db : PinDb) : Prop := ∀ cid, lib.Own cid → cid ∉ db.pinned

/-- The state an uninterrupted unlink ends in. -/
structure Clean (s : UnlinkState) : Prop where
  marker : s.marker = false
  linked : s.linked = false
  heads : s.heads = .none
  index : s.indexDb = ⟨false, false⟩
  freed : Freed lib s.pinDb

/-- The next open finds the CID: in the chain, in a clean record, or in the entries at the heads. An
avatar is found in the record only. -/
def Found (heads : PersistedHeads) (db : PinDb) (cid : String) : Prop :=
  cid ∈ lib.chain ∨ (∃ recorded, db.record.load = some recorded ∧ recorded.has cid = true) ∨
    (heads = .full ∧ cid ∈ lib.named)

/-- An open finds every CID only this library held that is still pinned. -/
def Recoverable (heads : PersistedHeads) (db : PinDb) : Prop :=
  ∀ cid, lib.Own cid → cid ∈ db.pinned → Found lib heads db cid

/-- The condition on a crash: until the marker is gone it may bring a pin back only where the next
open finds it, and from then on it may bring nothing back. -/
def Spared (s : UnlinkState) : Label → Prop
  | .crash lostPins lostIndex => ∀ pins index, (s.pinDb :: s.pinEarlier)[lostPins]? = some pins →
      (s.indexDb :: s.indexEarlier)[lostIndex]? = some index →
      ((s.begun = true → s.marker = true) → Recoverable lib s.heads pins) ∧
        (s.begun = true → s.marker = false → Freed lib pins ∧ index = ⟨false, false⟩)
  | _ => True

/-- Every CID only this library held that is pinned will be released: it is in the pin set, the
job at work is about to pin it, or it is a blob of an entry. -/
def Covered (s : UnlinkState) (σ : UnlinkSession) : Prop :=
  ∀ cid, lib.Own cid → cid ∈ s.pinDb.pinned →
    σ.pins.has cid = true ∨ (∃ item ∈ σ.pass, item.1 = cid) ∨ (σ.entries = true ∧ cid ∈ lib.blobs)

/-- The library is open, linked or not, and no unlink was begun. -/
structure Initial (s : UnlinkState) : Prop where
  begun : s.begun = false
  marker : s.marker = false
  heads : s.heads = .full
  session : ∃ σ, s.session = some σ ∧ σ.stage = .idle ∧ σ.linked = s.linked ∧
    (σ.passing = false → σ.pass = []) ∧ Covered lib s σ

/-- What holds before each step of the unlink. -/
def AtStage (s : UnlinkState) (σ : UnlinkSession) : Prop :=
  match σ.stage with
  | .idle => s.begun = false ∧ s.marker = false ∧ s.heads = .full ∧ Covered lib s σ
  | .link => s.begun = true ∧ s.marker = true ∧ Covered lib s σ
  | .saveLink => s.begun = true ∧ s.marker = true ∧ σ.linked = false ∧ Covered lib s σ
  | .clear | .wait => s.begun = true ∧ s.marker = true ∧ s.linked = false ∧ Covered lib s σ
  | .release rest => s.begun = true ∧ s.marker = true ∧ s.linked = false ∧
      ∀ cid, lib.Own cid → cid ∈ s.pinDb.pinned → cid ∈ rest
  | .heads => s.begun = true ∧ s.marker = true ∧ s.linked = false ∧ Freed lib s.pinDb
  | .rows => s.begun = true ∧ s.marker = true ∧ s.linked = false ∧ s.heads = .none ∧ Freed lib s.pinDb
  | .cache => s.begun = true ∧ s.marker = true ∧ s.linked = false ∧ s.heads = .none ∧
      s.indexDb.rows = false ∧ Freed lib s.pinDb
  | .marker => s.begun = true ∧ s.marker = true ∧ s.linked = false ∧ s.heads = .none ∧
      s.indexDb = ⟨false, false⟩ ∧ Freed lib s.pinDb
  | .done => s.begun = true ∧ Clean lib s

structure Running (s : UnlinkState) (σ : UnlinkSession) : Prop where
  stage : AtStage lib s σ
  ended : σ.passing = false → σ.pass = []
  passing : σ.passing = true → σ.stage.awaitsPass = true

/-- The invariant. -/
structure Restartable (s : UnlinkState) : Prop where
  up : ∀ σ, s.session = some σ → Running lib s σ
  down : s.session = none → (s.begun = false → s.marker = false ∧ s.heads = .full) ∧
    (s.begun = true → s.marker = false → Clean lib s) ∧
    ((s.begun = true → s.marker = true) → Recoverable lib s.heads s.pinDb)

variable {lib} {s : UnlinkState} {σ : UnlinkSession}

theorem Initial.restartable (h : Initial lib s) : Restartable lib s where
  up σ hσ := by
    obtain ⟨σ', hs, hstage, -, hpass, hc⟩ := h.session
    obtain rfl := Option.some_inj.mp (hσ.symm.trans hs)
    refine ⟨?_, hpass, fun _ => by rw [hstage]; rfl⟩
    rw [AtStage, hstage]
    exact ⟨h.begun, h.marker, h.heads, hc⟩
  down hnone := by
    obtain ⟨σ, hs, -⟩ := h.session
    simp [hs] at hnone

/-- A step that leaves the session up. -/
theorem Running.restartable (h : Running lib (s.setSession σ) σ) : Restartable lib (s.setSession σ) where
  up σ' hσ := by
    obtain rfl := Option.some_inj.mp hσ
    exact h
  down hnone := by simp [setSession] at hnone

/-- While the release has not begun, only the cover of the pins is at stake. -/
theorem AtStage.recover {t : UnlinkState} {σ' : UnlinkSession} (h : AtStage lib s σ)
    (hawaits : σ.stage.awaitsPass = true) (hstage : σ'.stage = σ.stage) (hlinked : σ'.linked = σ.linked)
    (hs : t.begun = s.begun ∧ t.marker = s.marker ∧ t.heads = s.heads ∧ t.linked = s.linked)
    (hc : Covered lib s σ → Covered lib t σ') : AtStage lib t σ' := by
  obtain ⟨hb, hm, hh, hl⟩ := hs
  unfold AtStage at h ⊢
  rw [hstage]
  cases hst : σ.stage with
  | idle =>
    rw [hst] at h
    exact ⟨hb.trans h.1, hm.trans h.2.1, hh.trans h.2.2.1, hc h.2.2.2⟩
  | link =>
    rw [hst] at h
    exact ⟨hb.trans h.1, hm.trans h.2.1, hc h.2.2⟩
  | saveLink =>
    rw [hst] at h
    exact ⟨hb.trans h.1, hm.trans h.2.1, hlinked.trans h.2.2.1, hc h.2.2.2⟩
  | clear | wait =>
    rw [hst] at h
    exact ⟨hb.trans h.1, hm.trans h.2.1, hl.trans h.2.2.1, hc h.2.2.2⟩
  | release _ | heads | rows | cache | marker | done => simp [hst, UnlinkStage.awaitsPass] at hawaits

/-- A hold changes no pin before its first step. -/
theorem Running.hold (h : Running lib s σ) {cid : String} {t : UnlinkState} (ht : s.hold lib σ cid = some t) :
    Restartable lib t := by
  obtain ⟨⟨hp, hlisted, -⟩, ht⟩ := Option.ite_none_right_eq_some.mp ht
  obtain rfl := Option.some_inj.mp ht
  have hawaits : σ.stage.awaitsPass = true := by
    cases hst : σ.stage with
    | idle | link | saveLink => rfl
    | _ => simp [hst, UnlinkStage.isListed] at hlisted
  refine Running.restartable ⟨h.stage.recover hawaits rfl rfl ⟨rfl, rfl, rfl, rfl⟩ fun hc x ho hm => ?_,
    fun hf => absurd hf.symm Bool.false_ne_true, fun _ => hawaits⟩
  rcases hc x ho hm with hc | ⟨item, hi, -⟩ | hc
  · exact Or.inl hc
  · rw [h.ended hp] at hi
    exact absurd hi List.not_mem_nil
  · exact Or.inr (Or.inr hc)

/-- The job keeps every pinned CID in the set or among what it has still to pin. -/
theorem Running.pass (h : Running lib s σ) {t : UnlinkState} (ht : s.pass σ = some t) : Restartable lib t := by
  unfold UnlinkState.pass at ht
  split at ht
  case h_1 item rest hp hr =>
    have hawaits := h.passing hp
    split at ht
    case isTrue hpinned =>
      obtain rfl := Option.some_inj.mp ht
      refine Running.restartable ⟨h.stage.recover hawaits rfl rfl ⟨rfl, rfl, rfl, rfl⟩ fun hc cid ho hm => ?_,
        fun hf => absurd (hp.symm.trans hf) (by decide), fun _ => hawaits⟩
      rcases hc cid ho hm with hc | ⟨x, hx, rfl⟩ | hc
      · exact Or.inl hc
      · rw [hr] at hx
        rcases List.mem_cons.mp hx with rfl | hx
        · exact Or.inl ((OrderedMap.has_iff _ _).mpr (hpinned.elim (fun h => ⟨_, h⟩) fun h => ⟨_, h⟩))
        · exact Or.inr (Or.inl ⟨x, hx, rfl⟩)
      · exact Or.inr (Or.inr hc)
    case isFalse =>
      obtain rfl := Option.some_inj.mp ht
      refine Running.restartable ⟨h.stage.recover hawaits rfl rfl ⟨rfl, rfl, rfl, rfl⟩ fun hc cid ho hm => ?_,
        fun hf => absurd (hp.symm.trans hf) (by decide), fun _ => hawaits⟩
      change (σ.pins.set item.1 item.2).has cid = true ∨ (∃ x ∈ rest, x.1 = cid) ∨ _
      rw [OrderedMap.has_set]
      by_cases hcid : cid = item.1
      · simp [hcid]
      · rcases (OrderedSet.mem_add _ _ _).mp hm with heq | hm
        · exact absurd heq hcid
        · rcases hc cid ho hm with hc | ⟨x, hx, rfl⟩ | hc
          · exact Or.inl (by simp [hc])
          · rw [hr] at hx
            rcases List.mem_cons.mp hx with rfl | hx
            · exact absurd rfl hcid
            · exact Or.inr (Or.inl ⟨x, hx, rfl⟩)
          · exact Or.inr (Or.inr hc)
  case h_2 hp hr =>
    have hawaits := h.passing hp
    split at ht <;> obtain rfl := Option.some_inj.mp ht <;>
      exact Running.restartable ⟨h.stage.recover hawaits rfl rfl ⟨rfl, rfl, rfl, rfl⟩ fun hc => hc,
        fun _ => hr, fun hf => absurd hf Bool.false_ne_true⟩
  case h_3 => simp at ht

theorem Running.unpin (h : Running lib s σ) {cid : String} {rest : List String} (hst : σ.stage = .release (cid :: rest)) :
    Restartable lib (s.unpin lib σ cid rest) := by
  obtain ⟨hb, hm, hl, hrest⟩ : s.begun = true ∧ s.marker = true ∧ s.linked = false ∧
      ∀ x, lib.Own x → x ∈ s.pinDb.pinned → x ∈ cid :: rest := by
    have hstage := h.stage
    rwa [AtStage, hst] at hstage
  refine Running.restartable ⟨⟨hb, hm, hl, fun x ho hx => ?_⟩, h.ended, fun hp => ?_⟩
  · change x ∈ (if lib.heldElsewhere cid then s.pinDb.pinned else s.pinDb.pinned.delete cid) at hx
    split at hx
    case isTrue helse =>
      refine (List.mem_cons.mp (hrest x ho hx)).resolve_left fun heq => ?_
      rw [← heq, ho.2] at helse
      exact absurd helse (by decide)
    case isFalse =>
      obtain ⟨hx, hne⟩ := (OrderedSet.mem_delete _ _ _).mp hx
      exact (List.mem_cons.mp (hrest x ho hx)).resolve_left hne
  · have := h.passing hp
    rw [hst] at this
    exact absurd this Bool.false_ne_true

/-- One step of the unlink. -/
theorem Running.advance (h : Running lib s σ) {t : UnlinkState} (ht : s.advance lib σ = some t) : Restartable lib t := by
  have hstage := h.stage
  have hpassing : σ.stage.awaitsPass = false → σ.passing = true → False := fun hf hp =>
    absurd ((h.passing hp).symm.trans hf) (by decide)
  unfold AtStage at hstage
  unfold UnlinkState.advance at ht
  split at ht
  · simp at ht
  · simp at ht
  case h_3 hst =>
    obtain rfl := Option.some_inj.mp ht
    rw [hst] at hstage
    exact Running.restartable ⟨⟨hstage.1, hstage.2.1, rfl, hstage.2.2⟩, h.ended, fun _ => rfl⟩
  case h_4 hst =>
    obtain rfl := Option.some_inj.mp ht
    rw [hst] at hstage
    exact Running.restartable ⟨⟨hstage.1, hstage.2.1, hstage.2.2.1, hstage.2.2.2⟩, h.ended, fun _ => rfl⟩
  case h_5 hst =>
    obtain rfl := Option.some_inj.mp ht
    rw [hst] at hstage
    exact Running.restartable ⟨hstage, h.ended, fun _ => rfl⟩
  case h_6 hst =>
    split at ht
    · simp at ht
    case isFalse hp =>
      obtain rfl := Option.some_inj.mp ht
      rw [hst] at hstage
      obtain ⟨hb, hm, hl, hc⟩ := hstage
      refine Running.restartable ⟨⟨hb, hm, hl, fun cid ho hx => ?_⟩, h.ended, fun hf => absurd hf hp⟩
      rcases hc cid ho hx with hc | ⟨item, hi, -⟩ | ⟨he, hc⟩
      · exact List.mem_append_left _ ((OrderedMap.mem_keys_iff _ _).mpr ((OrderedMap.has_iff _ _).mp hc))
      · rw [h.ended (Bool.eq_false_iff.mpr hp)] at hi
        exact absurd hi List.not_mem_nil
      · exact List.mem_append_right _ (by rwa [he, if_pos rfl])
  case h_7 cid rest hst =>
    obtain rfl := Option.some_inj.mp ht
    exact h.unpin hst
  case h_8 hst =>
    obtain rfl := Option.some_inj.mp ht
    rw [hst] at hstage hpassing
    obtain ⟨hb, hm, hl, hrest⟩ := hstage
    exact Running.restartable ⟨⟨hb, hm, hl, fun cid ho hx => absurd (hrest cid ho hx) List.not_mem_nil⟩, h.ended,
      fun hp => (hpassing rfl hp).elim⟩
  case h_9 hst =>
    obtain rfl := Option.some_inj.mp ht
    rw [hst] at hstage hpassing
    exact Running.restartable ⟨⟨hstage.1, hstage.2.1, hstage.2.2.1, rfl, hstage.2.2.2⟩, h.ended,
      fun hp => (hpassing rfl hp).elim⟩
  case h_10 hst =>
    obtain rfl := Option.some_inj.mp ht
    rw [hst] at hstage hpassing
    obtain ⟨hb, hm, hl, hh, hf⟩ := hstage
    exact Running.restartable ⟨⟨hb, hm, hl, hh, rfl, hf⟩, h.ended, fun hp => (hpassing rfl hp).elim⟩
  case h_11 hst =>
    obtain rfl := Option.some_inj.mp ht
    rw [hst] at hstage hpassing
    obtain ⟨hb, hm, hl, hh, hr, hf⟩ := hstage
    refine Running.restartable ⟨⟨hb, hm, hl, hh, ?_, hf⟩, h.ended, fun hp => (hpassing rfl hp).elim⟩
    change (⟨s.indexDb.rows, false⟩ : IndexDb) = _
    rw [hr]
  case h_12 hst =>
    obtain rfl := Option.some_inj.mp ht
    rw [hst] at hstage hpassing
    obtain ⟨hb, -, hl, hh, hi, hf⟩ := hstage
    exact Running.restartable ⟨⟨hb, ⟨rfl, hl, hh, hi, hf⟩⟩, h.ended, fun hp => (hpassing rfl hp).elim⟩

/-! ## The next start -/

theorem has_upsert (pins : PinSet) (added : List (String × Bool)) {x : String}
    (h : pins.has x = true ∨ x ∈ added.map Prod.fst) : (LibraryPinRecord.upsert pins added).has x = true := by
  induction added generalizing pins with
  | nil => simpa [LibraryPinRecord.upsert] using h
  | cons p rest ih =>
    refine ih _ ?_
    rw [OrderedMap.has_set]
    rcases h with h | h
    · exact Or.inl (by simp [h])
    · rcases List.mem_cons.mp h with rfl | h
      · exact Or.inl (by simp)
      · exact Or.inr h

/-- The open's set has the chain and whatever was recorded. -/
theorem has_openPins {recorded : PinSet} {x : String} (h : x ∈ lib.chain ∨ recorded.has x = true) :
    (openPins lib recorded).has x = true := by
  have hfold : ∀ (l : List (String × Bool)) (pins : PinSet), (pins.has x = true ∨ x ∈ l.map Prod.fst) →
      (l.foldl (fun pins p => if pins.get p.1 = some true then pins else pins.set p.1 p.2) pins).has x = true := by
    intro l
    induction l with
    | nil => simp
    | cons p rest ih =>
      intro pins h
      rw [List.foldl_cons]
      refine ih _ ?_
      by_cases hp : pins.get p.1 = some true
      · rw [if_pos hp]
        rcases h with h | h
        · exact Or.inl h
        · rcases List.mem_cons.mp h with rfl | h
          · exact Or.inl ((OrderedMap.has_iff _ _).mpr ⟨_, hp⟩)
          · exact Or.inr h
      · rw [if_neg hp, OrderedMap.has_set]
        rcases h with h | h
        · exact Or.inl (by simp [h])
        · rcases List.mem_cons.mp h with rfl | h
          · exact Or.inl (by simp)
          · exact Or.inr h
  refine hfold _ _ (h.imp (fun hm => has_upsert _ _ (Or.inr ?_)) fun hr => ?_)
  · simpa using hm
  · exact (OrderedMap.mem_keys_iff _ _).mpr ((OrderedMap.has_iff _ _).mp hr)

/-- With its entries back, an open covers whatever these name. -/
theorem covers_of_entries (recorded : Option PinSet) {cid : String} (h : cid ∈ lib.named) :
    (openPins lib (recorded.getD .empty)).has cid = true ∨
      (∃ item ∈ passPins lib recorded true, item.1 = cid) ∨ cid ∈ lib.blobs := by
  obtain ⟨e, hmem, hcid⟩ := List.mem_flatMap.mp h
  rcases List.mem_append.mp hcid with hcid | hblob
  · -- The block or the payload of an entry: recorded, or pinned again by the pass.
    have hpins : ∃ item ∈ e.pins, item.1 = cid := by
      rcases List.mem_cons.mp hcid with rfl | hc
      · exact ⟨(e.hash, false), by simp [HeldEntry.pins], rfl⟩
      · exact ⟨(cid, false), by simp [HeldEntry.pins, Option.mem_toList.mp hc], rfl⟩
    obtain ⟨item, hi, hicid⟩ := hpins
    cases recorded with
    | none => exact Or.inr (Or.inl ⟨item, List.mem_flatMap.mpr ⟨e, hmem, hi⟩, hicid⟩)
    | some pins =>
      by_cases hu : e.isUncovered pins = true
      · exact Or.inr (Or.inl ⟨item, List.mem_flatMap.mpr ⟨e, List.mem_filter.mpr ⟨hmem, hu⟩, hi⟩, hicid⟩)
      · refine Or.inl (has_openPins (Or.inr ?_))
        simp only [HeldEntry.isUncovered, Bool.or_eq_true, Bool.not_eq_true', not_or, Bool.not_eq_false,
          Option.any_eq_true, not_exists, not_and] at hu
        rcases List.mem_cons.mp hcid with rfl | hc
        · exact hu.1
        · exact hu.2 cid (Option.mem_toList.mp hc)
  · exact Or.inr (Or.inr (List.mem_flatMap.mpr ⟨e, hmem, hblob⟩))

variable (lib) in
/-- What an open leaves, besides the record. -/
theorem openLibrary_spec (s : UnlinkState) : ∃ passing,
    (s.openLibrary lib).begun = s.begun ∧ (s.openLibrary lib).marker = s.marker ∧
      (s.openLibrary lib).linked = s.linked ∧
      ((s.openLibrary lib).heads = if s.heads = .full then .full else .empty) ∧
      (s.openLibrary lib).pinDb.pinned = lib.chain.foldl OrderedSet.add s.pinDb.pinned ∧
      (s.openLibrary lib).session = some ⟨s.linked, openPins lib (s.pinDb.record.load.getD .empty), s.heads = .full,
        passing, passPins lib s.pinDb.record.load (s.heads = .full), if s.marker then .link else .idle⟩ ∧
      (passing = false → passPins lib s.pinDb.record.load (s.heads = .full) = []) := by
  refine ⟨_, ?_, ?_, ?_, ?_, ?_, rfl, ?_⟩
  · unfold openLibrary
    dsimp only [writeIndex]
    split <;> split <;> rfl
  · unfold openLibrary
    dsimp only [writeIndex]
    split <;> split <;> rfl
  · unfold openLibrary
    dsimp only [writeIndex]
    split <;> split <;> rfl
  · simp only [openLibrary, decide_eq_true_eq]
  · unfold openLibrary
    dsimp only [writeIndex]
    split <;> split <;> rfl
  · intro hp
    simp only [Bool.or_eq_false_iff, Bool.not_eq_false', List.isEmpty_iff] at hp
    exact hp.1

theorem openLibrary_restartable (h : Restartable lib s) (hnone : s.session = none)
    (hpending : s.begun = true → s.marker = true) : Restartable lib (s.openLibrary lib) := by
  obtain ⟨passing, hb, hm, hl, hh, hpinned, hsession, hended⟩ := openLibrary_spec lib s
  obtain ⟨hfresh, -, hrecover⟩ := h.down hnone
  have hcovered : ∀ σ, (s.openLibrary lib).session = some σ → Covered lib (s.openLibrary lib) σ := by
    intro σ hσ cid ho hx
    obtain rfl := Option.some_inj.mp (hsession.symm.trans hσ)
    rw [hpinned, OrderedSet.mem_foldl_add] at hx
    rcases hx with hx | hx
    · exact Or.inl (has_openPins (Or.inl hx))
    · rcases hrecover hpending cid ho hx with hc | ⟨recorded, hload, hc⟩ | ⟨hfull, hc⟩
      · exact Or.inl (has_openPins (Or.inl hc))
      · refine Or.inl (has_openPins (Or.inr ?_))
        rwa [hload]
      · simpa [hfull] using covers_of_entries s.pinDb.record.load hc
  refine ⟨fun σ hσ => ?_, fun hdown => by simp [hsession] at hdown⟩
  have hc := hcovered σ hσ
  obtain rfl := Option.some_inj.mp (hsession.symm.trans hσ)
  refine ⟨?_, hended, fun _ => ?_⟩
  · cases hmarker : s.marker with
    | true =>
      have hbegun : s.begun = true := by
        cases hbegun : s.begun with
        | true => rfl
        | false => exact absurd ((hfresh hbegun).1.symm.trans hmarker) (by decide)
      rw [hmarker] at hc hm
      exact ⟨hb.trans hbegun, hm, hc⟩
    | false =>
      have hbegun : s.begun = false := Bool.eq_false_iff.mpr fun hbegun =>
        absurd (hmarker.symm.trans (hpending hbegun)) (by decide)
      rw [hmarker] at hc hm
      refine ⟨hb.trans hbegun, hm, ?_, hc⟩
      rw [hh, if_pos (hfresh hbegun).2]
  · cases s.marker <;> rfl

theorem start_restartable (h : Restartable lib s) (hnone : s.session = none) : Restartable lib (s.start lib) := by
  unfold start
  split
  case isTrue hdone =>
    have hc := (h.down hnone).2.1 hdone.1 hdone.2
    exact Running.restartable ⟨⟨hdone.1, ⟨hc.marker, hc.linked, hc.heads, hc.index, hc.freed⟩⟩, fun _ => rfl,
      fun hp => absurd hp Bool.false_ne_true⟩
  case isFalse hdone =>
    refine openLibrary_restartable h hnone fun hb => ?_
    by_contra hm
    exact hdone ⟨hb, Bool.eq_false_iff.mpr hm⟩

/-- Once the marker is cleared the unlink is complete. -/
theorem Restartable.clean (h : Restartable lib s) (hb : s.begun = true) (hm : s.marker = false) : Clean lib s := by
  cases hs : s.session with
  | none => exact (h.down hs).2.1 hb hm
  | some σ =>
    have hstage := (h.up σ hs).stage
    unfold AtStage at hstage
    split at hstage
    · exact absurd (hstage.1.symm.trans hb) (by decide)
    case h_11 => exact hstage.2
    all_goals exact absurd (hm.symm.trans hstage.2.1) (by decide)

/-- A crash keeps only what the next open recovers. -/
theorem crash_restartable (h : Restartable lib s) {pins : PinDb} {index : IndexDb}
    (hrecover : (s.begun = true → s.marker = true) → Recoverable lib s.heads pins)
    (hclean : s.begun = true → s.marker = false → Freed lib pins ∧ index = ⟨false, false⟩) :
    Restartable lib { s with
      pinDb := pins, pinEarlier := [], indexDb := index, indexEarlier := [], session := none } := by
  refine ⟨by simp, fun _ => ⟨fun hb => ?_, fun hb hm => ?_, hrecover⟩⟩
  · cases hs : s.session with
    | none => exact (h.down hs).1 hb
    | some σ =>
      have hstage := (h.up σ hs).stage
      have hbegun : s.begun = false := hb
      unfold AtStage at hstage
      split at hstage
      · exact ⟨hstage.2.1, hstage.2.2.1⟩
      all_goals exact absurd (hbegun.symm.trans hstage.1) (by decide)
  · have hc := h.clean hb hm
    exact ⟨hm, hc.linked, hc.heads, (hclean hb hm).2, (hclean hb hm).1⟩

/-- A flush only takes states away that a crash might return to. -/
theorem Restartable.flush (h : Restartable lib s) (pins : List PinDb) (index : List IndexDb) :
    Restartable lib { s with pinEarlier := pins, indexEarlier := index } := by
  have hclean : Clean lib s → Clean lib { s with pinEarlier := pins, indexEarlier := index } := fun hc =>
    ⟨hc.marker, hc.linked, hc.heads, hc.index, hc.freed⟩
  refine ⟨fun σ hs => ⟨?_, (h.up σ hs).ended, (h.up σ hs).passing⟩, fun hnone => ?_⟩
  · have hstage := (h.up σ hs).stage
    unfold AtStage at hstage ⊢
    cases hst : σ.stage with
    | done =>
      rw [hst] at hstage
      exact ⟨hstage.1, hclean hstage.2⟩
    | _ =>
      rw [hst] at hstage
      exact hstage
  · obtain ⟨hfresh, hdone, hrecover⟩ := h.down hnone
    exact ⟨hfresh, fun hb hm => hclean (hdone hb hm), hrecover⟩

/-- One step of the machine, a crash only where it is spared. -/
theorem Restartable.step (h : Restartable lib s) {l : Label} {t : UnlinkState} (hl : Spared lib s l)
    (ht : s.step lib l = some t) : Restartable lib t := by
  cases l with
  | hold cid =>
    obtain ⟨σ, hs, hrest⟩ := Option.bind_eq_some_iff.mp ht
    exact (h.up σ hs).hold hrest
  | begin =>
    obtain ⟨σ, hs, hrest⟩ := Option.bind_eq_some_iff.mp ht
    split at hrest
    case isTrue hst =>
      obtain rfl := Option.some_inj.mp hrest
      have hstage := (h.up σ hs).stage
      rw [AtStage, hst] at hstage
      exact Running.restartable ⟨⟨rfl, rfl, hstage.2.2.2⟩, (h.up σ hs).ended, fun _ => rfl⟩
    case isFalse => simp at hrest
  | advance =>
    obtain ⟨σ, hs, hrest⟩ := Option.bind_eq_some_iff.mp ht
    exact (h.up σ hs).advance hrest
  | pass =>
    obtain ⟨σ, hs, hrest⟩ := Option.bind_eq_some_iff.mp ht
    exact (h.up σ hs).pass hrest
  | flushPins =>
    obtain rfl := Option.some_inj.mp ht
    exact h.flush [] s.indexEarlier
  | flushIndex =>
    obtain rfl := Option.some_inj.mp ht
    exact h.flush s.pinEarlier []
  | crash lostPins lostIndex =>
    simp only [UnlinkState.step] at ht
    split at ht
    case h_1 pins index hp hi =>
      obtain rfl := Option.some_inj.mp ht
      obtain ⟨hrecover, hclean⟩ := hl pins index hp hi
      exact crash_restartable h hrecover hclean
    case h_2 => simp at ht
  | start =>
    simp only [UnlinkState.step, Option.ite_none_right_eq_some, Option.some.injEq] at ht
    obtain ⟨hnone, rfl⟩ := ht
    exact start_restartable h (Option.isNone_iff_eq_none.mp hnone)

/-! ## The finish runs to its end -/

variable (lib) in
/-- A step of the unlink or of the pass of the open. -/
def Proceeds (s t : UnlinkState) : Prop := s.step lib .advance = some t ∨ s.step lib .pass = some t

theorem proceeds_advance {t : UnlinkState} (hs : s.session = some σ) (ht : s.advance lib σ = some t) :
    Proceeds lib s t :=
  Or.inl (by rw [step, hs]; exact ht)

theorem proceeds_pass {t : UnlinkState} (hs : s.session = some σ) (ht : s.pass σ = some t) : Proceeds lib s t :=
  Or.inr (by rw [step, hs]; exact ht)

variable (lib) in
/-- The pass comes to its end, whatever it has to pin. -/
theorem pass_ends (hs : s.session = some σ) : ∃ t τ, ReflTransGen (Proceeds lib) s t ∧ t.session = some τ ∧
    τ.passing = false ∧ τ.stage = σ.stage := by
  cases hp : σ.passing with
  | false => exact ⟨s, σ, .refl, hs, hp, rfl⟩
  | true =>
    generalize hn : σ.pass = pass
    induction pass generalizing s σ with
    | nil =>
      by_cases hlisted : σ.stage.isListed = true
      · refine ⟨(s.writePins { s.pinDb with record := s.pinDb.record.settle }).setSession { σ with passing := false },
          { σ with passing := false }, .single (proceeds_pass hs ?_), rfl, rfl, rfl⟩
        simp only [UnlinkState.pass, hp, hn, if_pos hlisted]
      · refine ⟨s.setSession { σ with passing := false }, { σ with passing := false },
          .single (proceeds_pass hs ?_), rfl, rfl, rfl⟩
        simp only [UnlinkState.pass, hp, hn, if_neg hlisted]
    | cons item rest ih =>
      by_cases hpinned : σ.pins.get item.1 = some true ∨ σ.pins.get item.1 = some item.2
      · obtain ⟨t, τ, hsteps, ht, hend, hstage⟩ := ih (s := s.setSession { σ with pass := rest })
          (σ := { σ with pass := rest }) rfl hp rfl
        exact ⟨t, τ, .head (proceeds_pass hs (by simp only [UnlinkState.pass, hp, hn, if_pos hpinned])) hsteps, ht,
          hend, hstage⟩
      · obtain ⟨t, τ, hsteps, ht, hend, hstage⟩ := ih
          (s := (s.writePins ⟨s.pinDb.pinned.add item.1, s.pinDb.record.set [item]⟩).setSession
            { σ with pass := rest, pins := σ.pins.set item.1 item.2 })
          (σ := { σ with pass := rest, pins := σ.pins.set item.1 item.2 }) rfl hp rfl
        exact ⟨t, τ, .head (proceeds_pass hs (by simp only [UnlinkState.pass, hp, hn, if_neg hpinned])) hsteps, ht,
          hend, hstage⟩

variable (lib) in
/-- From the release on every step is enabled. -/
theorem release_ends {rest : List String} (hs : s.session = some σ) (hst : σ.stage = .release rest) :
    ∃ t τ, ReflTransGen (Proceeds lib) s t ∧ t.session = some τ ∧ τ.stage = .done := by
  induction rest generalizing s σ with
  | nil =>
    have hnext : Proceeds lib s (s.setSession { σ with stage := .heads }) :=
      proceeds_advance hs (by simp only [advance, hst])
    exact ⟨_, _, .head hnext (.head (proceeds_advance rfl rfl) (.head (proceeds_advance rfl rfl)
      (.head (proceeds_advance rfl rfl) (.head (proceeds_advance rfl rfl) .refl)))), rfl, rfl⟩
  | cons cid rest ih =>
    obtain ⟨t, τ, hsteps, ht, hdone⟩ := ih (s := s.unpin lib σ cid rest)
      (σ := { σ with pins := σ.pins.delete cid, stage := .release rest }) rfl rfl
    exact ⟨t, τ, .head (proceeds_advance hs (by simp only [advance, hst])) hsteps, ht, hdone⟩

variable (lib) in
/-- An unlink that has just begun comes to its end. -/
theorem link_ends (hs : s.session = some σ) (hst : σ.stage = .link) :
    ∃ t τ, ReflTransGen (Proceeds lib) s t ∧ t.session = some τ ∧ τ.stage = .done := by
  obtain ⟨p, π, hpass, hp, hended, hpst⟩ := pass_ends lib hs
  rw [hst] at hpst
  obtain ⟨t, τ, hrelease, ht, hdone⟩ := release_ends lib
    (s := (({ p with linked := false }.writePins { p.pinDb with record := none }).setSession
      { π with linked := false, stage := .release (π.pins.keys ++ if π.entries then lib.blobs else []) })) rfl rfl
  refine ⟨t, τ, hpass.trans ?_, ht, hdone⟩
  refine .head (proceeds_advance hp (by simp only [advance, hpst]; rfl)) (.head (proceeds_advance rfl rfl)
    (.head (proceeds_advance rfl rfl) (.head (proceeds_advance rfl ?_) hrelease)))
  simp only [advance, setSession, hended]
  rfl

theorem Restartable.proceeds {t : UnlinkState} (h : Restartable lib s) (hsteps : ReflTransGen (Proceeds lib) s t) :
    Restartable lib t := by
  induction hsteps with
  | refl => exact h
  | tail _ hstep ih =>
    rcases hstep with hstep | hstep
    · exact ih.step (l := .advance) trivial hstep
    · exact ih.step (l := .pass) trivial hstep

/-- Restartable unlink. In every run whose crashes are spared: once the marker is cleared the
state is the one an uninterrupted unlink ends in, and after a crash before that, the next start
comes to it by finitely many steps. -/
theorem restartable_unlink (lib : HeldLibrary) (s : UnlinkState)
    (hrun : Run (step lib) (Initial lib) (Spared lib) s) (hbegun : s.begun = true) :
    (s.marker = false → Clean lib s) ∧
      (s.session = none → s.marker = true →
        ∃ t u, s.step lib .start = some t ∧ ReflTransGen (Proceeds lib) t u ∧ Clean lib u) := by
  have h : Restartable lib s := hrun.invariant (fun _ h => h.restartable) fun _ _ _ hs hl ht => hs.step hl ht
  refine ⟨h.clean hbegun, fun hnone hmarker => ?_⟩
  have hstart : s.step lib .start = some (s.openLibrary lib) := by
    simp [step, hnone, start, hmarker]
  obtain ⟨passing, -, -, -, -, -, hsession, -⟩ := openLibrary_spec lib s
  rw [hmarker, if_pos rfl] at hsession
  obtain ⟨u, τ, hsteps, hu, hdone⟩ := link_ends lib hsession rfl
  have hend := (h.step (l := .start) trivial hstart).proceeds hsteps
  have hstage := (hend.up τ hu).stage
  rw [AtStage, hdone] at hstage
  exact ⟨_, u, hstart, hsteps, hstage.2⟩

namespace OneEntry

/-- A linked library with one entry, whose owner has an avatar. -/
def oneEntry : HeldLibrary := ⟨["manifest"], [⟨"entry", none, [], false⟩], ["avatar"], fun _ => false⟩

def recorded : PinSet := LibraryPinRecord.upsert .empty [("manifest", false), ("entry", false)]

/-- It is open, with its entry and its chain pinned and recorded. -/
def opened : UnlinkState :=
  ⟨false, false, .full, true, ⟨.ofList ["manifest", "entry"], some ⟨true, recorded⟩⟩, [], ⟨true, true⟩, [],
    some ⟨true, recorded, true, false, [], .idle⟩⟩

theorem opened_initial : Initial oneEntry opened where
  begun := rfl
  marker := rfl
  heads := rfl
  session := by
    refine ⟨_, rfl, rfl, rfl, fun _ => rfl, fun cid _ hm => Or.inl ?_⟩
    have hcid : cid = "manifest" ∨ cid = "entry" := by simpa [opened, OrderedSet.mem_ofList] using hm
    rcases hcid with rfl | rfl <;> rfl

/-- The crash brings back the avatar's pin and the record that has it. -/
def cutShort : UnlinkState := { opened with
  begun := true, marker := true, linked := false, session := none
  pinDb := ⟨.ofList ["manifest", "entry", "avatar"], some ⟨true, recorded.set "avatar" true⟩⟩ }

/-- The avatar is held before the unlink, which has cleared the record and released the first pin. -/
def releasing : UnlinkState :=
  ⟨true, true, .full, false, ⟨.ofList ["entry", "avatar"], none⟩, [⟨cutShort.pinDb.pinned, none⟩, cutShort.pinDb],
    ⟨true, true⟩, [],
    some ⟨false, LibraryPinRecord.upsert .empty [("entry", false), ("avatar", true)], true, false, [],
      .release ["entry", "avatar"]⟩⟩

theorem run_releasing : runLabels (step oneEntry) opened
    [.hold "avatar", .pass, .pass, .flushPins, .begin, .advance, .advance, .advance, .advance, .advance] =
      some releasing := rfl

/-- The entry that stays pinned: the heads were removed before the pin index was flushed. -/
def leaked : UnlinkState :=
  ⟨true, false, .none, false, ⟨.ofList ["entry"], none⟩, [], ⟨false, false⟩, [],
    some ⟨false, .empty, false, false, [], .done⟩⟩

theorem run_leaked : runLabels (step oneEntry) opened
    [.begin, .advance, .advance, .advance, .flushPins, .advance, .advance, .advance, .advance, .advance, .crash 2 0,
      .start, .advance, .advance, .pass, .advance, .advance, .advance, .advance, .advance, .advance, .advance, .advance,
      .flushPins, .flushIndex] = some leaked := rfl

end OneEntry

open OneEntry in
/-- Cut short before the heads were removed, with the release lost: the next start finds the avatar in
the record and finishes. -/
theorem restartable_unlink_cut_short :
    ∃ s, Run (step oneEntry) (Initial oneEntry) (Spared oneEntry) s ∧ s.marker = true ∧ "avatar" ∈ s.pinDb.pinned ∧
      ∃ t u, s.step oneEntry .start = some t ∧ ReflTransGen (Proceeds oneEntry) t u ∧ Clean oneEntry u := by
  have hreleasing : Run (step oneEntry) (Initial oneEntry) (Spared oneEntry) releasing :=
    (Run.start opened_initial).of_runLabels (by simp [Spared]) run_releasing
  have hrun : Run (step oneEntry) (Initial oneEntry) (Spared oneEntry) cutShort := by
    refine .next (.crash 2 0) hreleasing (fun pins index hpins _ => ⟨fun _ cid _ hm => ?_, fun _ hm => ?_⟩) rfl
    · obtain rfl := Option.some.inj hpins
      have hcid : cid = "manifest" ∨ cid = "entry" ∨ cid = "avatar" := by
        simpa [cutShort, OrderedSet.mem_ofList] using hm
      rcases hcid with rfl | rfl | rfl
      · exact Or.inl List.mem_cons_self
      · exact Or.inr (Or.inr ⟨rfl, List.mem_cons_self⟩)
      · exact Or.inr (Or.inl ⟨_, rfl, rfl⟩)
    · exact absurd hm (by decide)
  refine ⟨cutShort, hrun, rfl, by decide, ?_⟩
  exact (restartable_unlink oneEntry cutShort hrun rfl).2 rfl rfl

open OneEntry in
/-- The heads are removed from the state file while the pin index has not been flushed; the
crash loses the release, and the finish never finds the entry's pin. -/
theorem restartable_unlink_leaked :
    ¬ ∀ (lib : HeldLibrary) (s : UnlinkState), Run (step lib) (Initial lib) anyLabel s → s.begun = true →
      (s.marker = false → Clean lib s) ∧
        (s.session = none → s.marker = true →
          ∃ t u, s.step lib .start = some t ∧ ReflTransGen (Proceeds lib) t u ∧ Clean lib u) := by
  intro hclaim
  have hrun : Run (step oneEntry) (Initial oneEntry) anyLabel leaked :=
    (Run.start opened_initial).of_runLabels (fun _ _ _ => trivial) run_leaked
  exact ((hclaim oneEntry leaked hrun rfl).1 rfl).freed "entry" ⟨by decide, rfl⟩ (by decide)

end UnlinkState

end RecordNode
