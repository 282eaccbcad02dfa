import RecordNode.Peer.Heads
import RecordNode.Peer.PinRecord
import RecordNode.QueryDb.Projector

/-! # Registering what a merge adds

A merge changes the oplog first and then, if it added anything, registers what it
added: the blocks are stored, cached and pinned, the heads saved, the keys
projected. When one of these steps throws, the entries stay in the oplog, so a
merge of the same blocks adds nothing and registers nothing. -/

namespace RecordNode

open Foundation

/-! ## What an entry pins -/

/-- What the pins of an entry depend on besides the entry: its stored and valid content, the
library's policy, and which pins find all their blocks in the store. -/
structure PinSource where
  content : VerifiedEntry → Option Fields
  keepsBlobs : VerifiedEntry → Option Fields → Bool
  isLocal : String × Bool → Bool

namespace PinSource

def trackBlobs (content : Fields) : List String :=
  (textOf (content.get "hash")).toList ++ stringsOf (content.get "artwork")

/-- The avatar a profile PUT names. -/
def profileAvatar : Operation → Option String
  | .identityPut _ (.profile _ _ _ avatar) => avatar
  | _ => none

variable (src : PinSource)

/-- The blobs of an entry with the content that names them; a profile names its own. -/
def storedItem6 (e : VerifiedEntry) : Option (Option Fields × List String) :=
  match profileAvatar e.operation with
  | some avatar => some (none, [avatar])
  | none => if e.operation.isPut then (src.content e).map fun content => (some content, trackBlobs content) else none

def contentPin : Operation → List (String × Bool)
  | .track envelope _ => [(envelope.content, false)]
  | _ => []

def entryPins (e : VerifiedEntry) : List (String × Bool) :=
  (e.hash, false) :: contentPin e.operation ++
    match src.storedItem6 e with
    | some (content, blobs) => if src.keepsBlobs e content then blobs.map fun cid => (cid, true) else []
    | none => []

/-- The CID is in the set, recursively or as asked for. -/
def isPinned (pins : PinSet) (item : String × Bool) : Bool :=
  pins.get item.1 = some true || pins.get item.1 = some item.2

/-- One round of `pin_into`; a CID whose blocks are not all local is left out. -/
def pinItem (pins : PinSet) (item : String × Bool) : PinSet :=
  if isPinned pins item then pins else if src.isLocal item then pins.set item.1 item.2 else pins

def pinInto (pins : PinSet) (items : List (String × Bool)) : PinSet := items.foldl src.pinItem pins

variable {src}

/-- What one round pins: its item when that is local, and with a recursive pin the direct one. -/
theorem isPinned_pinItem (pins : PinSet) (item x : String × Bool) :
    isPinned (src.pinItem pins item) x = true ↔ isPinned pins x = true ∨
      (src.isLocal item = true ∧ item.1 = x.1 ∧ (item.2 = true ∨ item.2 = x.2)) := by
  obtain ⟨cid, recursive⟩ := item
  obtain ⟨cid', recursive'⟩ := x
  unfold pinItem
  by_cases hp : isPinned pins (cid, recursive) = true
  · rw [if_pos hp, iff_self_or]
    rintro ⟨-, rfl, hr⟩
    simp only [isPinned, Bool.or_eq_true, decide_eq_true_eq] at hp hr ⊢
    rcases hr with rfl | rfl
    · exact Or.inl (hp.elim id id)
    · exact hp
  · rw [if_neg hp]
    by_cases hl : src.isLocal (cid, recursive) = true
    · rw [if_pos hl]
      by_cases hx : cid' = cid
      · subst hx
        simp only [isPinned, OrderedMap.get_set, Bool.or_eq_true, decide_eq_true_eq, not_or] at hp ⊢
        cases recursive <;> cases recursive' <;> simp_all
      · simp [isPinned, hx, hl, Ne.symm hx]
    · simp [hl]

theorem isPinned_pinInto (items : List (String × Bool)) (pins : PinSet) (x : String × Bool) :
    isPinned (src.pinInto pins items) x = true ↔ isPinned pins x = true ∨
      ∃ item ∈ items, src.isLocal item = true ∧ item.1 = x.1 ∧ (item.2 = true ∨ item.2 = x.2) := by
  induction items generalizing pins with
  | nil => simp [pinInto]
  | cons item rest ih =>
    have hcons : src.pinInto pins (item :: rest) = src.pinInto (src.pinItem pins item) rest := rfl
    simp only [hcons, ih, isPinned_pinItem, List.mem_cons, exists_eq_or_imp, or_assoc]

end PinSource

/-! ## The registration -/

/-- What a library has in the index: its block cache, and for each key the entries known for
it when its rows were last written. -/
structure IndexRows where
  cache : EntryBlockCache
  projected : OrderedMap String (OrderedSet Hash)

def IndexRows.known (rows : IndexRows) (key : String) : OrderedSet Hash := (rows.projected.get key).getD .empty

structure MergedLibrary where
  oplog : Oplog
  store : BlockStore
  rows : IndexRows
  /-- The rows when the open commit batch began. -/
  committed : IndexRows
  pins : PinSet
  heads : List Hash

/-- Where a merge throws. -/
inductive MergeFault where
  /-- A put, with this many blocks stored before it. -/
  | put (stored : ℕ)
  /-- The transaction of the cache, which takes the open commit batch with it. -/
  | cache
  /-- A pin, with these items pinned by the time the batch is merged again. -/
  | pin (made : List (String × Bool))
  | heads
  /-- A read of content, with these keys written in earlier rounds. -/
  | project (written : List String)
  /-- A transaction of the projector, in the commit batch the cache was written in. -/
  | rolledBack

namespace MergeFault

/-- The entries whose blocks are stored before the throw. -/
def storing (entries : List VerifiedEntry) : MergeFault → List VerifiedEntry
  | .put n => entries.take n
  | _ => entries

/-- The entries that are in the cache after it. -/
def caching (entries : List VerifiedEntry) : MergeFault → List VerifiedEntry
  | .put _ | .cache | .rolledBack => []
  | _ => entries

def pinning (items : List (String × Bool)) : MergeFault → List (String × Bool)
  | .put _ | .cache => []
  | .pin made => items.filter fun item => made.contains item
  | _ => items

def writing (keys : List String) : MergeFault → List String
  | .project written => keys.filter fun key => written.contains key
  | _ => []

/-- The throw rolls the open commit batch of the index back. -/
def rollsBack : MergeFault → Bool
  | .cache | .rolledBack => true
  | _ => false

end MergeFault

namespace MergedLibrary

variable (E : Environment) (src : PinSource)

/-- The puts, none of which is refused: a merged entry's hash was computed from its bytes. -/
def putAll (s : MergedLibrary) (entries : List VerifiedEntry) : MergedLibrary :=
  { s with store := entries.foldl (fun store e => store.set e.hash e.bytes) s.store }

def saveCache (s : MergedLibrary) (entries : List VerifiedEntry) : MergedLibrary :=
  { s with rows := { s.rows with cache := s.rows.cache.save entries s.oplog.heads.items } }

def pinEntries (s : MergedLibrary) (items : List (String × Bool)) : MergedLibrary :=
  { s with pins := src.pinInto s.pins items }

def saveHeads (s : MergedLibrary) : MergedLibrary := { s with heads := sortHeads s.oplog.heads.items }

/-- The rows of each key are written from the entries known for it now. -/
def projectKeys (s : MergedLibrary) (keys : List String) : MergedLibrary :=
  let write := fun (projected : OrderedMap String (OrderedSet Hash)) key =>
    projected.set key ((s.oplog.keyEntries.get key).getD .empty)
  { s with rows := { s.rows with projected := keys.foldl write s.rows.projected } }

def rollback (s : MergedLibrary) : MergedLibrary := { s with rows := s.committed }

def touchedKeys (entries : List VerifiedEntry) (access : AccessChange) : List String :=
  access.keys.items ++ entries.flatMap (VerifiedEntry.stateKeys E)

/-- `register`, with the step that throws, if one does; and whether it resolves. -/
def register (fault : Option MergeFault) (s : MergedLibrary) (entries : List VerifiedEntry) (access : AccessChange) :
    MergedLibrary × Bool :=
  let stored := s.putAll entries
  let cached := stored.saveCache entries
  let items := entries.flatMap src.entryPins
  let pinned := cached.pinEntries src items
  let saved := pinned.saveHeads
  let keys := touchedKeys E entries access
  match fault with
  | some (.put n) => (s.putAll (entries.take n), false)
  | some .cache => (stored.rollback, false)
  | some (.pin made) => (cached.pinEntries src (items.filter fun item => made.contains item), false)
  | some .heads => (pinned, false)
  | some (.project written) => (saved.projectKeys (keys.filter fun key => written.contains key), false)
  | some .rolledBack => (saved.rollback, false)
  | none => (saved.projectKeys keys, true)

def merge (fault : Option MergeFault) (s : MergedLibrary) (blocks : List Bytes) : MergedLibrary × Bool :=
  let result := mergeEntries E s.oplog blocks
  let s := { s with oplog := result.1 }
  if result.2.merged.isEmpty then (s, true) else s.register E src fault result.2.merged result.2.access

/-- The entry's block is stored and cached, its pins are made and its keys projected. -/
structure Registered (s : MergedLibrary) (e : VerifiedEntry) : Prop where
  stored : s.store.has e.hash = true
  cached : s.rows.cache.blocks.has e.hash = true
  pinned : ∀ item ∈ src.entryPins e, src.isLocal item = true → PinSource.isPinned s.pins item = true
  projected : ∀ key ∈ e.stateKeys E, e.hash ∈ s.rows.known key

variable {E src}

theorem has_putAll (s : MergedLibrary) (entries : List VerifiedEntry) (h : Hash) :
    (s.putAll entries).store.has h = true ↔ s.store.has h = true ∨ ∃ e ∈ entries, e.hash = h := by
  suffices hfold : ∀ store : BlockStore,
      (entries.foldl (fun store e => store.set e.hash e.bytes) store).has h = true ↔
        store.has h = true ∨ ∃ e ∈ entries, e.hash = h from hfold s.store
  induction entries with
  | nil => simp
  | cons e rest ih =>
    intro store
    rw [List.foldl_cons, ih, OrderedMap.has_set]
    by_cases he : h = e.hash
    · simp [he]
    · simp [he, Ne.symm he]

/-- A key just written is known with all its entries, any other as before. -/
theorem mem_known_projectKeys (s : MergedLibrary) (keys : List String) (key : String) (h : Hash) :
    h ∈ (s.projectKeys keys).rows.known key ↔
      if key ∈ keys then h ∈ (s.oplog.keyEntries.get key).getD .empty else h ∈ s.rows.known key := by
  suffices hfold : ∀ projected : OrderedMap String (OrderedSet Hash),
      h ∈ ((keys.foldl (fun (projected : OrderedMap String (OrderedSet Hash)) key =>
          projected.set key ((s.oplog.keyEntries.get key).getD .empty)) projected).get key).getD .empty ↔
        if key ∈ keys then h ∈ (s.oplog.keyEntries.get key).getD .empty else h ∈ (projected.get key).getD .empty
    from hfold s.rows.projected
  induction keys with
  | nil => simp
  | cons k rest ih =>
    intro projected
    rw [List.foldl_cons, ih, OrderedMap.get_set]
    by_cases hr : key ∈ rest
    · simp [hr]
    · by_cases hk : key = k <;> simp [hr, hk]

/-- The rows that what was done before is read from. -/
def rowsUnder (s : MergedLibrary) (fault : MergeFault) : IndexRows :=
  if fault.rollsBack then s.committed else s.rows

/-- What a `register` that throws leaves. -/
structure Thrown (E : Environment) (src : PinSource) (fault : MergeFault) (s : MergedLibrary)
    (entries : List VerifiedEntry) (access : AccessChange) (t : MergedLibrary) : Prop where
  oplog : t.oplog = s.oplog
  store : ∀ h, t.store.has h = true ↔ s.store.has h = true ∨ ∃ e ∈ fault.storing entries, e.hash = h
  cache : ∀ h, t.rows.cache.blocks.has h = true ↔
    (s.rowsUnder fault).cache.blocks.has h = true ∨ ∃ e ∈ fault.caching entries, e.hash = h
  pins : t.pins = src.pinInto s.pins (fault.pinning (entries.flatMap src.entryPins))
  known : ∀ key h, h ∈ t.rows.known key ↔ if key ∈ fault.writing (touchedKeys E entries access)
    then h ∈ (s.oplog.keyEntries.get key).getD .empty else h ∈ (s.rowsUnder fault).known key

theorem register_thrown (fault : MergeFault) (s : MergedLibrary) (entries : List VerifiedEntry)
    (access : AccessChange) : (s.register E src (some fault) entries access).2 = false ∧
      Thrown E src fault s entries access (s.register E src (some fault) entries access).1 := by
  have hcache : ∀ h, (s.saveCache entries).rows.cache.blocks.has h = true ↔
      s.rows.cache.blocks.has h = true ∨ ∃ e ∈ entries, e.hash = h :=
    EntryBlockCache.has_insertAll s.rows.cache.blocks entries
  have hcached : ∀ (rows : IndexRows) h, rows.cache.blocks.has h = true ↔
      rows.cache.blocks.has h = true ∨ ∃ e ∈ ([] : List VerifiedEntry), e.hash = h := by simp
  have hknown : ∀ (rows : IndexRows) key h, h ∈ rows.known key ↔ if key ∈ ([] : List String)
      then h ∈ (s.oplog.keyEntries.get key).getD .empty else h ∈ rows.known key := by simp
  cases fault with
  | put n => exact ⟨rfl, rfl, has_putAll s _, hcached s.rows, rfl, hknown s.rows⟩
  | cache => exact ⟨rfl, rfl, has_putAll s _, hcached s.committed, rfl, hknown s.committed⟩
  | pin made => exact ⟨rfl, rfl, has_putAll s _, hcache, rfl, hknown s.rows⟩
  | heads => exact ⟨rfl, rfl, has_putAll s _, hcache, rfl, hknown s.rows⟩
  | project written => exact ⟨rfl, rfl, has_putAll s _, hcache, rfl, mem_known_projectKeys _ _⟩
  | rolledBack => exact ⟨rfl, rfl, has_putAll s _, hcached s.committed, rfl, hknown s.committed⟩

/-! ## The retry -/

/-- Whatever the merge that throws does not do for the entry was done before. -/
structure Spared (E : Environment) (src : PinSource) (fault : MergeFault) (s : MergedLibrary) (blocks : List Bytes)
    (e : VerifiedEntry) : Prop where
  stored : s.store.has e.hash = true ∨ e ∈ fault.storing (mergeEntries E s.oplog blocks).2.merged
  cached : (s.rowsUnder fault).cache.blocks.has e.hash = true ∨
    e ∈ fault.caching (mergeEntries E s.oplog blocks).2.merged
  pinned : ∀ item ∈ src.entryPins e, src.isLocal item = true → PinSource.isPinned s.pins item = true ∨
    ∃ x ∈ fault.pinning ((mergeEntries E s.oplog blocks).2.merged.flatMap src.entryPins),
      src.isLocal x = true ∧ x.1 = item.1 ∧ (x.2 = true ∨ x.2 = item.2)
  projected : ∀ key ∈ e.stateKeys E, e.hash ∈ (s.rowsUnder fault).known key ∨
    key ∈ fault.writing (touchedKeys E (mergeEntries E s.oplog blocks).2.merged
      (mergeEntries E s.oplog blocks).2.access)

theorem storing_subset (fault : MergeFault) (entries : List VerifiedEntry) : fault.storing entries ⊆ entries := by
  cases fault with
  | put n => exact List.take_subset n entries
  | _ => exact List.Subset.refl _

theorem caching_subset (fault : MergeFault) (entries : List VerifiedEntry) : fault.caching entries ⊆ entries := by
  cases fault with
  | put _ | cache | rolledBack => exact List.nil_subset _
  | _ => exact List.Subset.refl _

/-- Among entries an oplog holds, one is found by its hash. -/
theorem exists_hash_iff {o : Oplog} {entries : List VerifiedEntry} (hm : ∀ x ∈ entries, o.Holds x)
    {e : VerifiedEntry} (he : o.Holds e) : (∃ x ∈ entries, x.hash = e.hash) ↔ e ∈ entries := by
  constructor
  · rintro ⟨x, hx, hhash⟩
    have hxe := hm x hx
    rw [Oplog.Holds, hhash] at hxe
    exact Option.some_inj.mp (hxe.symm.trans he) ▸ hx
  · exact fun hx => ⟨e, hx, rfl⟩

theorem merge_of_merged (fault : Option MergeFault) (s : MergedLibrary) (blocks : List Bytes) :
    s.merge E src fault blocks = if (mergeEntries E s.oplog blocks).2.merged.isEmpty
      then ({ s with oplog := (mergeEntries E s.oplog blocks).1 }, true)
      else ({ s with oplog := (mergeEntries E s.oplog blocks).1 } : MergedLibrary).register E src fault
        (mergeEntries E s.oplog blocks).2.merged (mergeEntries E s.oplog blocks).2.access := rfl

/-- What a merge that throws leaves. -/
theorem merge_thrown {fault : MergeFault} {s : MergedLibrary} {blocks : List Bytes}
    (h : (s.merge E src (some fault) blocks).2 = false) :
    Thrown E src fault { s with oplog := (mergeEntries E s.oplog blocks).1 } (mergeEntries E s.oplog blocks).2.merged
      (mergeEntries E s.oplog blocks).2.access (s.merge E src (some fault) blocks).1 := by
  rw [merge_of_merged] at h ⊢
  split at h
  · simp at h
  case isFalse hne =>
    rw [if_neg hne]
    exact (register_thrown fault _ _ _).2

/-- The retry changes nothing, and resolves. -/
theorem merge_retried {chain : ResolvedAcChain} {s t : MergedLibrary} (hs : Sound E chain s.oplog)
    (blocks : List Bytes) (ht : t.oplog = (mergeEntries E s.oplog blocks).1) :
    t.merge E src none blocks = (t, true) := by
  obtain ⟨hagain, hnone⟩ := mergeEntries_again hs blocks
  have hoplog : ({ t with oplog := (mergeEntries E t.oplog blocks).1 } : MergedLibrary) = t := by
    rw [ht, hagain, ← ht]
  rw [merge_of_merged, hoplog, ht, hnone]
  rfl

/-- After a throw an entry is registered exactly if it was spared. -/
theorem registered_iff_spared {chain : ResolvedAcChain} {fault : MergeFault} {s : MergedLibrary}
    {blocks : List Bytes} (hs : Sound E chain s.oplog) (h : (s.merge E src (some fault) blocks).2 = false)
    {e : VerifiedEntry} (he : (mergeEntries E s.oplog blocks).1.Holds e) :
    Registered E src (s.merge E src (some fault) blocks).1 e ↔ Spared E src fault s blocks e := by
  have T := merge_thrown h
  have hm := mergeEntries_merged_holds (E := E) (o := s.oplog) blocks
  have hstored := (T.store e.hash).trans (or_congr_right (exists_hash_iff
    (fun x hx => hm x (storing_subset fault _ hx)) he))
  have hcached := (T.cache e.hash).trans (or_congr_right (exists_hash_iff
    (fun x hx => hm x (caching_subset fault _ hx)) he))
  have hpinned : ∀ item, PinSource.isPinned (s.merge E src (some fault) blocks).1.pins item = true ↔
      PinSource.isPinned s.pins item = true ∨
        ∃ x ∈ fault.pinning ((mergeEntries E s.oplog blocks).2.merged.flatMap src.entryPins),
          src.isLocal x = true ∧ x.1 = item.1 ∧ (x.2 = true ∨ x.2 = item.2) := by
    intro item
    rw [T.pins]
    exact PinSource.isPinned_pinInto _ _ item
  have hknown : ∀ key ∈ e.stateKeys E, e.hash ∈ (s.merge E src (some fault) blocks).1.rows.known key ↔
      e.hash ∈ (s.rowsUnder fault).known key ∨
        key ∈ fault.writing (touchedKeys E (mergeEntries E s.oplog blocks).2.merged
          (mergeEntries E s.oplog blocks).2.access) := by
    intro key hk
    -- A held entry is among those known for its keys, so writing a key covers it.
    obtain ⟨known, hget, hmem⟩ := ((merge_sound hs blocks).indexed.keyEntries key e.hash).mpr ⟨e, he, hk⟩
    rw [T.known]
    split
    case isTrue hw => simp [hget, hmem, hw]
    case isFalse hw =>
      rw [or_iff_left hw]
      rfl
  constructor
  · intro R
    exact ⟨hstored.mp R.stored, hcached.mp R.cached, fun item hi hl => (hpinned item).mp (R.pinned item hi hl),
      fun key hk => (hknown key hk).mp (R.projected key hk)⟩
  · intro S
    exact ⟨hstored.mpr S.stored, hcached.mpr S.cached, fun item hi hl => (hpinned item).mpr (S.pinned item hi hl),
      fun key hk => (hknown key hk).mpr (S.projected key hk)⟩

/-- The entry is that of one of the blocks. -/
def InBatch (E : Environment) (blocks : List Bytes) (e : VerifiedEntry) : Prop :=
  ∃ b ∈ blocks, decodeSignedEntry E b = .ok e.toHashedEntry

/-- A merge that throws, then a merge of the same blocks. The second resolves, and every
entry of the batch that is held is then registered exactly if for each of them the step that
threw, and every step after it, had been done before. -/
theorem merge_retry (E : Environment) (chain : ResolvedAcChain) (src : PinSource) (fault : MergeFault)
    (s : MergedLibrary) (blocks : List Bytes) (hs : Reachable E chain s.oplog)
    (hthrows : (s.merge E src (some fault) blocks).2 = false) :
    let retried := (s.merge E src (some fault) blocks).1.merge E src none blocks
    retried.2 = true ∧
      ((∀ e, InBatch E blocks e → retried.1.oplog.Holds e → Registered E src retried.1 e) ↔
        ∀ e, InBatch E blocks e → (mergeEntries E s.oplog blocks).1.Holds e → Spared E src fault s blocks e) := by
  have sound := reachable_sound hs
  have hoplog := (merge_thrown hthrows).oplog
  intro retried
  have hretried : retried = ((s.merge E src (some fault) blocks).1, true) := merge_retried sound blocks hoplog
  rw [hretried, hoplog]
  refine ⟨rfl, forall_congr' fun e => imp_congr_right fun _ => ?_⟩
  exact forall_congr' fun he => registered_iff_spared sound hthrows he

/-- A library just created. -/
def fresh (chain : ResolvedAcChain) : MergedLibrary :=
  ⟨createOplog chain, .empty, ⟨.empty, .empty⟩, ⟨.empty, .empty⟩, .empty, []⟩

variable (src) in
/-- A merge that adds something throws where it is told to. -/
theorem merge_throws (fault : MergeFault) {s : MergedLibrary} {blocks : List Bytes} {e : VerifiedEntry}
    (h : (mergeEntries E s.oplog blocks).2.merged = [e]) : (s.merge E src (some fault) blocks).2 = false := by
  rw [merge_of_merged, h]
  exact (register_thrown fault _ _ _).1

variable (src) in
/-- The first put throws: the retry resolves with the entry held and its block not stored. -/
theorem unstored_of_put {chain : ResolvedAcChain} {s : MergedLibrary} (hs : Sound E chain s.oplog)
    {blocks : List Bytes} {e : VerifiedEntry} (hm : (mergeEntries E s.oplog blocks).2.merged = [e])
    (hstore : s.store.has e.hash = false) :
    ((s.merge E src (some (.put 0)) blocks).1.merge E src none blocks).2 = true ∧
      ((s.merge E src (some (.put 0)) blocks).1.merge E src none blocks).1.oplog.Holds e ∧
      ((s.merge E src (some (.put 0)) blocks).1.merge E src none blocks).1.store.has e.hash = false := by
  have T := merge_thrown (merge_throws src (.put 0) hm)
  rw [merge_retried hs blocks T.oplog]
  refine ⟨rfl, ?_, Bool.eq_false_iff.mpr fun h => ?_⟩
  · rw [T.oplog]
    exact mergeEntries_merged_holds blocks e (hm ▸ List.mem_singleton_self e)
  · rcases (T.store e.hash).mp h with h | ⟨x, hx, -⟩
    · exact Bool.false_ne_true (hstore.symm.trans h)
    · exact absurd hx List.not_mem_nil

open Sample in
/-- The owner's deletion, merged when its put throws. -/
theorem merge_retry_deletion :
    ∃ (src : PinSource) (s : MergedLibrary) (blocks : List Bytes),
      (mergeEntries plainEnvironment s.oplog blocks).2.merged = [heldFor libraryA plainEnvironment.aboutKey] ∧
      let retried := (s.merge plainEnvironment src (some (.put 0)) blocks).1.merge plainEnvironment src none blocks
      retried.2 = true ∧
        ((∀ e, InBatch plainEnvironment blocks e → retried.1.oplog.Holds e →
            Registered plainEnvironment src retried.1 e) ↔
          ∀ e, InBatch plainEnvironment blocks e → (mergeEntries plainEnvironment s.oplog blocks).1.Holds e →
            Spared plainEnvironment src (.put 0) s blocks e) := by
  have hmerged : (mergeEntries plainEnvironment (fresh libraryA).oplog
      [(heldFor libraryA plainEnvironment.aboutKey).bytes]).2.merged = [_] :=
    (merged_first plainEnvironment.aboutKey).1
  exact ⟨⟨fun _ => none, fun _ _ => true, fun _ => true⟩, fresh libraryA, _, hmerged,
    merge_retry plainEnvironment libraryA _ (.put 0) _ _ .create (merge_throws _ _ hmerged)⟩

open Sample in
/-- A put throws, the batch is merged again and that resolves: the entry is in the oplog, and
its block is not in the store. -/
theorem merge_retry_unstored :
    ¬ ∀ (src : PinSource) (fault : MergeFault) (s : MergedLibrary) (blocks : List Bytes),
      Reachable plainEnvironment libraryA s.oplog →
      (s.merge plainEnvironment src (some fault) blocks).2 = false →
      ((s.merge plainEnvironment src (some fault) blocks).1.merge plainEnvironment src none blocks).2 = true →
      ∀ e, InBatch plainEnvironment blocks e →
        ((s.merge plainEnvironment src (some fault) blocks).1.merge plainEnvironment src none blocks).1.oplog.Holds e →
        Registered plainEnvironment src
          ((s.merge plainEnvironment src (some fault) blocks).1.merge plainEnvironment src none blocks).1 e := by
  intro hclaim
  have hmerged : (mergeEntries plainEnvironment (fresh libraryA).oplog
      [(heldFor libraryA plainEnvironment.aboutKey).bytes]).2.merged = [_] :=
    (merged_first plainEnvironment.aboutKey).1
  obtain ⟨hresolves, hheld, hstore⟩ := unstored_of_put
    ⟨fun _ => none, fun _ _ => true, fun _ => true⟩ createOplog_sound hmerged rfl
  have hbatch : InBatch plainEnvironment [(heldFor libraryA plainEnvironment.aboutKey).bytes]
      (heldFor libraryA plainEnvironment.aboutKey) :=
    ⟨_, List.mem_singleton_self _, decodeSignedEntry_entryFor plainEnvironment.aboutKey (by decide)⟩
  have hstored := (hclaim _ _ _ _ .create (merge_throws _ _ hmerged) hresolves _ hbatch hheld).stored
  exact Bool.false_ne_true (hstore.symm.trans hstored)

end MergedLibrary

end RecordNode
