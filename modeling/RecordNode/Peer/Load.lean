import RecordNode.Fabric.ContentStore
import RecordNode.Foundation.Walk
import RecordNode.Oplog.Delivery
import RecordNode.QueryDb.EntryBlocks

/-! # Opening a library's oplog

The oplog at the persisted heads, from the entry block cache when that reproduces
them and otherwise from a walk of the content store. Where every cached block was
once held by an oplog of the chain, restoring the cache comes to what verifying it
in full comes to. -/

namespace RecordNode

open Foundation Relation

/-- What a stored block names, when it is an entry. -/
def entryLinks (E : Environment) (b : Bytes) : List Hash :=
  match decodeSignedEntry E b with
  | .ok hashed => hashed.entry.next ++ hashed.entry.refs
  | .error _ => []

/-- Walk from the heads along `next` and `refs`; a block missing locally is skipped. -/
def loadEntryBlocks (E : Environment) (heads : List Hash) (store : BlockStore) : List Bytes :=
  collect store (entryLinks E) heads .empty

def sameHeads (a b : List Hash) : Bool := sortHeads a = sortHeads b

structure LoadedOplog where
  oplog : Oplog
  loaded : MergeResult
  cache : EntryBlockCache

/-- A cache last written at these heads is restored, any other verified in full; if it
does not reproduce the heads, the content store is walked and the cache rewritten. -/
def loadOplog (E : Environment) (chain : ResolvedAcChain) (heads : List Hash) (store : BlockStore)
    (cache : EntryBlockCache) : LoadedOplog :=
  let stored := cache.load
  let trusted := stored.verifiedHeads.any fun verified => sameHeads verified heads
  let cached := if trusted then restoreEntries E (createOplog chain) stored.blocks
    else mergeEntries E (createOplog chain) stored.blocks
  if cached.2.rejected.isEmpty && sameHeads cached.1.heads.items heads then
    ⟨cached.1, cached.2, if trusted then cache else cache.markVerified cached.1.heads.items⟩
  else
    let walked := mergeEntries E (createOplog chain) (loadEntryBlocks E heads store)
    ⟨walked.1, walked.2, .replace walked.1.entries.values walked.1.heads.items⟩

theorem mem_iff_of_sameHeads {a b : List Hash} (h : sameHeads a b = true) (x : Hash) : x ∈ a ↔ x ∈ b := by
  have hsort : sortHeads a = sortHeads b := by simpa [sameHeads] using h
  rw [← mem_sortBy compareText a x, ← mem_sortBy compareText b x]
  exact Eq.to_iff (congrArg (x ∈ ·) hsort)

/-! ## Restoring is verifying -/

section Restore
variable {E : Environment} {chain : ResolvedAcChain} {U : Set Bytes}

/-- Some oplog of the chain over the blocks `U` holds this block. -/
def Vouched (E : Environment) (chain : ResolvedAcChain) (U : Set Bytes) (b : Bytes) : Prop :=
  ∃ o, Genuine E chain o ∧ o.blocks ⊆ U ∧ b ∈ o.blocks

/-- A vouched entry whose clock fits passes all the checks a restore leaves out: they
depend on its causal past alone, which is the one it was accepted with. -/
theorem restoreEntry_eq (hinj : Set.InjOn E.sha3 U) {o : Oplog} (t : Traced E chain o) (hsub : o.blocks ⊆ U)
    {b : Bytes} (hb : Vouched E chain U b) {hashed : HashedEntry} (hd : decodeSignedEntry E b = .ok hashed) :
    restoreEntry E o hashed = verifyEntry E o hashed := by
  obtain ⟨p, g, hp, h, e, he, rfl⟩ := hb
  obtain rfl : hashed = e.toHashedEntry := Except.ok.inj (hd.symm.trans (g.authentic h e he))
  have hv := g.indexed.verified h e he
  have hcheck := ((verifyEntry_eq_ok_iff E p _ e).mp hv).2.1
  rw [g.chain_eq, ← t.chain_eq] at hcheck
  have hop := (checkEntry_parts hcheck).2.2
  cases hclock : assertClock o e.toHashedEntry with
  | error err =>
    rw [restoreEntry, verifyEntry, hcheck, hop]
    simp only [hclock, bind, Except.bind]
  | ok u =>
    have hnext : ∀ q ∈ e.next, p.Has q ∧ o.Has q := fun q hq =>
      ⟨g.indexed.grounded.closed h e he q hq, ((assertClock_eq_ok_iff o _).mp hclock).1 q hq⟩
    have A := agreeOn_past g.traced t (hinj.mono (Set.union_subset hp hsub)) hnext
    rw [A.verifyEntry_ok (fun q hq => Oplog.past_of_mem hq) hv, restoreEntry, hop]
    simp only [hclock, bind, Except.bind]
    rfl

/-- One round of the insertion loop keeps the oplog traced, and within `U`. -/
theorem admitEntry_traced {state : Admission} (t : Traced E chain state.oplog) (hsub : state.oplog.blocks ⊆ U)
    {b : Bytes} (hb : b ∈ U) {hashed : HashedEntry} (hd : decodeSignedEntry E b = .ok hashed) :
    Traced E chain (admitEntry E (verifyEntry E) state hashed).oplog ∧
      (admitEntry E (verifyEntry E) state hashed).oplog.blocks ⊆ U := by
  have B : Batch E state.oplog state.oplog state.merged := (Batch.refl t.indexed).weaken (by simp)
  have B' := admitEntry_batch B hashed
  have hmem : ∀ h x, (admitEntry E (verifyEntry E) state hashed).oplog.entries.get h = some x →
      state.oplog.entries.get h = some x ∨ x.toHashedEntry = hashed := fun h x hx =>
    admitEntry_mem (fun _ _ _ => verifyEntry_toHashedEntry) state hashed hx
  refine ⟨⟨B'.agree.chain.symm.trans t.chain_eq, B'.indexed, fun h x hx => ?_⟩, ?_⟩
  · rcases hmem h x hx with hx | rfl
    · exact t.authentic h x hx
    · rw [(decodeSignedEntry_bytes hd).1, hd]
  · rintro c ⟨h, x, hx, rfl⟩
    rcases hmem h x hx with hx | rfl
    · exact hsub ⟨h, x, hx, rfl⟩
    · rw [(decodeSignedEntry_bytes hd).1]
      exact hb

theorem foldl_admitEntry_restore (hinj : Set.InjOn E.sha3 U) (l : List HashedEntry)
    (hl : ∀ hashed ∈ l, ∃ b, Vouched E chain U b ∧ decodeSignedEntry E b = .ok hashed) (state : Admission)
    (t : Traced E chain state.oplog) (hsub : state.oplog.blocks ⊆ U) :
    l.foldl (admitEntry E (restoreEntry E)) state = l.foldl (admitEntry E (verifyEntry E)) state := by
  induction l generalizing state with
  | nil => rfl
  | cons hashed rest ih =>
    obtain ⟨b, hb, hd⟩ := hl hashed List.mem_cons_self
    have hstep : admitEntry E (restoreEntry E) state hashed = admitEntry E (verifyEntry E) state hashed := by
      rw [admitEntry, admitEntry, restoreEntry_eq hinj t hsub hb hd]
    obtain ⟨p, -, hp, hbp⟩ := hb
    obtain ⟨t', hsub'⟩ := admitEntry_traced t hsub (hp hbp) hd
    rw [List.foldl_cons, List.foldl_cons, hstep]
    exact ih (fun x hx => hl x (List.mem_cons_of_mem _ hx)) _ t' hsub'

theorem createOplog_genuine : Genuine E chain (createOplog chain) :=
  ⟨createOplog_sound, by simp [Authentic, createOplog]⟩

theorem createOplog_blocks : (createOplog chain).blocks = ∅ := by
  ext b
  simp [Oplog.blocks, createOplog]

/-- Restoring vouched blocks comes to what verifying them in full comes to. -/
theorem restoreEntries_eq (hinj : Set.InjOn E.sha3 U) {blocks : List Bytes}
    (hb : ∀ b ∈ blocks, Vouched E chain U b) :
    restoreEntries E (createOplog chain) blocks = mergeEntries E (createOplog chain) blocks := by
  have hall : admitAll E (restoreEntry E) (createOplog chain) blocks =
      admitAll E (verifyEntry E) (createOplog chain) blocks := by
    refine foldl_admitEntry_restore hinj _ (fun hashed hh => ?_) _ createOplog_genuine.traced
      (by simp [createOplog_blocks])
    rw [mem_sortBy, mem_decodedBlocks] at hh
    obtain ⟨⟨b, hm, hd⟩, -⟩ := hh
    exact ⟨b, hb b hm, hd⟩
  rw [restoreEntries, mergeEntries, insertBlocks, insertBlocks, hall]

end Restore

/-! ## What an open reproduces -/

/-- The block of `child` names `parent` in its `next`. -/
def Names (E : Environment) (U : Set Bytes) (child parent : Hash) : Prop :=
  ∃ b ∈ U, ∃ hashed, decodeSignedEntry E b = .ok hashed ∧ hashed.hash = child ∧ parent ∈ hashed.entry.next

/-- One of the heads, or a `next`-ancestor of one. -/
def Reaches (E : Environment) (U : Set Bytes) (heads : List Hash) (hash : Hash) : Prop :=
  ∃ s ∈ heads, ReflTransGen (Names E U) s hash

/-- An oplog of the chain holds these heads, and all its blocks are stored. -/
structure Backs (E : Environment) (chain : ResolvedAcChain) (U : Set Bytes) (store : BlockStore)
    (heads : List Hash) (o : Oplog) : Prop where
  genuine : Genuine E chain o
  within : o.blocks ⊆ U
  holds : ∀ h ∈ heads, o.Has h
  stored : ∀ h e, o.entries.get h = some e → store.get h = some e.bytes

section Open
variable {E : Environment} {chain : ResolvedAcChain} {U : Set Bytes}

/-- An oplog that holds an entry holds whatever the entry's block names. -/
theorem has_of_names (hinj : Set.InjOn E.sha3 U) {o : Oplog} (t : Traced E chain o) (hsub : o.blocks ⊆ U)
    {child parent : Hash} (hc : o.Has child) (hn : Names E U child parent) : o.Has parent := by
  obtain ⟨e, he⟩ := hc
  obtain ⟨b, hb, hashed, hd, hhash, hp⟩ := hn
  have hkeyed : e.toHashedEntry.hash = child := t.indexed.grounded.keyed child e he
  have hbytes := (decodeSignedEntry_bytes hd).1
  have hpair : ({e.bytes, hashed.bytes} : Set Bytes) ⊆ U := by
    rintro x (rfl | rfl)
    · exact hsub ⟨child, e, he, rfl⟩
    · exact hbytes ▸ hb
  have heq := eq_of_hash_eq (t.authentic child e he) (hbytes.symm ▸ hd) (hinj.mono hpair)
    (hkeyed.trans hhash.symm)
  exact t.indexed.grounded.closed child e he parent (show parent ∈ e.toHashedEntry.entry.next by rwa [heq])

theorem has_of_reaches (hinj : Set.InjOn E.sha3 U) {o : Oplog} (t : Traced E chain o) (hsub : o.blocks ⊆ U)
    {heads : List Hash} (hh : ∀ h ∈ heads, o.Has h) {hash : Hash} (hr : Reaches E U heads hash) :
    o.Has hash := by
  obtain ⟨s, hs, hpath⟩ := hr
  induction hpath with
  | refl => exact hh s hs
  | tail _ hn ih => exact has_of_names hinj t hsub ih hn

/-- The walk from backed heads collects the block of everything they reach. -/
theorem mem_loadEntryBlocks {store : BlockStore} {heads : List Hash} {o : Oplog}
    (k : Backs E chain U store heads o) {s hash : Hash} (hs : s ∈ heads)
    (hpath : ReflTransGen o.Parent s hash) {e : VerifiedEntry} (he : o.entries.get hash = some e) :
    e.bytes ∈ loadEntryBlocks E heads store := by
  refine mem_collect_of_leads store (entryLinks E) hs (ReflTransGen.mono (fun x y hxy => ?_) s hash hpath) (k.stored hash e he)
  obtain ⟨q, hq, hm⟩ := hxy
  refine ⟨q.bytes, k.stored x q hq, ?_⟩
  rw [entryLinks, k.genuine.authentic x q hq]
  exact List.mem_append_left _ hm

theorem mergeEntries_blocks_subset {blocks : List Bytes} {o : Oplog} (hsub : o.blocks ⊆ U) (hb : ∀ b ∈ blocks, b ∈ U) : (mergeEntries E o blocks).1.blocks ⊆ U := by
  rintro b ⟨h, e, he, rfl⟩
  rcases mergeEntries_mem blocks he with hold | ⟨c, hc, hd⟩
  · exact hsub ⟨h, e, hold, rfl⟩
  · rw [(decodeSignedEntry_bytes hd).1]
    exact hb c hc

/-- Merging the walk of backed heads holds everything they reach. Induction on the clock:
the parents are collected too, and are older. -/
theorem walk_has (hinj : Set.InjOn E.sha3 U) {store : BlockStore} (hstore : ∀ h b, store.get h = some b → b ∈ U)
    {heads : List Hash} {o : Oplog} (k : Backs E chain U store heads o) (t : ℕ) {s hash : Hash}
    (hs : s ∈ heads) (hpath : ReflTransGen o.Parent s hash) {e : VerifiedEntry}
    (he : o.entries.get hash = some e) (ht : e.time = t) :
    (mergeEntries E (createOplog chain) (loadEntryBlocks E heads store)).1.Has hash := by
  induction t using Nat.strong_induction_on generalizing hash e with
  | _ t ih =>
    have gW : Genuine E chain (mergeEntries E (createOplog chain) (loadEntryBlocks E heads store)).1 :=
      mergeEntries_genuine createOplog_genuine _
    have hW : (mergeEntries E (createOplog chain) (loadEntryBlocks E heads store)).1.blocks ⊆ U := by
      refine mergeEntries_blocks_subset (by simp [createOplog_blocks]) fun b hb => ?_
      obtain ⟨x, hx⟩ := exists_get_of_mem_collect store (entryLinks E) hb
      exact hstore x b hx
    have hnext : ∀ q ∈ e.next, o.Has q ∧
        (mergeEntries E (createOplog chain) (loadEntryBlocks E heads store)).1.Has q := fun q hq => by
      obtain ⟨x, hx⟩ := k.genuine.indexed.grounded.closed hash e he q hq
      have hlt := k.genuine.indexed.grounded.older hash e he q hq x hx
      exact ⟨⟨x, hx⟩, ih x.time (ht ▸ hlt) (hpath.tail ⟨e, he, hq⟩) hx rfl⟩
    have A := agreeOn_past k.genuine.traced gW.traced (hinj.mono (Set.union_subset k.within hW)) hnext
    have hv := A.verifyEntry_ok (fun q hq => Oplog.past_of_mem hq) (k.genuine.indexed.verified hash e he)
    have hhas := mergeEntries_complete createOplog_sound _ (mem_loadEntryBlocks k hs hpath he)
      (k.genuine.authentic hash e he) hv
    have hhash : e.toHashedEntry.hash = hash := k.genuine.indexed.grounded.keyed hash e he
    rwa [hhash] at hhas

/-- What the node keeps on disk for a library: blocks are stored under their own hashes,
and a cached block is a stored one that an oplog of the chain held. -/
structure Kept (E : Environment) (chain : ResolvedAcChain) (U : Set Bytes) (store : BlockStore)
    (cache : EntryBlockCache) : Prop where
  stored : ∀ h b, cache.blocks.get h = some b → store.get h = some b
  vouched : ∀ h b, cache.blocks.get h = some b → Vouched E chain U b

/-- The two ways an open goes, once restoring is known to come to verifying. -/
theorem loadOplog_cases (hinj : Set.InjOn E.sha3 U) {store : BlockStore} {cache : EntryBlockCache}
    (k : Kept E chain U store cache) (heads : List Hash) :
    ((loadOplog E chain heads store cache).oplog = (mergeEntries E (createOplog chain) cache.blocks.values).1 ∧
      (∀ h, h ∈ (loadOplog E chain heads store cache).oplog.heads ↔ h ∈ heads) ∧
      (loadOplog E chain heads store cache).cache.blocks = cache.blocks) ∨
    ((loadOplog E chain heads store cache).oplog =
        (mergeEntries E (createOplog chain) (loadEntryBlocks E heads store)).1 ∧
      (loadOplog E chain heads store cache).cache =
        .replace (loadOplog E chain heads store cache).oplog.entries.values
          (loadOplog E chain heads store cache).oplog.heads.items) := by
  have hvouched : ∀ b ∈ cache.load.blocks, Vouched E chain U b := fun b hb => by
    obtain ⟨h, hh⟩ := (cache.blocks.mem_values_iff b).mp hb
    exact k.vouched h b hh
  unfold loadOplog
  simp only [restoreEntries_eq hinj hvouched, ite_self]
  split
  case isTrue hsame =>
    refine Or.inl ⟨rfl, fun h => ?_, ?_⟩
    · exact mem_iff_of_sameHeads (Bool.and_eq_true _ _ ▸ hsame).2 h
    · dsimp only
      split <;> rfl
  case isFalse => exact Or.inr ⟨rfl, rfl⟩

/-- An oplog merged from stored blocks alone has all its blocks stored. -/
theorem mergeEntries_stored {store : BlockStore} (ha : Addressed E U store) {blocks : List Bytes}
    (hb : ∀ b ∈ blocks, ∃ h, store.get h = some b) :
    Backs E chain U store (mergeEntries E (createOplog chain) blocks).1.heads.items
      (mergeEntries E (createOplog chain) blocks).1 := by
  have g : Genuine E chain (mergeEntries E (createOplog chain) blocks).1 :=
    mergeEntries_genuine createOplog_genuine blocks
  refine ⟨g, ?_, fun h hh => ((g.indexed.heads h).mp hh).1, fun h e he => ?_⟩
  · refine mergeEntries_blocks_subset (by simp [createOplog_blocks]) fun b hm => ?_
    obtain ⟨h, hh⟩ := hb b hm
    exact (ha h b hh).2
  · rcases mergeEntries_mem blocks he with hold | ⟨b, hm, hd⟩
    · simp [createOplog] at hold
    · obtain ⟨x, hx⟩ := hb b hm
      obtain ⟨hbytes, hdigest⟩ := decodeSignedEntry_bytes hd
      have hkey : computeCidString E b = h := by
        rw [computeCidString, ← hdigest]
        exact g.indexed.grounded.keyed h e he
      rw [hbytes, ← hkey, (ha x b hx).1, hx]

theorem insertAll_kept {store : BlockStore} {cache : EntryBlockCache} (k : Kept E chain U store cache)
    (entries : List VerifiedEntry)
    (he : ∀ e ∈ entries, store.get e.hash = some e.bytes ∧ Vouched E chain U e.bytes)
    (now : Option VerifiedHeads) : Kept E chain U store ⟨EntryBlockCache.insertAll cache.blocks entries, now⟩ where
  stored h b hb := by
    rcases EntryBlockCache.insertAll_mem hb with hb | ⟨e, hm, rfl, rfl⟩
    · exact k.stored h b hb
    · exact (he e hm).1
  vouched h b hb := by
    rcases EntryBlockCache.insertAll_mem hb with hb | ⟨e, hm, rfl, rfl⟩
    · exact k.vouched h b hb
    · exact (he e hm).2

theorem empty_kept (store : BlockStore) : Kept E chain U store .empty where
  stored := by simp [EntryBlockCache.empty]
  vouched := by simp [EntryBlockCache.empty]

/-- An open comes to an oplog whose blocks are all stored, and leaves such a cache. -/
theorem loadOplog_backs (hinj : Set.InjOn E.sha3 U) {store : BlockStore} (ha : Addressed E U store)
    {cache : EntryBlockCache} (k : Kept E chain U store cache) (heads : List Hash) :
    Backs E chain U store (loadOplog E chain heads store cache).oplog.heads.items
        (loadOplog E chain heads store cache).oplog ∧
      Kept E chain U store (loadOplog E chain heads store cache).cache := by
  rcases loadOplog_cases hinj k heads with ⟨ho, -, hc⟩ | ⟨ho, hc⟩
  · rw [ho]
    refine ⟨mergeEntries_stored ha fun b hb => ?_, fun h b hb => k.stored h b (hc ▸ hb),
      fun h b hb => k.vouched h b (hc ▸ hb)⟩
    obtain ⟨h, hh⟩ := (cache.blocks.mem_values_iff b).mp hb
    exact ⟨h, k.stored h b hh⟩
  · have hbacks : Backs E chain U store (loadOplog E chain heads store cache).oplog.heads.items
        (loadOplog E chain heads store cache).oplog := by
      rw [ho]
      exact mergeEntries_stored ha fun b hb => exists_get_of_mem_collect store (entryLinks E) hb
    refine ⟨hbacks, ?_⟩
    rw [hc]
    refine insertAll_kept (empty_kept store) _ (fun e he => ?_) _
    obtain ⟨h, hh⟩ := (OrderedMap.mem_values_iff _ e).mp he
    have hkeyed := hbacks.genuine.indexed.grounded.keyed h e hh
    exact ⟨hkeyed ▸ hbacks.stored h e hh, _, hbacks.genuine, hbacks.within, h, e, hh, rfl⟩

/-- An open at backed heads reproduces everything they reach. -/
theorem loadOplog_has (hinj : Set.InjOn E.sha3 U) {store : BlockStore} (ha : Addressed E U store)
    {cache : EntryBlockCache} (k : Kept E chain U store cache) {heads : List Hash} {o : Oplog}
    (hb : Backs E chain U store heads o) {hash : Hash} (hr : Reaches E U heads hash) :
    (loadOplog E chain heads store cache).oplog.Has hash := by
  have hbacks := (loadOplog_backs hinj ha k heads).1
  apply has_of_reaches hinj hbacks.genuine.traced hbacks.within (fun h hh => ?_) hr
  rcases loadOplog_cases hinj k heads with ⟨-, hsame, -⟩ | ⟨ho, -⟩
  · exact ((hbacks.genuine.indexed.heads h).mp ((hsame h).mpr hh)).1
  · obtain ⟨e, he⟩ := hb.holds h hh
    rw [ho]
    exact walk_has hinj (fun x b hx => (ha x b hx).2) hb _ hh .refl he rfl

end Open

end RecordNode
