import RecordNode.Oplog.Replicas
import RecordNode.Peer.Heads

/-! # Restored oplogs

The heads recorded with the cache are those of an oplog that was verified under the
current rules, whatever else was cached before or is not cached yet. A cache that
comes to these heads with nothing rejected holds blocks of that oplog only, so
restoring it comes to what verifying it in full comes to. -/

namespace RecordNode

open Foundation Relation

section Layered
variable {E : Environment} {U : Set Bytes}

/-- What the insertion loop builds even when it verifies nothing: every held entry is the
decoding of a block in `U`, has its parents held and is a head or an ancestor of one. -/
structure Layered (E : Environment) (U : Set Bytes) (o : Oplog) : Prop where
  keyed : ∀ h e, o.entries.get h = some e → e.hash = h
  closed : ∀ h e, o.entries.get h = some e → ∀ p ∈ e.next, o.Has p
  authentic : Authentic E o
  within : o.blocks ⊆ U
  referenced : ∀ h ∈ o.referenced, o.Has h
  crowned : ∀ h, o.Has h → ∃ s ∈ o.heads, ReflTransGen o.Parent s h

theorem createOplog_layered (chain : ResolvedAcChain) : Layered E U (createOplog chain) where
  keyed := by simp [createOplog]
  closed := by simp [createOplog]
  authentic := by simp [Authentic, createOplog]
  within := by simp [createOplog_blocks]
  referenced := by simp [createOplog]
  crowned := by simp [createOplog, Oplog.Has]

theorem SameBase.layered {o p : Oplog} (b : SameBase o p) (r : Layered E U o) : Layered E U p := by
  have hparent : p.Parent = o.Parent := by
    ext x y
    rw [Oplog.Parent, Oplog.Parent, b.entries]
  refine ⟨?_, ?_, ?_, ?_, ?_, ?_⟩
  · rw [b.entries]
    exact r.keyed
  · rw [b.entries]
    exact fun h e he q hq => (b.has_iff q).mpr (r.closed h e he q hq)
  · rw [Authentic, b.entries]
    exact r.authentic
  · rw [Oplog.blocks, b.entries]
    exact r.within
  · rw [b.referenced]
    exact fun h hh => (b.has_iff h).mpr (r.referenced h hh)
  · rw [b.heads, hparent]
    exact fun h hh => r.crowned h ((b.has_iff h).mp hh)

theorem insertEntry_layered {o : Oplog} (r : Layered E U o) {e : VerifiedEntry} (hnew : ¬ o.Has e.hash)
    (hparents : ∀ p ∈ e.next, o.Has p) (hd : decodeSignedEntry E e.bytes = .ok e.toHashedEntry)
    (hU : e.bytes ∈ U) : Layered E U (insertEntry E o e) := by
  have hkeep : ∀ h, o.Has h → (insertEntry E o e).Has h := fun h ⟨x, hx⟩ => ⟨x, insertEntry_get_old hnew hx⟩
  have hpath : ∀ s h, ReflTransGen o.Parent s h → ReflTransGen (insertEntry E o e).Parent s h := fun s h =>
    ReflTransGen.mono (fun x y ⟨q, hq, hm⟩ => ⟨q, insertEntry_get_old hnew hq, hm⟩) s h
  refine ⟨?_, ?_, ?_, ?_, ?_, ?_⟩
  · intro h x hx
    rcases (insertEntry_get_iff hnew).mp hx with hx | ⟨rfl, rfl⟩
    · exact r.keyed h x hx
    · rfl
  · intro h x hx q hq
    rcases (insertEntry_get_iff hnew).mp hx with hx | ⟨rfl, rfl⟩
    · exact hkeep q (r.closed h x hx q hq)
    · exact hkeep q (hparents q hq)
  · intro h x hx
    rcases (insertEntry_get_iff hnew).mp hx with hx | ⟨rfl, rfl⟩
    · exact r.authentic h x hx
    · exact hd
  · rintro b ⟨h, x, hx, rfl⟩
    rcases (insertEntry_get_iff hnew).mp hx with hx | ⟨rfl, rfl⟩
    · exact r.within ⟨h, x, hx, rfl⟩
    · exact hU
  · intro h hh
    have hf : ¬ o.entries.has e.hash = true := fun hh => hnew ((has_iff_entries_has o _).mpr hh)
    have hmem : h ∈ e.next ∨ h ∈ o.referenced := by
      simpa [insertEntry, hf, OrderedSet.mem_foldl_add] using hh
    exact hkeep h (hmem.elim (hparents h) (r.referenced h))
  · rintro h ⟨x, hx⟩
    have hself : e.hash ∈ (insertEntry E o e).heads := (mem_heads_insertEntry hnew r.referenced hparents _).mpr (Or.inl rfl)
    rcases (insertEntry_get_iff hnew).mp hx with hx | ⟨rfl, rfl⟩
    · -- The head above `h` is still one, unless it became a parent of the new entry.
      obtain ⟨s, hs, hr⟩ := r.crowned h ⟨x, hx⟩
      by_cases hm : s ∈ e.next
      · exact ⟨e.hash, hself, .head ⟨e, insertEntry_get_self hnew, hm⟩ (hpath s h hr)⟩
      · exact ⟨s, (mem_heads_insertEntry hnew r.referenced hparents s).mpr (Or.inr ⟨hs, hm⟩), hpath s h hr⟩
    · exact ⟨_, hself, .refl⟩

theorem restoreEntry_parts {o : Oplog} {hashed : HashedEntry} {e : VerifiedEntry}
    (h : restoreEntry E o hashed = .ok e) :
    e.toHashedEntry = hashed ∧ ∀ p ∈ hashed.entry.next, o.Has p := by
  simp only [restoreEntry, bind_eq_ok] at h
  obtain ⟨operation, -, ⟨⟩, hclock, hres⟩ := h
  cases Except.ok.inj hres
  exact ⟨rfl, ((assertClock_eq_ok_iff o hashed).mp hclock).1⟩

theorem admitEntry_layered {state : Admission} (r : Layered E U state.oplog) {b : Bytes} (hb : b ∈ U)
    {hashed : HashedEntry} (hd : decodeSignedEntry E b = .ok hashed) :
    Layered E U (admitEntry E (restoreEntry E) state hashed).oplog := by
  unfold admitEntry
  split
  · exact r
  case isFalse hnot =>
    split
    · exact r
    case h_2 entry hv =>
      obtain ⟨rfl, hparents⟩ := restoreEntry_parts hv
      have hbytes := (decodeSignedEntry_bytes hd).1
      exact insertEntry_layered r (fun hh => hnot ((has_iff_entries_has _ _).mp hh)) hparents
        (hbytes.symm ▸ hd) (hbytes.symm ▸ hb)

/-- With nothing rejected in the end, nothing was rejected before. -/
theorem foldl_admitEntry_rejected (accept : Admit) (l : List HashedEntry) (state : Admission)
    (h : (l.foldl (admitEntry E accept) state).rejected = []) : state.rejected = [] := by
  induction l generalizing state with
  | nil => exact h
  | cons hashed rest ih =>
    have hstep := ih _ h
    unfold admitEntry at hstep
    split at hstep
    · exact hstep
    · split at hstep
      · simp at hstep
      · exact hstep

theorem foldl_admitEntry_layered (l : List HashedEntry)
    (hl : ∀ hashed ∈ l, ∃ b ∈ U, decodeSignedEntry E b = .ok hashed) (state : Admission)
    (r : Layered E U state.oplog) : Layered E U (l.foldl (admitEntry E (restoreEntry E)) state).oplog := by
  induction l generalizing state with
  | nil => exact r
  | cons hashed rest ih =>
    obtain ⟨b, hb, hd⟩ := hl hashed List.mem_cons_self
    exact ih (fun x hx => hl x (List.mem_cons_of_mem _ hx)) _ (admitEntry_layered r hb hd)

/-- Whatever the loop goes through without a rejection is held in the end. -/
theorem foldl_admitEntry_has (l : List HashedEntry) (state : Admission)
    (hrej : (l.foldl (admitEntry E (restoreEntry E)) state).rejected = []) :
    (∀ h, state.oplog.Has h → (l.foldl (admitEntry E (restoreEntry E)) state).oplog.Has h) ∧
      ∀ hashed ∈ l, (l.foldl (admitEntry E (restoreEntry E)) state).oplog.Has hashed.hash := by
  induction l generalizing state with
  | nil => exact ⟨fun _ hh => hh, by simp⟩
  | cons hashed rest ih =>
    obtain ⟨hkeep, hrest⟩ := ih _ hrej
    have hnone : (admitEntry E (restoreEntry E) state hashed).rejected = [] :=
      foldl_admitEntry_rejected _ rest _ hrej
    have hstep : (∀ h, state.oplog.Has h → (admitEntry E (restoreEntry E) state hashed).oplog.Has h) ∧
        (admitEntry E (restoreEntry E) state hashed).oplog.Has hashed.hash := by
      unfold admitEntry at hnone ⊢
      split at hnone
      case isTrue hheld =>
        rw [if_pos hheld]
        exact ⟨fun _ hh => hh, (has_iff_entries_has _ _).mpr hheld⟩
      case isFalse hnot =>
        rw [if_neg hnot]
        split at hnone
        · simp at hnone
        case h_2 entry hv =>
          dsimp only
          obtain ⟨rfl, -⟩ := restoreEntry_parts hv
          have hnew : ¬ state.oplog.Has entry.hash := fun hh => hnot ((has_iff_entries_has _ _).mp hh)
          refine ⟨?_, entry, insertEntry_get_self hnew⟩
          rintro _ ⟨x, hx⟩
          exact ⟨x, insertEntry_get_old hnew hx⟩
    refine ⟨fun h hh => hkeep h (hstep.1 h hh), fun x hx => ?_⟩
    rcases List.mem_cons.mp hx with rfl | hx
    · exact hkeep _ hstep.2
    · exact hrest x hx

variable {chain : ResolvedAcChain}

theorem restoreEntries_layered {blocks : List Bytes} (hb : ∀ b ∈ blocks, b ∈ U) :
    Layered E U (restoreEntries E (createOplog chain) blocks).1 := by
  refine (settle_base _ _).layered (foldl_admitEntry_layered _ (fun hashed hh => ?_) _ (createOplog_layered chain))
  rw [mem_sortBy, mem_decodedBlocks] at hh
  obtain ⟨⟨b, hm, hd⟩, -⟩ := hh
  exact ⟨b, hb b hm, hd⟩

/-- A restore that rejects nothing holds the entry of every block. -/
theorem restoreEntries_has {blocks : List Bytes}
    (hrej : (restoreEntries E (createOplog chain) blocks).2.rejected = []) {b : Bytes} (hb : b ∈ blocks) :
    ∃ hashed, decodeSignedEntry E b = .ok hashed ∧
      (restoreEntries E (createOplog chain) blocks).1.Has hashed.hash := by
  have hundecodable : undecodable E blocks = [] := foldl_admitEntry_rejected _ _ _ hrej
  cases hd : decodeSignedEntry E b with
  | error err =>
    have hm : (computeCidString E b, err) ∈ undecodable E blocks :=
      List.mem_filterMap.mpr ⟨b, hb, by rw [hd]⟩
    rw [hundecodable] at hm
    exact absurd hm List.not_mem_nil
  | ok hashed =>
    have hmem : hashed ∈ sortBy compareClock (decodedBlocks E (createOplog chain) blocks) := by
      rw [mem_sortBy, mem_decodedBlocks]
      exact ⟨⟨b, hb, hd⟩, by simp [createOplog, Oplog.Has]⟩
    exact ⟨hashed, rfl, ((settle_base _ _).has_iff _).mpr ((foldl_admitEntry_has _ _ hrej).2 hashed hmem)⟩

/-- Blocks that come to the heads of a verified oplog, with nothing rejected, are all blocks
of that oplog: each is reached from the heads, and a hash names one block. -/
theorem vouched_of_restoreEntries (hinj : Set.InjOn E.sha3 U) {o : Oplog} (g : Genuine E chain o)
    (hsub : o.blocks ⊆ U) {blocks : List Bytes} (hU : ∀ b ∈ blocks, b ∈ U)
    (hrej : (restoreEntries E (createOplog chain) blocks).2.rejected = [])
    (hheads : ∀ h ∈ (restoreEntries E (createOplog chain) blocks).1.heads, h ∈ o.heads) :
    ∀ b ∈ blocks, Vouched E chain U b := by
  intro b hb
  have r : Layered E U (restoreEntries E (createOplog chain) blocks).1 := restoreEntries_layered hU
  obtain ⟨hashed, hd, hhas⟩ := restoreEntries_has hrej hb
  obtain ⟨s, hs, hpath⟩ := r.crowned _ hhas
  have hnames : ReflTransGen (Names E U) s hashed.hash := by
    refine ReflTransGen.mono (fun x y hxy => ?_) s _ hpath
    obtain ⟨q, hq, hm⟩ := hxy
    exact ⟨q.bytes, r.within ⟨x, q, hq, rfl⟩, q.toHashedEntry, r.authentic x q hq, r.keyed x q hq, hm⟩
  have hheld : ∀ h ∈ o.heads.items, o.Has h := fun h hh => ((g.indexed.heads h).mp hh).1
  obtain ⟨e, he⟩ := has_of_reaches hinj g.traced hsub hheld ⟨s, hheads s hs, hnames⟩
  have hbytes := (decodeSignedEntry_bytes hd).1
  have hpair : ({e.bytes, hashed.bytes} : Set Bytes) ⊆ U := by
    rintro x (rfl | rfl)
    · exact hsub ⟨_, e, he, rfl⟩
    · exact hbytes ▸ hU b hb
  have heq := eq_of_hash_eq (g.authentic _ e he) (hbytes.symm ▸ hd) (hinj.mono hpair)
    (g.indexed.grounded.keyed _ e he)
  exact ⟨o, g, hsub, hashed.hash, e, he, by rw [heq, hbytes]⟩

end Layered

/-! ## Histories of the cache -/

/-- A library's rows in the index, and the states they had after each earlier transaction. -/
structure CacheHistory where
  cache : EntryBlockCache
  committed : List EntryBlockCache

namespace CacheHistory

def initial : CacheHistory := ⟨.empty, []⟩

inductive Call where
  | save (entries : List VerifiedEntry) (heads : List Hash)
  | replace (entries : List VerifiedEntry) (heads : List Hash)
  | markVerified (heads : List Hash)
  | remove
  /-- The peer ran under another version of the rules, and left this. -/
  | otherRules (cache : EntryBlockCache)
  /-- A crash that loses the last `lost` transactions. -/
  | crash (lost : ℕ)

def commit (s : CacheHistory) (cache : EntryBlockCache) : CacheHistory := ⟨cache, s.cache :: s.committed⟩

def step (s : CacheHistory) : Call → Option CacheHistory
  | .save entries heads => some (s.commit (s.cache.save entries heads))
  | .replace entries heads => some (s.commit (.replace entries heads))
  | .markVerified heads => some (s.commit (s.cache.markVerified heads))
  | .remove => some (s.commit .empty)
  | .otherRules cache => some (s.commit cache)
  | .crash lost =>
    match (s.cache :: s.committed).drop lost with
    | [] => none
    | cache :: rest => some ⟨cache, rest⟩

section Permitted
variable (E : Environment) (chain : ResolvedAcChain) (U : Set Bytes)

/-- The heads are those of a verified oplog of the library, whose blocks are among `U`. -/
def HeadsOf (o : Oplog) (heads : List Hash) : Prop :=
  Reachable E chain o ∧ o.blocks ⊆ U ∧ heads = o.heads.items

/-- Entries are written only from a verified oplog and with that oplog's heads. -/
def Permitted (_ : CacheHistory) : Call → Prop
  | .save entries heads | .replace entries heads => ∃ o, HeadsOf E chain U o heads ∧ ∀ e ∈ entries, o.Holds e
  | .markVerified heads => ∃ o, HeadsOf E chain U o heads
  | .otherRules cache => (∀ h b, cache.blocks.get h = some b → b ∈ U) ∧
      ∀ v, cache.verified = some v → v.rulesVersion ≠ verificationRulesVersion
  | .remove | .crash _ => True

/-- The invariant: heads recorded under the current rules are those of a verified oplog. -/
structure Recorded (cache : EntryBlockCache) : Prop where
  within : ∀ h b, cache.blocks.get h = some b → b ∈ U
  recorded : ∀ v, cache.verified = some v → v.rulesVersion = verificationRulesVersion →
    ∃ o, Genuine E chain o ∧ o.blocks ⊆ U ∧ ∀ h, h ∈ v.heads ↔ h ∈ o.heads

end Permitted

section Histories
variable {E : Environment} {chain : ResolvedAcChain} {U : Set Bytes}

theorem empty_recorded : Recorded E chain U .empty where
  within := by simp [EntryBlockCache.empty]
  recorded := by simp [EntryBlockCache.empty]

theorem HeadsOf.recorded (hE : E.CodecLaw) {o : Oplog} {heads : List Hash} (h : HeadsOf E chain U o heads)
    {blocks : OrderedMap Hash Bytes} (hb : ∀ h b, blocks.get h = some b → b ∈ U) :
    Recorded E chain U ⟨blocks, some (EntryBlockCache.recordVerified heads)⟩ where
  within := hb
  recorded v hv _ := by
    obtain ⟨hr, hsub, rfl⟩ := h
    obtain rfl := Option.some_inj.mp hv
    exact ⟨o, ⟨reachable_sound hr, reachable_authentic hE hr⟩, hsub, fun x => mem_sortBy compareText _ x⟩

theorem insertAll_within {o : Oplog} {heads : List Hash} (h : HeadsOf E chain U o heads)
    {entries : List VerifiedEntry} (he : ∀ e ∈ entries, o.Holds e) {blocks : OrderedMap Hash Bytes}
    (hb : ∀ h b, blocks.get h = some b → b ∈ U) (x : Hash) (b : Bytes)
    (hx : (EntryBlockCache.insertAll blocks entries).get x = some b) : b ∈ U := by
  rcases EntryBlockCache.insertAll_mem hx with hx | ⟨e, hm, -, rfl⟩
  · exact hb x b hx
  · exact h.2.1 ⟨e.hash, e, he e hm, rfl⟩

theorem commit_recorded {s : CacheHistory} {cache : EntryBlockCache} (hc : Recorded E chain U cache)
    (hs : ∀ c ∈ s.cache :: s.committed, Recorded E chain U c) :
    ∀ c ∈ (s.commit cache).cache :: (s.commit cache).committed, Recorded E chain U c := by
  intro c hm
  rcases List.mem_cons.mp hm with rfl | hm
  · exact hc
  · exact hs c hm

/-- One call, or a crash, keeps the invariant in every state a crash may come back to. -/
theorem step_recorded (hE : E.CodecLaw) {s t : CacheHistory} {call : Call}
    (hs : ∀ c ∈ s.cache :: s.committed, Recorded E chain U c) (hp : Permitted E chain U s call)
    (ht : step s call = some t) : ∀ c ∈ t.cache :: t.committed, Recorded E chain U c := by
  have hnow := (hs s.cache List.mem_cons_self).within
  cases call with
  | save entries heads =>
    obtain ⟨o, ho, he⟩ := hp
    obtain rfl := Option.some_inj.mp ht
    exact commit_recorded (ho.recorded hE (insertAll_within ho he hnow)) hs
  | replace entries heads =>
    obtain ⟨o, ho, he⟩ := hp
    obtain rfl := Option.some_inj.mp ht
    exact commit_recorded (ho.recorded hE (insertAll_within ho he (by simp))) hs
  | markVerified heads =>
    obtain ⟨o, ho⟩ := hp
    obtain rfl := Option.some_inj.mp ht
    exact commit_recorded (ho.recorded hE hnow) hs
  | remove =>
    obtain rfl := Option.some_inj.mp ht
    exact commit_recorded empty_recorded hs
  | otherRules cache =>
    obtain rfl := Option.some_inj.mp ht
    exact commit_recorded ⟨hp.1, fun v hv hver => absurd hver (hp.2 v hv)⟩ hs
  | crash lost =>
    simp only [step] at ht
    split at ht
    · simp at ht
    case h_2 cache rest hdrop =>
      obtain rfl := Option.some_inj.mp ht
      intro c hm
      exact hs c (List.mem_of_mem_drop (hdrop ▸ hm))

/-- What an open writes is one of the permitted calls. -/
theorem loadOplog_permitted (s : CacheHistory) (hs : Recorded E chain U s.cache) {store : BlockStore}
    (hstore : ∀ h b, store.get h = some b → b ∈ U) (heads : List Hash) :
    (loadOplog E chain heads store s.cache).cache = s.cache ∨
      ∃ call t, Permitted E chain U s call ∧ step s call = some t ∧
        t.cache = (loadOplog E chain heads store s.cache).cache := by
  have hsub : ∀ blocks : List Bytes, (∀ b ∈ blocks, b ∈ U) →
      HeadsOf E chain U (mergeEntries E (createOplog chain) blocks).1
        (mergeEntries E (createOplog chain) blocks).1.heads.items := fun blocks hb =>
    ⟨.merge _ blocks .create, mergeEntries_blocks_subset (by simp [createOplog_blocks]) hb, rfl⟩
  have hcached : ∀ b ∈ s.cache.load.blocks, b ∈ U := fun b hb => by
    obtain ⟨h, hh⟩ := (s.cache.blocks.mem_values_iff b).mp hb
    exact hs.within h b hh
  have hwalked : ∃ call t, Permitted E chain U s call ∧ step s call = some t ∧ t.cache =
      .replace (mergeEntries E (createOplog chain) (loadEntryBlocks E heads store)).1.entries.values
        (mergeEntries E (createOplog chain) (loadEntryBlocks E heads store)).1.heads.items := by
    refine ⟨.replace _ _, _, ⟨_, hsub _ fun b hb => ?_, fun e he => ?_⟩, rfl, rfl⟩
    · obtain ⟨h, hh⟩ := exists_get_of_mem_collect store (entryLinks E) hb
      exact hstore h b hh
    · obtain ⟨h, hh⟩ := (OrderedMap.mem_values_iff _ e).mp he
      have hkeyed := (merge_sound createOplog_sound _).indexed.grounded.keyed h e hh
      rw [Oplog.Holds, hkeyed, hh]
  unfold loadOplog
  dsimp only
  split
  · split
    · exact Or.inl rfl
    · exact Or.inr hwalked
  · split
    · exact Or.inr ⟨.markVerified _, _, ⟨_, hsub _ hcached⟩, rfl, rfl⟩
    · exact Or.inr hwalked

end Histories

end CacheHistory

namespace CacheHistory

open Sample

/-- The owner's grant and the guest's under it, in one merge. -/
def bothGrants : Oplog := (mergeEntries clockEnvironment (createOplog libraryA) [first.bytes, second.bytes]).1

theorem bothGrants_merged :
    (mergeEntries clockEnvironment (createOplog libraryA) [first.bytes, second.bytes]).2.merged = [first, second] ∧
      (mergeEntries clockEnvironment (createOplog libraryA) [first.bytes, second.bytes]).2.rejected = [] :=
  joins_first.merge_both createOplog_sound joins_second (by rw [first_time, second_time]; decide)

theorem bothGrants_holds {e : VerifiedEntry} (he : e ∈ [first, second]) : bothGrants.Holds e := by
  rw [← bothGrants_merged.1] at he
  exact mergeEntries_merged_holds _ e he

theorem bothGrants_blocks : bothGrants.blocks ⊆ {b | b ∈ history} := by
  refine mergeEntries_blocks_subset (by simp [createOplog_blocks]) fun b hb => ?_
  simp only [List.mem_cons, List.not_mem_nil, or_false] at hb
  rcases hb with rfl | rfl <;> simp [history]

theorem withFirst_blocks : withFirst.blocks ⊆ {b | b ∈ history} := by
  refine mergeEntries_blocks_subset (by simp [createOplog_blocks]) fun b hb => ?_
  rw [List.mem_singleton.mp hb]
  simp [history]

theorem revoked_blocks : revoked.blocks ⊆ {b | b ∈ history} := by
  rintro b ⟨h, e, he, rfl⟩
  rcases held_revoked he with rfl | rfl | rfl | rfl <;> simp [history]

theorem load_save (cache : EntryBlockCache) (entries : List VerifiedEntry) (heads : List Hash) :
    (cache.save entries heads).load.verifiedHeads = some (sortHeads heads) :=
  rfl

theorem sameHeads_refl (heads : List Hash) : sameHeads heads heads = true := decide_eq_true rfl

/-- The cache after the parent was saved and then the child. -/
def savedBoth : EntryBlockCache :=
  (EntryBlockCache.empty.save [first] withFirst.heads.items).save [second] bothGrants.heads.items

theorem savedBoth_blocks : savedBoth.load.blocks = [first.bytes, second.bytes] := by
  have hone : EntryBlockCache.insertAll .empty [first] = OrderedMap.empty.set first.hash first.bytes := rfl
  have hnone : (OrderedMap.empty.set first.hash first.bytes).get second.hash = none := by
    rw [OrderedMap.get_set, if_neg first_ne_second.symm]
    rfl
  have htwo : EntryBlockCache.insertAll (OrderedMap.empty.set first.hash first.bytes) [second] =
      (OrderedMap.empty.set first.hash first.bytes).set second.hash second.bytes := by
    simp [EntryBlockCache.insertAll, EntryBlockCache.insert, OrderedMap.has, hnone]
  simp only [savedBoth, EntryBlockCache.save, EntryBlockCache.load, EntryBlockCache.empty, hone, htwo,
    OrderedMap.values_set _ hnone]
  rfl

/-- The third save, of what the revocation left, is lost in a crash. -/
theorem run_savedBoth : ∃ s, Run step (· = CacheHistory.initial) (Permitted clockEnvironment libraryA {b | b ∈ history}) s ∧
    s.cache = savedBoth := by
  have hone : ∃ o, HeadsOf clockEnvironment libraryA {b | b ∈ history} o withFirst.heads.items ∧ ∀ e ∈ [first], o.Holds e :=
    ⟨withFirst, ⟨withFirst_reachable, withFirst_blocks, rfl⟩, by simpa [Oplog.Holds] using withFirst_first⟩
  have htwo : ∃ o, HeadsOf clockEnvironment libraryA {b | b ∈ history} o bothGrants.heads.items ∧ ∀ e ∈ [second], o.Holds e :=
    ⟨bothGrants, ⟨.merge _ _ .create, bothGrants_blocks, rfl⟩, by simpa using bothGrants_holds (by simp)⟩
  have hlost : ∃ o, HeadsOf clockEnvironment libraryA {b | b ∈ history} o revoked.heads.items ∧
      ∀ e ∈ [third, revocation], o.Holds e :=
    ⟨revoked, ⟨revoked_reachable, revoked_blocks, rfl⟩, by simpa [Oplog.Holds] using ⟨revoked_third, revoked_revocation⟩⟩
  have hrun : Run step (· = CacheHistory.initial) (Permitted clockEnvironment libraryA {b | b ∈ history})
      ((CacheHistory.initial.commit (EntryBlockCache.empty.save [first] withFirst.heads.items)).commit savedBoth) :=
    .next (.save [second] bothGrants.heads.items)
      (.next (.save [first] withFirst.heads.items) (.start rfl) hone rfl) htwo rfl
  exact ⟨_, .next (.crash 1) (.next (.save [third, revocation] revoked.heads.items) hrun hlost rfl) trivial rfl, rfl⟩

end CacheHistory

end RecordNode
