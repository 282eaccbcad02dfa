import RecordNode.Peer.Node

/-! # Durable heads

A register persists the heads of the oplog as it stands, whoever else has entries
there that are not stored yet. As long as none has, the persisted heads are always
those of an oplog whose blocks are all stored, and whatever a crash leaves of the
cache, the next open reproduces it. -/

namespace RecordNode

open Foundation

section Invariant
variable {E : Environment} {chain : ResolvedAcChain} {U : Set Bytes}

theorem Backs.grow {store later : BlockStore} {heads : List Hash} {o : Oplog}
    (k : Backs E chain U store heads o) (hg : Grows store later) : Backs E chain U later heads o :=
  ⟨k.genuine, k.within, k.holds, fun h e he => hg h _ (k.stored h e he)⟩

theorem Kept.grow {store later : BlockStore} {cache : EntryBlockCache} (k : Kept E chain U store cache)
    (hg : Grows store later) : Kept E chain U later cache :=
  ⟨fun h b hb => hg h b (k.stored h b hb), k.vouched⟩

/-- The entries of a write are held; those it has stored are stored. -/
structure Write.Sound (oplog : Oplog) (store : BlockStore) (w : Write) : Prop where
  held : ∀ e ∈ w.entries, oplog.Holds e
  stored : ∀ e ∈ w.entries, store.get e.hash = some e.bytes ∨ ∃ rest, w.stage = .put rest ∧ e ∈ rest
  pending : ∀ rest, w.stage = .put rest → ∀ e ∈ rest, e ∈ w.entries

/-- The invariant: whatever heads the state store has or is handed are those of an oplog
whose blocks are all stored, and so is every block any state of the cache holds. -/
structure Durable (E : Environment) (chain : ResolvedAcChain) (U : Set Bytes) (s : Node) : Prop where
  addressed : Addressed E U s.store
  cached : ∀ cache ∈ s.cache :: s.earlier, Kept E chain U s.store cache
  backed : ∀ heads ∈ s.disk :: s.memory :: s.saves, ∃ o, Backs E chain U s.store heads o
  genuine : ∀ lib, s.library = some lib → Genuine E chain lib.oplog
  within : ∀ lib, s.library = some lib → lib.oplog.blocks ⊆ U
  writes : ∀ lib, s.library = some lib → ∀ w ∈ lib.writes, w.Sound lib.oplog s.store

theorem initial_durable : Durable E chain U .initial where
  addressed := by simp [Addressed, Node.initial]
  cached cache hc := by
    rw [List.mem_singleton.mp hc]
    exact empty_kept _
  backed heads hh := by
    refine ⟨createOplog chain, createOplog_genuine, by simp [createOplog_blocks], ?_, by simp [createOplog]⟩
    have : heads = [] := by simpa [Node.initial] using hh
    simp [this]
  genuine _ h := by simp [Node.initial] at h
  within _ h := by simp [Node.initial] at h
  writes _ h := by simp [Node.initial] at h

namespace Durable

variable {s : Node}

theorem grow (d : Durable E chain U s) {later : BlockStore} (ha : Addressed E U later)
    (hg : Grows s.store later) : Durable E chain U { s with store := later } where
  addressed := ha
  cached cache hc := (d.cached cache hc).grow hg
  backed heads hh := (d.backed heads hh).imp fun _ k => k.grow hg
  genuine := d.genuine
  within := d.within
  writes lib hl w hw :=
    let k := d.writes lib hl w hw
    ⟨k.held, fun e he => (k.stored e he).imp_left (hg _ _), k.pending⟩

theorem setCache (d : Durable E chain U s) {cache : EntryBlockCache} (k : Kept E chain U s.store cache) :
    Durable E chain U (s.setCache cache) where
  addressed := d.addressed
  cached c hc := by
    rcases List.mem_cons.mp hc with rfl | hc
    · exact k
    · exact d.cached c hc
  backed := d.backed
  genuine := d.genuine
  within := d.within
  writes := d.writes

theorem setLibrary (d : Durable E chain U s) (lib : OpenLibrary) (g : Genuine E chain lib.oplog)
    (hsub : lib.oplog.blocks ⊆ U) (hw : ∀ w ∈ lib.writes, w.Sound lib.oplog s.store) :
    Durable E chain U { s with library := some lib } where
  addressed := d.addressed
  cached := d.cached
  backed := d.backed
  genuine _ h := Option.some_inj.mp h ▸ g
  within _ h := Option.some_inj.mp h ▸ hsub
  writes _ h := Option.some_inj.mp h ▸ hw

theorem save (d : Durable E chain U s) {heads : List Hash} {o : Oplog}
    (k : Backs E chain U s.store heads o) : Durable E chain U { s with saves := s.saves ++ [heads] } where
  addressed := d.addressed
  cached := d.cached
  backed x hx := by
    simp only [List.mem_cons, List.mem_append, List.not_mem_nil, or_false] at hx
    rcases hx with hx | hx | hx | rfl
    · exact d.backed x (by simp [hx])
    · exact d.backed x (by simp [hx])
    · exact d.backed x (by simp [hx])
    · exact ⟨o, k⟩
  genuine := d.genuine
  within := d.within
  writes := d.writes

theorem endWrite (d : Durable E chain U s) {lib : OpenLibrary} (hl : s.library = some lib) (i : ℕ) :
    Durable E chain U (s.endWrite lib i) :=
  d.setLibrary { lib with writes := lib.writes.eraseIdx i } (d.genuine lib hl) (d.within lib hl)
    fun w hw => d.writes lib hl w (List.mem_of_mem_eraseIdx hw)

theorem setWrite (d : Durable E chain U s) {lib : OpenLibrary} (hl : s.library = some lib) (i : ℕ)
    {write : Write} (hw : write.Sound lib.oplog s.store) : Durable E chain U (s.setWrite lib i write) := by
  refine d.setLibrary { lib with writes := lib.writes.set i write } (d.genuine lib hl)
    (d.within lib hl) fun w hm => ?_
  rcases List.mem_or_eq_of_mem_set hm with hm | rfl
  · exact d.writes lib hl w hm
  · exact hw

/-- The library moves on to an oplog that keeps what it held. -/
theorem startWrite (d : Durable E chain U s) {lib : OpenLibrary} (hl : s.library = some lib) {oplog : Oplog}
    (g : Genuine E chain oplog) (hsub : oplog.blocks ⊆ U)
    (hold : ∀ h e, lib.oplog.entries.get h = some e → oplog.entries.get h = some e)
    {entries : List VerifiedEntry} (he : ∀ e ∈ entries, oplog.Holds e) (registers : Bool) :
    Durable E chain U (s.startWrite lib oplog entries registers) := by
  refine d.setLibrary ⟨oplog, lib.writes ++ [⟨entries, .put entries, registers⟩]⟩ g hsub fun w hm => ?_
  rcases List.mem_append.mp hm with hm | hm
  · have k := d.writes lib hl w hm
    exact ⟨fun e he => hold _ e (k.held e he), k.stored, k.pending⟩
  · rw [List.mem_singleton.mp hm]
    refine ⟨he, fun e he => Or.inr ⟨entries, rfl, he⟩, fun rest hr e hm => ?_⟩
    cases hr
    exact hm

end Durable

/-- The blocks a step brings to the node are among `U`. -/
def Node.Within (E : Environment) (U : Set Bytes) (s : Node) : Node.Label → Prop
  | .merge blocks => ∀ b ∈ blocks, b ∈ U
  | .append payload keyPair | .ingest payload keyPair => ∀ lib result, s.library = some lib →
      appendEntryWithAccess E lib.oplog payload keyPair = .ok result → result.entry.bytes ∈ U
  | .stored bytes => bytes ∈ U
  | _ => True

/-- When a register hands its heads over, every entry of the oplog has its block stored. -/
def Node.HeadsStored (s : Node) : Node.Label → Prop
  | .pinDone i => ∀ lib w, s.library = some lib → lib.writes[i]? = some w → w.registers = true →
      ∀ h, lib.oplog.Has h → s.store.has h = true
  | _ => True

def Node.Guarded (E : Environment) (U : Set Bytes) (s : Node) (l : Node.Label) : Prop :=
  s.Within E U l ∧ s.HeadsStored l

namespace Durable

variable {s t : Node}

/-- An oplog whose entries all have a stored block backs its heads. -/
theorem backs (hinj : Set.InjOn E.sha3 U) (d : Durable E chain U s) {lib : OpenLibrary}
    (hl : s.library = some lib) (hs : ∀ h, lib.oplog.Has h → s.store.has h = true) :
    Backs E chain U s.store lib.oplog.heads.items lib.oplog := by
  have g := d.genuine lib hl
  refine ⟨g, d.within lib hl, fun h hh => ((g.indexed.heads h).mp hh).1, fun h e he => ?_⟩
  obtain ⟨b, hb⟩ := Option.isSome_iff_exists.mp (hs h ⟨e, he⟩)
  obtain ⟨hcid, hU⟩ := d.addressed h b hb
  have hdigest : formatProtocolCid (E.sha3 e.bytes) = h := by
    rw [← (decodeSignedEntry_bytes (g.authentic h e he)).2]
    exact g.indexed.grounded.keyed h e he
  rw [hb, hinj hU (d.within lib hl ⟨h, e, he, rfl⟩) (formatProtocolCid_injective (hcid.trans hdigest.symm))]

theorem openLibrary (hinj : Set.InjOn E.sha3 U) (d : Durable E chain U s) :
    Durable E chain U (s.openLibrary E chain) := by
  obtain ⟨k, hk⟩ := loadOplog_backs hinj d.addressed (d.cached s.cache List.mem_cons_self) s.memory
  have hsorted : Backs E chain U s.store
      (sortHeads (loadOplog E chain s.memory s.store s.cache).oplog.heads.items)
      (loadOplog E chain s.memory s.store s.cache).oplog :=
    ⟨k.genuine, k.within, fun h hh => k.holds h ((mem_sortBy _ _ h).mp hh), k.stored⟩
  exact ((d.setCache hk).setLibrary ⟨_, []⟩ k.genuine k.within (by simp)).save hsorted

theorem appendAndStore (hE : E.CodecLaw) (hinj : Set.InjOn E.sha3 U) (d : Durable E chain U s)
    {payload : LocalPayload} {keyPair : KeyPair} {registers : Bool}
    (hw : ∀ lib result, s.library = some lib →
      appendEntryWithAccess E lib.oplog payload keyPair = .ok result → result.entry.bytes ∈ U)
    (hs : s.appendAndStore E payload keyPair registers = some t) : Durable E chain U t := by
  obtain ⟨lib, hl, hs⟩ := Option.bind_eq_some_iff.mp hs
  split at hs
  · simp at hs
  case h_2 result ha =>
    obtain rfl := Option.some_inj.mp hs
    have g := d.genuine lib hl
    have hU := hw lib result hl ha
    have hentries := append_entries g.toSound ha
    have hheld := append_holds hE g ha
      (hinj.mono (Set.insert_subset hU (d.within lib hl)))
    refine d.startWrite hl (append_genuine hE g ha) ?_ (fun h e he => append_extends g.toSound ha h e he)
      (fun e he => List.mem_singleton.mp he ▸ hheld) registers
    rintro b ⟨h, e, he, rfl⟩
    rw [hentries] at he
    rcases insertEntry_mem he with he | rfl
    · exact d.within lib hl ⟨h, e, he, rfl⟩
    · exact hU

theorem mergeAndStore (d : Durable E chain U s) {blocks : List Bytes} (hb : ∀ b ∈ blocks, b ∈ U)
    (hs : s.mergeAndStore E blocks = some t) : Durable E chain U t := by
  obtain ⟨lib, hl, hs⟩ := Option.bind_eq_some_iff.mp hs
  have g := d.genuine lib hl
  have g' := mergeEntries_genuine g blocks
  have hsub := mergeEntries_blocks_subset (E := E) (d.within lib hl) hb
  have hold := fun h e => mergeEntries_get_old g.toSound blocks (h := h) (x := e)
  dsimp only at hs
  split at hs
  · obtain rfl := Option.some_inj.mp hs
    exact d.setLibrary _ g' hsub fun w hw =>
      let k := d.writes lib hl w hw
      ⟨fun e he => hold _ e (k.held e he), k.stored, k.pending⟩
  · obtain rfl := Option.some_inj.mp hs
    exact d.startWrite hl g' hsub hold (mergeEntries_merged_holds blocks) true

theorem putDone (hinj : Set.InjOn E.sha3 U) (d : Durable E chain U s) {lib : OpenLibrary}
    (hl : s.library = some lib) {i : ℕ} {w : Write} (hw : w ∈ lib.writes)
    (hs : s.putDone E lib i w = some t) : Durable E chain U t := by
  have k := d.writes lib hl w hw
  unfold Node.putDone at hs
  split at hs
  case h_1 e rest hstage =>
    have he := k.pending _ hstage e List.mem_cons_self
    split at hs
    · simp at hs
    case h_2 later hput =>
      obtain rfl := Option.some_inj.mp hs
      obtain ⟨ha, hg, hget⟩ := putBlock_spec hinj d.addressed (d.within lib hl ⟨_, e, k.held e he, rfl⟩) hput
      refine (d.grow ha hg).setWrite hl i ⟨k.held, fun x hx => ?_, fun rest' hr x hx => ?_⟩
      · rcases k.stored x hx with hx | ⟨rest', hr, hx⟩
        · exact Or.inl (hg _ _ hx)
        · rw [hstage] at hr
          cases hr
          rcases List.mem_cons.mp hx with rfl | hx
          · exact Or.inl hget
          · exact Or.inr ⟨rest, rfl, hx⟩
      · cases hr
        exact k.pending _ hstage x (List.mem_cons_of_mem _ hx)
  · simp at hs

theorem saveCache (d : Durable E chain U s) {lib : OpenLibrary} (hl : s.library = some lib) {i : ℕ}
    {w : Write} (hw : w ∈ lib.writes) (hs : s.saveCache lib i w = some t) : Durable E chain U t := by
  have k := d.writes lib hl w hw
  unfold Node.saveCache at hs
  split at hs
  case h_1 hstage _ =>
    obtain rfl := Option.some_inj.mp hs
    have hstored : ∀ e ∈ w.entries, s.store.get e.hash = some e.bytes := fun e he => by
      rcases k.stored e he with h | ⟨rest, hr, hm⟩
      · exact h
      · rw [hstage] at hr
        cases hr
        simp at hm
    have hkept := insertAll_kept (d.cached s.cache List.mem_cons_self) w.entries (fun e he =>
      ⟨hstored e he, lib.oplog, d.genuine lib hl, d.within lib hl, e.hash, e, k.held e he, rfl⟩)
      (some (EntryBlockCache.recordVerified lib.oplog.heads.items))
    refine (d.setCache hkept).setWrite hl i ⟨k.held, fun e he => Or.inl (hstored e he), fun rest hr => ?_⟩
    cases hr
  · simp at hs

/-- Running a queued save, or any other write of the state file. -/
theorem setHeads (d : Durable E chain U s) {disk memory : List Hash} {saves : List (List Hash)}
    (h : ∀ heads ∈ disk :: memory :: saves, ∃ x ∈ s.disk :: s.memory :: s.saves, ∀ k ∈ heads, k ∈ x) :
    Durable E chain U { s with disk := disk, memory := memory, saves := saves } where
  addressed := d.addressed
  cached := d.cached
  backed heads hh := by
    obtain ⟨x, hx, hsub⟩ := h heads hh
    obtain ⟨o, k⟩ := d.backed x hx
    exact ⟨o, k.genuine, k.within, fun y hy => k.holds y (hsub y hy), k.stored⟩
  genuine := d.genuine
  within := d.within
  writes := d.writes

theorem closeLibrary (d : Durable E chain U s) : Durable E chain U { s with library := none } :=
  ⟨d.addressed, d.cached, d.backed, by simp, by simp, by simp⟩

theorem pinDone (hinj : Set.InjOn E.sha3 U) (d : Durable E chain U s) {lib : OpenLibrary}
    (hl : s.library = some lib) {i : ℕ} {w : Write}
    (hstored : w.registers = true → ∀ h, lib.oplog.Has h → s.store.has h = true)
    (hs : s.pinDone lib i w = some t) : Durable E chain U t := by
  unfold Node.pinDone at hs
  split at hs
  case h_1 _ hreg =>
    obtain rfl := Option.some_inj.mp hs
    exact (d.save (d.backs hinj hl (hstored hreg))).endWrite hl i
  · obtain rfl := Option.some_inj.mp hs
    exact d.endWrite hl i
  · simp at hs

theorem writeFailed (d : Durable E chain U s) {lib : OpenLibrary} (hl : s.library = some lib) {i : ℕ} {w : Write}
    (hs : s.putFailed lib i w = some t ∨ s.pinFailed lib i w = some t) : Durable E chain U t := by
  have ht : t = s.endWrite lib i := by
    rcases hs with hs | hs
    · unfold Node.putFailed at hs
      split at hs <;> simp_all
    · unfold Node.pinFailed at hs
      split at hs <;> simp_all
  rw [ht]
  exact d.endWrite hl i

end Durable

/-- Every guarded step keeps the invariant. -/
theorem durable_step (hE : E.CodecLaw) (hinj : Set.InjOn E.sha3 U) {s t : Node} (d : Durable E chain U s)
    {l : Node.Label} (hl : s.Guarded E U l) (hs : s.step E chain l = some t) : Durable E chain U t := by
  obtain ⟨hw, hstored⟩ := hl
  have hwrite : ∀ {i : ℕ} {f : OpenLibrary → Write → Option Node}, s.withWrite i f = some t →
      ∃ lib w, s.library = some lib ∧ lib.writes[i]? = some w ∧ f lib w = some t := fun h => by
    obtain ⟨lib, hlib, h⟩ := Option.bind_eq_some_iff.mp h
    obtain ⟨w, hi, h⟩ := Option.bind_eq_some_iff.mp h
    exact ⟨lib, w, hlib, hi, h⟩
  cases l with
  | openLibrary =>
    simp only [Node.step] at hs
    split at hs
    · exact Option.some_inj.mp hs ▸ d.openLibrary hinj
    · simp at hs
  | append payload keyPair => exact d.appendAndStore hE hinj hw hs
  | ingest payload keyPair => exact d.appendAndStore hE hinj hw hs
  | merge blocks => exact d.mergeAndStore hw hs
  | register hashes =>
    obtain ⟨lib, hlib, hs⟩ := Option.bind_eq_some_iff.mp hs
    obtain rfl := Option.some_inj.mp hs
    have g := d.genuine lib hlib
    refine d.startWrite hlib g (d.within lib hlib) (fun h e he => he) (fun e he => ?_) true
    obtain ⟨h, -, hh⟩ := List.mem_filterMap.mp he
    rw [Oplog.Holds, g.indexed.grounded.keyed h e hh, hh]
  | putDone i =>
    obtain ⟨lib, w, hlib, hi, hs⟩ := hwrite hs
    exact d.putDone hinj hlib (List.mem_of_getElem? hi) hs
  | putFailed i =>
    obtain ⟨lib, w, hlib, hi, hs⟩ := hwrite hs
    exact d.writeFailed hlib (Or.inl hs)
  | saveCache i =>
    obtain ⟨lib, w, hlib, hi, hs⟩ := hwrite hs
    exact d.saveCache hlib (List.mem_of_getElem? hi) hs
  | pinDone i =>
    obtain ⟨lib, w, hlib, hi, hs⟩ := hwrite hs
    exact d.pinDone hinj hlib (hstored lib w hlib hi) hs
  | pinFailed i =>
    obtain ⟨lib, w, hlib, hi, hs⟩ := hwrite hs
    exact d.writeFailed hlib (Or.inr hs)
  | saveHeads written =>
    simp only [Node.step] at hs
    split at hs
    · simp at hs
    case h_2 heads rest hsaves =>
      obtain rfl := Option.some_inj.mp hs
      have hsort : ∀ k ∈ sortHeads heads, k ∈ heads := fun k hk => (mem_sortBy _ _ k).mp hk
      refine d.setHeads fun x hx => ?_
      rw [hsaves]
      simp only [List.mem_cons] at hx
      rcases hx with rfl | rfl | hx
      · cases written
        · exact ⟨s.disk, by simp, fun k hk => hk⟩
        · exact ⟨heads, by simp, hsort⟩
      · exact ⟨heads, by simp, hsort⟩
      · exact ⟨x, by simp [hx], fun k hk => hk⟩
  | writeState =>
    obtain rfl := Option.some_inj.mp hs
    refine d.setHeads fun x hx => ⟨x, ?_, fun k hk => hk⟩
    simp only [List.mem_cons] at hx ⊢
    tauto
  | stored bytes =>
    obtain ⟨later, hput, hs⟩ := Option.map_eq_some_iff.mp hs
    obtain rfl := hs
    have hput : putBlock E s.store (computeCidString E bytes) bytes = .ok later := by
      cases hp : putBlock E s.store (computeCidString E bytes) bytes with
      | error e => simp [hp, Except.toOption] at hput
      | ok x => simpa [hp, Except.toOption] using hput
    obtain ⟨ha, hg, -⟩ := putBlock_spec hinj d.addressed hw hput
    exact d.grow ha hg
  | rollback n =>
    obtain ⟨cache, hn, hs⟩ := Option.map_eq_some_iff.mp hs
    obtain rfl := hs
    exact d.setCache (d.cached cache (List.mem_cons_of_mem _ (List.mem_of_getElem? hn)))
  | crash n =>
    obtain ⟨cache, hn, hs⟩ := Option.map_eq_some_iff.mp hs
    obtain rfl := hs
    refine ((d.setCache (d.cached cache (List.mem_of_getElem? hn))).closeLibrary).setHeads fun x hx => ?_
    refine ⟨s.disk, List.mem_cons_self, fun k hk => ?_⟩
    have : x = s.disk := by simpa [Node.setCache] using hx
    exact this ▸ hk

end Invariant

section Runs
variable {E : Environment} {chain : ResolvedAcChain}

/-- The node once the library was opened for the first time. -/
def Node.opened (E : Environment) (chain : ResolvedAcChain) : Node := Node.initial.openLibrary E chain

theorem opened_library : (Node.opened E chain).library = some ⟨createOplog chain, []⟩ := rfl

variable (E chain) in
theorem opened_saves : (Node.opened E chain).saves = [[]] := rfl

theorem opened_cache : (Node.opened E chain).cache.blocks = .empty := rfl

/-- The node once the entry is stored and cached and its pins are awaited. -/
def Node.awaitingPins (s : Node) (o : Oplog) (e : VerifiedEntry) : Node :=
  { s with
    store := s.store.set e.hash e.bytes
    cache := s.cache.save [e] o.heads.items
    earlier := s.cache :: s.earlier
    library := some ⟨o, [⟨[e], .pin, true⟩]⟩ }

variable {s : Node} {o p : Oplog} {b : Bytes} {e : VerifiedEntry}

theorem step_merge (hl : s.library = some ⟨o, []⟩) (hp : (mergeEntries E o [b]).1 = p)
    (hm : (mergeEntries E o [b]).2.merged = [e]) :
    s.step E chain (.merge [b]) = some { s with library := some ⟨p, [⟨[e], .put [e], true⟩]⟩ } := by
  simp [Node.step, Node.mergeAndStore, Node.withLibrary, hl, hm, hp, Node.startWrite]

theorem run_stored (hl : s.library = some ⟨o, []⟩) (hp : (mergeEntries E o [b]).1 = p)
    (hm : (mergeEntries E o [b]).2.merged = [e]) (hcid : computeCidString E e.bytes = e.hash) :
    runLabels (Node.step E chain) s [.merge [b], .putDone 0, .saveCache 0] =
      some (s.awaitingPins p e) := by
  have hput : putBlock E s.store e.hash e.bytes = .ok (s.store.set e.hash e.bytes) := by
    simp [putBlock, hcid, require, bind, Except.bind, pure, Except.pure]
  rw [runLabels_cons (step_merge hl hp hm)]
  simp [runLabels, Node.step, Node.withWrite, Node.withLibrary, Node.putDone, hput, Node.setWrite,
    Node.saveCache, Node.setCache, Node.awaitingPins]

theorem run_unstored (hl : s.library = some ⟨o, []⟩) (hp : (mergeEntries E o [b]).1 = p)
    (hm : (mergeEntries E o [b]).2.merged = [e]) :
    runLabels (Node.step E chain) s [.merge [b], .putFailed 0] =
      some { s with library := some ⟨p, []⟩ } := by
  rw [runLabels_cons (step_merge hl hp hm)]
  simp [runLabels, Node.step, Node.withWrite, Node.withLibrary, Node.putFailed, Node.endWrite]

variable (E chain) in
theorem run_saved (hs : s.saves = [[]]) :
    ∃ t, runLabels (Node.step E chain) (s.awaitingPins o e) [.pinDone 0, .saveHeads true, .saveHeads true] =
      some t ∧ t.disk = sortHeads o.heads.items ∧ t.store = s.store.set e.hash e.bytes ∧
        t.cache = s.cache.save [e] o.heads.items := by
  refine ⟨⟨s.store.set e.hash e.bytes, s.cache.save [e] o.heads.items, s.cache :: s.earlier, [],
    sortHeads o.heads.items, sortHeads o.heads.items, some ⟨o, []⟩⟩, ?_, rfl, rfl, rfl⟩
  simp [runLabels, Node.step, Node.withWrite, Node.withLibrary, Node.pinDone, Node.endWrite,
    Node.awaitingPins, hs]

variable {U : Set Bytes} {b₁ b₂ : Bytes} {e₁ e₂ : VerifiedEntry} {o₁ o₂ : Oplog}

/-- Open, merge a block and fail to store it, then merge, store and register another: the
persisted heads name the first, whose block is nowhere. -/
theorem run_lost (h₁ : b₁ ∈ U) (h₂ : b₂ ∈ U) (ho₁ : (mergeEntries E (createOplog chain) [b₁]).1 = o₁)
    (hm₁ : (mergeEntries E (createOplog chain) [b₁]).2.merged = [e₁])
    (ho₂ : (mergeEntries E o₁ [b₂]).1 = o₂) (hm₂ : (mergeEntries E o₁ [b₂]).2.merged = [e₂])
    (hcid : computeCidString E e₂.bytes = e₂.hash) (hhead : e₁.hash ∈ o₂.heads) (hne : e₁.hash ≠ e₂.hash) :
    ∃ s, Run (Node.step E chain) (· = Node.initial) (Node.Within E U) s ∧ e₁.hash ∈ s.disk ∧
      s.store.has e₁.hash = false ∧ s.cache.blocks.has e₁.hash = false := by
  have hopen : Run (Node.step E chain) (· = Node.initial) (Node.Within E U) (.opened E chain) :=
    .next .openLibrary (.start rfl) trivial rfl
  have hfailed := hopen.of_runLabels (by simp [Node.Within, h₁]) (run_unstored opened_library ho₁ hm₁)
  have hstored := hfailed.of_runLabels (by simp [Node.Within, h₂]) (run_stored rfl ho₂ hm₂ hcid)
  obtain ⟨t, ht, hdisk, hstore, hcache⟩ := run_saved E chain
    (s := { Node.opened E chain with library := some ⟨o₁, []⟩ }) (o := o₂) (e := e₂) (opened_saves E chain)
  refine ⟨t, hstored.of_runLabels (by simp [Node.Within]) ht, ?_, ?_, ?_⟩
  · rw [hdisk]
    exact (mem_sortBy _ _ _).mpr hhead
  · rw [hstore, OrderedMap.has, OrderedMap.get_set, if_neg hne]
    rfl
  · rw [hcache]
    simp [EntryBlockCache.save, opened_cache, EntryBlockCache.insertAll, EntryBlockCache.insert, OrderedMap.has,
      hne]

/-- Open, then merge, store and register a block: by then every entry is stored. -/
theorem run_registered (h₁ : b₁ ∈ U) (ho₁ : (mergeEntries E (createOplog chain) [b₁]).1 = o₁)
    (hm₁ : (mergeEntries E (createOplog chain) [b₁]).2.merged = [e₁])
    (hcid : computeCidString E e₁.bytes = e₁.hash) (hall : ∀ h, o₁.Has h → h = e₁.hash) :
    ∃ s, Run (Node.step E chain) (· = Node.initial) (Node.Guarded E U) s ∧
      s.disk = sortHeads o₁.heads.items := by
  have hopen : Run (Node.step E chain) (· = Node.initial) (Node.Guarded E U) (.opened E chain) :=
    .next .openLibrary (.start rfl) ⟨trivial, trivial⟩ rfl
  have hstored := hopen.of_runLabels (by simp [Node.Guarded, Node.Within, Node.HeadsStored, h₁])
    (run_stored opened_library ho₁ hm₁ hcid)
  obtain ⟨t, ht, hdisk, -, -⟩ := run_saved E chain (o := o₁) (e := e₁) (opened_saves E chain)
  obtain ⟨r, hr, hrest⟩ := Option.bind_eq_some_iff.mp ht
  have hpinned := Run.next (.pinDone 0) hstored (by
    refine ⟨trivial, fun lib w hl _ _ h hh => ?_⟩
    obtain rfl := Option.some_inj.mp hl
    rw [hall h hh]
    simp [Node.awaitingPins, OrderedMap.has]) hr
  exact ⟨t, hpinned.of_runLabels (by simp [Node.Guarded, Node.Within, Node.HeadsStored]) hrest, hdisk⟩

end Runs

namespace Sample

section Deletions
variable (key other : TrackId)

theorem heldFor_cid :
    computeCidString plainEnvironment (heldFor libraryA key).bytes = (heldFor libraryA key).hash := rfl

theorem mem_of_merge {o : Oplog} {h : Hash} {e : VerifiedEntry}
    (he : (mergeEntries plainEnvironment o [(heldFor libraryA key).bytes]).1.entries.get h = some e) :
    o.entries.get h = some e ∨ e.toHashedEntry = (heldFor libraryA key).toHashedEntry := by
  rcases mergeEntries_mem _ he with hold | ⟨b, hb, hd⟩
  · exact Or.inl hold
  · rw [List.mem_singleton.mp hb] at hd
    exact Or.inr (Except.ok.inj (hd.symm.trans (decodeSignedEntry_entryFor key (by decide))))

/-- The oplog that holds the one deletion. -/
def oplogWith : Oplog := (mergeEntries plainEnvironment (createOplog libraryA) [(heldFor libraryA key).bytes]).1

/-- The oplog that holds the second deletion too. -/
def oplogWithBoth : Oplog := (mergeEntries plainEnvironment (oplogWith key) [(heldFor libraryA other).bytes]).1

theorem oplogWith_eq : (mergeEntries plainEnvironment (createOplog libraryA)
    [(heldFor libraryA key).bytes]).1 = oplogWith key := rfl

theorem oplogWithBoth_eq : (mergeEntries plainEnvironment (oplogWith key)
    [(heldFor libraryA other).bytes]).1 = oplogWithBoth key other := rfl

theorem oplogWith_sound : Sound plainEnvironment libraryA (oplogWith key) := merge_sound createOplog_sound _

theorem oplogWith_get {h : Hash} {e : VerifiedEntry} (he : (oplogWith key).entries.get h = some e) :
    e.toHashedEntry = (heldFor libraryA key).toHashedEntry := by
  rcases mem_of_merge key he with hold | heq
  · simp [createOplog] at hold
  · exact heq

theorem oplogWith_has {h : Hash} (hh : (oplogWith key).Has h) : h = (heldFor libraryA key).hash := by
  obtain ⟨e, he⟩ := hh
  rw [← (oplogWith_sound key).indexed.grounded.keyed h e he]
  exact congrArg HashedEntry.hash (oplogWith_get key he)

theorem oplogWith_has_self : (oplogWith key).Has (heldFor libraryA key).hash :=
  mergeEntries_entryFor key (by decide) rfl rfl

theorem mem_heads_first : (heldFor libraryA key).hash ∈ (oplogWith key).heads := by
  rw [(oplogWith_sound key).indexed.heads]
  refine ⟨oplogWith_has_self key, fun x q hq hm => ?_⟩
  have hnext : q.toHashedEntry.entry.next = [] := by
    rw [oplogWith_get key hq]
    rfl
  rw [VerifiedEntry.next, hnext] at hm
  simp at hm

theorem merged_first : (mergeEntries plainEnvironment (createOplog libraryA)
      [(heldFor libraryA key).bytes]).2.merged = [heldFor libraryA key] ∧
    (mergeEntries plainEnvironment (createOplog libraryA) [(heldFor libraryA key).bytes]).2.rejected = [] :=
  mergeEntries_entryFor_merged key (by decide) rfl rfl fun ⟨_, he⟩ => by simp [createOplog] at he

variable {key other}

theorem merged_second (hne : (heldFor libraryA other).hash ≠ (heldFor libraryA key).hash) :
    (mergeEntries plainEnvironment (oplogWith key) [(heldFor libraryA other).bytes]).2.merged =
      [heldFor libraryA other] :=
  (mergeEntries_entryFor_merged other (by decide) (by rw [(oplogWith_sound key).chain_eq]; rfl)
    (by rw [(oplogWith_sound key).chain_eq]; rfl) fun hh => hne (oplogWith_has key hh)).1

/-- The first deletion is a head still once the second is merged. -/
theorem mem_heads_second : (heldFor libraryA key).hash ∈ (oplogWithBoth key other).heads := by
  have s : Sound plainEnvironment libraryA (oplogWithBoth key other) := merge_sound (oplogWith_sound key) _
  obtain ⟨e, he⟩ := oplogWith_has_self key
  rw [s.indexed.heads]
  refine ⟨⟨e, mergeEntries_get_old (oplogWith_sound key) _ he⟩, fun x q hq hm => ?_⟩
  have hnext : q.toHashedEntry.entry.next = [] := by
    rcases mem_of_merge other hq with hq | heq
    · rw [oplogWith_get key hq]
      rfl
    · rw [heq]
      rfl
  rw [VerifiedEntry.next, hnext] at hm
  simp at hm

end Deletions

end Sample

end RecordNode
