import RecordNode.Replication.Replicator

/-! # Which library an entry was signed for

An entry signs the address of its library, and an announced About entry is only
kept when it names the announced library. Neither the check of a fetched entry
nor append verification makes that comparison: what keeps other libraries'
entries out of an oplog is that nobody delivers them. -/

namespace RecordNode

open Foundation

variable {E : Environment} {chain : ResolvedAcChain} {o : Oplog}

/-- A block that is an entry of this library, unless its own checks refuse it. -/
def SignedForLibrary (E : Environment) (chain : ResolvedAcChain) (bytes : Bytes) : Prop :=
  ∀ hashed operation, decodeSignedEntry E bytes = .ok hashed →
    checkEntry E chain hashed = .ok operation → hashed.entry.id = chain.address

/-- Every held entry carries the library's address. -/
def BoundEntries (chain : ResolvedAcChain) (o : Oplog) : Prop :=
  ∀ h e, o.entries.get h = some e → e.entry.id = chain.address

/-- A held entry passed its own checks. -/
theorem Sound.checkEntry (s : Sound E chain o) {h : Hash} {e : VerifiedEntry}
    (he : o.entries.get h = some e) : checkEntry E chain e.toHashedEntry = .ok e.operation := by
  rw [← s.chain_eq]
  exact ((verifyEntry_eq_ok_iff E o _ e).mp (s.indexed.verified h e he)).2.1

theorem merge_boundEntries (s : Sound E chain o) (hb : BoundEntries chain o) {blocks : List Bytes}
    (hblocks : ∀ b ∈ blocks, SignedForLibrary E chain b) :
    BoundEntries chain (mergeEntries E o blocks).1 := by
  intro h e he
  rcases mergeEntries_mem blocks he with hold | ⟨b, hmem, hd⟩
  · exact hb h e hold
  · exact hblocks b hmem _ _ hd ((merge_sound s blocks).checkEntry he)

/-- A local append signs the address of the oplog's own chain. -/
theorem append_boundEntries (s : Sound E chain o) (hb : BoundEntries chain o) {payload : LocalPayload}
    {keyPair : KeyPair} {result : Appended}
    (ha : appendEntryWithAccess E o payload keyPair = .ok result) : BoundEntries chain result.oplog := by
  intro h e he
  rw [append_entries s ha] at he
  rcases insertEntry_mem he with hold | rfl
  · exact hb h e hold
  · have hsigned := append_signed ha
    simp only [signLocalEntry, bind_eq_ok] at hsigned
    obtain ⟨-, -, unsigned, hbuild, hv⟩ := hsigned
    obtain ⟨rfl, -⟩ := buildUnsignedEntry_eq hbuild
    rw [((verifyEntry_eq_ok_iff E o _ _).mp hv).1, ← s.chain_eq]
    rfl

namespace Replicator

/-- No block that passes the library's own checks was signed for another library. -/
def OwnBlocks (E : Environment) (chain : ResolvedAcChain) (_ : Replicator) : Label → Prop
  | .result _ _ (some bytes) => SignedForLibrary E chain bytes
  | .merge blocks => ∀ b ∈ blocks, SignedForLibrary E chain b
  | _ => True

/-- The oplog is bound, and so is whatever waits to be merged. -/
structure Bound (E : Environment) (chain : ResolvedAcChain) (r : Replicator) : Prop where
  sound : Sound E chain r.oplog
  entries : BoundEntries chain r.oplog
  waiting : r.orchestrator.All fun hashed => SignedForLibrary E chain hashed.bytes

theorem verifyFetched_bytes {hash : Hash} {bytes : Bytes} {hashed : HashedEntry}
    (h : verifyFetched E chain hash bytes = .ok hashed) : hashed.bytes = bytes := by
  simp only [verifyFetched, bind_eq_ok] at h
  obtain ⟨x, hd, -, -, -, -, hres⟩ := h
  cases Except.ok.inj hres
  exact (decodeSignedEntry_bytes hd).1

theorem result_entry {T : Type*} {verify : Hash → Bytes → Checked T} {links : T → List Hash}
    {isLanded : Hash → Bool} {concurrency record : ℕ} {t : Traversal} {hash : Hash}
    {bytes : Option Bytes} {entry : T}
    (h : (t.result isLanded verify links concurrency hash record bytes).2 = some entry) :
    ∃ b, bytes = some b ∧ verify hash b = .ok entry := by
  unfold Traversal.result at h
  split at h
  · simp at h
  · split at h
    · simp at h
    case h_2 b =>
      refine ⟨b, rfl, ?_⟩
      unfold Traversal.land at h
      split at h
      · simp at h
      case h_2 hv =>
        rw [hv]
        exact congrArg _ (Option.some_inj.mp h)

theorem step_bound (concurrency : ℕ) {r t : Replicator} {l : Label} (h : Bound E chain r)
    (hl : OwnBlocks E chain r l) (hs : r.step E concurrency l = some t) : Bound E chain t := by
  cases l with
  | start | subscribed | pause | resume =>
    simp only [step, Option.ite_none_right_eq_some, Option.some.injEq] at hs
    obtain ⟨-, rfl⟩ := hs
    exact ⟨h.sound, h.entries, h.waiting⟩
  | heads hashes =>
    obtain rfl := Option.some_inj.mp hs
    unfold receive
    split <;> exact ⟨h.sound, h.entries, h.waiting⟩
  | result hash record bytes =>
    obtain rfl := Option.some_inj.mp hs
    refine ⟨h.sound, h.entries, ?_⟩
    simp only [receiveResult]
    split
    · exact h.waiting
    case h_2 hashed hres =>
      obtain ⟨b, rfl, hv⟩ := result_entry hres
      exact h.waiting.add candidate (verifyFetched_bytes hv ▸ hl)
  | timeout hash record =>
    obtain rfl := Option.some_inj.mp hs
    exact ⟨h.sound, h.entries, h.waiting⟩
  | unlink =>
    obtain rfl := Option.some_inj.mp hs
    exact ⟨h.sound, h.entries, h.waiting.discard⟩
  | runMerge =>
    simp only [step, Option.ite_none_right_eq_some, Option.some.injEq] at hs
    obtain ⟨-, rfl⟩ := hs
    have hbatch : ∀ b ∈ (r.orchestrator.runBatch candidate r.isLanded).2.map HashedEntry.bytes,
        SignedForLibrary E chain b := by
      intro b hb
      obtain ⟨hashed, hm, rfl⟩ := List.mem_map.mp hb
      exact h.waiting.mem_readyBatch candidate r.isLanded hm
    simp only [runMerge]
    refine ⟨?_, ?_, h.waiting.runBatch candidate r.isLanded⟩
    · split
      · exact h.sound
      · exact merge_sound h.sound _
    · split
      · exact h.entries
      · exact merge_boundEntries h.sound h.entries hbatch
  | mergeDone =>
    obtain ⟨batch, -, rfl⟩ := Option.map_eq_some_iff.mp hs
    exact ⟨h.sound, h.entries, h.waiting.runDone candidate r.isLanded batch⟩
  | mergeFailed =>
    obtain ⟨batch, hb, rfl⟩ := Option.map_eq_some_iff.mp hs
    exact ⟨h.sound, h.entries, h.waiting.runFailed candidate hb⟩
  | merge blocks =>
    obtain rfl := Option.some_inj.mp hs
    exact ⟨merge_sound h.sound blocks, merge_boundEntries h.sound h.entries hl, h.waiting⟩
  | append payload keyPair =>
    simp only [step] at hs
    split at hs
    case h_1 result ha =>
      obtain rfl := Option.some_inj.mp hs
      exact ⟨append_sound h.sound ha, append_boundEntries h.sound h.entries ha, h.waiting⟩
    · simp at hs

/-- A replicator just created over the library's empty oplog. -/
def Fresh (chain : ResolvedAcChain) (r : Replicator) : Prop := r = create (createOplog chain)

theorem fresh_bound {r : Replicator} (h : Fresh chain r) : Bound E chain r := by
  obtain rfl : r = create (createOplog chain) := h
  exact ⟨createOplog_sound, by simp [BoundEntries, create, createOplog],
    ⟨by simp [create, Orchestrator.create], by simp [create, Orchestrator.create]⟩⟩

end Replicator

open Replicator in
/-- As long as no block that passes library A's own checks was signed for another library,
every entry A's oplog ever holds carries A's address, so none signed for a library B is
accepted. -/
theorem library_binding (E : Environment) (concurrency : ℕ) (chainA : ResolvedAcChain) (r : Replicator)
    (hr : Run (step E concurrency) (Fresh chainA) (OwnBlocks E chainA) r) :
    (∀ h e, r.oplog.entries.get h = some e → e.entry.id = chainA.address) ∧
      ∀ chainB : ResolvedAcChain, chainB.address ≠ chainA.address →
        ∀ h e, r.oplog.entries.get h = some e → e.entry.id ≠ chainB.address := by
  have hb : Bound E chainA r :=
    hr.invariant (fun _ h => fresh_bound h) fun _ _ _ ih hl hs => step_bound concurrency ih hl hs
  exact ⟨hb.entries, fun chainB hne h e he hid => hne ((hid.symm.trans (hb.entries h e he)))⟩

namespace Replicator

/-- The replicator after one merge into the empty oplog. -/
def afterMerge (E : Environment) (chain : ResolvedAcChain) (bytes : Bytes) : Replicator :=
  { create (createOplog chain) with oplog := (mergeEntries E (createOplog chain) [bytes]).1 }

theorem afterMerge_oplog (E : Environment) (chain : ResolvedAcChain) (bytes : Bytes) :
    (afterMerge E chain bytes).oplog = (mergeEntries E (createOplog chain) [bytes]).1 := rfl

theorem run_afterMerge (E : Environment) (concurrency : ℕ) (chain : ResolvedAcChain)
    (allowed : Replicator → Label → Prop) (bytes : Bytes)
    (h : allowed (create (createOplog chain)) (.merge [bytes])) :
    Run (step E concurrency) (Fresh chain) allowed (afterMerge E chain bytes) :=
  .next (.merge [bytes]) (.start rfl) h rfl

theorem afterMerge_entry {bytes : Bytes} {h : Hash} {e : VerifiedEntry}
    (he : (afterMerge E chain bytes).oplog.entries.get h = some e) :
    decodeSignedEntry E bytes = .ok e.toHashedEntry := by
  rcases mergeEntries_mem [bytes] he with hold | ⟨b, hb, hd⟩
  · simp [createOplog] at hold
  · rw [← List.mem_singleton.mp hb, hd]

theorem afterMerge_has (signedFor chain : ResolvedAcChain) (key : TrackId)
    (hc : signedFor.address.length ≤ 100) (hw : chain.writeList = [Sample.ownerKey])
    (ht : chain.type = .recordstore) :
    (afterMerge plainEnvironment chain (Sample.entryFor signedFor (Sample.delPayload key)).bytes).oplog.Has
      (Sample.entryFor signedFor (Sample.delPayload key)).hash := by
  rw [afterMerge_oplog]
  exact Sample.mergeEntries_entryFor key hc hw ht

end Replicator

open Replicator Sample in
/-- The owner's own deletion, merged into the library it was signed for. -/
theorem library_binding_own_entry :
    ∃ r : Replicator, Run (step plainEnvironment 1) (Fresh libraryA) (OwnBlocks plainEnvironment libraryA) r ∧
      r.oplog.Has (entryFor libraryA (delPayload plainEnvironment.aboutKey)).hash ∧
      ∀ h e, r.oplog.entries.get h = some e → e.entry.id ≠ libraryB.address := by
  have hown : SignedForLibrary plainEnvironment libraryA
      (entryFor libraryA (delPayload plainEnvironment.aboutKey)).bytes := by
    intro hashed operation hd _
    rw [decodeSignedEntry_entryFor plainEnvironment.aboutKey (by decide)] at hd
    rw [← Except.ok.inj hd, entryFor_id]
  have hrun := run_afterMerge plainEnvironment 1 libraryA (OwnBlocks plainEnvironment libraryA) _
    fun b hb => List.mem_singleton.mp hb ▸ hown
  exact ⟨_, hrun, afterMerge_has libraryA libraryA plainEnvironment.aboutKey (by decide) rfl rfl,
    (library_binding plainEnvironment 1 libraryA _ hrun).2 libraryB (by decide)⟩

open Replicator Sample in
/-- The same deletion signed for library B merges into library A. -/
theorem foreign_entry_accepted :
    ¬ ∀ r : Replicator, Run (step plainEnvironment 1) (Fresh libraryA) anyLabel r →
      ∀ h e, r.oplog.entries.get h = some e → e.entry.id = libraryA.address := by
  intro hclaim
  have hrun := run_afterMerge plainEnvironment 1 libraryA anyLabel
    (entryFor libraryB (delPayload plainEnvironment.aboutKey)).bytes trivial
  obtain ⟨e, he⟩ := afterMerge_has libraryB libraryA plainEnvironment.aboutKey (by decide) rfl rfl
  have hid := hclaim _ hrun _ e he
  have hd := afterMerge_entry he
  rw [decodeSignedEntry_entryFor plainEnvironment.aboutKey (by decide)] at hd
  rw [← Except.ok.inj hd, entryFor_id] at hid
  exact absurd hid (by decide)

end RecordNode
