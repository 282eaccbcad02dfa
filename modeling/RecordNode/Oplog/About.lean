import RecordNode.Foundation.Run
import RecordNode.Oplog.Authentic

/-! # The About slot

The About record lives under `aboutKey`, a sha256 of the same 64-hex shape as a
track id, in the one key space all records share. Nothing keeps a track PUT or a
DEL from naming that key: the slot is the About records' alone as long as no
accepted entry does. -/

namespace RecordNode

open Foundation

/-- What happens to an oplog: a merge of blocks or a local append. -/
inductive OplogLabel where
  | merge (blocks : List Bytes)
  | append (payload : LocalPayload) (keyPair : KeyPair)

def oplogStep (E : Environment) (o : Oplog) : OplogLabel → Option Oplog
  | .merge blocks => some (mergeEntries E o blocks).1
  | .append payload keyPair =>
    match appendEntryWithAccess E o payload keyPair with
    | .ok result => some result.oplog
    | .error _ => none

variable {E : Environment} {chain : ResolvedAcChain} {o p : Oplog}

/-- What one step does: the new oplog is sound again, keeps what was held, and holds beside
it only decodings of the merged blocks or the entry the append signed. -/
structure Stepped (E : Environment) (chain : ResolvedAcChain) (o p : Oplog) (l : OplogLabel) : Prop where
  sound : Sound E chain p
  keeps : Extends o p
  added : ∀ h e, p.entries.get h = some e → o.entries.get h = some e ∨
    match l with
    | .merge blocks => ∃ b ∈ blocks, decodeSignedEntry E b = .ok e.toHashedEntry
    | .append payload keyPair => signLocalEntry E o payload keyPair = .ok e

theorem oplogStep_stepped (s : Sound E chain o) {l : OplogLabel} (hs : oplogStep E o l = some p) :
    Stepped E chain o p l := by
  cases l with
  | merge blocks =>
    obtain rfl := Option.some_inj.mp hs
    exact ⟨merge_sound s blocks, fun h e he => mergeEntries_get_old s blocks he,
      fun h e he => mergeEntries_mem blocks he⟩
  | append payload keyPair =>
    simp only [oplogStep] at hs
    split at hs
    case h_1 result ha =>
      obtain rfl := Option.some_inj.mp hs
      refine ⟨append_sound s ha, append_extends s ha, fun h e he => ?_⟩
      rw [append_entries s ha] at he
      rcases insertEntry_mem he with hold | rfl
      · exact Or.inl hold
      · exact Or.inr (append_signed ha)
    · simp at hs

/-- The operation is a track PUT or a DEL that names the About key. -/
def TakesAboutSlot (E : Environment) : Operation → Prop
  | .track value _ => value.id = E.aboutKey
  | .del key _ _ => key = E.aboutKey
  | _ => False

/-- No block or payload that passes its own checks takes the About slot. -/
def LeavesAboutSlot (E : Environment) (chain : ResolvedAcChain) (_ : Oplog) : OplogLabel → Prop
  | .merge blocks => ∀ b ∈ blocks, ∀ hashed operation, decodeSignedEntry E b = .ok hashed →
      checkEntry E chain hashed = .ok operation → ¬ TakesAboutSlot E operation
  | .append payload _ => ∀ writeListSigner operation,
      validateOperation E chain.type writeListSigner payload.val = .ok operation →
        ¬ TakesAboutSlot E operation

/-! ## Who can be keyed under the About key -/

theorem TrackId.not_mem_colon (id : TrackId) : ':' ∉ id.text.toList := by
  have hhex := id.isHex
  rw [isHex64, Bool.and_eq_true, List.all_eq_true] at hhex
  exact fun hmem => absurd (hhex.2 ':' hmem) (by decide)

/-- Only an About record is keyed under the About key, or an operation that takes its slot;
label and identity slots have a colon in their key. -/
theorem mem_stateKeysOf_aboutKey {operation : Operation}
    (h : E.aboutKey.text ∈ stateKeysOf E operation) :
    operation.isAboutPut = true ∨ TakesAboutSlot E operation := by
  have hcolon : ∀ a b : String, E.aboutKey.text ≠ a ++ ":" ++ b := fun a b heq => by
    refine E.aboutKey.not_mem_colon ?_
    rw [heq]
    simp [String.toList_append]
  cases operation with
  | track value c => exact Or.inr (TrackId.eq_of_text (List.mem_singleton.mp h).symm)
  | del key t c => exact Or.inr (TrackId.eq_of_text (List.mem_singleton.mp h).symm)
  | labels key value c =>
    obtain ⟨pair, -, hpair⟩ := List.mem_map.mp h
    exact absurd hpair.symm (hcolon _ _)
  | about value c => exact Or.inl rfl
  | access a k v c => simp [stateKeysOf] at h
  | unknown op k v c => simp [stateKeysOf] at h
  | identityPut key value => exact absurd (List.mem_singleton.mp h) (hcolon _ _)
  | identityDel key type t => exact absurd (List.mem_singleton.mp h) (hcolon _ _)
  | listen t a s => simp [stateKeysOf] at h

theorem aboutKey_mem_stateKeys {e : VerifiedEntry} (h : e.operation.isAboutPut = true) :
    E.aboutKey.text ∈ e.stateKeys E := by
  unfold VerifiedEntry.stateKeys
  cases hop : e.operation <;> simp_all [Operation.isAboutPut, stateKeysOf]

/-- What a held entry's payload validates to. -/
theorem Sound.validated (s : Sound E chain o) {h : Hash} {e : VerifiedEntry}
    (he : o.entries.get h = some e) :
    ∃ writeListSigner, validateOperation E chain.type writeListSigner e.entry.payload = .ok e.operation := by
  have hcheck := ((verifyEntry_eq_ok_iff E o _ e).mp (s.indexed.verified h e he)).2.1
  rw [s.chain_eq] at hcheck
  simp only [checkEntry, bind_eq_ok] at hcheck
  obtain ⟨-, -, -, -, operation, hop, -, -, -, -, hres⟩ := hcheck
  exact ⟨_, Except.ok.inj hres ▸ hop⟩

/-- No held entry takes the About slot. -/
def AboutSlotFree (E : Environment) (o : Oplog) : Prop :=
  ∀ h e, o.entries.get h = some e → ¬ TakesAboutSlot E e.operation

theorem aboutSlotFree_step (hf : AboutSlotFree E o) {l : OplogLabel} (hl : LeavesAboutSlot E chain o l)
    (t : Stepped E chain o p l) : AboutSlotFree E p := by
  intro h e he
  rcases t.added h e he with hold | hnew
  · exact hf h e hold
  · cases l with
    | merge blocks =>
      obtain ⟨b, hb, hd⟩ := hnew
      have hcheck := ((verifyEntry_eq_ok_iff E p _ e).mp (t.sound.indexed.verified h e he)).2.1
      rw [t.sound.chain_eq] at hcheck
      exact hl b hb _ _ hd hcheck
    | append payload keyPair =>
      obtain ⟨w, hop⟩ := t.sound.validated he
      refine hl w e.operation ?_
      simp only [signLocalEntry, bind_eq_ok] at hnew
      obtain ⟨-, -, unsigned, hbuild, hv⟩ := hnew
      obtain ⟨rfl, -⟩ := buildUnsignedEntry_eq hbuild
      rw [((verifyEntry_eq_ok_iff E o _ _).mp hv).1] at hop
      exact hop

/-! ## The slot's integrity -/

/-- A held About record that is not inert. -/
def AboutCompetes (o : Oplog) (e : VerifiedEntry) : Prop :=
  o.Holds e ∧ e.operation.isAboutPut = true ∧ e.hash ∉ o.inert

/-- The winner among the About records, by the order current state resolves in. -/
def IsAboutWinner (o : Oplog) (e : VerifiedEntry) : Prop :=
  AboutCompetes o e ∧
    ∀ x, AboutCompetes o x → x = e ∨ compareCurrentState e.toHashedEntry x.toHashedEntry < 0

theorem competes_aboutKey_iff (hf : AboutSlotFree E o) (e : VerifiedEntry) :
    Competes E o E.aboutKey.text e ↔ AboutCompetes o e := by
  rw [Competes, AboutCompetes]
  refine and_congr_right fun he => and_congr_left fun _ => ?_
  constructor
  · exact fun hk => (mem_stateKeysOf_aboutKey hk).resolve_right (hf _ e he)
  · exact aboutKey_mem_stateKeys

theorem current_aboutKey (s : Sound E chain o) (hf : AboutSlotFree E o) :
    o.current.get E.aboutKey.text = none ∨
      ∃ e, o.current.get E.aboutKey.text = some e ∧ IsAboutWinner o e := by
  cases hc : o.current.get E.aboutKey.text with
  | none => exact Or.inl rfl
  | some e =>
    have hw := (s.current_some _ e).mp hc
    simp only [IsWinner, competes_aboutKey_iff hf] at hw
    exact Or.inr ⟨e, rfl, hw⟩

/-- A track PUT, a label record or a DEL. -/
def Operation.isTrackLabelOrDel : Operation → Bool
  | .track .. | .labels .. | .del .. => true
  | _ => false

/-- Such an entry, when it does not take the slot, leaves the current About record as it is. -/
theorem current_aboutKey_step (s : Sound E chain o) {l : OplogLabel} (t : Stepped E chain o p l)
    (hf : AboutSlotFree E p)
    (hkind : ∀ h e, p.entries.get h = some e → o.entries.get h ≠ some e →
      e.operation.isTrackLabelOrDel = true) :
    p.current.get E.aboutKey.text = o.current.get E.aboutKey.text := by
  refine s.current_eq t.sound t.keeps (fun h e he hr => ?_) fun h e he hk => ?_
  · by_contra hnew
    have := hkind h e he hnew
    cases hop : e.operation <;> simp_all [Operation.isTrackLabelOrDel, Operation.isRevocation]
  · by_contra hnew
    have := hkind h e he hnew
    rcases mem_stateKeysOf_aboutKey hk with habout | htakes
    · cases hop : e.operation <;> simp_all [Operation.isTrackLabelOrDel, Operation.isAboutPut]
    · exact hf h e he htakes

theorem run_mergeEntries {allowed : Oplog → OplogLabel → Prop} (blocks : List Bytes)
    (h : allowed (createOplog chain) (.merge blocks)) :
    Run (oplogStep E) (· = createOplog chain) allowed (mergeEntries E (createOplog chain) blocks).1 :=
  .next (.merge blocks) (.start rfl) h rfl

namespace Sample

section Merged
variable (signedFor chain : ResolvedAcChain) (key : TrackId) (hc : signedFor.address.length ≤ 100)
  (hw : chain.writeList = [ownerKey]) (ht : chain.type = .recordstore)
include hc hw ht

/-- All that the merge of the one deletion leaves in the oplog is that deletion. -/
theorem entry_of_merge {h : Hash} {e : VerifiedEntry}
    (he : (mergeEntries plainEnvironment (createOplog chain)
      [(entryFor signedFor (delPayload key)).bytes]).1.entries.get h = some e) :
    e.operation = .del key 1 none ∧ e.signer = ownerKey := by
  have s : Sound plainEnvironment chain (createOplog chain) := createOplog_sound
  rcases mergeEntries_mem _ he with hold | ⟨b, hb, hd⟩
  · simp [createOplog] at hold
  · rw [List.mem_singleton.mp hb, decodeSignedEntry_entryFor key hc] at hd
    have hcheck := ((verifyEntry_eq_ok_iff _ _ _ e).mp ((merge_sound s _).indexed.verified h e he)).2.1
    rw [(merge_sound s _).chain_eq, ← Except.ok.inj hd, checkEntry_entryFor key hc hw ht] at hcheck
    refine ⟨(Except.ok.inj hcheck).symm, ?_⟩
    rw [VerifiedEntry.signer, ← Except.ok.inj hd]
    rfl

/-- The deletion becomes the current entry of its key. -/
theorem current_of_merge : ∃ e : VerifiedEntry, e.operation = .del key 1 none ∧
    (mergeEntries plainEnvironment (createOplog chain)
      [(entryFor signedFor (delPayload key)).bytes]).1.current.get key.text = some e := by
  have s : Sound plainEnvironment chain (createOplog chain) := createOplog_sound
  have s' := merge_sound s [(entryFor signedFor (delPayload key)).bytes]
  obtain ⟨e, he⟩ := mergeEntries_entryFor (o := createOplog chain) key hc hw ht
  obtain ⟨hop, hsigner⟩ := entry_of_merge signedFor chain key hc hw ht he
  have hcompetes := s'.competes_of_writeListKey he
    (by rw [isWriteListKey, s'.chain_eq, hw, hsigner]; simp)
    (show key.text ∈ e.stateKeys plainEnvironment by rw [VerifiedEntry.stateKeys, hop]; simp [stateKeysOf])
  cases hcur : (mergeEntries plainEnvironment (createOplog chain)
      [(entryFor signedFor (delPayload key)).bytes]).1.current.get key.text with
  | none => exact absurd hcompetes ((s'.derivedState.current_none _).mp hcur e)
  | some x =>
    have hx := ((s'.current_some _ x).mp hcur).1.1
    exact ⟨x, (entry_of_merge signedFor chain key hc hw ht hx).1, rfl⟩

end Merged

end Sample

end RecordNode
