import RecordNode.AccessControl.Granting
import RecordNode.Oplog.Exact

/-! # Delegation soundness

Every held entry that no write-list key signed rests on a finite chain of
capabilities in its causal past, from one granted to its signer up to one a
write-list key signed. Each link was itself accepted under the next, and no link
is revoked in the entry's past. -/

namespace RecordNode

open Foundation

variable {E : Environment} {chain : ResolvedAcChain} {o : Oplog}

/-- The capability record an entry carries, empty for any other entry. -/
def recordOf (c : VerifiedEntry) : Fields := (capabilityRecord (some c)).getD []

/-- The conditions of a capability that a write timestamped `timestamp` is held to. -/
def ConditionsHold (capability : Fields) (timestamp : ℚ) : Prop :=
  ∀ condition ∈ ((capability.get "conditions").bind Value.asArray?).getD [],
    conditionShape condition = .ok ∧
      ∀ limit, condition.fields?.bind (fun fields => fields.uint? "at") = some limit →
        timestamp ≤ (limit : ℚ)

def writeTimestamp (value : Fields) : ℚ := ((value.get "timestamp").bind Value.asNumber?).getD 0

/-- The capability `c` lets a write of this value through. -/
structure Covers (c : VerifiedEntry) (value : Fields) : Prop where
  known : capabilityFailsClosed (recordOf c) = false
  action : ∃ action, coveringAction value = some action ∧ action ∈ actionsOf (recordOf c)
  filter : ∀ subject ∈ filterSubjects value, filterMatches ((recordOf c).get "filter") subject = true
  conditions : ConditionsHold (recordOf c) (writeTimestamp value)

/-- The capability `c` was accepted under the capability `d` by the grant action. -/
structure Delegates (E : Environment) (o : Oplog) (c d : VerifiedEntry) : Prop where
  cites : c.operation.capabilityId = some d.hash
  authorised : authoriseEntry E o c.toHashedEntry c.operation = .ok ()
  grantee : granteeMatches ((recordOf d).get "grantee") c.signer = true
  grants : "library.grant_capability" ∈ actionsOf (recordOf d)

theorem conditionFailure_eq_none {capability : Fields} {timestamp : ℚ}
    (h : conditionFailure (capability.get "conditions") timestamp = none) :
    ConditionsHold capability timestamp := by
  unfold conditionFailure at h
  dsimp only at h
  intro condition hc
  split at h
  · simp at h
  case isFalse hknown =>
  split at h
  · simp at h
  case isFalse hlive =>
  rw [Bool.not_eq_true, List.any_eq_false] at hknown hlive
  refine ⟨by simpa using hknown condition hc, fun limit hl => ?_⟩
  have := hlive condition hc
  rw [hl] at this
  simpa using this

theorem checkLink_eq_ok {value : Fields} {c : VerifiedEntry} (hc : o.Holds c)
    (h : checkLink E o value c.hash = .ok ()) : Covers c value := by
  have hrec : (capabilityRecord (o.entries.get c.hash)).getD [] = recordOf c := by rw [hc, recordOf]
  unfold checkLink at h
  simp only [hrec] at h
  split at h
  · simp at h
  case isFalse hclosed =>
  split at h
  · simp at h
  case isFalse haction =>
  split at h
  · simp at h
  case isFalse hfilter =>
  split at h
  · simp at h
  · simp at h
  case h_3 hcond =>
  refine ⟨by simpa using hclosed, ?_, by simpa using hfilter, conditionFailure_eq_none hcond⟩
  simpa [Option.any_eq_true] using haction

theorem checkLinks_eq_ok {value : Fields} {l : List Hash} (h : checkLinks E o value l = .ok ())
    {c : VerifiedEntry} (hc : o.Holds c) (hm : c.hash ∈ l) : Covers c value := by
  induction l with
  | nil => simp at hm
  | cons x rest ih =>
    simp only [checkLinks, bind_eq_ok] at h
    obtain ⟨⟨⟩, hx, hrest⟩ := h
    rcases List.mem_cons.mp hm with rfl | hm
    · exact checkLink_eq_ok hc hx
    · exact ih hrest hm

/-! ## Facts every held entry carries -/

theorem Indexed.authorised (I : Indexed E o) {h : Hash} {e : VerifiedEntry}
    (he : o.entries.get h = some e) : authoriseEntry E o e.toHashedEntry e.operation = .ok () :=
  ((verifyEntry_eq_ok_iff E o _ e).mp (I.verified h e he)).2.2.2

/-- The operation a held entry of a recordstore carries was read from its payload. -/
theorem Indexed.validated (I : Indexed E o) {h : Hash} {e : VerifiedEntry}
    (he : o.entries.get h = some e) (hr : o.chain.type = .recordstore) :
    validateOperation E .recordstore (isWriteListKey o e.signer) e.entry.payload = .ok e.operation := by
  have hcheck := ((verifyEntry_eq_ok_iff E o _ e).mp (I.verified h e he)).2.1
  simp only [checkEntry, bind_eq_ok] at hcheck
  obtain ⟨-, -, -, -, op, hop, -, -, -, -, hres⟩ := hcheck
  cases Except.ok.inj hres
  rw [← hr]
  exact hop

/-- A held capability record was signed as a value of type `capability`. -/
theorem Indexed.capability_action (I : Indexed E o) (hr : o.chain.type = .recordstore) {h : Hash}
    {e : VerifiedEntry} (he : o.entries.get h = some e) (hcap : e.operation.isCapability = true) :
    (payloadValue e.toHashedEntry).string? "type" = some "capability" := by
  obtain ⟨v, hv⟩ : ∃ v, e.operation.accessRecord? = some (.capability, v) := by
    unfold Operation.isCapability at hcap
    split at hcap
    case h_1 hop => exact ⟨_, by rw [hop]; rfl⟩
    · simp at hcap
  obtain ⟨hvalue, ht⟩ := validateOperation_access (I.validated he hr) hv
  rw [payloadValue, hvalue]
  exact ht

/-! ## The chain of one capability -/

/-- What the walk from a held capability has found: the entries behind the hashes, the
last signed by the write list and each accepted under the next. -/
structure Rooted (E : Environment) (o : Oplog) (h : Hash) (l : List Hash) (cs : List VerifiedEntry) :
    Prop where
  hashes : cs.map (fun c => c.hash) = l
  first : ∃ c, cs.head? = some c ∧ c.hash = h
  held : ∀ c ∈ cs, o.Holds c ∧ c.operation.isCapability = true
  root : ∀ c, cs.getLast? = some c → isWriteListKey o c.signer = true
  links : cs.IsChain (Delegates E o)

theorem capabilityChain_rooted (I : Indexed E o) (hr : o.chain.type = .recordstore) {h : Hash}
    {e : VerifiedEntry} (he : o.entries.get h = some e) (hcap : e.operation.isCapability = true) :
    ∃ cs, Rooted E o h (capabilityChain o (some h)) cs := by
  refine I.grounded.chain_induction (motive := fun h l => ∃ cs, Rooted E o h l cs) ?_ ?_ he hcap
  · intro h e he hcap hw
    obtain rfl := I.grounded.keyed h e he
    refine ⟨[e], rfl, ⟨e, rfl, rfl⟩, ?_, ?_, List.isChain_singleton e⟩
    · simp [Oplog.Holds, he, hcap]
    · simp [hw]
  · rintro h e c he hcap hw hc - ⟨cs, R⟩
    obtain rfl := I.grounded.keyed h e he
    obtain ⟨d, hhead, rfl⟩ := R.first
    obtain ⟨rest, rfl⟩ : ∃ rest, cs = d :: rest := by
      cases cs with
      | nil => simp at hhead
      | cons x rest => exact ⟨rest, by rw [Option.some_inj.mp hhead]⟩
    have hd := (R.held d List.mem_cons_self).1
    -- The link itself was accepted under the capability it cites.
    obtain ⟨c, record, a⟩ := authoriseEntry_delegated (I.authorised he) hw
    obtain rfl : d.hash = c := Option.some_inj.mp (hc.symm.trans a.cites)
    have hrecord : record = recordOf d := by
      have := a.record_eq
      rw [hd] at this
      rw [recordOf, this, Option.getD_some]
    have htype := I.capability_action hr he hcap
    have hcover : Covers d (payloadValue e.toHashedEntry) := by
      refine checkLinks_eq_ok (a.links (by rw [htype]; decide)) hd ?_
      rw [← R.hashes]
      exact List.mem_map_of_mem List.mem_cons_self
    have hlink : Delegates E o e d := by
      refine ⟨a.cites, I.authorised he, hrecord ▸ a.grantee, ?_⟩
      obtain ⟨action, hact, hmem⟩ := hcover.action
      have : coveringAction (payloadValue e.toHashedEntry) = some "library.grant_capability" := by
        rw [coveringAction, htype]
        rfl
      exact Option.some_inj.mp (hact.symm.trans this) ▸ hmem
    refine ⟨e :: d :: rest, ?_, ⟨e, rfl, rfl⟩, ?_, ?_, ?_⟩
    · rw [List.map_cons, R.hashes]
    · intro x hx
      rcases List.mem_cons.mp hx with rfl | hx
      · exact ⟨he, hcap⟩
      · exact R.held x hx
    · intro x hx
      exact R.root x (by simpa using hx)
    · exact List.isChain_cons_cons.mpr ⟨hlink, R.links⟩

/-! ## Soundness -/

/-- The capabilities `cs` let the entry `e` in. -/
structure DelegationChain (E : Environment) (o : Oplog) (e : VerifiedEntry) (cs : List VerifiedEntry) :
    Prop where
  length : 1 ≤ cs.length ∧ cs.length ≤ 8
  held : ∀ c ∈ cs, o.Holds c ∧ c.operation.isCapability = true ∧ o.Past e.next c.hash
  root : ∀ c, cs.getLast? = some c → isWriteListKey o c.signer = true
  grantee : ∀ c, cs.head? = some c → granteeMatches ((recordOf c).get "grantee") e.signer = true
  links : cs.IsChain (Delegates E o)
  unrevoked : ∀ c ∈ cs, ∀ r ∈ effectiveRevocations o (pastRevocations o e.next),
    revokedCapability r ≠ c.hash
  covers : e.operation.isRevocation = false → ∀ c ∈ cs, Covers c (payloadValue e.toHashedEntry)

theorem Indexed.delegationChain (I : Indexed E o) {h : Hash} {e : VerifiedEntry}
    (he : o.entries.get h = some e) (hw : isWriteListKey o e.signer = false) :
    e.operation.op? = some .put ∧ ∃ cs, DelegationChain E o e cs := by
  obtain ⟨c, record, a⟩ := authoriseEntry_delegated (I.authorised he) hw
  obtain ⟨⟨ce, hce⟩, hpast⟩ := I.grounded.inCausalPast_iff.mp a.past
  have hcap : ce.operation.isCapability = true := by
    rw [← isCapability_iff_capabilityRecord, ← hce, a.record_eq, Option.isSome_some]
  obtain ⟨cs, R⟩ := capabilityChain_rooted I a.recordstore hce hcap
  have hmem : ∀ x ∈ cs, x.hash ∈ capabilityChain o (some c) := fun x hx => by
    rw [← R.hashes]
    exact List.mem_map_of_mem hx
  have hlength : cs.length = (capabilityChain o (some c)).length := by
    rw [← R.hashes, List.length_map]
  refine ⟨a.put, cs, ⟨?_, ?_⟩, ?_, R.root, ?_, R.links, ?_, ?_⟩
  · obtain ⟨x, hx, -⟩ := R.first
    exact List.length_pos_of_mem (List.mem_of_head? hx)
  · exact hlength ▸ a.length_le
  · intro x hx
    obtain ⟨hh, hxcap⟩ := R.held x hx
    exact ⟨hh, hxcap, ((I.grounded.mem_chain hce hcap) _ (hmem x hx)).2 _ hpast⟩
  · intro x hx
    obtain ⟨y, hy, hyc⟩ := R.first
    obtain rfl : x = y := Option.some_inj.mp (hx.symm.trans hy)
    have hrecord : record = recordOf x := by
      have := a.record_eq
      rw [← hyc, (R.held x (List.mem_of_head? hx)).1] at this
      rw [recordOf, this, Option.getD_some]
    exact hrecord ▸ a.grantee
  · intro x hx r hr heq
    exact a.unrevoked r hr (heq ▸ hmem x hx)
  · intro hnot x hx
    refine checkLinks_eq_ok (a.links fun ht => ?_) (R.held x hx).1 (hmem x hx)
    have hvalid := I.validated he a.recordstore
    rw [hw] at hvalid
    obtain ⟨v, hv⟩ : ∃ v, valueFields e.entry.payload = some v := by
      cases hv : valueFields e.entry.payload with
      | none => simp [payloadValue, hv, Fields.string?, Fields.get] at ht
      | some v => exact ⟨v, rfl⟩
    rw [payloadValue, hv, Option.getD_some] at ht
    simp [validateOperation_revocation hvalid a.put hv ht] at hnot

/-- Every delegated entry of a reachable oplog rests on a delegation chain, and walking any
chain there ends. Only a recordstore ever holds such an entry. -/
theorem delegation_sound (E : Environment) (chain : ResolvedAcChain) (o : Oplog)
    (ho : Reachable E chain o) :
    (∀ h e, o.entries.get h = some e → isWriteListKey o e.signer = false →
      e.operation.op? = some .put ∧ ∃ cs, DelegationChain E o e cs) ∧
    ∀ id, ∃ l, ∀ n, o.entries.size + 1 ≤ n → capabilityChainLoop o n id = some l :=
  ⟨fun _ _ he hw => (reachable_sound ho).indexed.delegationChain he hw,
    fun id => ⟨capabilityChain o id, fun _ hn =>
      (reachable_sound ho).indexed.grounded.capabilityChainLoop_eq id hn⟩⟩

open Sample in
/-- The guest's own grant rests on the owner's. -/
theorem delegation_sound_guest : ∃ o, Reachable clockEnvironment libraryA o ∧
    o.entries.get second.hash = some second ∧ isWriteListKey o second.signer = false ∧
    ∃ cs, DelegationChain clockEnvironment o second cs := by
  have ho : Reachable clockEnvironment libraryA withSecond := reachable_grow withFirst_reachable second
  have hheld : withSecond.entries.get second.hash = some second := by
    rw [withSecond, joins_second.get_grow, if_pos rfl]
  exact ⟨withSecond, ho, hheld, second_signer ho,
    ((delegation_sound clockEnvironment libraryA withSecond ho).1 _ _ hheld (second_signer ho)).2⟩

end RecordNode
