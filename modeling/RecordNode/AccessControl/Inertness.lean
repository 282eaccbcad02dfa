import RecordNode.AccessControl.Delegation

/-! # Inertness along a chain

An entry is judged by its own chain and by the causal past of each effective
revocation, never by the verdict on the capability it cites. The two agree all the
same: the chain of a capability lies inside every chain it is on, and whatever a
revocation's past holds, it holds with everything below. -/

namespace RecordNode

open Foundation Relation

variable {E : Environment} {chain : ResolvedAcChain} {o : Oplog}

theorem Operation.isRevocation_of_isCapability {operation : Operation} (h : operation.isCapability = true) :
    operation.isRevocation = false := by
  unfold isCapability at h
  split at h
  · rfl
  · exact absurd h (by decide)

/-- The chain above a delegated capability is part of every chain the capability is on. -/
theorem Grounded.chain_above_subset (g : Grounded o) {h : Hash} {e c : VerifiedEntry}
    (he : o.entries.get h = some e) (hcap : e.operation.isCapability = true) (hc : o.Holds c)
    (hw : isWriteListKey o c.signer = false) (hm : c.hash ∈ capabilityChain o (some h)) :
    capabilityChain o c.operation.capabilityId ⊆ capabilityChain o (some h) := by
  revert hm
  refine g.chain_induction (motive := fun _ l => c.hash ∈ l → capabilityChain o c.operation.capabilityId ⊆ l) ?_ ?_
    he hcap
  · intro h e he _ hroot hm
    rw [← List.mem_singleton.mp hm, hc] at he
    rw [Option.some_inj.mp he, hroot] at hw
    exact absurd hw (by decide)
  · intro h e d he _ _ hd _ ih hm
    rcases List.mem_cons.mp hm with heq | hm
    · rw [← heq, hc] at he
      rw [Option.some_inj.mp he, hd]
      exact List.subset_cons_self _ _
    · exact fun x hx => List.mem_cons_of_mem _ (ih hm hx)

/-- A delegated entry with a capability on its chain has the capability in its past, and depends on
everything the capability depends on. -/
theorem Grounded.depends_through (g : Grounded o) {c e : VerifiedEntry} (hc : o.Holds c)
    (hcw : isWriteListKey o c.signer = false) (he : o.Holds e) (hew : isWriteListKey o e.signer = false)
    (hm : c.hash ∈ capabilityChain o e.operation.capabilityId) :
    o.Past e.next c.hash ∧ dependencies o c ⊆ dependencies o e := by
  obtain ⟨x, xe, hx, hxe, hxcap, hpast⟩ := g.cited e.hash e he hew
  rw [hx] at hm
  refine ⟨(g.mem_chain hxe hxcap _ hm).2 _ hpast, ?_⟩
  simp only [dependencies, hcw, hew, Bool.false_eq_true, if_false, hx]
  exact g.chain_above_subset hxe hxcap hc hcw hm

/-- What makes a capability inert makes every entry that depends on it inert. -/
theorem Grounded.inertUnder_through (g : Grounded o) {effective : List VerifiedEntry} {c e : VerifiedEntry}
    (hc : o.Holds c) (he : o.Holds e) (hew : isWriteListKey o e.signer = false)
    (hm : c.hash ∈ capabilityChain o e.operation.capabilityId) (hinert : inertUnder o c effective = true) :
    inertUnder o e effective = true := by
  simp only [inertUnder, Bool.and_eq_true, List.any_eq_true, Bool.not_eq_true', List.contains_iff_mem,
    List.isEmpty_eq_false_iff] at hinert ⊢
  obtain ⟨hne, r, hr, hrevoked, hout⟩ := hinert
  have hcw : isWriteListKey o c.signer = false := by
    cases hw : isWriteListKey o c.signer with
    | true => simp [dependencies, hw] at hne
    | false => rfl
  obtain ⟨hpast, hsub⟩ := g.depends_through hc hcw he hew hm
  refine ⟨List.ne_nil_of_mem (hsub hrevoked), r, hr, hsub hrevoked, ?_⟩
  -- A revocation that has seen the entry has seen the capability in the entry's past.
  rw [← Bool.not_eq_true] at hout ⊢
  intro hin
  obtain ⟨-, hseen⟩ := g.inCausalPast_iff.mp hin
  exact hout (g.inCausalPast_iff.mpr ⟨⟨c, hc⟩, hseen.trans he hpast⟩)

theorem subset_foldl_judgeRevocation (o : Oplog) (delegated effective : List VerifiedEntry) :
    effective ⊆ delegated.foldl (judgeRevocation o) effective := by
  induction delegated generalizing effective with
  | nil => exact fun r hr => hr
  | cons x rest ih =>
    intro r hr
    refine ih _ ?_
    unfold judgeRevocation
    split
    · exact List.mem_append_left _ hr
    · exact hr

/-- What a write-list key revokes is effective. -/
theorem mem_effectiveRevocations_of_writer {revocations : List VerifiedEntry} {r : VerifiedEntry} (hr : r ∈ revocations)
    (hw : isWriteListKey o r.signer = true) : r ∈ effectiveRevocations o revocations :=
  subset_foldl_judgeRevocation o _ _ (List.mem_filter.mpr ⟨hr, hw⟩)

namespace Sample

theorem withSecond_reachable : Reachable clockEnvironment libraryA withSecond := reachable_grow withFirst_reachable second

theorem second_clock : maxTime withFirst [first.hash] + 1 = 2 := by
  rw [maxTime_singleton, clockOf_eq withFirst_first, first_time]

theorem second_time : second.time = 2 := by rw [second, time_signedOn, second_clock]

theorem second_hash : second.hash = formatProtocolCid (mark 2 'c') := hash_signedOn second_clock (by decide)

theorem get_withSecond (h : Hash) : withSecond.entries.get h =
    if h = second.hash then some second else if h = first.hash then some first else none := by
  rw [withSecond, joins_second.get_grow, get_withFirst]

theorem first_ne_second : first.hash ≠ second.hash := by
  rw [first_hash, second_hash]
  exact mark_ne (by decide)

theorem withSecond_first : withSecond.entries.get first.hash = some first := by
  rw [get_withSecond, if_neg first_ne_second, if_pos rfl]

theorem withSecond_second : withSecond.entries.get second.hash = some second := by
  rw [get_withSecond, if_pos rfl]

theorem withSecond_revocations : withSecond.revocations.values = [] := by
  rw [withSecond, joins_second.revocations_grow rfl, withFirst_revocations]

theorem withSecond_chain : capabilityChain withSecond (some second.hash) = [second.hash, first.hash] := by
  rw [capabilityChain_link withSecond_reachable withSecond_second rfl (second_signer withSecond_reachable)]
  change second.hash :: capabilityChain withSecond (some first.hash) = _
  rw [capabilityChain_root withSecond_reachable withSecond_first rfl (first_signer withSecond_reachable)]

/-- The guest's grant under its own. -/
def third : VerifiedEntry :=
  ⟨signedOn clockEnvironment withSecond (grantPayload (some second.hash)) [second.hash] guest,
    grantOperation (some second.hash)⟩

theorem third_clock : maxTime withSecond [second.hash] + 1 = 3 := by
  rw [maxTime_singleton, clockOf_eq withSecond_second, second_time]

theorem third_time : third.time = 3 := by rw [third, time_signedOn, third_clock]

theorem third_hash : third.hash = formatProtocolCid (mark 3 'c') := hash_signedOn third_clock (by decide)

theorem joins_third : Joins clockEnvironment withSecond third := by
  refine joins_guest withSecond_reachable withSecond_second (by rw [second_time]; decide) withSecond_revocations ?_ rfl ?_ ?_
  · rw [withSecond_chain]
    exact Nat.le_add_left 2 6
  · rw [withSecond_chain]
    intro h hm
    rcases List.mem_cons.mp hm with rfl | hm
    · rw [withSecond_second]
      rfl
    · rw [List.mem_singleton.mp hm, withSecond_first]
      rfl
  · rw [second_time]
    rintro ⟨e, he⟩
    rw [get_withSecond, second_hash, if_neg (mark_ne (by decide)), first_hash, if_neg (mark_ne (by decide))] at he
    simp at he

def withThird : Oplog := grow clockEnvironment withSecond third

theorem withThird_reachable : Reachable clockEnvironment libraryA withThird := reachable_grow withSecond_reachable third

theorem get_withThird (h : Hash) : withThird.entries.get h =
    if h = third.hash then some third else withSecond.entries.get h :=
  joins_third.get_grow h

theorem hash_ne_of_mark {d e : VerifiedEntry} {t u : ℕ} {a b : Char} (hd : d.hash = formatProtocolCid (mark t a))
    (he : e.hash = formatProtocolCid (mark u b)) (h : (t < 256 ∧ u < 256 ∧ a.toNat < 256 ∧ b.toNat < 256) ∧ (t ≠ u ∨ a ≠ b)) :
    d.hash ≠ e.hash := by
  rw [hd, he]
  exact mark_ne h

theorem first_ne_third : first.hash ≠ third.hash := hash_ne_of_mark first_hash third_hash (by decide)

theorem second_ne_third : second.hash ≠ third.hash := hash_ne_of_mark second_hash third_hash (by decide)

theorem withThird_first : withThird.entries.get first.hash = some first := by
  rw [get_withThird, if_neg first_ne_third, withSecond_first]

/-- The owner takes the first grant back, having seen nothing else. -/
def revocation : VerifiedEntry :=
  ⟨signedOn clockEnvironment withThird (accessPayload clockEnvironment (revocationValue first.hash) none) [first.hash] owner,
    .access .revocation (clockEnvironment.recordKey (.record (revocationValue first.hash))) (revocationValue first.hash) none⟩

theorem maxTime_first : maxTime withThird [first.hash] = 1 := by
  rw [maxTime_singleton, clockOf_eq withThird_first, first_time]

theorem revocation_clock : maxTime withThird [first.hash] + 1 = 2 := by rw [maxTime_first]

theorem revocation_time : revocation.time = 2 := by rw [revocation, time_signedOn, revocation_clock]

theorem revocation_hash : revocation.hash = formatProtocolCid (mark 2 'r') := hash_signedOn revocation_clock (by decide)

theorem first_ne_revocation : first.hash ≠ revocation.hash := hash_ne_of_mark first_hash revocation_hash (by decide)

theorem second_ne_revocation : second.hash ≠ revocation.hash := hash_ne_of_mark second_hash revocation_hash (by decide)

theorem third_ne_revocation : third.hash ≠ revocation.hash := hash_ne_of_mark third_hash revocation_hash (by decide)

theorem revocationValue_canonical (target : Hash) : (Value.record (revocationValue target)).Canonical := by
  have h1 : IsDouble 1 := by exact_mod_cast isDouble_natCast (n := 1) (by decide)
  refine .record _ (by simp [revocationValue]; decide) ?_
  simp only [revocationValue, List.forall_mem_cons]
  exact ⟨.number 1 h1, .string _, .string _, .number 1 h1, by simp⟩

theorem put_revocationValue_length {target : Hash} (ht : target.length ≤ 273) :
    (Plain.put (.record (revocationValue target))).length ≤ 5000 := by
  have hlen : ["v", "type", "revocation", "revokes", "timestamp"].map String.length = [1, 4, 10, 7, 9] := by decide
  simp only [List.map_cons, List.map_nil, List.cons.injEq, and_true] at hlen
  simp [revocationValue, Plain.put, Plain.putFields, Plain.putString_length, Plain.putInt, Plain.putNat_length, hlen]
  omega

theorem validate_revocation (w : Bool) (target : Hash) :
    validateOperation clockEnvironment .recordstore w (accessPayload clockEnvironment (revocationValue target) none) =
      .ok (.access .revocation (clockEnvironment.recordKey (.record (revocationValue target))) (revocationValue target)
        none) := by
  refine validate_accessPayload .revocation w rfl ?_
  have h1 : (revocationValue target).uint? "timestamp" = some 1 := by
    change (Value.number 1).asUint? = some 1
    decide
  have hv : (revocationValue target).isInt "v" 1 = true := by simp [revocationValue, Fields.isInt, Fields.get]
  have hrevokes : (revocationValue target).string? "revokes" = some target := rfl
  have hextra : hasExtraFields (revocationValue target) revocationFields = false := rfl
  simp [validateAccessRecord, require, revocationWellFormed, h1, hv, hrevokes, hextra]
  rfl

theorem joins_revocation : Joins clockEnvironment withThird revocation := by
  have hlength : first.hash.length ≤ 273 := formatProtocolCid_length_le _
  have hsize : (Plain.put (accessPayload clockEnvironment (revocationValue first.hash) none)).length ≤ 100000 := by
    have hpayload := @put_accessPayload_length (revocationValue first.hash) none (by simp)
    have hvalue := put_revocationValue_length hlength
    omega
  have hheld : ∀ p ∈ [first.hash], withThird.Has p := fun p hp =>
    List.mem_singleton.mp hp ▸ ⟨first, withThird_first⟩
  refine joins withThird_reachable (accessPayload_canonical (revocationValue_canonical _)) hsize hheld (Nat.le_add_left 1 7)
    (by rw [maxTime_first]; decide) (validate_revocation _ _)
    (authorise_owner (reachable_sound withThird_reachable).chain_eq _ _ _) ?_
  rw [maxTime_first]
  rintro ⟨e, he⟩
  change withThird.entries.get (formatProtocolCid (mark 2 'r')) = some e at he
  rw [get_withThird, third_hash, if_neg (mark_ne (by decide)), get_withSecond, second_hash, if_neg (mark_ne (by decide)),
    first_hash, if_neg (mark_ne (by decide))] at he
  simp at he

/-- Everything together. -/
def revoked : Oplog := grow clockEnvironment withThird revocation

theorem revoked_reachable : Reachable clockEnvironment libraryA revoked := reachable_grow withThird_reachable revocation

theorem get_revoked (h : Hash) : revoked.entries.get h =
    if h = revocation.hash then some revocation else withThird.entries.get h :=
  joins_revocation.get_grow h

theorem revoked_revocation : revoked.entries.get revocation.hash = some revocation := by rw [get_revoked, if_pos rfl]

theorem revoked_first : revoked.entries.get first.hash = some first := by
  rw [get_revoked, first_hash, revocation_hash, if_neg (mark_ne (by decide)), ← first_hash, withThird_first]

theorem revoked_second : revoked.entries.get second.hash = some second := by
  rw [get_revoked, second_hash, revocation_hash, if_neg (mark_ne (by decide)), ← second_hash, get_withThird,
    if_neg second_ne_third, withSecond_second]

theorem revoked_third : revoked.entries.get third.hash = some third := by
  rw [get_revoked, third_hash, revocation_hash, if_neg (mark_ne (by decide)), ← third_hash, get_withThird, if_pos rfl]

theorem held_revoked {h : Hash} {e : VerifiedEntry} (he : revoked.entries.get h = some e) :
    e = first ∨ e = second ∨ e = third ∨ e = revocation := by
  rw [get_revoked, get_withThird, get_withSecond] at he
  split at he
  · exact .inr (.inr (.inr (Option.some_inj.mp he).symm))
  · split at he
    · exact .inr (.inr (.inl (Option.some_inj.mp he).symm))
    · split at he
      · exact .inr (.inl (Option.some_inj.mp he).symm)
      · split at he
        · exact .inl (Option.some_inj.mp he).symm
        · simp at he

theorem third_signer : isWriteListKey revoked third.signer = false := by
  rw [isWriteListKey, (reachable_sound revoked_reachable).chain_eq]
  exact guest_no_writer

theorem revocation_effective : revocation ∈ effectiveEntries revoked := by
  have s := reachable_sound revoked_reachable
  have hsigner : isWriteListKey revoked revocation.signer = true := by
    rw [isWriteListKey, s.chain_eq]
    change [ownerKey].contains ownerKey = true
    simp
  have hlisted : revocation ∈ revoked.revocations.values :=
    (s.indexed.grounded.mem_revocations_values revocation).mpr ⟨revoked_revocation, rfl⟩
  have heffective : revocation.hash ∈ revoked.effective :=
    (s.settled.effective revocation.hash).mpr ⟨revocation, mem_effectiveRevocations_of_writer hlisted hsigner, rfl⟩
  exact List.mem_filterMap.mpr ⟨revocation.hash, (OrderedSet.mem_items _ _).mpr heffective, revoked_revocation⟩

/-- The revocation has not seen the second grant, which rests on what it takes back. -/
theorem second_inert : second.hash ∈ revoked.inert := by
  have s := reachable_sound revoked_reachable
  have hsigner := second_signer revoked_reachable
  have hchain : dependencies revoked second = [first.hash] := by
    rw [dependencies, hsigner]
    exact capabilityChain_root revoked_reachable revoked_first rfl (first_signer revoked_reachable)
  refine (s.settled.inert _).mpr ⟨second, revoked_second, hsigner, ?_⟩
  rw [s.isInert_iff revoked_second, if_neg (by decide)]
  simp only [inertUnder, hchain, List.isEmpty_cons, Bool.not_false, Bool.true_and, List.any_eq_true, Bool.and_eq_true,
    Bool.not_eq_true']
  have hrevokes : revokedCapability revocation = first.hash := rfl
  refine ⟨revocation, revocation_effective, by rw [hrevokes]; simp, ?_⟩
  rw [← Bool.not_eq_true, s.indexed.grounded.inCausalPast_iff]
  rintro ⟨-, start, hstart, hpath⟩
  rw [show revocation.next = [first.hash] from rfl, List.mem_singleton] at hstart
  subst hstart
  rcases ReflTransGen.cases_head hpath with heq | ⟨x, ⟨e, he, hm⟩, -⟩
  · exact first_ne_second heq
  · rw [revoked_first] at he
    obtain rfl := Option.some_inj.mp he
    exact absurd hm List.not_mem_nil

end Sample

end RecordNode
