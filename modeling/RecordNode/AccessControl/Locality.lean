import RecordNode.AccessControl.ChainWalk

/-! # Judging reads the causal past alone

Two oplogs of one chain that share a set of entries closed under `next` judge
everything inside that set alike: who is in whose past, capability chains, which
revocations are effective, and whether an entry on top of it is authorised. What
else either oplog holds never enters. -/

namespace RecordNode

open Foundation Relation

theorem any_congr_of_mem {α : Type*} {l : List α} {f g : α → Bool} (h : ∀ a ∈ l, f a = g a) :
    l.any f = l.any g := by
  induction l with
  | nil => rfl
  | cons a rest ih =>
    rw [List.any_cons, List.any_cons, h a List.mem_cons_self, ih fun b hb => h b (List.mem_cons_of_mem a hb)]

/-- Grounded oplogs over one chain that both hold the entries of a closed set. -/
structure AgreeOn (S : Set Hash) (o p : Oplog) : Prop where
  chain : o.chain = p.chain
  left : Grounded o
  right : Grounded p
  shared : ∀ h ∈ S, ∃ e, o.entries.get h = some e ∧ p.entries.get h = some e
  closed : ∀ h ∈ S, ∀ e, o.entries.get h = some e → ∀ q ∈ e.next, q ∈ S

namespace AgreeOn

variable {S : Set Hash} {o p : Oplog}

theorem get_eq (A : AgreeOn S o p) {h : Hash} (hh : h ∈ S) : o.entries.get h = p.entries.get h := by
  obtain ⟨e, ho, hp⟩ := A.shared h hh
  rw [ho, hp]

theorem symm (A : AgreeOn S o p) : AgreeOn S p o where
  chain := A.chain.symm
  left := A.right
  right := A.left
  shared h hh := by
    obtain ⟨e, ho, hp⟩ := A.shared h hh
    exact ⟨e, hp, ho⟩
  closed h hh e he := A.closed h hh e ((A.get_eq hh).trans he)

theorem isWriteListKey_eq (A : AgreeOn S o p) (key : String) :
    isWriteListKey o key = isWriteListKey p key := by
  rw [isWriteListKey, isWriteListKey, A.chain]

theorem mem_of_reach (A : AgreeOn S o p) {s h : Hash} (hs : s ∈ S) (hr : ReflTransGen o.Parent s h) :
    h ∈ S := by
  induction hr with
  | refl => exact hs
  | tail _ hp ih =>
    obtain ⟨e, he, hm⟩ := hp
    exact A.closed _ ih e he _ hm

theorem mem_of_past (A : AgreeOn S o p) {next : List Hash} {h : Hash} (hn : ∀ q ∈ next, q ∈ S)
    (hp : o.Past next h) : h ∈ S := by
  obtain ⟨s, hs, hr⟩ := hp
  exact A.mem_of_reach (hn s hs) hr

theorem past_mono (A : AgreeOn S o p) {next : List Hash} {h : Hash} (hn : ∀ q ∈ next, q ∈ S)
    (hp : o.Past next h) : p.Past next h := by
  obtain ⟨s, hs, hr⟩ := hp
  refine ⟨s, hs, ?_⟩
  have hsS := hn s hs
  clear hs
  induction hr with
  | refl => exact ReflTransGen.refl
  | tail hr hstep ih =>
    obtain ⟨e, he, hm⟩ := hstep
    exact ih.tail ⟨e, (A.get_eq (A.mem_of_reach hsS hr)).symm.trans he, hm⟩

theorem past_iff (A : AgreeOn S o p) {next : List Hash} {h : Hash} (hn : ∀ q ∈ next, q ∈ S) :
    o.Past next h ↔ p.Past next h :=
  ⟨A.past_mono hn, A.symm.past_mono hn⟩

theorem inCausalPast_eq (A : AgreeOn S o p) (h : Hash) {next : List Hash} (hn : ∀ q ∈ next, q ∈ S) :
    inCausalPast o.entries h next = inCausalPast p.entries h next := by
  rw [Bool.eq_iff_iff, A.left.inCausalPast_iff, A.right.inCausalPast_iff, A.past_iff hn]
  refine and_congr_left fun hp => ?_
  have hS := A.symm.mem_of_past hn hp
  rw [Oplog.Has, Oplog.Has, A.get_eq hS]

theorem mem_of_inCausalPast (A : AgreeOn S o p) {h : Hash} {next : List Hash} (hn : ∀ q ∈ next, q ∈ S)
    (hp : inCausalPast o.entries h next = true) : h ∈ S :=
  A.mem_of_past hn (A.left.inCausalPast_iff.mp hp).2

/-- The capability an entry of the set cites is in the set. -/
theorem cited_mem (A : AgreeOn S o p) {h : Hash} {e : VerifiedEntry} (hh : h ∈ S)
    (he : o.entries.get h = some e) (hw : isWriteListKey o e.signer = false) :
    ∃ c ∈ S, e.operation.capabilityId = some c := by
  obtain ⟨c, -, hc, -, -, hp⟩ := A.left.cited h e he hw
  exact ⟨c, A.mem_of_past (A.closed h hh e he) hp, hc⟩

theorem capabilityChain_eq (A : AgreeOn S o p) {h : Hash} (hh : h ∈ S) :
    capabilityChain o (some h) = capabilityChain p (some h) := by
  obtain ⟨e, he, hpe⟩ := A.shared h hh
  by_cases hcap : e.operation.isCapability = true
  · refine A.left.chain_induction
      (motive := fun h l => h ∈ S → l = capabilityChain p (some h)) ?_ ?_ he hcap hh
    · intro h e he hcap hw hh
      rw [A.right.capabilityChain_some, ← A.get_eq hh, he]
      simp [hcap, ← A.isWriteListKey_eq, hw]
    · intro h e c he hcap hw hc hp ih hh
      have hcS : c ∈ S := A.mem_of_past (A.closed h hh e he) hp
      rw [A.right.capabilityChain_some h, ← A.get_eq hh, he]
      simp [hcap, ← A.isWriteListKey_eq, hw, hc, ih hcS]
  · rw [A.left.capabilityChain_some, A.right.capabilityChain_some, he, hpe]
    simp [hcap]

theorem dependencies_eq (A : AgreeOn S o p) {h : Hash} {e : VerifiedEntry} (hh : h ∈ S)
    (he : o.entries.get h = some e) : dependencies o e = dependencies p e := by
  unfold dependencies
  rw [← A.isWriteListKey_eq]
  cases hw : isWriteListKey o e.signer with
  | true => rfl
  | false =>
    obtain ⟨c, hcS, hc⟩ := A.cited_mem hh he hw
    simp [hc, A.capabilityChain_eq hcS]

/-- The effective revocations at hand lie in the set. -/
def Inside (S : Set Hash) (o : Oplog) (l : List VerifiedEntry) : Prop :=
  ∀ r ∈ l, r.hash ∈ S ∧ o.entries.get r.hash = some r

theorem inertUnder_eq (A : AgreeOn S o p) {h : Hash} {e : VerifiedEntry} (hh : h ∈ S)
    (he : o.entries.get h = some e) {l m : List VerifiedEntry} (hl : Inside S o l)
    (hlm : l.Perm m) : inertUnder o e l = inertUnder p e m := by
  unfold inertUnder
  dsimp only
  rw [A.dependencies_eq hh he, hlm.any_eq]
  congr 1
  refine any_congr_of_mem fun r hr => ?_
  obtain ⟨hrS, hro⟩ := hl r (hlm.mem_iff.mpr hr)
  rw [A.inCausalPast_eq e.hash (A.closed r.hash hrS r hro)]

theorem selfReferential_eq (A : AgreeOn S o p) {r : VerifiedEntry} (hr : r.hash ∈ S)
    (hro : o.entries.get r.hash = some r) (hw : isWriteListKey o r.signer = false) :
    selfReferential o r = selfReferential p r := by
  obtain ⟨c, hcS, hc⟩ := A.cited_mem hr hro hw
  rw [selfReferential, selfReferential, hc, A.capabilityChain_eq hcS]

end AgreeOn

theorem judgeRevocation_subset (o : Oplog) (delegated effective : List VerifiedEntry) :
    ∀ r ∈ delegated.foldl (judgeRevocation o) effective, r ∈ effective ∨ r ∈ delegated := by
  induction delegated generalizing effective with
  | nil => exact fun r hr => Or.inl hr
  | cons x rest ih =>
    intro r hr
    rcases ih _ r hr with hr | hr
    · unfold judgeRevocation at hr
      split at hr
      · rcases List.mem_append.mp hr with hr | hr
        · exact Or.inl hr
        · exact Or.inr (List.mem_singleton.mp hr ▸ List.mem_cons_self)
      · exact Or.inl hr
    · exact Or.inr (List.mem_cons_of_mem x hr)

/-- Only listed revocations become effective. -/
theorem mem_of_mem_effectiveRevocations {o : Oplog} {l : List VerifiedEntry} {r : VerifiedEntry}
    (h : r ∈ effectiveRevocations o l) : r ∈ l := by
  rcases judgeRevocation_subset o _ _ r h with hr | hr
  · exact (List.mem_filter.mp hr).1
  · exact (List.mem_filter.mp ((mem_sortBy _ _ r).mp hr)).1

namespace AgreeOn

variable {S : Set Hash} {o p : Oplog}

theorem foldl_judgeRevocation_perm (A : AgreeOn S o p) (delegated : List VerifiedEntry)
    (hd : Inside S o delegated) (hw : ∀ r ∈ delegated, isWriteListKey o r.signer = false)
    {l m : List VerifiedEntry} (hl : Inside S o l) (hlm : l.Perm m) :
    (delegated.foldl (judgeRevocation o) l).Perm (delegated.foldl (judgeRevocation p) m) := by
  induction delegated generalizing l m with
  | nil => exact hlm
  | cons r rest ih =>
    obtain ⟨hrS, hro⟩ := hd r List.mem_cons_self
    have hrest : Inside S o rest := fun x hx => hd x (List.mem_cons_of_mem r hx)
    have hwrest := fun x hx => hw x (List.mem_cons_of_mem r hx)
    rw [List.foldl_cons, List.foldl_cons]
    unfold judgeRevocation
    rw [← A.selfReferential_eq hrS hro (hw r List.mem_cons_self), ← A.inertUnder_eq hrS hro hl hlm]
    split
    · refine ih hrest hwrest (fun x hx => ?_) (hlm.append_right [r])
      rcases List.mem_append.mp hx with hx | hx
      · exact hl x hx
      · exact List.mem_singleton.mp hx ▸ ⟨hrS, hro⟩
    · exact ih hrest hwrest hl hlm

/-- The effective set over shared revocations is the same in both oplogs, in whatever
order each lists them. -/
theorem effectiveRevocations_perm (A : AgreeOn S o p) {l m : List VerifiedEntry}
    (hl : Inside S o l) (hlm : l.Perm m) :
    (effectiveRevocations o l).Perm (effectiveRevocations p m) := by
  have hpart : ∀ f : VerifiedEntry → Bool, Inside S o (l.filter f) := fun f r hr =>
    hl r (List.mem_filter.mp hr).1
  unfold effectiveRevocations
  simp only [← A.isWriteListKey_eq]
  have hinj : HashInjective (l.filter fun r => !isWriteListKey o r.signer) := fun a ha b hb hab => by
    have ha' := (hpart _ a ha).2
    have hb' := (hpart _ b hb).2
    rw [hab] at ha'
    exact Option.some_inj.mp (ha'.symm.trans hb')
  rw [← sortBy_compareRevocations_eq hinj (hlm.filter _)]
  apply A.foldl_judgeRevocation_perm
  · exact fun r hr => hpart _ r ((mem_sortBy _ _ r).mp hr)
  · intro r hr
    simpa using (List.mem_filter.mp ((mem_sortBy _ _ r).mp hr)).2
  · exact hpart _
  · exact hlm.filter _

end AgreeOn

/-- The values of a revocation index are distinct: each has its own hash. -/
theorem Grounded.revocations_values_nodup {o : Oplog} (g : Grounded o) : o.revocations.values.Nodup := by
  have hkey : o.revocations.values.map (fun e : VerifiedEntry => e.hash) = o.revocations.keys := by
    rw [OrderedMap.values, OrderedMap.keys, List.map_map]
    refine List.map_congr_left fun q hq => ?_
    have hget := (o.revocations.get_eq_some_iff q.1 q.2).mpr hq
    exact g.keyed q.1 q.2 ((g.revocations q.1 q.2).mp hget).1
  refine List.Nodup.of_map (fun e : VerifiedEntry => e.hash) ?_
  rw [hkey]
  exact o.revocations.keys_nodup

theorem Grounded.mem_revocations_values {o : Oplog} (g : Grounded o) (r : VerifiedEntry) :
    r ∈ o.revocations.values ↔ o.Holds r ∧ r.operation.isRevocation = true := by
  rw [OrderedMap.mem_values_iff]
  constructor
  · rintro ⟨k, hk⟩
    obtain ⟨he, hrev⟩ := (g.revocations k r).mp hk
    have := g.keyed k r he
    exact ⟨by rw [Oplog.Holds, this, he], hrev⟩
  · rintro ⟨hh, hrev⟩
    exact ⟨r.hash, (g.revocations r.hash r).mpr ⟨hh, hrev⟩⟩

theorem Grounded.mem_pastRevocations {o : Oplog} (g : Grounded o) {next : List Hash} (r : VerifiedEntry) :
    r ∈ pastRevocations o next ↔ o.Holds r ∧ r.operation.isRevocation = true ∧ o.Past next r.hash := by
  rw [pastRevocations, List.mem_filter, g.mem_revocations_values, g.inCausalPast_iff]
  constructor
  · rintro ⟨⟨hh, hrev⟩, -, hp⟩
    exact ⟨hh, hrev, hp⟩
  · rintro ⟨hh, hrev, hp⟩
    exact ⟨⟨hh, hrev⟩, ⟨r, hh⟩, hp⟩

namespace AgreeOn

variable {S : Set Hash} {o p : Oplog}

theorem pastRevocations_perm (A : AgreeOn S o p) {next : List Hash} (hn : ∀ q ∈ next, q ∈ S) :
    (pastRevocations o next).Perm (pastRevocations p next) := by
  refine (List.perm_ext_iff_of_nodup (A.left.revocations_values_nodup.filter _)
    (A.right.revocations_values_nodup.filter _)).mpr fun r => ?_
  change r ∈ pastRevocations o next ↔ r ∈ pastRevocations p next
  rw [A.left.mem_pastRevocations, A.right.mem_pastRevocations, ← A.past_iff hn]
  constructor
  · rintro ⟨hh, hrev, hp⟩
    exact ⟨(A.get_eq (A.mem_of_past hn hp)).symm.trans hh, hrev, hp⟩
  · rintro ⟨hh, hrev, hp⟩
    exact ⟨(A.get_eq (A.mem_of_past hn hp)).trans hh, hrev, hp⟩

theorem pastRevocations_inside (A : AgreeOn S o p) {next : List Hash} (hn : ∀ q ∈ next, q ∈ S) :
    Inside S o (pastRevocations o next) := by
  intro r hr
  obtain ⟨hh, -, hp⟩ := (A.left.mem_pastRevocations r).mp hr
  exact ⟨A.mem_of_past hn hp, hh⟩

theorem mem_chain (A : AgreeOn S o p) {h : Hash} (hh : h ∈ S) :
    ∀ x ∈ capabilityChain o (some h), x ∈ S := by
  intro x hx
  obtain ⟨e, he, -⟩ := A.shared h hh
  by_cases hcap : e.operation.isCapability = true
  · have hp := ((A.left.mem_chain he hcap) x hx).2 [h] (Oplog.past_of_mem List.mem_cons_self)
    exact A.mem_of_past (fun q hq => List.mem_singleton.mp hq ▸ hh) hp
  · rw [A.left.capabilityChain_some, he] at hx
    simp [hcap] at hx

theorem checkLinks_eq (A : AgreeOn S o p) (E : Environment) (value : Fields) (l : List Hash)
    (hl : ∀ x ∈ l, x ∈ S) : checkLinks E o value l = checkLinks E p value l := by
  induction l with
  | nil => rfl
  | cons x rest ih =>
    have hx : checkLink E o value x = checkLink E p value x := by
      rw [checkLink, checkLink, A.get_eq (hl x List.mem_cons_self)]
    rw [checkLinks, checkLinks, hx, ih fun y hy => hl y (List.mem_cons_of_mem x hy)]

theorem revocationInScope_eq (A : AgreeOn S o p) (key : String) {next : List Hash}
    (hn : ∀ q ∈ next, q ∈ S) (target : Hash) :
    revocationInScope o key next target = revocationInScope p key next target := by
  unfold revocationInScope
  rw [← A.inCausalPast_eq target hn]
  cases hp : inCausalPast o.entries target next with
  | false => simp
  | true =>
    have hS := A.mem_of_inCausalPast hn hp
    rw [A.get_eq hS, ← A.capabilityChain_eq hS]
    congr 1
    exact any_congr_of_mem fun x hx => by rw [A.get_eq (A.mem_chain hS x hx)]

/-- A chain is revoked in one oplog's past exactly when it is in the other's. -/
theorem find_revoked_isSome_eq (A : AgreeOn S o p) {next : List Hash} (hn : ∀ q ∈ next, q ∈ S)
    (test : VerifiedEntry → Bool) :
    ((effectiveRevocations o (pastRevocations o next)).find? test).isSome =
      ((effectiveRevocations p (pastRevocations p next)).find? test).isSome := by
  have hperm := A.effectiveRevocations_perm (A.pastRevocations_inside hn) (A.pastRevocations_perm hn)
  rw [Bool.eq_iff_iff, List.find?_isSome, List.find?_isSome]
  simp only [hperm.mem_iff]

/-- Authorisation on top of a shared closed set: same verdict, same error code. -/
theorem authoriseEntry_verdict (A : AgreeOn S o p) (E : Environment) (hashed : HashedEntry)
    (operation : Operation) (hn : ∀ q ∈ hashed.entry.next, q ∈ S) :
    (authoriseEntry E o hashed operation).verdict = (authoriseEntry E p hashed operation).verdict := by
  unfold authoriseEntry
  simp only [← A.isWriteListKey_eq, ← A.chain]
  split
  · rfl
  split
  · rfl
  split
  case h_2 => rfl
  case h_1 capabilityId _ _ =>
    rw [← A.inCausalPast_eq capabilityId hn]
    cases hp : inCausalPast o.entries capabilityId hashed.entry.next with
    | false =>
      -- Whatever either oplog stores under that hash, the write is refused alike.
      cases capabilityRecord (o.entries.get capabilityId) <;>
        cases capabilityRecord (p.entries.get capabilityId) <;> rfl
    | true =>
      have hS := A.mem_of_inCausalPast hn hp
      rw [← A.get_eq hS, ← A.capabilityChain_eq hS, ← A.revocationInScope_eq _ hn,
        ← A.checkLinks_eq E _ _ (A.mem_chain hS)]
      cases capabilityRecord (o.entries.get capabilityId) with
      | none => rfl
      | some record =>
        dsimp only
        split
        · rfl
        split
        · rfl
        split
        · rfl
        have hfind := A.find_revoked_isSome_eq hn fun revocation =>
          (capabilityChain o (some capabilityId)).contains (revokedCapability revocation)
        revert hfind
        cases (effectiveRevocations o (pastRevocations o hashed.entry.next)).find? _ <;>
          cases (effectiveRevocations p (pastRevocations p hashed.entry.next)).find? _ <;>
            simp [Checked.verdict, refuse, Except.mapError]

end AgreeOn

end RecordNode
