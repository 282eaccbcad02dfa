import RecordNode.Oplog.Indexed

/-! # The access state and the current state are exact

`settle` recomputes only what a batch can have changed. It still lands on the
definition: the effective set is that of all held revocations, the inert set that
of all delegated entries, and the current entry of every key the winner among all
its entries that are not inert. -/

namespace RecordNode

open Foundation

variable {E : Environment}

/-- Two oplogs that differ at most in the access state and the current state. -/
structure SameBase (o p : Oplog) : Prop where
  chain : p.chain = o.chain
  entries : p.entries = o.entries
  heads : p.heads = o.heads
  referenced : p.referenced = o.referenced
  keyEntries : p.keyEntries = o.keyEntries
  capabilities : p.capabilities = o.capabilities
  revocations : p.revocations = o.revocations
  delegated : p.delegated = o.delegated

namespace SameBase

variable {o p q : Oplog}

theorem refl (o : Oplog) : SameBase o o := ⟨rfl, rfl, rfl, rfl, rfl, rfl, rfl, rfl⟩

theorem trans (a : SameBase o p) (b : SameBase p q) : SameBase o q where
  chain := b.chain.trans a.chain
  entries := b.entries.trans a.entries
  heads := b.heads.trans a.heads
  referenced := b.referenced.trans a.referenced
  keyEntries := b.keyEntries.trans a.keyEntries
  capabilities := b.capabilities.trans a.capabilities
  revocations := b.revocations.trans a.revocations
  delegated := b.delegated.trans a.delegated

theorem has_iff (b : SameBase o p) (h : Hash) : p.Has h ↔ o.Has h := by
  rw [Oplog.Has, Oplog.Has, b.entries]

theorem past_iff (b : SameBase o p) (next : List Hash) (h : Hash) : p.Past next h ↔ o.Past next h := by
  have hparent : p.Parent = o.Parent := by
    funext x y
    rw [Oplog.Parent, Oplog.Parent, b.entries]
  rw [Oplog.Past, Oplog.Past, hparent]

theorem isWriteListKey_eq (b : SameBase o p) (key : String) : isWriteListKey p key = isWriteListKey o key := by
  rw [isWriteListKey, isWriteListKey, b.chain]

theorem grounded (b : SameBase o p) (g : Grounded o) : Grounded p where
  keyed h e he := g.keyed h e (b.entries ▸ he)
  closed h e he q hq := (b.has_iff q).mpr (g.closed h e (b.entries ▸ he) q hq)
  older h e he q hq x hx := g.older h e (b.entries ▸ he) q hq x (b.entries ▸ hx)
  cited h e he hw := by
    obtain ⟨c, ce, hc, hce, hcap, hp⟩ := g.cited h e (b.entries ▸ he) (b.isWriteListKey_eq _ ▸ hw)
    exact ⟨c, ce, hc, b.entries ▸ hce, hcap, (b.past_iff _ _).mpr hp⟩
  revocations h e := by rw [b.revocations, b.entries, g.revocations]

theorem agreeOn (b : SameBase o p) (g : Grounded o) : AgreeOn o.Has o p where
  chain := b.chain.symm
  left := g
  right := b.grounded g
  shared h hh := by
    obtain ⟨e, he⟩ := hh
    exact ⟨e, he, by rw [b.entries, he]⟩
  closed h _ e he q hq := g.closed h e he q hq

theorem indexed (b : SameBase o p) (I : Indexed E o) : Indexed E p where
  grounded := b.grounded I.grounded
  verified h e he := by
    have ho : o.entries.get h = some e := b.entries ▸ he
    exact (b.agreeOn I.grounded).verifyEntry_ok (I.grounded.closed h e ho) (I.verified h e ho)
  referenced h := by rw [b.referenced, I.referenced, b.entries]
  heads h := by rw [b.heads, I.heads, b.has_iff, b.entries]
  keyEntries k h := by rw [b.keyEntries, I.keyEntries, b.entries]
  capabilities h e := by rw [b.capabilities, I.capabilities, b.entries]
  delegated h := by simp only [b.delegated, I.delegated, b.entries, b.isWriteListKey_eq]

/-- Judging an entry inert does not read the inert set or the current state. -/
theorem isInert_eq (b : SameBase o p) (g : Grounded o) (heff : p.effective = o.effective)
    {e : VerifiedEntry} (he : o.entries.get e.hash = some e) {l : List VerifiedEntry}
    (hl : AgreeOn.Inside o.Has o l) : isInert p l e = isInert o l e := by
  rw [isInert, isInert, b.revocations, heff,
    (b.agreeOn g).inertUnder_eq ⟨e, he⟩ he hl (List.Perm.refl l)]

end SameBase

/-- The entry is held, is keyed under `k`, and is not inert. -/
def Competes (E : Environment) (o : Oplog) (k : String) (e : VerifiedEntry) : Prop :=
  o.Holds e ∧ k ∈ e.stateKeys E ∧ e.hash ∉ o.inert

structure Settled (E : Environment) (o : Oplog) : Prop where
  effective : ∀ h, h ∈ o.effective ↔ ∃ r ∈ effectiveRevocations o o.revocations.values, r.hash = h
  inert : ∀ h, h ∈ o.inert ↔ ∃ e, o.entries.get h = some e ∧ isWriteListKey o e.signer = false ∧
    isInert o (effectiveEntries o) e = true
  current : ∀ k, o.current.get k = resolveCurrentState (candidates o k)

theorem createOplog_settled (chain : ResolvedAcChain) : Settled E (createOplog chain) where
  effective h := by simp [createOplog, effectiveRevocations, OrderedMap.values, OrderedMap.empty, sortBy]
  inert h := by simp [createOplog]
  current k := by simp [createOplog, candidates, resolveCurrentState, firstLeast]

theorem Indexed.mem_candidates {o : Oplog} (I : Indexed E o) (k : String) (e : VerifiedEntry) :
    e ∈ candidates o k ↔ Competes E o k e := by
  have hmem : ∀ h, h ∈ ((o.keyEntries.get k).map OrderedSet.items).getD [] ↔
      ∃ s, o.keyEntries.get k = some s ∧ h ∈ s := fun h => by
    cases o.keyEntries.get k <;> simp [OrderedSet.mem_items]
  simp only [candidates, List.mem_filterMap, List.mem_filter, hmem, I.keyEntries, Competes,
    Oplog.Holds, Bool.not_eq_true', ← Bool.not_eq_true, OrderedSet.has_iff]
  constructor
  · rintro ⟨h, ⟨⟨x, hx, hk⟩, hn⟩, he⟩
    obtain rfl : x = e := Option.some_inj.mp (hx.symm.trans he)
    obtain rfl := I.grounded.keyed h x hx
    exact ⟨hx, hk, hn⟩
  · rintro ⟨he, hk, hn⟩
    exact ⟨e.hash, ⟨⟨e, he, hk⟩, hn⟩, he⟩

theorem Indexed.candidates_hashInjective {o : Oplog} (I : Indexed E o) (k : String) :
    HashInjective (candidates o k) := by
  intro a ha b hb hab
  have ha' := ((I.mem_candidates k a).mp ha).1
  have hb' := ((I.mem_candidates k b).mp hb).1
  rw [Oplog.Holds, hab] at ha'
  exact Option.some_inj.mp (ha'.symm.trans hb')

/-! ## Judging a list of entries -/

/-- What judging `judged` in turn against `effective` does to a state. -/
structure Judged (E : Environment) (effective : List VerifiedEntry) (judged : List Hash)
    (st r : Oplog × AccessChange) : Prop where
  base : SameBase st.1 r.1
  effective_eq : r.1.effective = st.1.effective
  current_eq : r.1.current = st.1.current
  inert : ∀ h e, st.1.entries.get h = some e →
    (h ∈ r.1.inert ↔ if h ∈ judged then isInert st.1 effective e = true else h ∈ st.1.inert)
  foreign : ∀ h, ¬ st.1.Has h → (h ∈ r.1.inert ↔ h ∈ st.1.inert)
  keys_mono : ∀ k ∈ st.2.keys, k ∈ r.2.keys
  moved : ∀ h e, st.1.entries.get h = some e → ¬ (h ∈ r.1.inert ↔ h ∈ st.1.inert) →
    ∀ k ∈ e.stateKeys E, k ∈ r.2.keys

theorem mem_addKeys (keys : OrderedSet String) (e : VerifiedEntry) (k : String) :
    k ∈ addKeys E keys e ↔ k ∈ e.stateKeys E ∨ k ∈ keys :=
  OrderedSet.mem_foldl_add _ keys k

theorem judgeEntry_judged (effective : List VerifiedEntry) (st : Oplog × AccessChange) (hash : Hash) :
    Judged E effective [hash] st (judgeEntry E effective st hash) := by
  unfold judgeEntry
  cases he : st.1.entries.get hash with
  | none =>
    refine ⟨.refl _, rfl, rfl, fun h e hh => ?_, fun h _ => Iff.rfl, fun k hk => hk, fun h e _ hne => absurd Iff.rfl hne⟩
    have hne : h ≠ hash := fun heq => by simp [heq, he] at hh
    simp [hne]
  | some e =>
    dsimp only
    split
    case isTrue hsame =>
      refine ⟨.refl _, rfl, rfl, fun h x hx => ?_, fun h _ => Iff.rfl, fun k hk => hk,
        fun h e _ hne => absurd Iff.rfl hne⟩
      by_cases hh : h = hash
      · subst hh
        obtain rfl : e = x := Option.some_inj.mp (he.symm.trans hx)
        simp [hsame, OrderedSet.has_iff]
      · simp [hh]
    case isFalse hdiff =>
      have hflip : ∀ h, h ∈ (if isInert st.1 effective e = true then st.1.inert.add hash
          else st.1.inert.delete hash) ↔
          if h = hash then isInert st.1 effective e = true else h ∈ st.1.inert := fun h => by
        by_cases hi : isInert st.1 effective e = true
        · by_cases hh : h = hash <;> simp [hi, hh]
        · by_cases hh : h = hash <;> simp [hi, hh]
      refine ⟨⟨rfl, rfl, rfl, rfl, rfl, rfl, rfl, rfl⟩, rfl, rfl, fun h x hx => ?_, fun h hn => ?_,
        fun k hk => (mem_addKeys _ _ _).mpr (Or.inr hk), fun h x hx hne k hk => ?_⟩
      · rw [hflip]
        by_cases hh : h = hash
        · subst hh
          obtain rfl : e = x := Option.some_inj.mp (he.symm.trans hx)
          simp
        · simp [hh]
      · have hh : h ≠ hash := fun heq => hn (heq ▸ ⟨e, he⟩)
        rw [hflip, if_neg hh]
      · by_cases hh : h = hash
        · subst hh
          obtain rfl : e = x := Option.some_inj.mp (he.symm.trans hx)
          exact (mem_addKeys _ _ _).mpr (Or.inl hk)
        · rw [hflip, if_neg hh] at hne
          exact absurd Iff.rfl hne

theorem Judged.trans {effective : List VerifiedEntry} {hash : Hash} {rest : List Hash}
    {st mid r : Oplog × AccessChange} (g : Grounded st.1) (hl : AgreeOn.Inside st.1.Has st.1 effective)
    (a : Judged E effective [hash] st mid) (b : Judged E effective rest mid r) :
    Judged E effective (hash :: rest) st r where
  base := a.base.trans b.base
  effective_eq := b.effective_eq.trans a.effective_eq
  current_eq := b.current_eq.trans a.current_eq
  inert h e he := by
    have hmid : mid.1.entries.get h = some e := by rw [a.base.entries, he]
    have hhash := g.keyed h e he
    have hsame := a.base.isInert_eq g a.effective_eq (e := e) (by rw [hhash, he]) hl
    rw [b.inert h e hmid, hsame, a.inert h e he]
    by_cases h1 : h ∈ rest <;> by_cases h2 : h = hash <;> simp [h1, h2]
  foreign h hn := by
    rw [b.foreign h (fun hh => hn ((a.base.has_iff h).mp hh)), a.foreign h hn]
  keys_mono k hk := b.keys_mono k (a.keys_mono k hk)
  moved h e he hne k hk := by
    have hmid : mid.1.entries.get h = some e := by rw [a.base.entries, he]
    by_cases hm : (h ∈ mid.1.inert ↔ h ∈ st.1.inert)
    · exact b.moved h e hmid (fun hb => hne (hb.trans hm)) k hk
    · exact b.keys_mono k (a.moved h e he hm k hk)

theorem foldl_judgeEntry (effective : List VerifiedEntry) (judged : List Hash)
    (st : Oplog × AccessChange) (g : Grounded st.1) (hl : AgreeOn.Inside st.1.Has st.1 effective) :
    Judged E effective judged st (judged.foldl (judgeEntry E effective) st) := by
  induction judged generalizing st with
  | nil =>
    exact ⟨.refl _, rfl, rfl, fun h e _ => by simp, fun h _ => Iff.rfl, fun k hk => hk,
      fun h e _ hne => absurd Iff.rfl hne⟩
  | cons hash rest ih =>
    have a := judgeEntry_judged (E := E) effective st hash
    refine a.trans g hl (ih _ (a.base.grounded g) fun r hr => ?_)
    obtain ⟨hh, hget⟩ := hl r hr
    exact ⟨(a.base.has_iff r.hash).mpr hh, by rw [a.base.entries, hget]⟩

/-! ## Re-resolving keys -/

theorem refreshKey_base (o : Oplog) (key : String) : SameBase o (refreshKey o key) ∧
    (refreshKey o key).effective = o.effective ∧ (refreshKey o key).inert = o.inert := by
  unfold refreshKey
  split <;> exact ⟨⟨rfl, rfl, rfl, rfl, rfl, rfl, rfl, rfl⟩, rfl, rfl⟩

theorem refreshKey_get (o : Oplog) (key k : String) : (refreshKey o key).current.get k =
    if k = key then resolveCurrentState (candidates o key) else o.current.get k := by
  unfold refreshKey
  cases resolveCurrentState (candidates o key) <;> simp

theorem candidates_congr {o p : Oplog} (b : SameBase o p) (hi : p.inert = o.inert) (k : String) :
    candidates p k = candidates o k := by
  rw [candidates, candidates, b.keyEntries, hi, b.entries]

theorem refreshCurrentState_base (o : Oplog) (keys : List String) :
    SameBase o (refreshCurrentState o keys) ∧
      (refreshCurrentState o keys).effective = o.effective ∧
      (refreshCurrentState o keys).inert = o.inert := by
  induction keys generalizing o with
  | nil => exact ⟨.refl o, rfl, rfl⟩
  | cons key rest ih =>
    obtain ⟨b, he, hi⟩ := refreshKey_base o key
    obtain ⟨b', he', hi'⟩ := ih (refreshKey o key)
    exact ⟨b.trans b', he'.trans he, hi'.trans hi⟩

theorem refreshCurrentState_get (o : Oplog) (keys : List String) (k : String) :
    (refreshCurrentState o keys).current.get k =
      if k ∈ keys then resolveCurrentState (candidates o k) else o.current.get k := by
  induction keys generalizing o with
  | nil => rfl
  | cons key rest ih =>
    obtain ⟨b, -, hi⟩ := refreshKey_base o key
    change (refreshCurrentState (refreshKey o key) rest).current.get k = _
    rw [ih, candidates_congr b hi, refreshKey_get]
    by_cases h1 : k ∈ rest <;> by_cases h2 : k = key <;> simp [h1, h2]

theorem foldl_judgeEntry_base (effective : List VerifiedEntry) (judged : List Hash) (st : Oplog × AccessChange) :
    SameBase st.1 (judged.foldl (judgeEntry E effective) st).1 := by
  induction judged generalizing st with
  | nil => exact .refl _
  | cons hash rest ih => exact (judgeEntry_judged effective st hash).base.trans (ih _)

/-- Settling leaves the entries and their indexes as they are. -/
theorem settle_base (o : Oplog) (added : List VerifiedEntry) : SameBase o (settle E o added).1 := by
  have hrefresh : SameBase o (refreshAccessState E o added).1 := by
    have hcleared : SameBase o (recomputeEffective o) := ⟨rfl, rfl, rfl, rfl, rfl, rfl, rfl, rfl⟩
    unfold refreshAccessState
    cases added.any fun e => o.revocations.has e.hash with
    | true =>
      simp only [if_true, Bool.not_true, Bool.false_and, Bool.false_eq_true, if_false]
      exact hcleared.trans (foldl_judgeEntry_base _ _ (recomputeEffective o, ⟨[], .empty⟩))
    | false =>
      simp only [Bool.false_eq_true, if_false]
      split
      · exact .refl o
      · exact foldl_judgeEntry_base _ _ (o, ⟨[], .empty⟩)
  exact hrefresh.trans (refreshCurrentState_base _ _).1

end RecordNode
