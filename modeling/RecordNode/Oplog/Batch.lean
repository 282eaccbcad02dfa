import RecordNode.Oplog.Settled

/-! # A batch of insertions, then settling

`Batch` relates an oplog to itself after some accepted entries were inserted and
before `settle`. Settling a batch re-establishes the exact state, whether or not
a revocation was among the new entries, and even if the insertion was a no-op
because the hash was taken. -/

namespace RecordNode

open Foundation

variable {E : Environment}

structure Batch (E : Environment) (o p : Oplog) (added : List VerifiedEntry) : Prop where
  indexed : Indexed E p
  agree : AgreeOn o.Has o p
  effective : p.effective = o.effective
  inert : p.inert = o.inert
  current : p.current = o.current
  mem : ∀ h e, p.entries.get h = some e → o.entries.get h = some e ∨ e ∈ added

theorem AgreeOn.trans {o p q : Oplog} (a : AgreeOn o.Has o p) (b : AgreeOn p.Has p q) :
    AgreeOn o.Has o q where
  chain := a.chain.trans b.chain
  left := a.left
  right := b.right
  shared h hh := by
    obtain ⟨e, ho, hp⟩ := a.shared h hh
    exact ⟨e, ho, (b.get_eq ⟨e, hp⟩).symm.trans hp⟩
  closed := a.closed

namespace Batch

variable {o p : Oplog} {added : List VerifiedEntry}

theorem refl (I : Indexed E o) : Batch E o o [] where
  indexed := I
  agree := (SameBase.refl o).agreeOn I.grounded
  effective := rfl
  inert := rfl
  current := rfl
  mem _ _ he := Or.inl he

theorem insert (B : Batch E o p added) {e : VerifiedEntry}
    (hv : verifyEntry E p e.toHashedEntry = .ok e) : Batch E o (insertEntry E p e) (added ++ [e]) := by
  by_cases hold : p.Has e.hash
  · rw [insertEntry_of_has hold]
    exact ⟨B.indexed, B.agree, B.effective, B.inert, B.current, fun h x hx =>
      (B.mem h x hx).imp_right (List.mem_append_left _)⟩
  · refine
      { indexed := insertEntry_indexed B.indexed hold hv
        agree := B.agree.trans (insertEntry_agreeOn B.indexed.grounded hold hv)
        effective := by rw [insertEntry_effective, B.effective]
        inert := by rw [insertEntry_inert, B.inert]
        current := by rw [insertEntry_current, B.current]
        mem := fun h x hx => ?_ }
    rcases (insertEntry_get_iff hold).mp hx with hx | ⟨-, rfl⟩
    · exact (B.mem h x hx).imp_right (List.mem_append_left _)
    · exact Or.inr (List.mem_append_right _ List.mem_cons_self)

theorem get_old (B : Batch E o p added) {h : Hash} {e : VerifiedEntry} (he : o.entries.get h = some e) :
    p.entries.get h = some e :=
  (B.agree.get_eq ⟨e, he⟩).symm.trans he

theorem isWriteListKey_eq (B : Batch E o p added) (key : String) :
    isWriteListKey p key = isWriteListKey o key := by
  rw [isWriteListKey, isWriteListKey, B.agree.chain]

end Batch

/-- The revocation index answers by the operation of the held entry. -/
theorem Grounded.revocations_has {o : Oplog} (g : Grounded o) {h : Hash} {e : VerifiedEntry}
    (he : o.entries.get h = some e) : o.revocations.has h = e.operation.isRevocation := by
  rw [OrderedMap.has, Bool.eq_iff_iff, Option.isSome_iff_exists]
  constructor
  · rintro ⟨x, hx⟩
    obtain ⟨hget, hr⟩ := (g.revocations h x).mp hx
    obtain rfl : e = x := Option.some_inj.mp (he.symm.trans hget)
    exact hr
  · exact fun hr => ⟨e, (g.revocations h e).mpr ⟨he, hr⟩⟩

/-- Every effective revocation is held. -/
theorem Settled.effective_has {o : Oplog} (s : Settled E o) (g : Grounded o) {h : Hash}
    (hh : h ∈ o.effective) : o.Has h := by
  obtain ⟨r, hr, rfl⟩ := (s.effective h).mp hh
  exact ⟨r, ((g.mem_revocations_values r).mp (mem_of_mem_effectiveRevocations hr)).1⟩

theorem effectiveEntries_inside {o : Oplog} (g : Grounded o) :
    AgreeOn.Inside o.Has o (effectiveEntries o) := by
  intro r hr
  obtain ⟨h, -, hget⟩ := List.mem_filterMap.mp hr
  obtain rfl := g.keyed h r hget
  exact ⟨⟨r, hget⟩, hget⟩

namespace Batch

variable {o p : Oplog} {added : List VerifiedEntry}

/-- No revocation among the new entries, as `refresh_access_state` tests it. -/
def NoRevocation (p : Oplog) (added : List VerifiedEntry) : Prop :=
  (added.any fun e => p.revocations.has e.hash) = false

theorem revocations_get_eq (B : Batch E o p added) (hn : NoRevocation p added) (h : Hash) :
    p.revocations.get h = o.revocations.get h := by
  apply Option.ext
  intro e
  rw [B.indexed.grounded.revocations, B.agree.left.revocations]
  constructor
  · rintro ⟨he, hr⟩
    rcases B.mem h e he with ho | hadd
    · exact ⟨ho, hr⟩
    · rw [NoRevocation, List.any_eq_false] at hn
      refine absurd ?_ (hn e hadd)
      rw [B.indexed.grounded.keyed h e he, B.indexed.grounded.revocations_has he, hr]
  · exact fun ⟨he, hr⟩ => ⟨B.get_old he, hr⟩

/-- Without a new revocation the effective set stays what it was. -/
theorem mem_effectiveRevocations_iff (B : Batch E o p added) (hn : NoRevocation p added)
    (r : VerifiedEntry) : r ∈ effectiveRevocations p p.revocations.values ↔
      r ∈ effectiveRevocations o o.revocations.values := by
  have hin : AgreeOn.Inside o.Has o o.revocations.values := fun r hr => by
    have hh := ((B.agree.left.mem_revocations_values r).mp hr).1
    exact ⟨⟨r, hh⟩, hh⟩
  have hperm := OrderedMap.values_perm o.revocations p.revocations fun k =>
    (B.revocations_get_eq hn k).symm
  exact (B.agree.effectiveRevocations_perm hin hperm).symm.mem_iff

theorem effectiveEntries_eq (B : Batch E o p added) (s : Settled E o) :
    effectiveEntries p = effectiveEntries o := by
  rw [effectiveEntries, effectiveEntries, B.effective]
  refine List.filterMap_congr fun h hh => ?_
  exact (B.agree.get_eq (s.effective_has B.agree.left hh)).symm

/-- Without a new revocation an old entry is judged as before. -/
theorem isInert_old (B : Batch E o p added) (s : Settled E o)
    {h : Hash} {e : VerifiedEntry} (he : o.entries.get h = some e) :
    isInert p (effectiveEntries p) e = isInert o (effectiveEntries o) e := by
  have hh := B.agree.left.keyed h e he
  subst hh
  rw [isInert, isInert, B.indexed.grounded.revocations_has (B.get_old he),
    B.agree.left.revocations_has he, B.effective, B.effectiveEntries_eq s,
    B.agree.inertUnder_eq ⟨e, he⟩ he (effectiveEntries_inside B.agree.left) (List.Perm.refl _)]

end Batch

/-! ## Settling -/

/-- What `refresh_access_state` leaves behind. -/
structure Refreshed (E : Environment) (o p : Oplog) (added : List VerifiedEntry)
    (r : Oplog × AccessChange) : Prop where
  base : SameBase p r.1
  current_eq : r.1.current = o.current
  effective : ∀ h, h ∈ r.1.effective ↔ ∃ x ∈ effectiveRevocations p p.revocations.values, x.hash = h
  inert : ∀ h, h ∈ r.1.inert ↔ ∃ e, p.entries.get h = some e ∧ isWriteListKey p e.signer = false ∧
    isInert r.1 (effectiveEntries r.1) e = true
  moved : ∀ h e, o.entries.get h = some e → ¬ (h ∈ r.1.inert ↔ h ∈ o.inert) →
    ∀ k ∈ e.stateKeys E, k ∈ r.2.keys

namespace Batch

variable {o p : Oplog} {added : List VerifiedEntry}

/-- A new revocation: the effective set is recomputed and every delegated entry judged. -/
theorem refreshed_of_revocation (B : Batch E o p added) (s : Settled E o)
    (hrev : (added.any fun e => p.revocations.has e.hash) = true) :
    Refreshed E o p added (refreshAccessState E p added) := by
  have hrun : refreshAccessState E p added =
      p.delegated.items.foldl (judgeEntry E (effectiveEntries (recomputeEffective p)))
        (recomputeEffective p, ⟨[], .empty⟩) := by
    simp only [refreshAccessState, hrev, if_true, Bool.not_true, Bool.false_and, Bool.false_eq_true,
      if_false]
    rfl
  rw [hrun]
  generalize hq : recomputeEffective p = q
  have hbase : SameBase p q := by
    subst hq
    exact ⟨rfl, rfl, rfl, rfl, rfl, rfl, rfl, rfl⟩
  have hqeff : ∀ h, h ∈ q.effective ↔ ∃ x ∈ effectiveRevocations p p.revocations.values, x.hash = h := by
    subst hq
    intro h
    simp [recomputeEffective]
  have hqinert : q.inert = o.inert := by
    subst hq
    exact B.inert
  have hqcurrent : q.current = o.current := by
    subst hq
    exact B.current
  have gq := hbase.grounded B.indexed.grounded
  have J := foldl_judgeEntry (E := E) (effectiveEntries q) p.delegated.items (q, ⟨[], .empty⟩) gq
    (effectiveEntries_inside gq)
  generalize hr : p.delegated.items.foldl (judgeEntry E (effectiveEntries q)) (q, ⟨[], .empty⟩) = r at J
  have heff : effectiveEntries r.1 = effectiveEntries q := by
    rw [effectiveEntries, effectiveEntries, J.effective_eq, J.base.entries]
  refine ⟨hbase.trans J.base, J.current_eq.trans hqcurrent, fun h => ?_, fun h => ?_,
    fun h e he hne k hk => ?_⟩
  · rw [J.effective_eq, hqeff]
  · by_cases hheld : p.Has h
    · obtain ⟨e, he⟩ := hheld
      have heq : q.entries.get h = some e := by rw [hbase.entries, he]
      have hh := B.indexed.grounded.keyed h e he
      have hjudge : isInert r.1 (effectiveEntries r.1) e = isInert q (effectiveEntries q) e := by
        rw [heff]
        exact J.base.isInert_eq gq J.effective_eq (by rw [hh, heq]) (effectiveEntries_inside gq)
      have hdel : h ∈ p.delegated.items ↔ isWriteListKey p e.signer = false := by
        rw [OrderedSet.mem_items, B.indexed.delegated]
        simp [he]
      rw [J.inert h e heq]
      simp only [he, Option.some.injEq, exists_eq_left', hjudge]
      split
      case isTrue hd => simp [hdel.mp hd]
      case isFalse hd =>
        -- A write-list entry was not inert before, and is not judged now.
        have hw := fun hc => hd (hdel.mpr hc)
        rw [hqinert, s.inert]
        constructor
        · rintro ⟨x, hx, hxw, -⟩
          obtain rfl : e = x := Option.some_inj.mp (he.symm.trans (B.get_old hx))
          exact absurd (by rw [B.isWriteListKey_eq, hxw]) hw
        · exact fun hc => absurd hc.1 hw
    · rw [J.foreign h (fun hq' => hheld ((hbase.has_iff h).mp hq')), hqinert, s.inert]
      constructor
      · rintro ⟨x, hx, -⟩
        exact absurd ⟨x, B.get_old hx⟩ hheld
      · rintro ⟨x, hx, -⟩
        exact absurd ⟨x, hx⟩ hheld
  · refine J.moved h e (by rw [hbase.entries, B.get_old he]) (fun hsame => hne ?_) k hk
    rw [hsame, hqinert]

/-- No new revocation: only the new delegated entries can be inert anew. -/
theorem inert_iff_of_noRevocation (B : Batch E o p added) (s : Settled E o) (h : Hash) :
    (∃ e, p.entries.get h = some e ∧ isWriteListKey p e.signer = false ∧
      isInert p (effectiveEntries p) e = true) ↔
    h ∈ o.inert ∨ ∃ e, p.entries.get h = some e ∧ h ∈ added.map (fun e => e.hash) ∧
      isWriteListKey p e.signer = false ∧ isInert p (effectiveEntries p) e = true := by
  rw [s.inert]
  constructor
  · rintro ⟨e, he, hw, hi⟩
    rcases B.mem h e he with ho | hadd
    · exact Or.inl ⟨e, ho, B.isWriteListKey_eq _ ▸ hw, B.isInert_old s ho ▸ hi⟩
    · exact Or.inr ⟨e, he, List.mem_map.mpr ⟨e, hadd, B.indexed.grounded.keyed h e he⟩, hw, hi⟩
  · rintro (⟨e, ho, hw, hi⟩ | ⟨e, he, -, hw, hi⟩)
    · exact ⟨e, B.get_old ho, by rw [B.isWriteListKey_eq, hw], by rw [B.isInert_old s ho, hi]⟩
    · exact ⟨e, he, hw, hi⟩

theorem refreshed_of_noRevocation (B : Batch E o p added) (s : Settled E o)
    (hrev : NoRevocation p added) : Refreshed E o p added (refreshAccessState E p added) := by
  have hany : (added.any fun e => p.revocations.has e.hash) = false := hrev
  have heffective : ∀ h, h ∈ p.effective ↔
      ∃ x ∈ effectiveRevocations p p.revocations.values, x.hash = h := fun h => by
    simp only [B.effective, s.effective, B.mem_effectiveRevocations_iff hrev]
  by_cases hquiet : p.effective.size = 0 ∧ p.inert.size = 0
  · -- Nothing is effective, so a new entry that is not a revocation is not inert.
    have hrun : refreshAccessState E p added = (p, ⟨[], .empty⟩) := by
      simp [refreshAccessState, hany, hquiet]
    have hempty : p.effective.items = [] := List.length_eq_zero_iff.mp hquiet.1
    have heff : effectiveEntries p = [] := by simp [effectiveEntries, hempty]
    rw [hrun]
    refine ⟨.refl p, B.current, heffective, fun h => ?_, fun h e he hne => ?_⟩
    · rw [B.inert_iff_of_noRevocation s, ← B.inert]
      refine ⟨Or.inl, ?_⟩
      rintro (hh | ⟨e, he, hadd, -, hi⟩)
      · exact hh
      · obtain ⟨x, hx, hxh⟩ := List.mem_map.mp hadd
        have hnr := List.any_eq_false.mp hrev x hx
        rw [hxh, ← B.indexed.grounded.keyed h e he] at hnr
        simp [isInert, hnr, inertUnder, heff] at hi
    · exact absurd (by rw [B.inert]) hne
  · have hrun : refreshAccessState E p added =
        ((added.filter fun e => p.delegated.has e.hash).map fun e => e.hash).foldl
          (judgeEntry E (effectiveEntries p)) (p, ⟨[], .empty⟩) := by
      simp only [refreshAccessState, hany, Bool.false_eq_true, if_false, Bool.not_false, Bool.true_and,
        Bool.and_eq_true, decide_eq_true_eq, hquiet]
    rw [hrun]
    generalize hjd : (added.filter fun e => p.delegated.has e.hash).map (fun e => e.hash) = judged
    have gp := B.indexed.grounded
    have J := foldl_judgeEntry (E := E) (effectiveEntries p) judged (p, ⟨[], .empty⟩) gp
      (effectiveEntries_inside gp)
    generalize judged.foldl (judgeEntry E (effectiveEntries p)) (p, ⟨[], .empty⟩) = r at J
    have heff : effectiveEntries r.1 = effectiveEntries p := by
      rw [effectiveEntries, effectiveEntries, J.effective_eq, J.base.entries]
    have hmem : ∀ h e, p.entries.get h = some e →
        (h ∈ judged ↔ h ∈ added.map (fun e => e.hash) ∧ isWriteListKey p e.signer = false) :=
      fun h e he => by
      have hdel : h ∈ p.delegated ↔ isWriteListKey p e.signer = false := by
        rw [B.indexed.delegated]
        simp [he]
      simp only [← hjd, List.mem_map, List.mem_filter, OrderedSet.has_iff, ← hdel]
      constructor
      · rintro ⟨x, ⟨hx, hw⟩, rfl⟩
        exact ⟨⟨x, hx, rfl⟩, hw⟩
      · rintro ⟨⟨x, hx, rfl⟩, hw⟩
        exact ⟨x, ⟨hx, hw⟩, rfl⟩
    refine ⟨J.base, J.current_eq.trans B.current, fun h => ?_, fun h => ?_, fun h e he hne k hk => ?_⟩
    · rw [J.effective_eq, heffective]
    · have hjudge : ∀ e, p.entries.get h = some e →
          isInert r.1 (effectiveEntries r.1) e = isInert p (effectiveEntries p) e := fun e he => by
        rw [heff]
        exact J.base.isInert_eq gp J.effective_eq (by rw [gp.keyed h e he, he])
          (effectiveEntries_inside gp)
      have hcongr : (∃ e, p.entries.get h = some e ∧ isWriteListKey p e.signer = false ∧
          isInert r.1 (effectiveEntries r.1) e = true) ↔
          ∃ e, p.entries.get h = some e ∧ isWriteListKey p e.signer = false ∧
            isInert p (effectiveEntries p) e = true :=
        exists_congr fun e => and_congr_right fun he => by rw [hjudge e he]
      rw [hcongr, B.inert_iff_of_noRevocation s]
      by_cases hheld : p.Has h
      · obtain ⟨e, he⟩ := hheld
        have hm := hmem h e he
        rw [J.inert h e he]
        split
        case isTrue hjudged =>
          obtain ⟨hadd, hw⟩ := hm.mp hjudged
          constructor
          · exact fun hi => Or.inr ⟨e, he, hadd, hw, hi⟩
          · rintro (ho | ⟨x, hx, -, -, hi⟩)
            · obtain ⟨y, hy, -, hi⟩ := (s.inert h).mp ho
              obtain rfl : e = y := Option.some_inj.mp (he.symm.trans (B.get_old hy))
              rw [← B.isInert_old s hy] at hi
              exact hi
            · obtain rfl : e = x := Option.some_inj.mp (he.symm.trans hx)
              exact hi
        case isFalse hjudged =>
          constructor
          · exact fun hi => Or.inl (B.inert ▸ hi)
          · rintro (ho | ⟨x, hx, hadd, hw, -⟩)
            · exact B.inert ▸ ho
            · obtain rfl : e = x := Option.some_inj.mp (he.symm.trans hx)
              exact absurd (hm.mpr ⟨hadd, hw⟩) hjudged
      · rw [J.foreign h hheld]
        constructor
        · exact fun hi => Or.inl (B.inert ▸ hi)
        · rintro (ho | ⟨x, hx, -⟩)
          · exact B.inert ▸ ho
          · exact absurd ⟨x, hx⟩ hheld
    · exact J.moved h e (B.get_old he) (fun hsame => hne (by rw [hsame, B.inert])) k hk

theorem refreshed (B : Batch E o p added) (s : Settled E o) :
    Refreshed E o p added (refreshAccessState E p added) := by
  cases hrev : added.any fun e => p.revocations.has e.hash with
  | true => exact B.refreshed_of_revocation s hrev
  | false => exact B.refreshed_of_noRevocation s hrev

theorem mem_foldl_addKeys (l : List VerifiedEntry) (keys : OrderedSet String) (k : String) :
    k ∈ l.foldl (addKeys E) keys ↔ (∃ e ∈ l, k ∈ e.stateKeys E) ∨ k ∈ keys := by
  induction l generalizing keys with
  | nil => simp
  | cons e rest ih =>
    rw [List.foldl_cons, ih, mem_addKeys]
    rw [List.exists_mem_cons_iff, or_left_comm, or_assoc]

/-- The entries competing for an untouched key are the ones that competed before. -/
theorem competes_iff {r : Oplog × AccessChange} (B : Batch E o p added) (R : Refreshed E o p added r)
    {k : String} (hk : k ∉ added.foldl (addKeys E) r.2.keys) (e : VerifiedEntry) :
    Competes E r.1 k e ↔ Competes E o k e := by
  rw [mem_foldl_addKeys, not_or] at hk
  have hold : ∀ x, p.entries.get x.hash = some x → k ∈ x.stateKeys E → o.entries.get x.hash = some x :=
    fun x hx hxk => by
      rcases B.mem _ x hx with ho | hadd
      · exact ho
      · exact absurd ⟨x, hadd, hxk⟩ hk.1
  have hsame : o.entries.get e.hash = some e → k ∈ e.stateKeys E →
      (e.hash ∈ r.1.inert ↔ e.hash ∈ o.inert) := fun he hke => by
    by_contra hne
    exact hk.2 (R.moved e.hash e he hne k hke)
  rw [Competes, Competes, Oplog.Holds, Oplog.Holds, R.base.entries]
  constructor
  · rintro ⟨he, hke, hi⟩
    have ho := hold e he hke
    exact ⟨ho, hke, fun hc => hi ((hsame ho hke).mpr hc)⟩
  · rintro ⟨ho, hke, hi⟩
    exact ⟨B.get_old ho, hke, fun hc => hi ((hsame ho hke).mp hc)⟩

/-- Settling a batch lands on the exact state. -/
theorem settle_settled (B : Batch E o p added) (s : Settled E o) (I : Indexed E o) :
    Settled E (settle E p added).1 := by
  have R := B.refreshed s
  rw [settle]
  generalize refreshAccessState E p added = r at R
  generalize hkeys : (added.foldl (addKeys E) r.2.keys).items = keys
  obtain ⟨b, heff, hinert⟩ := refreshCurrentState_base r.1 keys
  have bp : SameBase p (refreshCurrentState r.1 keys) := R.base.trans b
  have Ir : Indexed E r.1 := R.base.indexed B.indexed
  have hentries : effectiveEntries (refreshCurrentState r.1 keys) = effectiveEntries r.1 := by
    rw [effectiveEntries, effectiveEntries, heff, b.entries]
  refine ⟨fun h => ?_, fun h => ?_, fun k => ?_⟩
  · have hin : AgreeOn.Inside p.Has p p.revocations.values := fun x hx => by
      have hh := ((B.indexed.grounded.mem_revocations_values x).mp hx).1
      exact ⟨⟨x, hh⟩, hh⟩
    have hperm := (bp.agreeOn B.indexed.grounded).effectiveRevocations_perm hin (List.Perm.refl _)
    rw [heff, R.effective, bp.revocations]
    simp only [hperm.mem_iff]
  · rw [hinert, R.inert, bp.entries]
    refine exists_congr fun e => and_congr_right fun he => ?_
    have hh := B.indexed.grounded.keyed h e he
    have hre : r.1.entries.get e.hash = some e := by rw [R.base.entries, hh, he]
    rw [bp.isWriteListKey_eq, hentries,
      b.isInert_eq Ir.grounded heff hre (effectiveEntries_inside Ir.grounded)]
  · rw [refreshCurrentState_get, candidates_congr b hinert]
    split
    case isTrue hk => rfl
    case isFalse hk =>
      rw [R.current_eq, s.current]
      have hk' : k ∉ added.foldl (addKeys E) r.2.keys := by
        rw [← OrderedSet.mem_items, hkeys]
        exact hk
      apply Option.ext
      intro e
      rw [resolveCurrentState_eq_some_iff (I.candidates_hashInjective k),
        resolveCurrentState_eq_some_iff (Ir.candidates_hashInjective k)]
      simp only [I.mem_candidates, Ir.mem_candidates, B.competes_iff R hk']

end Batch

end RecordNode
