import Mathlib
import RecordNode.Replication.Orchestrator

/-! # Which waiting entries are ready

A hash is ready when it has landed, or when its entry waits and every parent is ready.
The walk over the waiting entries judges each hash as this says: a hash it closes
has all its parents judged, except those that are open below it, and these lie on a
cycle, so neither they nor the hash are ready. -/

namespace RecordNode

open Foundation Relation

namespace Orchestrator

variable {T : Type*} {C : MergeCandidate T} {isLanded : Hash → Bool} {fetched : OrderedMap Hash T}

variable (C isLanded fetched) in
/-- Landed, or waiting with every parent ready. -/
inductive Ready : Hash → Prop
  | landed {hash : Hash} (h : isLanded hash = true) : Ready hash
  | waiting {hash : Hash} {entry : T} (h : fetched.get hash = some entry)
      (hp : ∀ parent ∈ C.next entry, Ready parent) : Ready hash

variable (C fetched) in
/-- A waiting entry and one of its parents. -/
def WaitsOn (hash parent : Hash) : Prop := ∃ entry, fetched.get hash = some entry ∧ parent ∈ C.next entry

theorem Ready.parent {hash parent : Hash} (h : Ready C isLanded fetched hash) (hl : isLanded hash = false)
    (hn : WaitsOn C fetched hash parent) : Ready C isLanded fetched parent := by
  obtain ⟨entry, hentry, hp⟩ := hn
  cases h with
  | landed h => simp [hl] at h
  | waiting h hall =>
    obtain rfl := Option.some_inj.mp (h.symm.trans hentry)
    exact hall parent hp

theorem not_ready_of_missing {hash : Hash} (hl : isLanded hash = false) (hn : fetched.get hash = none) :
    ¬ Ready C isLanded fetched hash := by
  intro h
  cases h with
  | landed h => simp [hl] at h
  | waiting h _ => simp [hn] at h

/-- A hash that depends on itself is not ready. -/
theorem Ready.not_cycle {hash : Hash} (h : Ready C isLanded fetched hash)
    (hc : TransGen (fun x y => isLanded x = false ∧ WaitsOn C fetched x y) hash hash) : False := by
  have key : ∀ x, Ready C isLanded fetched x →
      ¬ TransGen (fun x y => isLanded x = false ∧ WaitsOn C fetched x y) x x := by
    intro x hx
    induction hx with
    | landed h =>
      intro hc
      obtain ⟨y, ⟨hl, -⟩, -⟩ := TransGen.head'_iff.mp hc
      simp [hl] at h
    | waiting h hp ih =>
      intro hc
      obtain ⟨y, ⟨hl, entry, hentry, hy⟩, hrest⟩ := TransGen.head'_iff.mp hc
      obtain rfl := Option.some_inj.mp (h.symm.trans hentry)
      exact ih y hy (TransGen.tail' hrest ⟨hl, _, hentry, hy⟩)
  exact key hash h hc

variable (C isLanded fetched) in
/-- The verdicts so far are right. -/
def Exact (ready : OrderedMap Hash Bool) : Prop :=
  ∀ hash verdict, ready.get hash = some verdict → (verdict = true ↔ Ready C isLanded fetched hash)

variable (C isLanded fetched) in
/-- The stack in layers: over each open hash lie parents of it that are still to be judged. -/
def Layered (ready : OrderedMap Hash Bool) : List Hash → List Hash → Prop
  | stack, [] => stack.length ≤ 1
  | stack, hash :: opened => ∃ pending rest entry, stack = pending ++ hash :: rest ∧
      fetched.get hash = some entry ∧ isLanded hash = false ∧ ready.has hash = false ∧
      hash ∉ opened ∧ (∀ parent ∈ pending, parent ∈ C.next entry ∧ parent ∉ hash :: opened) ∧
      (∀ parent ∈ C.next entry, ready.has parent = true ∨ parent ∈ pending ∨ parent ∈ hash :: opened) ∧
      Layered ready (hash :: rest) opened

variable {ready later : OrderedMap Hash Bool} {stack rest opened : List Hash} {hash : Hash}

theorem Layered.judge (h : Layered C isLanded fetched ready stack opened) (hout : hash ∉ opened)
    (hlater : ∀ x, later.has x = true ↔ x = hash ∨ ready.has x = true) :
    Layered C isLanded fetched later stack opened := by
  induction opened generalizing stack with
  | nil => exact h
  | cons x opened ih =>
    rw [List.mem_cons, not_or] at hout
    obtain ⟨pending, below, entry, hstack, hx, hl, hr, hxo, hpend, hall, hlow⟩ := h
    refine ⟨pending, below, entry, hstack, hx, hl, ?_, hxo, hpend, fun parent hp => ?_, ih hlow hout.2⟩
    · rw [Bool.eq_false_iff, ne_eq, hlater]
      simp [hr, Ne.symm hout.1]
    · exact (hall parent hp).imp_left fun h => (hlater parent).mpr (Or.inr h)

/-- The top of the stack, once judged, goes; it was not open. -/
theorem Layered.pop (h : Layered C isLanded fetched ready (hash :: rest) opened) (hout : hash ∉ opened)
    (hlater : ∀ x, later.has x = true ↔ x = hash ∨ ready.has x = true) :
    Layered C isLanded fetched later rest opened := by
  have hj := h.judge hout hlater
  cases opened with
  | nil =>
    simp only [Layered, List.length_cons] at h ⊢
    omega
  | cons x opened =>
    obtain ⟨pending, below, entry, hstack, hx, hl, hr, hxo, hpend, hall, hlow⟩ := hj
    cases pending with
    | nil =>
      have hx : hash = x := (List.cons.inj hstack).1
      exact absurd (hx ▸ List.mem_cons_self) hout
    | cons top pending =>
      obtain ⟨rfl, hrest⟩ := List.cons.inj hstack
      refine ⟨pending, below, entry, hrest, hx, hl, hr, hxo,
        fun parent hp => hpend parent (List.mem_cons_of_mem _ hp), fun parent hp => ?_, hlow⟩
      rcases hall parent hp with h | h | h
      · exact Or.inl h
      · rcases List.mem_cons.mp h with rfl | h
        · exact Or.inl ((hlater parent).mpr (Or.inl rfl))
        · exact Or.inr (Or.inl h)
      · exact Or.inr (Or.inr h)

/-- Every open hash depends on the top of the stack. -/
theorem Layered.leads (h : Layered C isLanded fetched ready (hash :: rest) opened) (hout : hash ∉ opened) :
    ∀ x ∈ opened, TransGen (fun x y => isLanded x = false ∧ WaitsOn C fetched x y) x hash := by
  induction opened generalizing hash rest with
  | nil => simp
  | cons x opened ih =>
    obtain ⟨pending, below, entry, hstack, hx, hl, -, hxo, hpend, -, hlow⟩ := h
    have hedge : WaitsOn C fetched x hash := by
      cases pending with
      | nil =>
        have hx : hash = x := (List.cons.inj hstack).1
        exact absurd (hx ▸ List.mem_cons_self) hout
      | cons top pending =>
        obtain ⟨rfl, -⟩ := List.cons.inj hstack
        exact ⟨entry, hx, (hpend hash List.mem_cons_self).1⟩
    intro y hy
    rcases List.mem_cons.mp hy with rfl | hy
    · exact .single ⟨hl, hedge⟩
    · exact (ih hlow hxo y hy).tail ⟨hl, hedge⟩

/-- An open hash on top of the stack is the last one opened. -/
theorem Layered.top_open (h : Layered C isLanded fetched ready (hash :: rest) opened) (hin : hash ∈ opened) :
    ∃ entry below, opened = hash :: below ∧ fetched.get hash = some entry ∧ isLanded hash = false ∧
      ready.has hash = false ∧ hash ∉ below ∧
      (∀ parent ∈ C.next entry, ready.has parent = true ∨ parent ∈ hash :: below) ∧
      Layered C isLanded fetched ready (hash :: rest) below := by
  cases opened with
  | nil => simp at hin
  | cons x opened =>
    obtain ⟨pending, below, entry, hstack, hx, hl, hr, hxo, hpend, hall, hlow⟩ := h
    cases pending with
    | nil =>
      obtain ⟨rfl, rfl⟩ := List.cons.inj hstack
      refine ⟨entry, opened, rfl, hx, hl, hr, hxo, fun parent hp => ?_, hlow⟩
      exact (hall parent hp).imp_right fun h => h.resolve_left List.not_mem_nil
    | cons top pending =>
      obtain ⟨rfl, -⟩ := List.cons.inj hstack
      exact absurd hin (hpend hash List.mem_cons_self).2

/-! ## The walk judges rightly -/

variable (C isLanded fetched) in
/-- What holds at every turn of the walk from `root`. -/
structure Judging (root : Hash) (judged : Hash → Prop) (opened : List Hash) (w : Walk) : Prop where
  exact : Exact C isLanded fetched w.ready
  layered : Layered C isLanded fetched w.ready w.stack opened
  path : ∀ x, x ∈ w.onPath ↔ x ∈ opened
  root : root ∈ w.stack ∨ w.ready.has root = true
  judged : ∀ x, judged x → w.ready.has x = true

variable {root : Hash} {judged : Hash → Prop} {w : Walk}

/-- The top was judged, now or before, and leaves the stack. -/
theorem Judging.pop (j : Judging C isLanded fetched root judged opened w) (hs : w.stack = hash :: rest)
    (hout : hash ∉ opened) {path : OrderedSet Hash} (hpath : ∀ x, x ∈ path ↔ x ∈ opened)
    (hlater : ∀ x, later.has x = true ↔ x = hash ∨ w.ready.has x = true)
    (he : Exact C isLanded fetched later) :
    Judging C isLanded fetched root judged opened ⟨later, rest, path⟩ where
  exact := he
  layered := (hs ▸ j.layered).pop hout hlater
  path := hpath
  root := by
    rcases j.root with h | h
    · rw [hs] at h
      rcases List.mem_cons.mp h with rfl | h
      · exact Or.inr ((hlater root).mpr (Or.inl rfl))
      · exact Or.inl h
    · exact Or.inr ((hlater root).mpr (Or.inr h))
  judged x hx := (hlater x).mpr (Or.inr (j.judged x hx))

/-- A hash that is judged already keeps its verdict, one that is landed or absent gets the right one. -/
theorem Judging.settle (j : Judging C isLanded fetched root judged opened w) (hs : w.stack = hash :: rest)
    (hdone : w.ready.has hash = true ∨ isLanded hash = true ∨ fetched.get hash = none) :
    Judging C isLanded fetched root judged opened
      { w with ready := if w.ready.has hash then w.ready else w.ready.set hash (isLanded hash), stack := rest } := by
  have hout : hash ∉ opened := by
    intro hin
    obtain ⟨entry, below, -, hget, hl, hr, -⟩ := (hs ▸ j.layered).top_open hin
    rcases hdone with h | h | h <;> simp_all
  by_cases hr : w.ready.has hash = true
  · rw [if_pos hr]
    refine j.pop hs hout j.path (fun x => ?_) j.exact
    constructor
    · exact Or.inr
    · rintro (rfl | h)
      · exact hr
      · exact h
  · rw [if_neg hr]
    refine j.pop hs hout j.path (w.ready.has_set hash _) fun x verdict hx => ?_
    rw [OrderedMap.get_set] at hx
    split at hx
    case isTrue hxh =>
      subst hxh
      obtain rfl := Option.some_inj.mp hx
      constructor
      · exact Ready.landed
      · intro h
        cases h with
        | landed h => exact h
        | waiting h _ =>
          rcases hdone with h' | h' | h'
          · exact absurd h' hr
          · exact h'
          · simp [h'] at h
    case isFalse => exact j.exact x verdict hx

/-- A waiting hash seen for the first time is opened under its parents. -/
theorem Judging.openTop (j : Judging C isLanded fetched root judged opened w) (hs : w.stack = hash :: rest)
    {entry : T} (hget : fetched.get hash = some entry) (hr : w.ready.has hash = false)
    (hl : isLanded hash = false) (hp : w.onPath.has hash = false) :
    Judging C isLanded fetched root judged (hash :: opened)
      { w with
        onPath := w.onPath.add hash
        stack := ((C.next entry).filter fun parent => !w.ready.has parent && !(w.onPath.add hash).has parent).reverse
          ++ hash :: rest } := by
  have hout : hash ∉ opened := by
    rw [← j.path, ← OrderedSet.has_iff, hp]
    simp
  have hpath : ∀ x, x ∈ w.onPath.add hash ↔ x ∈ hash :: opened := by
    intro x
    rw [OrderedSet.mem_add, List.mem_cons, j.path]
  refine
    { exact := j.exact
      layered := ⟨_, rest, entry, rfl, hget, hl, hr, hout, fun parent hm => ?_, fun parent hm => ?_, hs ▸ j.layered⟩
      path := hpath
      root := ?_
      judged := j.judged }
  · obtain ⟨hm, hcond⟩ := List.mem_filter.mp (List.mem_reverse.mp hm)
    simp only [Bool.and_eq_true, Bool.not_eq_true', OrderedSet.has, decide_eq_false_iff_not] at hcond
    exact ⟨hm, fun h => hcond.2 ((hpath parent).mpr h)⟩
  · by_cases hpr : w.ready.has parent = true
    · exact Or.inl hpr
    by_cases hpo : parent ∈ hash :: opened
    · exact Or.inr (Or.inr hpo)
    refine Or.inr (Or.inl (List.mem_reverse.mpr (List.mem_filter.mpr ⟨hm, ?_⟩)))
    simp only [Bool.and_eq_true, Bool.not_eq_true', OrderedSet.has, decide_eq_false_iff_not]
    exact ⟨by simpa using hpr, fun h => hpo ((hpath parent).mp h)⟩
  · rcases j.root with h | h
    · exact Or.inl (List.mem_append_right _ (hs ▸ h))
    · exact Or.inr h

/-- An open hash with nothing over it is closed: ready exactly if all its parents are. -/
theorem Judging.closeTop (j : Judging C isLanded fetched root judged opened w) (hs : w.stack = hash :: rest)
    {entry : T} (hget : fetched.get hash = some entry) (hp : w.onPath.has hash = true) :
    ∃ below, Judging C isLanded fetched root judged below
      { ready := w.ready.set hash ((C.next entry).all fun parent => w.ready.get parent == some true)
        onPath := w.onPath.delete hash
        stack := rest } := by
  have hin : hash ∈ opened := (j.path hash).mp ((OrderedSet.has_iff _ _).mp hp)
  obtain ⟨entry', below, rfl, hget', hl, hr, hout, hall, hlow⟩ := (hs ▸ j.layered).top_open hin
  obtain rfl := Option.some_inj.mp (hget.symm.trans hget')
  refine ⟨below, ?_⟩
  have hpath : ∀ x, x ∈ w.onPath.delete hash ↔ x ∈ below := by
    intro x
    rw [OrderedSet.mem_delete, j.path, List.mem_cons]
    constructor
    · rintro ⟨rfl | h, hne⟩
      · exact absurd rfl hne
      · exact h
    · intro h
      exact ⟨Or.inr h, fun hx => hout (hx ▸ h)⟩
  have hverdict : (C.next entry).all (fun parent => w.ready.get parent == some true) = true ↔
      Ready C isLanded fetched hash := by
    rw [List.all_eq_true]
    constructor
    · intro h
      refine .waiting hget fun parent hm => ?_
      have hg : w.ready.get parent = some true := by simpa using h parent hm
      exact (j.exact parent true hg).mp rfl
    · intro h parent hm
      have hpr : w.ready.has parent = true := by
        rcases hall parent hm with hpr | hpo
        · exact hpr
        · -- an open parent depends on this hash: the hash lies on a cycle
          exfalso
          have hstep : isLanded hash = false ∧ WaitsOn C fetched hash parent := ⟨hl, entry, hget, hm⟩
          rcases List.mem_cons.mp hpo with rfl | hpo
          · exact h.not_cycle (.single hstep)
          · exact h.not_cycle (TransGen.head hstep (hlow.leads hout parent hpo))
      obtain ⟨verdict, hv⟩ := (w.ready.has_iff parent).mp hpr
      have : verdict = true := (j.exact parent verdict hv).mpr (h.parent hl ⟨entry, hget, hm⟩)
      simp [hv, this]
  have jb : Judging C isLanded fetched root judged below { w with onPath := w.onPath.delete hash } :=
    ⟨j.exact, hs ▸ hlow, hpath, j.root, j.judged⟩
  refine jb.pop hs hout hpath (w.ready.has_set hash _) fun x verdict hx => ?_
  rw [OrderedMap.get_set] at hx
  split at hx
  case isTrue hxh =>
    subst hxh
    obtain rfl := Option.some_inj.mp hx
    exact hverdict
  case isFalse => exact j.exact x verdict hx

theorem Judging.walkTop (j : Judging C isLanded fetched root judged opened w) (hs : w.stack = hash :: rest) :
    ∃ opened', Judging C isLanded fetched root judged opened' (walkTop C isLanded fetched w hash rest) := by
  unfold Orchestrator.walkTop
  split
  case h_1 hget => exact ⟨opened, j.settle hs (Or.inr (Or.inr hget))⟩
  case h_2 entry hget =>
    split
    case isTrue h =>
      rw [Bool.or_eq_true] at h
      exact ⟨opened, j.settle hs (h.imp_right Or.inl)⟩
    case isFalse h =>
      simp only [Bool.or_eq_true, not_or, Bool.not_eq_true] at h
      split
      case isTrue hp => exact ⟨_, j.openTop hs hget h.1 h.2 (by simpa using hp)⟩
      case isFalse hp => exact j.closeTop hs hget (by simpa using hp)

/-- After the walk its root is judged, and every verdict is right. -/
theorem Judging.walk (j : Judging C isLanded fetched root judged opened w) :
    Exact C isLanded fetched (walk C isLanded fetched w).ready ∧
      (walk C isLanded fetched w).ready.has root = true ∧
      ∀ x, judged x → (walk C isLanded fetched w).ready.has x = true := by
  fun_induction Orchestrator.walk C isLanded fetched w generalizing opened with
  | case1 w hs => exact ⟨j.exact, j.root.resolve_left (by simp [hs]), j.judged⟩
  | case2 w hash rest hs ih =>
    obtain ⟨opened', j'⟩ := j.walkTop hs
    exact ih j'

/-- The verdicts over all roots: every root is judged, and rightly. -/
theorem foldl_walk_exact (roots : List Hash) {ready : OrderedMap Hash Bool} (he : Exact C isLanded fetched ready) :
    Exact C isLanded fetched
        (roots.foldl (fun ready root => (walk C isLanded fetched ⟨ready, [root], .empty⟩).ready) ready) ∧
      ∀ x, x ∈ roots ∨ ready.has x = true →
        (roots.foldl (fun ready root => (walk C isLanded fetched ⟨ready, [root], .empty⟩).ready) ready).has x = true := by
  induction roots generalizing ready with
  | nil => exact ⟨he, fun x hx => hx.resolve_left List.not_mem_nil⟩
  | cons root roots ih =>
    have j : Judging C isLanded fetched root (fun x => ready.has x = true) [] ⟨ready, [root], .empty⟩ :=
      ⟨he, by simp [Layered], by simp, Or.inl List.mem_cons_self, fun x hx => hx⟩
    obtain ⟨he', hroot, hkept⟩ := j.walk
    obtain ⟨hexact, hall⟩ := ih he'
    refine ⟨hexact, fun x hx => hall x ?_⟩
    rcases hx with hx | hx
    · rcases List.mem_cons.mp hx with rfl | hx
      · exact Or.inr hroot
      · exact Or.inl hx
    · exact Or.inr (hkept x hx)

/-- The batch is exactly the waiting entries that are ready. -/
theorem mem_readyBatch_iff {o : Orchestrator T} (hk : ∀ hash entry, o.fetched.get hash = some entry → C.hash entry = hash)
    (entry : T) : entry ∈ o.readyBatch C isLanded ↔
      o.fetched.get (C.hash entry) = some entry ∧ Ready C isLanded o.fetched (C.hash entry) := by
  have h0 : Exact C isLanded o.fetched .empty := fun hash verdict h => by simp at h
  obtain ⟨hexact, hall⟩ := foldl_walk_exact o.fetched.keys h0
  unfold readyBatch
  extract_lets ready
  change Exact C isLanded o.fetched ready at hexact
  change ∀ x, x ∈ o.fetched.keys ∨ _ → ready.has x = true at hall
  rw [List.mem_filter, OrderedMap.mem_values_iff, beq_iff_eq]
  constructor
  · rintro ⟨⟨hash, hget⟩, hr⟩
    obtain rfl := hk hash entry hget
    exact ⟨hget, (hexact _ _ hr).mp rfl⟩
  · rintro ⟨hget, hr⟩
    refine ⟨⟨_, hget⟩, ?_⟩
    obtain ⟨verdict, hv⟩ := (ready.has_iff _).mp (hall _ (Or.inl ((OrderedMap.mem_keys_iff _ _).mpr ⟨entry, hget⟩)))
    have : verdict = true := (hexact _ _ hv).mpr hr
    rw [hv, this]

/-- A test that decides readiness gives the batch. -/
theorem readyBatch_eq_filter {o : Orchestrator T}
    (hk : ∀ hash entry, o.fetched.get hash = some entry → C.hash entry = hash) (test : T → Bool)
    (ht : ∀ entry ∈ o.fetched.values, test entry = true ↔ Ready C isLanded o.fetched (C.hash entry)) :
    o.readyBatch C isLanded = o.fetched.values.filter test := by
  have hmem (entry : T) : entry ∈ o.readyBatch C isLanded ↔ _ := mem_readyBatch_iff hk entry
  unfold readyBatch at hmem ⊢
  refine List.filter_congr fun entry he => ?_
  rw [Bool.eq_iff_iff, ht entry he]
  obtain ⟨hash, hget⟩ := (OrderedMap.mem_values_iff _ _).mp he
  have hself : o.fetched.get (C.hash entry) = some entry := (hk hash entry hget).symm ▸ hget
  have := hmem entry
  rw [List.mem_filter] at this
  simp only [he, true_and, hself] at this
  exact this

/-! ## The least fixpoint -/

variable (C isLanded fetched) in
/-- The waiting hashes that are ready when those of `R` are: landed, or with every parent landed or in `R`. -/
def readyStep : Set Hash →o Set Hash where
  toFun R := {hash | ∃ entry, fetched.get hash = some entry ∧
    (isLanded hash = true ∨ ∀ parent ∈ C.next entry, isLanded parent = true ∨ parent ∈ R)}
  monotone' R S hRS hash := by
    rintro ⟨entry, hget, h⟩
    exact ⟨entry, hget, h.imp_right fun hall parent hp => (hall parent hp).imp_right fun hR => hRS hR⟩

/-- The ready hashes that wait are the least fixpoint. -/
theorem mem_lfp_readyStep_iff : hash ∈ (readyStep C isLanded fetched).lfp ↔
    (∃ entry, fetched.get hash = some entry) ∧ Ready C isLanded fetched hash := by
  constructor
  · have hle : (readyStep C isLanded fetched).lfp ≤
        {hash | (∃ entry, fetched.get hash = some entry) ∧ Ready C isLanded fetched hash} := by
      refine OrderHom.lfp_le _ ?_
      rintro x ⟨entry, hget, h⟩
      refine ⟨⟨entry, hget⟩, ?_⟩
      rcases h with h | h
      · exact .landed h
      · refine .waiting hget fun parent hp => ?_
        rcases h parent hp with h | h
        · exact .landed h
        · exact h.2
    exact fun h => hle h
  · rintro ⟨hwaits, h⟩
    induction h with
    | landed h =>
      obtain ⟨entry, hget⟩ := hwaits
      rw [← OrderHom.map_lfp]
      exact ⟨entry, hget, Or.inl h⟩
    | waiting hget hp ih =>
      rw [← OrderHom.map_lfp]
      refine ⟨_, hget, Or.inr fun parent hm => ?_⟩
      cases hp parent hm with
      | landed h => exact Or.inl h
      | waiting h _ => exact Or.inr (ih parent hm ⟨_, h⟩)

theorem Ready.of_reaches {parent : Hash} (h : Ready C isLanded fetched hash)
    (hr : ReflTransGen (fun x y => isLanded x = false ∧ WaitsOn C fetched x y) hash parent) :
    Ready C isLanded fetched parent := by
  induction hr with
  | refl => exact h
  | tail _ hstep ih => exact ih.parent hstep.1 hstep.2

open Classical in
/-- The batch is, in order, the waiting entries in the least set that holds a waiting entry when it is
landed or each of its parents is landed or in the set. No entry on a cycle of entries that have not
landed is in the batch, nor one from which entries that have not landed lead to an absent parent. -/
theorem readyBatch_least_fixpoint (C : MergeCandidate T) (isLanded : Hash → Bool) (o : Orchestrator T)
    (hk : ∀ hash entry, o.fetched.get hash = some entry → C.hash entry = hash) :
    o.readyBatch C isLanded =
        o.fetched.values.filter (fun entry => C.hash entry ∈ (readyStep C isLanded o.fetched).lfp) ∧
      (∀ entry, TransGen (fun x y => isLanded x = false ∧ WaitsOn C o.fetched x y) (C.hash entry) (C.hash entry) →
        entry ∉ o.readyBatch C isLanded) ∧
      ∀ entry parent, isLanded parent = false → o.fetched.get parent = none →
        TransGen (fun x y => isLanded x = false ∧ WaitsOn C o.fetched x y) (C.hash entry) parent →
          entry ∉ o.readyBatch C isLanded := by
  refine ⟨?_, fun entry hcycle hmem => ?_, fun entry parent hl hget hpath hmem => ?_⟩
  · refine readyBatch_eq_filter hk _ fun entry he => ?_
    obtain ⟨hash, hget⟩ := (OrderedMap.mem_values_iff _ _).mp he
    have hself : o.fetched.get (C.hash entry) = some entry := (hk hash entry hget).symm ▸ hget
    rw [decide_eq_true_iff, mem_lfp_readyStep_iff]
    exact ⟨And.right, fun h => ⟨⟨entry, hself⟩, h⟩⟩
  · exact ((mem_readyBatch_iff hk entry).mp hmem).2.not_cycle hcycle
  · have hready := ((mem_readyBatch_iff hk entry).mp hmem).2
    exact not_ready_of_missing hl hget (hready.of_reaches hpath.to_reflTransGen)

/-- An orchestrator at which these entries wait. -/
def waiting (C : MergeCandidate T) (entries : List T) : Orchestrator T :=
  { create with fetched := entries.foldl (fun fetched entry => fetched.set (C.hash entry) entry) .empty }

open Classical in
/-- A root is taken; an entry that is its own parent and one with an absent parent are left. -/
theorem readyBatch_least_fixpoint_three :
    let C : MergeCandidate (Hash × List Hash) := ⟨Prod.fst, Prod.snd⟩
    let o := waiting C [("root", []), ("loop", ["loop"]), ("orphan", ["root", "gone"])]
    ("root", []) ∈ o.readyBatch C (fun _ => false) ∧ ("loop", ["loop"]) ∉ o.readyBatch C (fun _ => false) ∧
      ("orphan", ["root", "gone"]) ∉ o.readyBatch C (fun _ => false) := by
  intro C o
  have hget (hash : Hash) : o.fetched.get hash =
      if hash = "orphan" then some ("orphan", ["root", "gone"]) else if hash = "loop" then some ("loop", ["loop"])
        else if hash = "root" then some ("root", []) else none := by
    simp only [o, C, waiting, List.foldl_cons, List.foldl_nil, OrderedMap.get_set, OrderedMap.get_empty]
  have hk : ∀ hash entry, o.fetched.get hash = some entry → C.hash entry = hash := by
    intro hash entry h
    rw [hget] at h
    split_ifs at h <;> (obtain rfl := Option.some_inj.mp h; symm; assumption)
  obtain ⟨hbatch, hcycle, habsent⟩ := readyBatch_least_fixpoint C (fun _ => false) o hk
  refine ⟨?_, ?_, ?_⟩
  · have hroot : o.fetched.get "root" = some ("root", []) := by simp [hget]
    rw [hbatch, List.mem_filter, OrderedMap.mem_values_iff]
    exact ⟨⟨"root", hroot⟩, decide_eq_true (mem_lfp_readyStep_iff.mpr ⟨⟨_, hroot⟩, .waiting hroot (by simp [C])⟩)⟩
  · refine hcycle _ (.single ⟨rfl, ("loop", ["loop"]), ?_, List.mem_cons_self⟩)
    simp [hget, C]
  · refine habsent _ "gone" rfl (by simp [hget]) (.single ⟨rfl, ("orphan", ["root", "gone"]), ?_, ?_⟩)
    · simp [hget, C]
    · exact List.mem_cons_of_mem _ List.mem_cons_self

/-- A landed entry that waits still counts as landed, so an entry that has not landed is taken although it
lies on a cycle with it and descends from its absent parent. -/
theorem readyBatch_through_landed :
    let C : MergeCandidate (Hash × List Hash) := ⟨Prod.fst, Prod.snd⟩
    let isLanded : Hash → Bool := fun hash => hash = "landed"
    let o := waiting C [("landed", ["child", "gone"]), ("child", ["landed"])]
    isLanded "child" = false ∧ TransGen (WaitsOn C o.fetched) "child" "child" ∧
      TransGen (WaitsOn C o.fetched) "child" "gone" ∧ isLanded "gone" = false ∧ o.fetched.get "gone" = none ∧
      ("child", ["landed"]) ∈ o.readyBatch C isLanded := by
  intro C isLanded o
  have hget (hash : Hash) : o.fetched.get hash =
      if hash = "child" then some ("child", ["landed"]) else if hash = "landed" then some ("landed", ["child", "gone"])
        else none := by
    simp only [o, C, waiting, List.foldl_cons, List.foldl_nil, OrderedMap.get_set, OrderedMap.get_empty]
  have hk : ∀ hash entry, o.fetched.get hash = some entry → C.hash entry = hash := by
    intro hash entry h
    rw [hget] at h
    split_ifs at h <;> (obtain rfl := Option.some_inj.mp h; symm; assumption)
  have hchild : o.fetched.get "child" = some ("child", ["landed"]) := by simp [hget]
  have hlanded : o.fetched.get "landed" = some ("landed", ["child", "gone"]) := by simp [hget]
  have hup : WaitsOn C o.fetched "child" "landed" := ⟨_, hchild, List.mem_cons_self⟩
  have hcycle : WaitsOn C o.fetched "landed" "child" := ⟨_, hlanded, List.mem_cons_self⟩
  have hgone : WaitsOn C o.fetched "landed" "gone" := ⟨_, hlanded, List.mem_cons_of_mem _ List.mem_cons_self⟩
  refine ⟨by decide, .tail (.single hup) hcycle, .tail (.single hup) hgone, by decide, by simp [hget], ?_⟩
  refine (mem_readyBatch_iff hk _).mpr ⟨hchild, .waiting hchild fun parent hp => .landed ?_⟩
  rw [List.mem_singleton.mp hp]
  decide

end Orchestrator

end RecordNode
