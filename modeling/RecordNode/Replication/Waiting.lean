import RecordNode.Replication.Readiness

/-! # The index over the waiting entries

`children` lists, under each parent, the waiting entries that name it. Remembering and
forgetting keep it the exact inverse of `next`, so dropping the descendants of a
rejected hash through it reaches every waiting entry. -/

namespace RecordNode

open Foundation

namespace Orchestrator

variable {T : Type*} {C : MergeCandidate T} {o p : Orchestrator T} {entry : T}

/-- The index lists `hash` under `parent`. -/
def Child (index : OrderedMap Hash (OrderedSet Hash)) (parent hash : Hash) : Prop :=
  ∃ siblings, index.get parent = some siblings ∧ hash ∈ siblings

variable (C) in
/-- The index is the inverse of `next` over the waiting entries, without empty lists. -/
structure Inverted (o : Orchestrator T) : Prop where
  keyed : ∀ hash entry, o.fetched.get hash = some entry → C.hash entry = hash
  inverse : ∀ parent hash, Child o.children parent hash ↔ WaitsOn C o.fetched hash parent
  inhabited : ∀ parent siblings, o.children.get parent = some siblings → ∃ hash, hash ∈ siblings

theorem create_inverted : Inverted C create where
  keyed hash entry h := by simp [create] at h
  inverse parent hash := by simp [create, Child, WaitsOn]
  inhabited parent siblings h := by simp [create] at h

/-! ## Remember and forget -/

theorem child_rememberIn (hash : Hash) (parents : List Hash) (index : OrderedMap Hash (OrderedSet Hash)) (q x : Hash) :
    Child (parents.foldl (fun index parent => index.set parent (((index.get parent).getD .empty).add hash)) index) q x ↔
      q ∈ parents ∧ x = hash ∨ Child index q x := by
  induction parents generalizing index with
  | nil => simp
  | cons parent parents ih =>
    rw [List.foldl_cons, ih]
    have hset : Child (index.set parent (((index.get parent).getD .empty).add hash)) q x ↔
        q = parent ∧ x = hash ∨ Child index q x := by
      unfold Child
      by_cases hq : q = parent
      · subst hq
        simp only [OrderedMap.get_set, if_true, Option.some_inj, exists_eq_left', OrderedSet.mem_add, true_and]
        cases index.get q <;> simp
      · simp [hq]
    rw [hset, List.mem_cons]
    tauto

theorem inhabited_rememberIn (hash : Hash) (parents : List Hash) {index : OrderedMap Hash (OrderedSet Hash)}
    (h : ∀ parent siblings, index.get parent = some siblings → ∃ x, x ∈ siblings) :
    ∀ parent siblings,
      (parents.foldl (fun index parent => index.set parent (((index.get parent).getD .empty).add hash)) index).get
        parent = some siblings → ∃ x, x ∈ siblings := by
  induction parents generalizing index with
  | nil => exact h
  | cons parent parents ih =>
    refine ih fun q siblings hq => ?_
    rw [OrderedMap.get_set] at hq
    split at hq
    · obtain rfl := Option.some_inj.mp hq
      exact ⟨hash, (OrderedSet.mem_add _ _ _).mpr (Or.inl rfl)⟩
    · exact h q siblings hq

theorem get_remember (hash : Hash) :
    (o.remember C entry).fetched.get hash = if hash = C.hash entry then some entry else o.fetched.get hash :=
  OrderedMap.get_set _ _ _ _

theorem Inverted.remember (h : Inverted C o) (hu : ∀ e, o.fetched.get (C.hash entry) = some e → e = entry) :
    Inverted C (o.remember C entry) where
  keyed hash e he := by
    rw [get_remember] at he
    split at he
    case isTrue hh => exact Option.some_inj.mp he ▸ hh.symm
    case isFalse => exact h.keyed hash e he
  inverse parent hash := by
    simp only [Orchestrator.remember, child_rememberIn, h.inverse, WaitsOn, OrderedMap.get_set]
    by_cases hh : hash = C.hash entry
    · subst hh
      constructor
      · rintro (⟨hm, -⟩ | ⟨e, he, hm⟩)
        · exact ⟨entry, by simp, hm⟩
        · exact ⟨entry, by simp, hu e he ▸ hm⟩
      · rintro ⟨e, he, hm⟩
        obtain rfl : entry = e := by simpa using he
        exact Or.inl ⟨hm, rfl⟩
    · simp [hh]
  inhabited := inhabited_rememberIn _ _ h.inhabited

theorem child_forgetChild (hash : Hash) (index : OrderedMap Hash (OrderedSet Hash)) (parent q x : Hash) :
    Child (forgetChild hash index parent) q x ↔ Child index q x ∧ ¬ (q = parent ∧ x = hash) := by
  unfold forgetChild
  split
  case h_1 hn =>
    constructor
    · intro hc
      refine ⟨hc, ?_⟩
      rintro ⟨rfl, -⟩
      simp [Child, hn] at hc
    · exact And.left
  case h_2 siblings hs =>
    have hmem : Child index parent x ↔ x ∈ siblings := by simp [Child, hs]
    by_cases hq : q = parent
    · subst hq
      rw [hmem]
      split
      case isTrue hz =>
        have hx := (OrderedSet.size_eq_zero_iff _).mp hz x
        rw [OrderedSet.mem_delete] at hx
        simp only [Child, OrderedMap.get_delete, if_true, reduceCtorEq, false_and, exists_false, true_and, false_iff]
        exact hx
      case isFalse =>
        simp [Child]
    · split <;> simp [Child, hq]

theorem inhabited_forgetChild (hash : Hash) {index : OrderedMap Hash (OrderedSet Hash)} (parent : Hash)
    (h : ∀ parent siblings, index.get parent = some siblings → ∃ x, x ∈ siblings) :
    ∀ q siblings, (forgetChild hash index parent).get q = some siblings → ∃ x, x ∈ siblings := by
  intro q siblings hq
  unfold forgetChild at hq
  split at hq
  · exact h q siblings hq
  case h_2 old hold =>
    split at hq
    case isTrue =>
      rw [OrderedMap.get_delete] at hq
      split at hq
      · simp at hq
      · exact h q siblings hq
    case isFalse hz =>
      rw [OrderedMap.get_set] at hq
      split at hq
      · obtain rfl := Option.some_inj.mp hq
        rw [OrderedSet.size_eq_zero_iff] at hz
        push Not at hz
        exact hz
      · exact h q siblings hq

theorem child_forgetIn (hash : Hash) (parents : List Hash) (index : OrderedMap Hash (OrderedSet Hash)) (q x : Hash) :
    Child (parents.foldl (forgetChild hash) index) q x ↔ Child index q x ∧ ¬ (q ∈ parents ∧ x = hash) := by
  induction parents generalizing index with
  | nil => simp
  | cons parent parents ih =>
    rw [List.foldl_cons, ih, child_forgetChild, List.mem_cons]
    tauto

theorem inhabited_forgetIn (hash : Hash) (parents : List Hash) {index : OrderedMap Hash (OrderedSet Hash)}
    (h : ∀ parent siblings, index.get parent = some siblings → ∃ x, x ∈ siblings) :
    ∀ q siblings, (parents.foldl (forgetChild hash) index).get q = some siblings → ∃ x, x ∈ siblings := by
  induction parents generalizing index with
  | nil => exact h
  | cons parent parents ih => exact ih (inhabited_forgetChild hash parent h)

theorem get_forget (hash : Hash) :
    (o.forget C entry).fetched.get hash = if hash = C.hash entry then none else o.fetched.get hash :=
  OrderedMap.get_delete _ _ _

theorem Inverted.forget (h : Inverted C o) (hu : ∀ e, o.fetched.get (C.hash entry) = some e → e = entry) :
    Inverted C (o.forget C entry) where
  keyed hash e he := by
    rw [get_forget] at he
    split at he
    · simp at he
    · exact h.keyed hash e he
  inverse parent hash := by
    simp only [Orchestrator.forget, child_forgetIn, h.inverse, WaitsOn, OrderedMap.get_delete]
    by_cases hh : hash = C.hash entry
    · subst hh
      simp only [if_true, reduceCtorEq, false_and, exists_false, and_true, iff_false, not_and, not_not]
      rintro ⟨e, he, hm⟩
      exact hu e he ▸ hm
    · simp [hh]
  inhabited := inhabited_forgetIn _ _ h.inhabited

/-- The bookkeeping beside the waiting entries is untouched. -/
structure SameRuns (o p : Orchestrator T) : Prop where
  rejected : p.rejected = o.rejected
  running : p.running = o.running
  scheduled : p.scheduled = o.scheduled

theorem foldl_forget_sameRuns (batch : List T) : SameRuns o (batch.foldl (forget C) o) := by
  induction batch generalizing o with
  | nil => exact ⟨rfl, rfl, rfl⟩
  | cons entry batch ih => exact ⟨ih.rejected, ih.running, ih.scheduled⟩

theorem foldl_remember_sameRuns (batch : List T) : SameRuns o (batch.foldl (remember C) o) := by
  induction batch generalizing o with
  | nil => exact ⟨rfl, rfl, rfl⟩
  | cons entry batch ih => exact ⟨ih.rejected, ih.running, ih.scheduled⟩

theorem get_foldl_forget (batch : List T) (hash : Hash) :
    (batch.foldl (forget C) o).fetched.get hash = if hash ∈ batch.map C.hash then none else o.fetched.get hash := by
  induction batch generalizing o with
  | nil => simp
  | cons entry batch ih =>
    rw [List.foldl_cons, ih, get_forget, List.map_cons]
    by_cases h : hash = C.hash entry <;> simp [h]

theorem Inverted.foldl_forget (h : Inverted C o) {batch : List T}
    (hu : ∀ entry ∈ batch, ∀ e, o.fetched.get (C.hash entry) = some e → e = entry) :
    Inverted C (batch.foldl (Orchestrator.forget C) o) := by
  induction batch generalizing o with
  | nil => exact h
  | cons entry batch ih =>
    refine ih (h.forget (hu entry List.mem_cons_self)) fun x hx e he => hu x (List.mem_cons_of_mem _ hx) e ?_
    rw [get_forget] at he
    split at he
    · simp at he
    · exact he

/-- Entries with different hashes are all waiting once remembered. -/
theorem get_foldl_remember {batch : List T} (hu : ∀ x ∈ batch, ∀ y ∈ batch, C.hash x = C.hash y → x = y)
    (hash : Hash) : (∀ entry ∈ batch, hash = C.hash entry →
        (batch.foldl (remember C) o).fetched.get hash = some entry) ∧
      (hash ∉ batch.map C.hash → (batch.foldl (remember C) o).fetched.get hash = o.fetched.get hash) := by
  induction batch generalizing o with
  | nil => simp
  | cons x batch ih =>
    obtain ⟨hin, hout⟩ := ih fun y hy z hz => hu y (List.mem_cons_of_mem _ hy) z (List.mem_cons_of_mem _ hz)
    refine ⟨fun entry he heq => ?_, fun hn => ?_⟩
    · by_cases hm : hash ∈ batch.map C.hash
      · obtain ⟨y, hy, hyh⟩ := List.mem_map.mp hm
        have : entry = y := hu entry he y (List.mem_cons_of_mem _ hy) (heq.symm.trans hyh.symm)
        exact hin entry (this ▸ hy) heq
      · have hx : entry = x := by
          rcases List.mem_cons.mp he with rfl | he
          · rfl
          · exact absurd (List.mem_map.mpr ⟨entry, he, heq.symm⟩) hm
        rw [List.foldl_cons, hout hm, get_remember, if_pos (hx ▸ heq), hx]
    · rw [List.map_cons, List.mem_cons, not_or] at hn
      rw [List.foldl_cons, hout hn.2, get_remember, if_neg hn.1]

theorem Inverted.foldl_remember (h : Inverted C o) {batch : List T}
    (hu : ∀ x ∈ batch, ∀ y ∈ batch, C.hash x = C.hash y → x = y)
    (hn : ∀ entry ∈ batch, ∀ e, o.fetched.get (C.hash entry) = some e → e = entry) :
    Inverted C (batch.foldl (Orchestrator.remember C) o) := by
  induction batch generalizing o with
  | nil => exact h
  | cons entry batch ih =>
    refine ih (h.remember (hn entry List.mem_cons_self))
      (fun y hy z hz => hu y (List.mem_cons_of_mem _ hy) z (List.mem_cons_of_mem _ hz)) fun x hx e he => ?_
    rw [get_remember] at he
    split at he
    case isTrue heq =>
      have := hu x (List.mem_cons_of_mem _ hx) entry List.mem_cons_self heq
      exact this ▸ (Option.some_inj.mp he).symm
    case isFalse => exact hn x (List.mem_cons_of_mem _ hx) e he

/-! ## Dropping descendants -/

/-- From `o` to `p` some waiting entries were rejected, and nothing else happened. -/
structure Dropped (o p : Orchestrator T) : Prop where
  waiting : ∀ hash entry, p.fetched.get hash = some entry → o.fetched.get hash = some entry
  gone : ∀ hash entry, o.fetched.get hash = some entry → p.fetched.get hash = some entry ∨ hash ∈ p.rejected
  kept : ∀ hash, hash ∈ o.rejected → hash ∈ p.rejected
  only : ∀ hash, hash ∈ p.rejected → hash ∈ o.rejected ∨ ∃ entry, o.fetched.get hash = some entry
  running : p.running = o.running
  scheduled : p.scheduled = o.scheduled

theorem Dropped.rfl : Dropped o o :=
  ⟨fun _ _ h => h, fun _ _ h => Or.inl h, fun _ h => h, fun _ h => Or.inl h, Eq.refl _, Eq.refl _⟩

theorem Dropped.trans {q : Orchestrator T} (h : Dropped o p) (h' : Dropped p q) : Dropped o q where
  waiting hash entry he := h.waiting hash entry (h'.waiting hash entry he)
  gone hash entry he := by
    rcases h.gone hash entry he with he | hr
    · exact h'.gone hash entry he
    · exact Or.inr (h'.kept hash hr)
  kept hash hr := h'.kept hash (h.kept hash hr)
  only hash hr := by
    rcases h'.only hash hr with hr | ⟨entry, he⟩
    · exact h.only hash hr
    · exact Or.inr ⟨entry, h.waiting hash entry he⟩
  running := h'.running.trans h.running
  scheduled := h'.scheduled.trans h.scheduled

variable (C) in
/-- The index is exact and no rejected entry waits. -/
structure Clean (o : Orchestrator T) : Prop where
  inverted : Inverted C o
  apart : ∀ hash ∈ o.rejected, o.fetched.get hash = none

variable (C) in
/-- Dropping some children: each newly rejected hash went to the queue. -/
structure Dropping (s s' : Orchestrator T × List Hash) : Prop where
  dropped : Dropped s.1 s'.1
  clean : Clean C s'.1
  queued : ∀ hash ∈ s'.1.rejected, hash ∈ s.1.rejected ∨ hash ∈ s'.2
  kept : ∀ hash ∈ s.2, hash ∈ s'.2

variable {s : Orchestrator T × List Hash}

theorem dropChild_dropping (hc : Clean C s.1) (child : Hash) :
    Dropping C s (dropChild C s child) ∧ (dropChild C s child).1.fetched.get child = none := by
  have hsame : Dropping C s s := ⟨Dropped.rfl, hc, fun _ h => Or.inl h, fun _ h => h⟩
  unfold dropChild
  split
  case h_1 hn => exact ⟨hsame, hn⟩
  case h_2 entry hget =>
    have hkey := hc.inverted.keyed child entry hget
    split
    case isTrue hr =>
      have := hc.apart child ((OrderedSet.has_iff _ _).mp hr)
      simp [hget] at this
    case isFalse hr =>
      have hfor : ∀ hash, (s.1.forget C entry).fetched.get hash = if hash = child then none else s.1.fetched.get hash :=
        fun hash => hkey ▸ get_forget hash
      have hinv : Inverted C (s.1.forget C entry) := hc.inverted.forget fun e he => by
        rw [hkey, hget] at he
        exact (Option.some_inj.mp he).symm
      refine ⟨⟨⟨fun hash e he => ?_, fun hash e he => ?_, fun hash hm => ?_, fun hash hm => ?_, rfl, rfl⟩,
        ⟨⟨hinv.keyed, hinv.inverse, hinv.inhabited⟩, fun hash hm => ?_⟩, fun hash hm => ?_, fun hash hm => ?_⟩, ?_⟩
      · change (s.1.forget C entry).fetched.get hash = some e at he
        rw [hfor] at he
        split at he
        · simp at he
        · exact he
      · change (s.1.forget C entry).fetched.get hash = some e ∨ _
        rw [hfor]
        by_cases hh : hash = child
        · exact Or.inr ((OrderedSet.mem_add _ _ _).mpr (Or.inl hh))
        · rw [if_neg hh]
          exact Or.inl he
      · exact (OrderedSet.mem_add _ _ _).mpr (Or.inr hm)
      · rcases (OrderedSet.mem_add _ _ _).mp hm with rfl | hm
        · exact Or.inr ⟨entry, hget⟩
        · exact Or.inl hm
      · change (s.1.forget C entry).fetched.get hash = none
        rw [hfor]
        split
        · rfl
        case isFalse hh => exact hc.apart hash (((OrderedSet.mem_add _ _ _).mp hm).resolve_left hh)
      · rcases (OrderedSet.mem_add _ _ _).mp hm with rfl | hm
        · exact Or.inr (List.mem_append_right _ (List.mem_singleton.mpr rfl))
        · exact Or.inl hm
      · exact List.mem_append_left _ hm
      · change (s.1.forget C entry).fetched.get child = none
        rw [hfor, if_pos rfl]

theorem foldl_dropChild_dropping (children : List Hash) (hc : Clean C s.1) :
    Dropping C s (children.foldl (dropChild C) s) ∧
      ∀ child ∈ children, (children.foldl (dropChild C) s).1.fetched.get child = none := by
  induction children generalizing s with
  | nil => exact ⟨⟨Dropped.rfl, hc, fun _ h => Or.inl h, fun _ h => h⟩, by simp⟩
  | cons child children ih =>
    obtain ⟨d, hgone⟩ := dropChild_dropping hc child
    obtain ⟨d', hrest⟩ := ih d.clean
    refine ⟨⟨d.dropped.trans d'.dropped, d'.clean, fun hash hm => ?_, fun hash hm => d'.kept hash (d.kept hash hm)⟩,
      fun x hx => ?_⟩
    · rcases d'.queued hash hm with hm | hm
      · exact (d.queued hash hm).imp_right (d'.kept hash)
      · exact Or.inr hm
    · rcases List.mem_cons.mp hx with rfl | hx
      · cases he : (children.foldl (dropChild C) (dropChild C s x)).1.fetched.get x with
        | none => exact he
        | some e =>
          have := d'.dropped.waiting x e he
          simp [hgone] at this
      · exact hrest x hx

/-- The children of one rejected hash are all reached through the index. -/
theorem dropChildren_dropping (hc : Clean C o) (hash : Hash) :
    Dropping C (o, []) (dropChildren C o hash) ∧ ∀ x, ¬ WaitsOn C (dropChildren C o hash).1.fetched x hash := by
  obtain ⟨d, hgone⟩ := foldl_dropChild_dropping (s := (o, [])) (((o.children.get hash).map OrderedSet.items).getD []) hc
  refine ⟨d, fun x hx => ?_⟩
  obtain ⟨entry, he, hm⟩ := hx
  obtain ⟨siblings, hs, hx⟩ := (hc.inverted.inverse hash x).mpr ⟨entry, d.dropped.waiting x entry he, hm⟩
  have hx : x ∈ siblings.items := hx
  have := hgone x (by simpa [hs] using hx)
  rw [dropChildren, this] at he
  simp at he

theorem dropRejectedDescendants_clean (hc : Clean C o) (queue : List Hash) :
    Dropped o (o.dropRejectedDescendants C queue) ∧ Clean C (o.dropRejectedDescendants C queue) := by
  fun_induction Orchestrator.dropRejectedDescendants C o queue with
  | case1 => exact ⟨Dropped.rfl, hc⟩
  | case2 o hash rest ih =>
    obtain ⟨d, -⟩ := dropChildren_dropping hc hash
    exact ⟨d.dropped.trans (ih d.clean).1, (ih d.clean).2⟩

/-- When every rejected parent of a waiting entry is in the queue, none is left in the end. -/
theorem dropRejectedDescendants_complete (hc : Clean C o) {queue : List Hash}
    (hq : ∀ x parent, WaitsOn C o.fetched x parent → parent ∈ o.rejected → parent ∈ queue) :
    ∀ x parent, WaitsOn C (o.dropRejectedDescendants C queue).fetched x parent →
      parent ∉ (o.dropRejectedDescendants C queue).rejected := by
  fun_induction Orchestrator.dropRejectedDescendants C o queue with
  | case1 o => exact fun x parent hn hr => List.not_mem_nil (hq x parent hn hr)
  | case2 o hash rest ih =>
    obtain ⟨d, hnone⟩ := dropChildren_dropping hc hash
    refine ih d.clean fun x parent hn hr => ?_
    rcases d.queued parent hr with hr | hr
    · have hn' : WaitsOn C o.fetched x parent := by
        obtain ⟨entry, he, hm⟩ := hn
        exact ⟨entry, d.dropped.waiting x entry he, hm⟩
      rcases List.mem_cons.mp (hq x parent hn' hr) with rfl | hm
      · exact absurd hn (hnone x)
      · exact List.mem_append_right _ hm
    · exact List.mem_append_left _ (List.mem_reverse.mpr hr)

end Orchestrator

end RecordNode
