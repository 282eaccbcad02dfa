import RecordNode.Foundation.Run
import RecordNode.Replication.Waiting

/-! # The orchestrator with its runs

The orchestrator together with the promise chain that runs its merges one behind the
other, the entries the oplog holds, and what was added. A run takes the ready batch
when the run before it has settled; until its merge comes back, entries arrive and
land. The oplog takes an entry in only over its parents, and a hash names one entry. -/

namespace RecordNode

open Foundation

structure Supervised (T : Type*) where
  orchestrator : Orchestrator T
  /-- The entries of the oplog. -/
  landed : List T
  /-- The runs behind `tail`, the next to settle first: not begun, or with its batch at the merge. -/
  tail : List (Option (List T))
  added : List T
  /-- The runs that have ended. -/
  ended : ℕ

namespace Supervised

open Orchestrator

variable {T : Type*} (C : MergeCandidate T)

def create (landed : List T) : Supervised T where
  orchestrator := .create
  landed := landed
  tail := []
  added := []
  ended := 0

inductive Label (T : Type*) where
  | add (entry : T)
  /-- The next run begins, the one before it being settled. -/
  | run
  | mergeDone
  | mergeThrew
  /-- The oplog takes the entry in, by the merge or otherwise. -/
  | land (entry : T)

def isLanded (s : Supervised T) (hash : Hash) : Bool := (s.landed.map C.hash).contains hash

/-- Under a hash these entries know, they know this entry. -/
def Agrees (known : List T) (entry : T) : Prop := ∀ e ∈ known, C.hash e = C.hash entry → C.next e = C.next entry

instance (known : List T) (entry : T) : Decidable (Agrees C known entry) :=
  inferInstanceAs (Decidable (∀ e ∈ known, C.hash e = C.hash entry → C.next e = C.next entry))

/-- The merges that have begun and not come back. -/
def merging (s : Supervised T) : List (List T) := s.tail.filterMap id

def addEntry (s : Supervised T) (entry : T) : Supervised T :=
  let o := s.orchestrator.add C entry
  { s with
    orchestrator := o
    added := s.added ++ [entry]
    tail := if o.scheduled && !s.orchestrator.scheduled then s.tail ++ [none] else s.tail }

def run (s : Supervised T) (rest : List (Option (List T))) : Supervised T :=
  let taken := s.orchestrator.runBatch C (s.isLanded C)
  { s with
    orchestrator := taken.1
    tail := if taken.2.isEmpty then rest else some taken.2 :: rest
    ended := if taken.2.isEmpty then s.ended + 1 else s.ended }

def step (s : Supervised T) : Label T → Option (Supervised T)
  | .add entry =>
    if C.hash entry ∉ s.added.map C.hash ∧ Agrees C s.landed entry then some (s.addEntry C entry) else none
  | .run =>
    match s.tail with
    | none :: rest => some (s.run C rest)
    | _ => none
  | .mergeDone =>
    match s.tail with
    | some batch :: rest => some { s with
        orchestrator := s.orchestrator.runDone C (s.isLanded C) batch
        tail := rest
        ended := s.ended + 1 }
    | _ => none
  | .mergeThrew =>
    match s.tail with
    | some batch :: rest => some { s with
        orchestrator := s.orchestrator.runFailed C batch
        tail := rest
        ended := s.ended + 1 }
    | _ => none
  | .land entry =>
    if Agrees C s.added entry ∧ (C.next entry).all (s.isLanded C) then
      some { s with landed := s.landed ++ [entry] }
    else none

/-- The chain of runs: one merge at most, in front, and one run to come if it is scheduled. -/
def Chained (s : Supervised T) : Prop :=
  s.tail = s.orchestrator.running.toList.map some ++ if s.orchestrator.scheduled then [none] else []

structure Sound (s : Supervised T) : Prop where
  chained : s.Chained
  closed : ∀ entry ∈ s.landed, ∀ parent ∈ C.next entry, s.isLanded C parent = true
  agrees : ∀ entry ∈ s.added, Agrees C s.landed entry
  clean : s.orchestrator.Clean C
  unique : ∀ e ∈ s.added, ∀ e' ∈ s.added, C.hash e = C.hash e' → e = e'
  waiting : ∀ hash entry, s.orchestrator.fetched.get hash = some entry → entry ∈ s.added
  batched : ∀ batch, s.orchestrator.running = some batch → ∀ entry ∈ batch, entry ∈ s.added ∧
    s.orchestrator.fetched.get (C.hash entry) = none ∧ C.hash entry ∉ s.orchestrator.rejected ∧
    ∀ parent ∈ C.next entry, s.isLanded C parent = true ∨ parent ∈ batch.map C.hash
  rejected : ∀ hash ∈ s.orchestrator.rejected, hash ∈ s.added.map C.hash
  accounted : ∀ entry ∈ s.added, s.orchestrator.fetched.get (C.hash entry) = some entry ∨
    (∃ batch, s.orchestrator.running = some batch ∧ entry ∈ batch) ∨ s.isLanded C (C.hash entry) = true ∨
    C.hash entry ∈ s.orchestrator.rejected

variable {C} {s : Supervised T}

theorem isLanded_iff (hash : Hash) : s.isLanded C hash = true ↔ ∃ entry ∈ s.landed, C.hash entry = hash := by
  simp [isLanded]

theorem create_sound {landed : List T}
    (hc : ∀ entry ∈ landed, ∀ parent ∈ C.next entry, parent ∈ landed.map C.hash) : Sound C (create landed) where
  chained := rfl
  closed entry he parent hp := by simpa [isLanded, create] using hc entry he parent hp
  agrees e he := absurd he List.not_mem_nil
  clean := ⟨create_inverted, fun hash h => absurd h (OrderedSet.mem_empty hash)⟩
  unique e he := absurd he List.not_mem_nil
  waiting hash entry h := by simp [create, Orchestrator.create] at h
  batched batch h := by simp [create, Orchestrator.create] at h
  rejected hash h := absurd h (OrderedSet.mem_empty hash)
  accounted entry h := absurd h List.not_mem_nil

theorem Sound.land (h : Sound C s) {entry : T} (ha : Agrees C s.added entry)
    (hp : (C.next entry).all (s.isLanded C) = true) : Sound C { s with landed := s.landed ++ [entry] } := by
  have hl : ∀ hash, s.isLanded C hash = true → isLanded C { s with landed := s.landed ++ [entry] } hash = true := by
    intro hash hm
    obtain ⟨e, he, heq⟩ := (isLanded_iff hash).mp hm
    exact (isLanded_iff hash).mpr ⟨e, List.mem_append_left _ he, heq⟩
  refine
    { h with
      closed := fun e he parent hm => hl parent ?_
      agrees := fun e he x hx heq => ?_
      batched := fun batch hb e he => ?_
      accounted := fun e he => ?_ }
  · rcases List.mem_append.mp he with he | he
    · exact h.closed e he parent hm
    · exact List.all_eq_true.mp hp parent (List.mem_singleton.mp he ▸ hm)
  · rcases List.mem_append.mp hx with hx | hx
    · exact h.agrees e he x hx heq
    · obtain rfl := List.mem_singleton.mp hx
      exact (ha e he heq.symm).symm
  · obtain ⟨h1, h2, h3, h4⟩ := h.batched batch hb e he
    exact ⟨h1, h2, h3, fun parent hp => (h4 parent hp).imp_left (hl parent)⟩
  · rcases h.accounted e he with h | h | h | h
    · exact Or.inl h
    · exact Or.inr (Or.inl h)
    · exact Or.inr (Or.inr (Or.inl (hl _ h)))
    · exact Or.inr (Or.inr (Or.inr h))

/-- A new entry collides with nothing. -/
theorem Sound.fresh (h : Sound C s) {entry : T} (hnew : C.hash entry ∉ s.added.map C.hash) :
    s.orchestrator.fetched.get (C.hash entry) = none ∧ C.hash entry ∉ s.orchestrator.rejected ∧
      ∀ batch, s.orchestrator.running = some batch → ∀ e ∈ batch, C.hash e ≠ C.hash entry := by
  refine ⟨?_, fun hr => hnew (h.rejected _ hr), fun batch hb e he heq => ?_⟩
  · cases hget : s.orchestrator.fetched.get (C.hash entry) with
    | none => rfl
    | some e =>
      have hkey := h.clean.inverted.keyed _ e hget
      exact absurd (List.mem_map.mpr ⟨e, h.waiting _ e hget, hkey⟩) hnew
  · exact hnew (List.mem_map.mpr ⟨e, (h.batched batch hb e he).1, heq⟩)

theorem Sound.unique_append (h : Sound C s) {entry : T} (hnew : C.hash entry ∉ s.added.map C.hash) :
    ∀ e ∈ s.added ++ [entry], ∀ e' ∈ s.added ++ [entry], C.hash e = C.hash e' → e = e' := by
  have hne : ∀ e ∈ s.added, C.hash e ≠ C.hash entry := fun e he heq => hnew (List.mem_map.mpr ⟨e, he, heq⟩)
  intro e he e' he' heq
  rcases List.mem_append.mp he with he | he <;> rcases List.mem_append.mp he' with he' | he'
  · exact h.unique e he e' he' heq
  · exact absurd (heq.trans (by rw [List.mem_singleton.mp he'])) (hne e he)
  · exact absurd (heq.symm.trans (by rw [List.mem_singleton.mp he])) (hne e' he')
  · rw [List.mem_singleton.mp he, List.mem_singleton.mp he']

/-- `add`: dropped under a rejected parent, else remembered. -/
theorem add_cases (o : Orchestrator T) (entry : T) :
    ((C.next entry).any o.rejected.has = true ∧ o.add C entry = { o with rejected := o.rejected.add (C.hash entry) }) ∨
      ((∀ parent ∈ C.next entry, parent ∉ o.rejected) ∧
        o.add C entry = { o.remember C entry with scheduled := true }) := by
  unfold Orchestrator.add
  split
  case isTrue h => exact Or.inl ⟨h, rfl⟩
  case isFalse h =>
    refine Or.inr ⟨fun parent hp hr => h ?_, rfl⟩
    exact List.any_eq_true.mpr ⟨parent, hp, (OrderedSet.has_iff _ _).mpr hr⟩

theorem Sound.addEntry (h : Sound C s) {entry : T} (hnew : C.hash entry ∉ s.added.map C.hash)
    (ha : Agrees C s.landed entry) : Sound C (s.addEntry C entry) := by
  have hagrees : ∀ e ∈ s.added ++ [entry], Agrees C s.landed e := by
    intro e he
    rcases List.mem_append.mp he with he | he
    · exact h.agrees e he
    · exact List.mem_singleton.mp he ▸ ha
  obtain ⟨hfetched, hrejected, hbatch⟩ := h.fresh hnew
  have hunique := h.unique_append hnew
  rcases add_cases s.orchestrator entry with ⟨-, hadd⟩ | ⟨-, hadd⟩
  · have heq : s.addEntry C entry = { s with
        orchestrator := { s.orchestrator with rejected := s.orchestrator.rejected.add (C.hash entry) }
        added := s.added ++ [entry] } := by
      unfold Supervised.addEntry
      rw [hadd]
      simp
    rw [heq]
    refine
      { chained := h.chained
        closed := h.closed
        agrees := hagrees
        clean := ⟨⟨h.clean.inverted.keyed, h.clean.inverted.inverse, h.clean.inverted.inhabited⟩, fun hash hm => ?_⟩
        unique := hunique
        waiting := fun hash e he => List.mem_append_left _ (h.waiting hash e he)
        batched := fun batch hb e he => ?_
        rejected := fun hash hm => ?_
        accounted := fun e he => ?_ }
    · rcases (OrderedSet.mem_add _ _ _).mp hm with rfl | hm
      · exact hfetched
      · exact h.clean.apart hash hm
    · obtain ⟨h1, h2, h3, h4⟩ := h.batched batch hb e he
      refine ⟨List.mem_append_left _ h1, h2, fun hm => ?_, h4⟩
      exact ((OrderedSet.mem_add _ _ _).mp hm).elim (hbatch batch hb e he) h3
    · rw [List.map_append]
      rcases (OrderedSet.mem_add _ _ _).mp hm with rfl | hm
      · exact List.mem_append_right _ List.mem_cons_self
      · exact List.mem_append_left _ (h.rejected hash hm)
    · rcases List.mem_append.mp he with he | he
      · rcases h.accounted e he with h | h | h | h
        · exact Or.inl h
        · exact Or.inr (Or.inl h)
        · exact Or.inr (Or.inr (Or.inl h))
        · exact Or.inr (Or.inr (Or.inr ((OrderedSet.mem_add _ _ _).mpr (Or.inr h))))
      · obtain rfl := List.mem_singleton.mp he
        exact Or.inr (Or.inr (Or.inr ((OrderedSet.mem_add _ _ _).mpr (Or.inl rfl))))
  · have hinv : Inverted C (s.orchestrator.remember C entry) :=
      h.clean.inverted.remember fun e he => by simp [hfetched] at he
    have hget : ∀ hash e, s.orchestrator.fetched.get hash = some e →
        (s.orchestrator.remember C entry).fetched.get hash = some e := by
      intro hash e he
      rw [get_remember, if_neg]
      · exact he
      · rintro rfl
        simp [hfetched] at he
    have heq : s.addEntry C entry = { s with
        orchestrator := { s.orchestrator.remember C entry with scheduled := true }
        added := s.added ++ [entry]
        tail := if s.orchestrator.scheduled then s.tail else s.tail ++ [none] } := by
      unfold Supervised.addEntry
      rw [hadd]
      cases s.orchestrator.scheduled <;> rfl
    rw [heq]
    refine
      { chained := ?_
        closed := h.closed
        agrees := hagrees
        clean := ⟨⟨hinv.keyed, hinv.inverse, hinv.inhabited⟩, fun hash hm => ?_⟩
        unique := hunique
        waiting := fun hash e he => ?_
        batched := fun batch hb e he => ?_
        rejected := fun hash hm => List.map_append ▸ List.mem_append_left _ (h.rejected hash hm)
        accounted := fun e he => ?_ }
    · have hc := h.chained
      simp only [Chained] at hc ⊢
      rw [hc]
      cases s.orchestrator.scheduled <;> simp [Orchestrator.remember]
    · change (s.orchestrator.remember C entry).fetched.get hash = none
      rw [get_remember, if_neg]
      · exact h.clean.apart hash hm
      · rintro rfl
        exact hrejected hm
    · change (s.orchestrator.remember C entry).fetched.get hash = some e at he
      rw [get_remember] at he
      split at he
      · exact List.mem_append_right _ (List.mem_singleton.mpr (Option.some_inj.mp he).symm)
      · exact List.mem_append_left _ (h.waiting hash e he)
    · obtain ⟨h1, h2, h3, h4⟩ := h.batched batch hb e he
      refine ⟨List.mem_append_left _ h1, ?_, h3, h4⟩
      change (s.orchestrator.remember C entry).fetched.get _ = none
      rw [get_remember, if_neg (hbatch batch hb e he)]
      exact h2
    · rcases List.mem_append.mp he with he | he
      · rcases h.accounted e he with h | h | h | h
        · exact Or.inl (hget _ _ h)
        · exact Or.inr (Or.inl h)
        · exact Or.inr (Or.inr (Or.inl h))
        · exact Or.inr (Or.inr (Or.inr h))
      · obtain rfl := List.mem_singleton.mp he
        refine Or.inl ?_
        change (s.orchestrator.remember C e).fetched.get _ = some e
        rw [get_remember, if_pos rfl]

/-- A run that is next in the chain is scheduled, and no merge is under way. -/
theorem Sound.run_next (h : Sound C s) {rest : List (Option (List T))} (ht : s.tail = none :: rest) :
    s.orchestrator.running = none ∧ s.orchestrator.scheduled = true ∧ rest = [] := by
  have hc := h.chained
  rw [Chained, ht] at hc
  cases hr : s.orchestrator.running with
  | some batch => simp [hr] at hc
  | none =>
    cases hs : s.orchestrator.scheduled with
    | false => simp [hr, hs] at hc
    | true => simpa [hr, hs] using hc

/-- A merge under way is the running batch. -/
theorem Sound.merge_next (h : Sound C s) {batch : List T} {rest : List (Option (List T))}
    (ht : s.tail = some batch :: rest) : s.orchestrator.running = some batch ∧
      rest = if s.orchestrator.scheduled then [none] else [] := by
  have hc := h.chained
  rw [Chained, ht] at hc
  cases hr : s.orchestrator.running with
  | none =>
    cases hs : s.orchestrator.scheduled <;> simp [hr, hs] at hc
  | some batch' =>
    simp only [hr, Option.toList_some, List.map_cons, List.map_nil, List.cons_append, List.nil_append,
      List.cons.injEq, Option.some.injEq] at hc
    exact ⟨by rw [hc.1], hc.2⟩

theorem Sound.mem_readyBatch (h : Sound C s) {entry : T} :
    entry ∈ s.orchestrator.readyBatch C (s.isLanded C) ↔
      s.orchestrator.fetched.get (C.hash entry) = some entry ∧
        Ready C (s.isLanded C) s.orchestrator.fetched (C.hash entry) :=
  mem_readyBatch_iff h.clean.inverted.keyed entry

/-- A ready parent has landed or goes in the same batch. -/
theorem Sound.batch_closed (h : Sound C s) {entry : T} (he : entry ∈ s.orchestrator.readyBatch C (s.isLanded C))
    {parent : Hash} (hp : parent ∈ C.next entry) :
    s.isLanded C parent = true ∨ parent ∈ (s.orchestrator.readyBatch C (s.isLanded C)).map C.hash := by
  obtain ⟨hget, hready⟩ := h.mem_readyBatch.mp he
  by_cases hl : s.isLanded C (C.hash entry) = true
  · obtain ⟨e, hel, heq⟩ := (isLanded_iff _).mp hl
    exact Or.inl (h.closed e hel parent (h.agrees entry (h.waiting _ _ hget) e hel heq ▸ hp))
  · have hpr := hready.parent (by simpa using hl) ⟨entry, hget, hp⟩
    cases hpr with
    | landed hpl => exact Or.inl hpl
    | waiting hpw hall =>
      have hkey := h.clean.inverted.keyed _ _ hpw
      exact Or.inr (List.mem_map.mpr ⟨_, h.mem_readyBatch.mpr (hkey ▸ ⟨hpw, .waiting hpw hall⟩), hkey⟩)

/-- The ready batch leaves the waiting entries and is at the merge, unless it is empty. -/
theorem Sound.take (h : Sound C s) (hrun : s.orchestrator.running = none) {batch : List T} {o : Orchestrator T}
    {ended : ℕ} (hmem : ∀ entry ∈ batch, s.orchestrator.fetched.get (C.hash entry) = some entry)
    (hclosed : ∀ entry ∈ batch, ∀ parent ∈ C.next entry,
      s.isLanded C parent = true ∨ parent ∈ batch.map C.hash)
    (hinv : Inverted C o) (hrej : o.rejected = s.orchestrator.rejected)
    (hrunning : o.running = if batch.isEmpty then none else some batch) (hsched : o.scheduled = false)
    (hget : ∀ hash, o.fetched.get hash =
      if hash ∈ batch.map C.hash then none else s.orchestrator.fetched.get hash) :
    Sound C { s with
      orchestrator := o
      tail := if batch.isEmpty then [] else some batch :: []
      ended := ended } := by
  refine
    { chained := ?_
      closed := h.closed
      agrees := h.agrees
      clean := ⟨hinv, fun hash hm => ?_⟩
      unique := h.unique
      waiting := fun hash entry hg => ?_
      batched := fun b hb entry he => ?_
      rejected := fun hash hm => h.rejected hash (hrej ▸ hm)
      accounted := fun entry he => ?_ }
  · simp only [Chained, hrunning, hsched]
    cases batch <;> rfl
  · rw [hget]
    split
    · rfl
    · exact h.clean.apart hash (hrej ▸ hm)
  · rw [hget] at hg
    split at hg
    · simp at hg
    · exact h.waiting hash entry hg
  · have hbe : b = batch := by
      rw [hrunning] at hb
      split at hb
      · simp at hb
      · exact (Option.some_inj.mp hb).symm
    subst hbe
    refine ⟨h.waiting _ _ (hmem entry he), ?_, fun hm => ?_, hclosed entry he⟩
    · rw [hget, if_pos (List.mem_map.mpr ⟨entry, he, rfl⟩)]
    · have := h.clean.apart _ (hrej ▸ hm)
      simp [hmem entry he] at this
  · rcases h.accounted entry he with hg | ⟨b, hb, -⟩ | hg | hg
    · by_cases hin : C.hash entry ∈ batch.map C.hash
      · obtain ⟨x, hx, hxe⟩ := List.mem_map.mp hin
        have : x = entry := h.unique x (h.waiting _ _ (hmem x hx)) entry he hxe
        refine Or.inr (Or.inl ⟨batch, ?_, this ▸ hx⟩)
        rw [hrunning]
        cases batch with
        | nil => simp at hx
        | cons _ _ => rfl
      · refine Or.inl ?_
        rw [hget, if_neg hin]
        exact hg
    · simp [hrun] at hb
    · exact Or.inr (Or.inr (Or.inl hg))
    · exact Or.inr (Or.inr (Or.inr (hrej ▸ hg)))

theorem Sound.run (h : Sound C s) {rest : List (Option (List T))} (ht : s.tail = none :: rest) :
    Sound C (s.run C rest) := by
  obtain ⟨hrun, -, rfl⟩ := h.run_next ht
  have hmem : ∀ entry ∈ s.orchestrator.readyBatch C (s.isLanded C),
      s.orchestrator.fetched.get (C.hash entry) = some entry := fun entry he => (h.mem_readyBatch.mp he).1
  have hsame : SameRuns _ (s.orchestrator.runBatch C (s.isLanded C)).1 := foldl_forget_sameRuns _
  refine h.take hrun hmem (fun entry he parent hp => h.batch_closed he hp) ?_ hsame.rejected hsame.running
    hsame.scheduled (get_foldl_forget _)
  apply Inverted.foldl_forget
  · exact ⟨h.clean.inverted.keyed, h.clean.inverted.inverse, h.clean.inverted.inhabited⟩
  · intro entry he e hg
    exact Option.some_inj.mp (hg.symm.trans (hmem entry he))

theorem Sound.mergeThrew (h : Sound C s) {batch : List T} {rest : List (Option (List T))}
    (ht : s.tail = some batch :: rest) :
    Sound C { s with
      orchestrator := s.orchestrator.runFailed C batch
      tail := rest
      ended := s.ended + 1 } ∧
      ∀ entry ∈ batch, (s.orchestrator.runFailed C batch).fetched.get (C.hash entry) = some entry := by
  obtain ⟨hrun, hrest⟩ := h.merge_next ht
  have hu : ∀ x ∈ batch, ∀ y ∈ batch, C.hash x = C.hash y → x = y := fun x hx y hy =>
    h.unique x (h.batched batch hrun x hx).1 y (h.batched batch hrun y hy).1
  have hget (hash : Hash) := get_foldl_remember (o := s.orchestrator) hu hash
  have hsame : SameRuns s.orchestrator (batch.foldl (remember C) s.orchestrator) := foldl_remember_sameRuns batch
  have hinv : Inverted C (batch.foldl (remember C) s.orchestrator) :=
    h.clean.inverted.foldl_remember hu fun entry he e hg => by simp [(h.batched batch hrun entry he).2.1] at hg
  unfold runFailed
  generalize batch.foldl (remember C) s.orchestrator = o at *
  have hback : ∀ entry ∈ batch, o.fetched.get (C.hash entry) = some entry :=
    fun entry he => (hget _).1 entry he rfl
  refine ⟨?_, hback⟩
  refine
    { chained := ?_
      closed := h.closed
      agrees := h.agrees
      clean := ⟨⟨hinv.keyed, hinv.inverse, hinv.inhabited⟩, fun hash hm => ?_⟩
      unique := h.unique
      waiting := fun hash entry hg => ?_
      batched := fun b hb => by simp at hb
      rejected := fun hash hm => h.rejected hash (hsame.rejected ▸ hm)
      accounted := fun entry he => ?_ }
  · simp [Chained, hrest, hsame.scheduled]
  · have hm : hash ∈ s.orchestrator.rejected := hsame.rejected ▸ hm
    refine ((hget hash).2 fun hin => ?_).trans (h.clean.apart hash hm)
    obtain ⟨x, hx, rfl⟩ := List.mem_map.mp hin
    exact (h.batched batch hrun x hx).2.2.1 hm
  · by_cases hin : hash ∈ batch.map C.hash
    · obtain ⟨x, hx, rfl⟩ := List.mem_map.mp hin
      have : x = entry := Option.some_inj.mp ((hback x hx).symm.trans hg)
      exact this ▸ (h.batched batch hrun x hx).1
    · exact h.waiting hash entry ((hget hash).2 hin ▸ hg)
  · rcases h.accounted entry he with hg | ⟨b, hb, hm⟩ | hg | hg
    · refine Or.inl (((hget _).2 fun hin => ?_).trans hg)
      obtain ⟨x, hx, hxe⟩ := List.mem_map.mp hin
      have := (h.batched batch hrun x hx).2.1
      rw [hxe, hg] at this
      simp at this
    · obtain rfl := Option.some_inj.mp (hrun.symm.trans hb)
      exact Or.inl (hback entry hm)
    · exact Or.inr (Or.inr (Or.inl hg))
    · exact Or.inr (Or.inr (Or.inr (hsame.rejected ▸ hg)))

/-- What the merge came back with: the rejected batch entries, and what descends from them. -/
theorem Sound.runDone_dropped (h : Sound C s) {batch : List T} (hrun : s.orchestrator.running = some batch) :
    let failed := (batch.map C.hash).filter fun hash => !s.isLanded C hash
    let o := { s.orchestrator with running := none, rejected := failed.foldl OrderedSet.add s.orchestrator.rejected }
    o.Clean C ∧ Dropped o (s.orchestrator.runDone C (s.isLanded C) batch) ∧
      (s.orchestrator.runDone C (s.isLanded C) batch).Clean C := by
  intro failed o
  have hclean : o.Clean C := by
    refine ⟨⟨h.clean.inverted.keyed, h.clean.inverted.inverse, h.clean.inverted.inhabited⟩, fun hash hm => ?_⟩
    rcases (OrderedSet.mem_foldl_add _ _ _).mp hm with hm | hm
    · obtain ⟨entry, he, rfl⟩ := List.mem_map.mp (List.mem_filter.mp hm).1
      exact (h.batched batch hrun entry he).2.1
    · exact h.clean.apart hash hm
  exact ⟨hclean, dropRejectedDescendants_clean hclean failed.reverse⟩

theorem Sound.mergeDone (h : Sound C s) {batch : List T} {rest : List (Option (List T))}
    (ht : s.tail = some batch :: rest) :
    Sound C { s with
      orchestrator := s.orchestrator.runDone C (s.isLanded C) batch
      tail := rest
      ended := s.ended + 1 } := by
  obtain ⟨hrun, hrest⟩ := h.merge_next ht
  obtain ⟨-, d, hclean⟩ := h.runDone_dropped hrun
  have hrej : ∀ hash, hash ∈ ((batch.map C.hash).filter fun hash => !s.isLanded C hash).foldl
      OrderedSet.add s.orchestrator.rejected ↔
      (hash ∈ batch.map C.hash ∧ s.isLanded C hash = false) ∨ hash ∈ s.orchestrator.rejected := by
    intro hash
    rw [OrderedSet.mem_foldl_add, List.mem_filter, Bool.not_eq_true']
  refine
    { chained := ?_
      closed := h.closed
      agrees := h.agrees
      clean := hclean
      unique := h.unique
      waiting := fun hash entry hg => h.waiting hash entry (d.waiting hash entry hg)
      batched := fun b hb => ?_
      rejected := fun hash hm => ?_
      accounted := fun entry he => ?_ }
  · rw [Chained, d.running, d.scheduled]
    exact hrest
  · rw [d.running] at hb
    simp at hb
  · rcases d.only hash hm with hm | ⟨entry, he⟩
    · rcases (hrej hash).mp hm with ⟨hm, -⟩ | hm
      · obtain ⟨entry, he, rfl⟩ := List.mem_map.mp hm
        exact List.mem_map.mpr ⟨entry, (h.batched batch hrun entry he).1, rfl⟩
      · exact h.rejected hash hm
    · exact List.mem_map.mpr ⟨entry, h.waiting hash entry he, h.clean.inverted.keyed hash entry he⟩
  · rcases h.accounted entry he with hg | ⟨b, hb, hm⟩ | hg | hg
    · exact (d.gone _ entry hg).imp_right fun hr => Or.inr (Or.inr hr)
    · obtain rfl := Option.some_inj.mp (hrun.symm.trans hb)
      cases hl : s.isLanded C (C.hash entry) with
      | true => exact Or.inr (Or.inr (Or.inl hl))
      | false =>
        refine Or.inr (Or.inr (Or.inr (d.kept _ ((hrej _).mpr (Or.inl ⟨?_, hl⟩)))))
        exact List.mem_map.mpr ⟨entry, hm, rfl⟩
    · exact Or.inr (Or.inr (Or.inl hg))
    · exact Or.inr (Or.inr (Or.inr (d.kept _ ((hrej _).mpr (Or.inr hg)))))

/-- What a step can be. -/
theorem step_cases {l : Label T} {s' : Supervised T} (hs : step C s l = some s') :
    (∃ entry, l = .add entry ∧ C.hash entry ∉ s.added.map C.hash ∧ Agrees C s.landed entry ∧
      s' = s.addEntry C entry) ∨
    (∃ rest, l = .run ∧ s.tail = none :: rest ∧ s' = s.run C rest) ∨
    (∃ batch rest, l = .mergeDone ∧ s.tail = some batch :: rest ∧
      s' = { s with
        orchestrator := s.orchestrator.runDone C (s.isLanded C) batch, tail := rest, ended := s.ended + 1 }) ∨
    (∃ batch rest, l = .mergeThrew ∧ s.tail = some batch :: rest ∧
      s' = { s with orchestrator := s.orchestrator.runFailed C batch, tail := rest, ended := s.ended + 1 }) ∨
    ∃ entry, l = .land entry ∧ Agrees C s.added entry ∧ (C.next entry).all (s.isLanded C) = true ∧
      s' = { s with landed := s.landed ++ [entry] } := by
  cases l with
  | add entry =>
    simp only [step] at hs
    split at hs
    case isTrue hc => exact Or.inl ⟨entry, rfl, hc.1, hc.2, (Option.some_inj.mp hs).symm⟩
    case isFalse => simp at hs
  | run =>
    simp only [step] at hs
    split at hs
    case h_1 rest ht => exact Or.inr (Or.inl ⟨rest, rfl, ht, (Option.some_inj.mp hs).symm⟩)
    case h_2 => simp at hs
  | mergeDone =>
    simp only [step] at hs
    split at hs
    case h_1 batch rest ht =>
      exact Or.inr (Or.inr (Or.inl ⟨batch, rest, rfl, ht, (Option.some_inj.mp hs).symm⟩))
    case h_2 => simp at hs
  | mergeThrew =>
    simp only [step] at hs
    split at hs
    case h_1 batch rest ht =>
      exact Or.inr (Or.inr (Or.inr (Or.inl ⟨batch, rest, rfl, ht, (Option.some_inj.mp hs).symm⟩)))
    case h_2 => simp at hs
  | land entry =>
    simp only [step] at hs
    split at hs
    case isTrue hc =>
      exact Or.inr (Or.inr (Or.inr (Or.inr ⟨entry, rfl, hc.1, hc.2, (Option.some_inj.mp hs).symm⟩)))
    case isFalse => simp at hs

theorem step_sound {l : Label T} {s' : Supervised T} (h : Sound C s) (hs : step C s l = some s') : Sound C s' := by
  obtain ⟨entry, -, hnew, ha, rfl⟩ | ⟨rest, -, ht, rfl⟩ | ⟨batch, rest, -, ht, rfl⟩ | ⟨batch, rest, -, ht, rfl⟩ |
    ⟨entry, -, ha, hp, rfl⟩ := step_cases hs
  · exact h.addEntry hnew ha
  · exact h.run ht
  · exact h.mergeDone ht
  · exact (h.mergeThrew ht).1
  · exact h.land ha hp

/-! ## Descendants of rejected entries -/

variable (C) in
/-- The entry waits, or it is at the merge and may wait again. -/
def Waits (s : Supervised T) (entry : T) : Prop :=
  s.orchestrator.fetched.get (C.hash entry) = some entry ∨ ∃ batch ∈ s.merging, entry ∈ batch

variable (C) in
/-- An entry that comes in under a rejected parent is named by no entry that waits. -/
def Timely (s : Supervised T) : Label T → Prop
  | .add entry => (∃ parent ∈ C.next entry, parent ∈ s.orchestrator.rejected) →
      ∀ e, s.Waits C e → C.hash entry ∉ C.next e
  | _ => True

variable (C) in
def Unblocked (s : Supervised T) : Prop :=
  ∀ entry, s.Waits C entry → ∀ parent ∈ C.next entry, parent ∉ s.orchestrator.rejected

theorem Sound.merging_eq (h : Sound C s) : s.merging = s.orchestrator.running.toList := by
  rw [merging, h.chained]
  cases s.orchestrator.running <;> cases s.orchestrator.scheduled <;> rfl

theorem Sound.waits_iff (h : Sound C s) (entry : T) : s.Waits C entry ↔
    s.orchestrator.fetched.get (C.hash entry) = some entry ∨
      ∃ batch, s.orchestrator.running = some batch ∧ entry ∈ batch := by
  rw [Waits, h.merging_eq]
  simp [Option.mem_toList]

theorem Unblocked.addEntry (h : Sound C s) (u : Unblocked C s) {entry : T}
    (hnew : C.hash entry ∉ s.added.map C.hash) (ha : Agrees C s.landed entry) (ht : Timely C s (.add entry)) :
    Unblocked C (s.addEntry C entry) := by
  intro e he parent hp hr
  rw [(h.addEntry hnew ha).waits_iff] at he
  have hw := h.waits_iff e
  rcases add_cases s.orchestrator entry with ⟨hany, hadd⟩ | ⟨hall, hadd⟩
  · have hpar : ∃ parent ∈ C.next entry, parent ∈ s.orchestrator.rejected := by
      obtain ⟨q, hq, hqr⟩ := List.any_eq_true.mp hany
      exact ⟨q, hq, (OrderedSet.has_iff _ _).mp hqr⟩
    simp only [Supervised.addEntry] at he hr
    rw [hadd] at he hr
    rcases (OrderedSet.mem_add _ _ _).mp hr with rfl | hr
    · exact ht hpar e (hw.mpr he) hp
    · exact u e (hw.mpr he) parent hp hr
  · simp only [Supervised.addEntry] at he hr
    rw [hadd] at he hr
    have he : (s.orchestrator.remember C entry).fetched.get (C.hash e) = some e ∨
        ∃ batch, s.orchestrator.running = some batch ∧ e ∈ batch := he
    rw [get_remember] at he
    rcases he with he | he
    · split at he
      · exact hall parent (Option.some_inj.mp he ▸ hp) hr
      · exact u e (hw.mpr (Or.inl he)) parent hp hr
    · exact u e (hw.mpr (Or.inr he)) parent hp hr

/-- What a run takes was waiting. -/
theorem Unblocked.run (h : Sound C s) (u : Unblocked C s) {rest : List (Option (List T))}
    (ht : s.tail = none :: rest) : Unblocked C (s.run C rest) := by
  have hsame : SameRuns _ (s.orchestrator.runBatch C (s.isLanded C)).1 := foldl_forget_sameRuns _
  have hget (hash : Hash) : (s.orchestrator.runBatch C (s.isLanded C)).1.fetched.get hash = _ :=
    get_foldl_forget _ hash
  intro e he parent hp hr
  have hr : parent ∈ s.orchestrator.rejected := hsame.rejected ▸ hr
  refine u e ((h.waits_iff e).mpr (Or.inl ?_)) parent hp hr
  rcases ((h.run ht).waits_iff e).mp he with he | ⟨batch, hb, he⟩
  · have he := (hget _).symm.trans he
    split at he
    · simp at he
    · exact he
  · have hb := hsame.running.symm.trans hb
    have hbe : s.orchestrator.readyBatch C (s.isLanded C) = batch := by
      simp only at hb
      split at hb
      · simp at hb
      · exact Option.some_inj.mp hb
    exact (h.mem_readyBatch.mp (hbe ▸ he)).1

/-- Whatever the merge rejected takes every waiting descendant with it. -/
theorem Unblocked.mergeDone (h : Sound C s) (u : Unblocked C s) {batch : List T} {rest : List (Option (List T))}
    (ht : s.tail = some batch :: rest) :
    Unblocked C { s with
      orchestrator := s.orchestrator.runDone C (s.isLanded C) batch
      tail := rest
      ended := s.ended + 1 } := by
  obtain ⟨hrun, -⟩ := h.merge_next ht
  obtain ⟨hclean, d, -⟩ := h.runDone_dropped hrun
  intro e he parent hp
  have he : (s.orchestrator.runDone C (s.isLanded C) batch).fetched.get (C.hash e) = some e := by
    rcases ((h.mergeDone ht).waits_iff e).mp he with he | ⟨b, hb, -⟩
    · exact he
    · simp [d.running] at hb
  refine dropRejectedDescendants_complete hclean (fun x q hn hr => ?_) (C.hash e) parent ⟨e, he, hp⟩
  rcases (OrderedSet.mem_foldl_add _ _ _).mp hr with hr | hr
  · exact List.mem_reverse.mpr hr
  · obtain ⟨entry, hg, hq⟩ := hn
    have hkey := h.clean.inverted.keyed x entry hg
    exact absurd hr (u entry (Or.inl (hkey ▸ hg)) q hq)

theorem Unblocked.mergeThrew (h : Sound C s) (u : Unblocked C s) {batch : List T} {rest : List (Option (List T))}
    (ht : s.tail = some batch :: rest) :
    Unblocked C { s with
      orchestrator := s.orchestrator.runFailed C batch
      tail := rest
      ended := s.ended + 1 } := by
  obtain ⟨hrun, -⟩ := h.merge_next ht
  obtain ⟨h', hback⟩ := h.mergeThrew ht
  have hsame : SameRuns s.orchestrator (batch.foldl (remember C) s.orchestrator) := foldl_remember_sameRuns batch
  have hu : ∀ x ∈ batch, ∀ y ∈ batch, C.hash x = C.hash y → x = y := fun x hx y hy =>
    h.unique x (h.batched batch hrun x hx).1 y (h.batched batch hrun y hy).1
  intro e he parent hp hr
  refine u e ((h.waits_iff e).mpr ?_) parent hp (hsame.rejected ▸ hr)
  rcases (h'.waits_iff e).mp he with he | ⟨b, hb, -⟩
  · by_cases hin : C.hash e ∈ batch.map C.hash
    · obtain ⟨x, hx, hxe⟩ := List.mem_map.mp hin
      have : x = e := Option.some_inj.mp ((hback x hx).symm.trans (hxe ▸ he))
      exact Or.inr ⟨batch, hrun, this ▸ hx⟩
    · exact Or.inl (((get_foldl_remember hu _).2 hin).symm.trans he)
  · simp [runFailed] at hb

theorem step_unblocked {l : Label T} {s' : Supervised T} (h : Sound C s) (u : Unblocked C s) (ht : Timely C s l)
    (hs : step C s l = some s') : Unblocked C s' := by
  obtain ⟨entry, rfl, hnew, ha, rfl⟩ | ⟨rest, -, htail, rfl⟩ | ⟨batch, rest, -, htail, rfl⟩ |
    ⟨batch, rest, -, htail, rfl⟩ | ⟨entry, -, ha, hp, rfl⟩ := step_cases hs
  · exact u.addEntry h hnew ha ht
  · exact u.run h htail
  · exact u.mergeDone h htail
  · exact u.mergeThrew h htail
  · exact u

variable (C) in
/-- An orchestrator that starts empty over an oplog that holds every parent of what it holds. -/
def Initial (s : Supervised T) : Prop :=
  ∃ landed : List T, (∀ entry ∈ landed, ∀ parent ∈ C.next entry, parent ∈ landed.map C.hash) ∧ s = create landed

theorem run_unblocked (h : Run (step C) (Initial C) (Timely C) s) : Sound C s ∧ Unblocked C s := by
  refine Run.invariant (I := fun s => Sound C s ∧ Unblocked C s) h ?_ ?_
  · rintro _ ⟨landed, hc, rfl⟩
    refine ⟨create_sound hc, fun e he => ?_⟩
    rcases he with he | ⟨batch, hb, -⟩
    · simp [create, Orchestrator.create] at he
    · simp [create, merging] at hb
  · rintro _ _ _ ⟨hs, hu⟩ hl hstep
    exact ⟨step_sound hs hstep, step_unblocked hs hu hl hstep⟩

/-- The merge orchestrator, at every state of every run in which no entry comes in under a rejected
parent while an entry that names it waits: a batch at the merge is closed under `next` over what
has landed, merges do not overlap, every added entry is accounted for, no waiting entry has a
rejected parent, the index is the inverse of `next`, and a merge that throws gives its batch back. -/
theorem merge_orchestrator (h : Run (step C) (Initial C) (Timely C) s) :
    (∀ batch ∈ s.merging, ∀ entry ∈ batch, ∀ parent ∈ C.next entry,
        s.isLanded C parent = true ∨ parent ∈ batch.map C.hash) ∧
      s.merging.length ≤ 1 ∧
      (∀ entry ∈ s.added, s.orchestrator.fetched.get (C.hash entry) = some entry ∨
        (∃ batch ∈ s.merging, entry ∈ batch) ∨ s.isLanded C (C.hash entry) = true ∨
        C.hash entry ∈ s.orchestrator.rejected) ∧
      (0 < s.ended → ∀ hash entry, s.orchestrator.fetched.get hash = some entry →
        ∀ parent ∈ C.next entry, parent ∉ s.orchestrator.rejected) ∧
      (∀ parent hash, Orchestrator.Child s.orchestrator.children parent hash ↔ WaitsOn C s.orchestrator.fetched hash parent) ∧
      ∀ s', step C s .mergeThrew = some s' → ∀ batch ∈ s.merging, ∀ entry ∈ batch,
        s'.orchestrator.fetched.get (C.hash entry) = some entry := by
  obtain ⟨k, u⟩ := run_unblocked h
  have hmerging : ∀ batch, batch ∈ s.merging ↔ s.orchestrator.running = some batch := by
    intro batch
    rw [k.merging_eq, Option.mem_toList]
  refine ⟨fun batch hb entry he => ?_, ?_, fun entry he => ?_, fun _ hash entry hg parent hp => ?_,
    k.clean.inverted.inverse, fun s' hs batch hb entry he => ?_⟩
  · exact (k.batched batch ((hmerging batch).mp hb) entry he).2.2.2
  · rw [k.merging_eq]
    cases s.orchestrator.running <;> simp
  · rcases k.accounted entry he with hg | ⟨batch, hb, hm⟩ | hg
    · exact Or.inl hg
    · exact Or.inr (Or.inl ⟨batch, (hmerging batch).mpr hb, hm⟩)
    · exact Or.inr (Or.inr hg)
  · have hkey := k.clean.inverted.keyed hash entry hg
    exact u entry (Or.inl (hkey ▸ hg)) parent hp
  · obtain ⟨_, hl, -⟩ | ⟨_, hl, -⟩ | ⟨_, _, hl, -⟩ | ⟨batch', rest, -, htail, rfl⟩ | ⟨_, hl, -⟩ := step_cases hs
    · simp at hl
    · simp at hl
    · simp at hl
    · obtain ⟨hrun, -⟩ := k.merge_next htail
      obtain rfl := Option.some_inj.mp (hrun.symm.trans ((hmerging batch).mp hb))
      exact (k.mergeThrew htail).2 entry he
    · simp at hl

namespace Sample

/-- An entry as its hash and its parents. -/
def pair : MergeCandidate (Hash × List Hash) := ⟨Prod.fst, Prod.snd⟩

/-- The state once the next run has taken `batch`. -/
def taken (s : Supervised (Hash × List Hash)) (batch : List (Hash × List Hash)) : Supervised (Hash × List Hash) :=
  { s with
    orchestrator := batch.foldl (forget pair)
      { s.orchestrator with scheduled := false, running := if batch.isEmpty then none else some batch }
    tail := if batch.isEmpty then s.tail.tail else some batch :: s.tail.tail
    ended := if batch.isEmpty then s.ended + 1 else s.ended }

theorem step_run {s : Supervised (Hash × List Hash)} {rest : List (Option (List (Hash × List Hash)))}
    {batch : List (Hash × List Hash)} (ht : s.tail = none :: rest)
    (hb : s.orchestrator.readyBatch pair (s.isLanded pair) = batch) : step pair s .run = some (taken s batch) := by
  subst hb
  simp only [step, ht, run, taken, runBatch, List.tail_cons]
  rfl

/-- The state once the merge has come back without the childless `hash`. -/
def refused (s : Supervised (Hash × List Hash)) (hash : Hash) : Supervised (Hash × List Hash) :=
  { s with
    orchestrator := { s.orchestrator with running := none, rejected := s.orchestrator.rejected.add hash }
    tail := s.tail.tail
    ended := s.ended + 1 }

theorem step_mergeDone {s : Supervised (Hash × List Hash)} {rest : List (Option (List (Hash × List Hash)))}
    {entry : Hash × List Hash} (ht : s.tail = some [entry] :: rest) (hl : s.isLanded pair entry.1 = false)
    (hc : s.orchestrator.children.get entry.1 = none) :
    step pair s .mergeDone = some (refused s entry.1) := by
  have hf : (([entry].map pair.hash).filter fun hash => !s.isLanded pair hash) = [entry.1] := by
    simp only [List.map_cons, List.map_nil, pair] at hl ⊢
    simp [hl]
  simp only [step, ht, runDone, hf, refused, List.tail_cons]
  rw [List.reverse_singleton, dropRejectedDescendants, dropChildren]
  simp only [hc, Option.map_none, Option.getD_none, List.foldl_nil, List.reverse_nil, List.nil_append]
  rw [dropRejectedDescendants]
  rfl

/-- `c` waits for `b`, and `a` has come. -/
def before : Supervised (Hash × List Hash) :=
  ((create []).addEntry pair ("c", ["b"])).addEntry pair ("a", [])

/-- The merge refused `a`, then its child `b` came, then `d`. -/
def late : Supervised (Hash × List Hash) :=
  ((refused (taken before [("a", [])]) "a").addEntry pair ("b", ["a"])).addEntry pair ("d", [])

/-- In a state where only `c` and a root wait, the root is the batch. -/
theorem readyBatch_root {s : Supervised (Hash × List Hash)} {root : Hash}
    (hs : s.orchestrator.fetched.items = [("c", ("c", ["b"])), (root, (root, []))]) (hl : s.landed = [])
    (hb : root ≠ "b") (hc : root ≠ "c") :
    s.orchestrator.readyBatch pair (s.isLanded pair) = [(root, [])] := by
  have hget : ∀ hash, s.orchestrator.fetched.get hash =
      [("c", ("c", ["b"])), (root, (root, []))].lookup hash := fun hash => by rw [OrderedMap.get, hs]
  have hland : ∀ hash, s.isLanded pair hash = false := fun hash => by simp [isLanded, hl]
  have hvalues : s.orchestrator.fetched.values = [("c", ["b"]), (root, [])] := by rw [OrderedMap.values, hs]; rfl
  have hkeyed : ∀ hash entry, s.orchestrator.fetched.get hash = some entry → pair.hash entry = hash := by
    intro hash entry h
    have hm := (OrderedMap.get_eq_some_iff _ _ _).mp h
    rw [hs] at hm
    rcases List.mem_cons.mp hm with h | h
    · obtain ⟨rfl, rfl⟩ := Prod.mk.inj h
      rfl
    · obtain ⟨rfl, rfl⟩ := Prod.mk.inj (List.mem_singleton.mp h)
      rfl
  have hc' : s.orchestrator.fetched.get "c" = some ("c", ["b"]) := by rw [hget]; rfl
  have hroot : s.orchestrator.fetched.get root = some (root, []) := by
    rw [OrderedMap.get_eq_some_iff, hs]
    simp
  have hmiss : s.orchestrator.fetched.get "b" = none := by
    rw [hget]
    simp [List.lookup_cons, beq_eq_false_iff_ne.mpr (Ne.symm hb)]
  rw [readyBatch_eq_filter hkeyed (fun entry => entry.1 == root), hvalues]
  · simp [Ne.symm hc]
  · intro entry he
    rw [hvalues] at he
    rcases List.mem_cons.mp he with rfl | he
    · simp only [beq_iff_eq, Ne.symm hc, false_iff]
      intro h
      exact not_ready_of_missing (hland _) hmiss (h.parent (hland _) ⟨_, hc', List.mem_cons_self⟩)
    · obtain rfl := List.mem_singleton.mp he
      simp only [beq_self_eq_true, true_iff]
      exact .waiting hroot fun parent hp => absurd hp List.not_mem_nil

end Sample

/-- The batch `a` is at the merge while `c` waits for its parent; if the merge throws, `a` waits again. -/
theorem merge_orchestrator_two : ∃ s : Supervised (Hash × List Hash),
    Run (step Sample.pair) (Initial Sample.pair) (Timely Sample.pair) s ∧ s.merging = [[("a", [])]] ∧
      (∀ s', step Sample.pair s .mergeThrew = some s' → s'.orchestrator.fetched.get "a" = some ("a", [])) ∧
      s.orchestrator.fetched.get "c" = some ("c", ["b"]) := by
  have h0 : Run (step Sample.pair) (Initial Sample.pair) (Timely Sample.pair) (create []) :=
    .start ⟨[], fun _ h => absurd h List.not_mem_nil, rfl⟩
  have h1 : Run (step Sample.pair) (Initial Sample.pair) (Timely Sample.pair) Sample.before :=
    .next (.add ("a", [])) (.next (.add ("c", ["b"])) h0 (fun ⟨_, _, h⟩ => absurd h (OrderedSet.mem_empty _)) rfl)
      (fun ⟨_, h, _⟩ => absurd h List.not_mem_nil) rfl
  have h2 := Run.next Label.run h1 (show Timely Sample.pair Sample.before .run from trivial) (Sample.step_run rfl (Sample.readyBatch_root rfl rfl (by decide) (by decide)))
  obtain ⟨-, -, -, -, -, hthrew⟩ := merge_orchestrator h2
  refine ⟨_, h2, rfl, fun s' hs => ?_, rfl⟩
  exact hthrew s' hs [("a", [])] (List.mem_singleton.mpr rfl) ("a", []) (List.mem_singleton.mpr rfl)

/-- `c` waits for `b`, whose parent `a` the merge refuses before `b` arrives: `b` is rejected on
arrival, and `c` goes on waiting, also after the next run has ended. -/
theorem merge_orchestrator_late_parent : ∃ s : Supervised (Hash × List Hash),
    Run (step Sample.pair) (Initial Sample.pair) anyLabel s ∧ s.ended = 2 ∧ s.tail = [] ∧
      s.orchestrator.fetched.get "c" = some ("c", ["b"]) ∧ "b" ∈ s.orchestrator.rejected := by
  have h0 : Run (step Sample.pair) (Initial Sample.pair) anyLabel (create []) :=
    .start ⟨[], fun _ h => absurd h List.not_mem_nil, rfl⟩
  have h1 : Run (step Sample.pair) (Initial Sample.pair) anyLabel Sample.before :=
    .next (.add ("a", [])) (.next (.add ("c", ["b"])) h0 trivial rfl) trivial rfl
  have h2 := Run.next .run h1 trivial (Sample.step_run rfl (Sample.readyBatch_root rfl rfl (by decide) (by decide)))
  have h3 := Run.next .mergeDone h2 trivial (Sample.step_mergeDone rfl rfl rfl)
  have h4 : Run (step Sample.pair) (Initial Sample.pair) anyLabel Sample.late :=
    .next (.add ("d", [])) (.next (.add ("b", ["a"])) h3 trivial rfl) trivial rfl
  have h5 := Run.next .run h4 trivial (Sample.step_run rfl (Sample.readyBatch_root rfl rfl (by decide) (by decide)))
  have h6 := Run.next .mergeDone h5 trivial (Sample.step_mergeDone rfl rfl rfl)
  exact ⟨_, h6, rfl, rfl, rfl, by decide⟩

end Supervised

end RecordNode
