import RecordNode.Foundation.OrderedMap
import RecordNode.Entry.Types

/-! # Merge orchestration

Fetched entries wait until their transitive `next` closure is landed or ready,
then merge in batches, one batch at a time. An entry whose ancestor a merge
rejected is dropped. -/

namespace RecordNode

open Foundation

/-- A fetched entry, as the orchestrator sees it. -/
structure MergeCandidate (T : Type*) where
  hash : T → Hash
  next : T → List Hash

structure Orchestrator (T : Type*) where
  fetched : OrderedMap Hash T
  rejected : OrderedSet Hash
  /-- Waiting entries by the parents they name. -/
  children : OrderedMap Hash (OrderedSet Hash)
  scheduled : Bool
  /-- The batch handed to a merge that has not come back. -/
  running : Option (List T)

namespace Orchestrator

variable {T : Type*} (C : MergeCandidate T) (isLanded : Hash → Bool)

def create : Orchestrator T where
  fetched := .empty
  rejected := .empty
  children := .empty
  scheduled := false
  running := none

/-- The walk's state: verdicts so far, the stack with its top first, and the open path. -/
structure Walk where
  ready : OrderedMap Hash Bool
  stack : List Hash
  onPath : OrderedSet Hash

/-- The waiting hashes the walk has neither judged nor opened. -/
def unseen (fetched : OrderedMap Hash T) (w : Walk) : List Hash :=
  fetched.keys.filter fun hash => !w.ready.has hash && !w.onPath.has hash

theorem unseen_length_le {fetched : OrderedMap Hash T} {v w : Walk}
    (h : ∀ x, w.ready.has x = true ∨ w.onPath.has x = true → v.ready.has x = true ∨ v.onPath.has x = true) :
    (unseen fetched v).length ≤ (unseen fetched w).length := by
  unfold unseen
  refine List.Sublist.length_le (List.monotone_filter_right _ fun x hx => ?_)
  have := h x
  simp only [Bool.and_eq_true, Bool.not_eq_true'] at hx ⊢
  constructor
  · by_contra hc
    simp_all
  · by_contra hc
    simp_all

theorem unseen_length_lt {fetched : OrderedMap Hash T} {v w : Walk} {hash : Hash} {entry : T}
    (hf : fetched.get hash = some entry) (hr : w.ready.has hash = false) (hp : w.onPath.has hash = false)
    (hready : v.ready = w.ready) (hpath : v.onPath = w.onPath.add hash) :
    (unseen fetched v).length < (unseen fetched w).length := by
  have hmem : hash ∈ unseen fetched w :=
    List.mem_filter.mpr ⟨(fetched.mem_keys_iff hash).mpr ⟨entry, hf⟩, by simp [hr, hp]⟩
  have hsub : (unseen fetched v).length ≤ ((unseen fetched w).filter (· ≠ hash)).length := by
    unfold unseen
    rw [List.filter_filter]
    refine List.Sublist.length_le (List.monotone_filter_right _ fun x hx => ?_)
    rw [hready, hpath] at hx
    simp only [Bool.and_eq_true, Bool.not_eq_true', decide_eq_true_eq, ne_eq] at hx ⊢
    have hnot : ¬ x ∈ w.onPath.add hash := by
      intro hc
      simp [OrderedSet.has, hc] at hx
    rw [OrderedSet.mem_add, not_or] at hnot
    exact ⟨hnot.1, hx.1, by simp [OrderedSet.has, hnot.2]⟩
  have hlt : ((unseen fetched w).filter (· ≠ hash)).length < (unseen fetched w).length :=
    List.length_filter_lt_length_iff_exists.mpr ⟨hash, hmem, by simp⟩
  omega

/-- One turn of the loop over the stack's top: judge a hash that is judged, landed or absent,
open one for the first time by pushing its parents, or close it. -/
def walkTop (fetched : OrderedMap Hash T) (w : Walk) (hash : Hash) (rest : List Hash) : Walk :=
  match fetched.get hash with
  | none => { w with ready := if w.ready.has hash then w.ready else w.ready.set hash (isLanded hash), stack := rest }
  | some entry =>
    if w.ready.has hash || isLanded hash then
      { w with ready := if w.ready.has hash then w.ready else w.ready.set hash (isLanded hash), stack := rest }
    else if !w.onPath.has hash then
      let onPath := w.onPath.add hash
      { w with
        onPath := onPath
        stack := ((C.next entry).filter fun parent => !w.ready.has parent && !onPath.has parent).reverse ++
          hash :: rest }
    else
      { ready := w.ready.set hash ((C.next entry).all fun parent => w.ready.get parent == some true)
        onPath := w.onPath.delete hash
        stack := rest }

/-- Each turn opens a waiting hash or shortens the stack. -/
theorem walkTop_decreases (fetched : OrderedMap Hash T) (w : Walk) (hash : Hash) (rest : List Hash)
    (hstack : w.stack = hash :: rest) :
    Prod.Lex (· < ·) (· < ·)
      ((unseen fetched (walkTop C isLanded fetched w hash rest)).length,
        (walkTop C isLanded fetched w hash rest).stack.length)
      ((unseen fetched w).length, w.stack.length) := by
  have hpop (v : Walk) (hs : v.stack = rest)
      (hv : ∀ x, w.ready.has x = true ∨ w.onPath.has x = true → v.ready.has x = true ∨ v.onPath.has x = true) :
      Prod.Lex (· < ·) (· < ·) ((unseen fetched v).length, v.stack.length)
        ((unseen fetched w).length, w.stack.length) := by
    rcases (unseen_length_le hv).lt_or_eq with hlt | heq
    · exact .left _ _ hlt
    · rw [heq, hs, hstack]
      exact .right _ (Nat.lt_succ_self _)
  have hjudge : ∀ x, w.ready.has x = true → OrderedMap.has
      (if w.ready.has hash then w.ready else w.ready.set hash (isLanded hash)) x = true := by
    intro x hx
    split
    · exact hx
    · simp only [OrderedMap.has, OrderedMap.get_set] at hx ⊢
      split
      · rfl
      · exact hx
  unfold walkTop
  split
  · exact hpop _ rfl fun x hx => hx.imp_left (hjudge x)
  case h_2 entry hf =>
    split
    · exact hpop _ rfl fun x hx => hx.imp_left (hjudge x)
    case isFalse hnot =>
      simp only [Bool.or_eq_true, not_or, Bool.not_eq_true] at hnot
      split
      case isTrue hopen =>
        refine .left _ _ (unseen_length_lt hf hnot.1 (by simpa using hopen) rfl rfl)
      case isFalse hclose =>
        refine hpop _ rfl fun x hx => ?_
        by_cases hxh : x = hash
        · exact Or.inl (by simp [OrderedMap.has, hxh])
        · rcases hx with hx | hx
          · refine Or.inl ?_
            simp only [OrderedMap.has, OrderedMap.get_set, if_neg hxh] at hx ⊢
            exact hx
          · refine Or.inr ?_
            rw [OrderedSet.has_iff] at hx ⊢
            exact (OrderedSet.mem_delete _ _ _).mpr ⟨hx, hxh⟩

/-- The loop from one root until its stack is empty. -/
def walk (fetched : OrderedMap Hash T) (w : Walk) : Walk :=
  match _hs : w.stack with
  | [] => w
  | hash :: rest => walk fetched (walkTop C isLanded fetched w hash rest)
termination_by ((unseen fetched w).length, w.stack.length)
decreasing_by exact walkTop_decreases C isLanded fetched w hash rest _hs

/-- The waiting entries whose transitive parents are landed or ready. -/
def readyBatch (o : Orchestrator T) : List T :=
  let ready := o.fetched.keys.foldl
    (fun ready root => (walk C isLanded o.fetched ⟨ready, [root], .empty⟩).ready) .empty
  o.fetched.values.filter fun entry => ready.get (C.hash entry) == some true

def remember (o : Orchestrator T) (entry : T) : Orchestrator T :=
  { o with
    fetched := o.fetched.set (C.hash entry) entry
    children := (C.next entry).foldl
      (fun index parent => index.set parent (((index.get parent).getD .empty).add (C.hash entry))) o.children }

/-- One parent of a forgotten entry loses it, and its whole list when that was the last. -/
def forgetChild (hash : Hash) (index : OrderedMap Hash (OrderedSet Hash)) (parent : Hash) :
    OrderedMap Hash (OrderedSet Hash) :=
  match index.get parent with
  | none => index
  | some siblings =>
    if (siblings.delete hash).size = 0 then index.delete parent else index.set parent (siblings.delete hash)

def forget (o : Orchestrator T) (entry : T) : Orchestrator T :=
  { o with
    fetched := o.fetched.delete (C.hash entry)
    children := (C.next entry).foldl (forgetChild (C.hash entry)) o.children }

/-- The loop over the children of one rejected hash, with the hashes it adds to the queue. -/
def dropChild (state : Orchestrator T × List Hash) (child : Hash) : Orchestrator T × List Hash :=
  match state.1.fetched.get child with
  | none => state
  | some entry =>
    if state.1.rejected.has child then state
    else
      let o := forget C state.1 entry
      ({ o with rejected := o.rejected.add child }, state.2 ++ [child])

def dropChildren (o : Orchestrator T) (hash : Hash) : Orchestrator T × List Hash :=
  (((o.children.get hash).map OrderedSet.items).getD []).foldl (dropChild C) (o, [])

/-- The waiting hashes not rejected yet. -/
def droppable (o : Orchestrator T) : List Hash := o.fetched.keys.filter fun hash => !o.rejected.has hash

theorem dropChild_droppable (state : Orchestrator T × List Hash) (child : Hash) :
    dropChild C state child = state ∨
      (droppable (dropChild C state child).1).length < (droppable state.1).length := by
  unfold dropChild
  split
  · exact Or.inl rfl
  case h_2 entry hf =>
    split
    · exact Or.inl rfl
    case isFalse hr =>
      refine Or.inr ?_
      have hmem : child ∈ droppable state.1 :=
        List.mem_filter.mpr ⟨(OrderedMap.mem_keys_iff _ _).mpr ⟨entry, hf⟩,
          Bool.not_eq_true' _ ▸ Bool.eq_false_iff.mpr hr⟩
      have hsub : (droppable { forget C state.1 entry with
          rejected := (forget C state.1 entry).rejected.add child }).Sublist
          ((droppable state.1).filter (· ≠ child)) := by
        unfold droppable
        rw [List.filter_filter]
        have hkeys : (forget C state.1 entry).fetched.keys.Sublist state.1.fetched.keys :=
          List.Sublist.map _ List.filter_sublist
        refine (hkeys.filter _).trans (List.monotone_filter_right _ fun x hx => ?_)
        have hnot : ¬ x ∈ (forget C state.1 entry).rejected.add child := by
          intro hc
          simp [OrderedSet.has, hc] at hx
        rw [OrderedSet.mem_add, not_or] at hnot
        have hrej : ¬ x ∈ state.1.rejected := hnot.2
        simp [hnot.1, OrderedSet.has, hrej]
      have hlt : ((droppable state.1).filter (· ≠ child)).length < (droppable state.1).length :=
        List.length_filter_lt_length_iff_exists.mpr ⟨child, hmem, by simp⟩
      exact lt_of_le_of_lt hsub.length_le hlt

theorem foldl_dropChild_droppable (children : List Hash) (state : Orchestrator T × List Hash) :
    children.foldl (dropChild C) state = state ∨
      (droppable (children.foldl (dropChild C) state).1).length < (droppable state.1).length := by
  induction children generalizing state with
  | nil => exact Or.inl rfl
  | cons child rest ih =>
    rw [List.foldl_cons]
    rcases dropChild_droppable C state child with heq | hlt
    · rw [heq]
      exact ih state
    · rcases ih (dropChild C state child) with heq | hlt'
      · rw [heq]
        exact Or.inr hlt
      · exact Or.inr (hlt'.trans hlt)

/-- `drop_rejected_descendants`, with the end of its queue first. -/
def dropRejectedDescendants (o : Orchestrator T) (queue : List Hash) : Orchestrator T :=
  match queue with
  | [] => o
  | hash :: rest => dropRejectedDescendants (dropChildren C o hash).1 ((dropChildren C o hash).2.reverse ++ rest)
termination_by ((droppable o).length, queue.length)
decreasing_by
  rcases foldl_dropChild_droppable C (((o.children.get hash).map OrderedSet.items).getD []) (o, []) with heq | hlt
  · rw [dropChildren, heq]
    exact .right _ (by simp)
  · exact .left _ _ hlt

/-- An entry comes in: dropped under a rejected parent, else it waits for a run. -/
def add (o : Orchestrator T) (entry : T) : Orchestrator T :=
  if (C.next entry).any o.rejected.has then { o with rejected := o.rejected.add (C.hash entry) }
  else { remember C o entry with scheduled := true }

/-- `run` up to its merge: the ready entries leave the waiting ones as one batch. -/
def runBatch (o : Orchestrator T) : Orchestrator T × List T :=
  let batch := readyBatch C isLanded o
  let o := { o with scheduled := false }
  (batch.foldl (forget C) { o with running := if batch.isEmpty then none else some batch }, batch)

/-- The merge came back: what did not land is rejected with all that descends from it. -/
def runDone (o : Orchestrator T) (batch : List T) : Orchestrator T :=
  let failed := (batch.map C.hash).filter fun hash => !isLanded hash
  dropRejectedDescendants C
    { o with running := none, rejected := failed.foldl OrderedSet.add o.rejected } failed.reverse

/-- The merge threw: the batch waits again. -/
def runFailed (o : Orchestrator T) (batch : List T) : Orchestrator T :=
  { batch.foldl (remember C) o with running := none }

def discard (o : Orchestrator T) : Orchestrator T :=
  { o with fetched := .empty, rejected := .empty, children := .empty }

/-! ## What waits was handed in -/

/-- Every entry waiting or in the running batch has the property. -/
structure All (P : T → Prop) (o : Orchestrator T) : Prop where
  waiting : ∀ hash entry, o.fetched.get hash = some entry → P entry
  running : ∀ batch, o.running = some batch → ∀ entry ∈ batch, P entry

section All
variable {P : T → Prop} {o : Orchestrator T}

theorem All.remember (h : o.All P) {entry : T} (he : P entry) : (o.remember C entry).All P where
  waiting hash x hx := by
    simp only [Orchestrator.remember, OrderedMap.get_set] at hx
    split at hx
    · exact Option.some_inj.mp hx ▸ he
    · exact h.waiting hash x hx
  running := h.running

theorem All.forget (h : o.All P) (entry : T) : (o.forget C entry).All P where
  waiting hash x hx := by
    simp only [Orchestrator.forget, OrderedMap.get_delete] at hx
    split at hx
    · simp at hx
    · exact h.waiting hash x hx
  running := h.running

theorem All.foldl_forget (h : o.All P) (batch : List T) : (batch.foldl (Orchestrator.forget C) o).All P := by
  induction batch generalizing o with
  | nil => exact h
  | cons entry rest ih => exact ih (h.forget C entry)

theorem All.foldl_remember (h : o.All P) {batch : List T} (hb : ∀ entry ∈ batch, P entry) :
    (batch.foldl (Orchestrator.remember C) o).All P := by
  induction batch generalizing o with
  | nil => exact h
  | cons entry rest ih =>
    exact ih (h.remember C (hb entry List.mem_cons_self)) fun x hx => hb x (List.mem_cons_of_mem _ hx)

theorem All.foldl_dropChild (children : List Hash) {state : Orchestrator T × List Hash}
    (h : state.1.All P) : (children.foldl (dropChild C) state).1.All P := by
  induction children generalizing state with
  | nil => exact h
  | cons child rest ih =>
    refine ih ?_
    unfold dropChild
    split
    · exact h
    · split
      · exact h
      · exact ⟨(h.forget C _).waiting, h.running⟩

theorem All.dropRejectedDescendants (h : o.All P) (queue : List Hash) :
    (o.dropRejectedDescendants C queue).All P := by
  fun_induction Orchestrator.dropRejectedDescendants C o queue with
  | case1 => exact h
  | case2 o hash rest ih => exact ih (All.foldl_dropChild C _ h)

theorem All.add (h : o.All P) {entry : T} (he : P entry) : (o.add C entry).All P := by
  unfold Orchestrator.add
  split
  · exact ⟨h.waiting, h.running⟩
  · exact ⟨(h.remember C he).waiting, (h.remember C he).running⟩

theorem All.mem_readyBatch (h : o.All P) {entry : T} (he : entry ∈ o.readyBatch C isLanded) : P entry := by
  obtain ⟨hash, hh⟩ := (OrderedMap.mem_values_iff _ _).mp (List.mem_filter.mp he).1
  exact h.waiting hash entry hh

theorem All.runBatch (h : o.All P) : (o.runBatch C isLanded).1.All P := by
  unfold Orchestrator.runBatch
  apply All.foldl_forget
  refine ⟨h.waiting, fun batch hb => ?_⟩
  split at hb
  · simp at hb
  · obtain rfl := Option.some_inj.mp hb
    exact fun entry he => h.mem_readyBatch C isLanded he

theorem All.runDone (h : o.All P) (batch : List T) : (o.runDone C isLanded batch).All P := by
  unfold Orchestrator.runDone
  apply All.dropRejectedDescendants
  exact ⟨h.waiting, by simp⟩

theorem All.runFailed (h : o.All P) {batch : List T} (hb : o.running = some batch) :
    (o.runFailed C batch).All P :=
  ⟨(h.foldl_remember C (h.running batch hb)).waiting, by simp [Orchestrator.runFailed]⟩

theorem All.discard (h : o.All P) : o.discard.All P := ⟨by simp [Orchestrator.discard], h.running⟩

end All

end Orchestrator

end RecordNode
