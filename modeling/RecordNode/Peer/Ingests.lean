import RecordNode.Foundation.Run
import RecordNode.Foundation.Serial

/-! # Ingest queues

An ingest prepares beside others, as many at once as the configuration allows, and then
commits alone, behind the commits queued before it. A prepare that ends hands its slot to
the call that has waited longest. Library writes queue on a chain of their own. A peer that
is stopping refuses new work and still runs what it accepted. -/

namespace RecordNode

open Foundation

structure IngestQueues where
  active : ℕ
  waiting : List ℕ
  /-- Calls whose slot has been handed over and which have not gone on yet. -/
  granted : List ℕ
  inFlight : List ℕ
  /-- Calls that have prepared and not queued their commit yet. -/
  returning : List ℕ
  commits : Serial ℕ
  writes : Serial ℕ
  stopping : Bool
  /-- Every call accepted, every slot taken, and every prepare ended, in order. -/
  accepted : List ℕ
  acquired : List ℕ
  prepared : List ℕ
  failed : List ℕ

inductive IngestLabel where
  | ingest
  | resume
  | ended (k : ℕ) (ok : Bool)
  | queueCommit
  | startCommit (k : ℕ)
  | settleCommit (k : ℕ)
  | write
  | startWrite (k : ℕ)
  | settleWrite (k : ℕ)
  | stop

namespace IngestQueues

def empty : IngestQueues := ⟨0, [], [], [], [], .empty, .empty, false, [], [], [], []⟩

variable (limit : ℕ) (s : IngestQueues)

/-- The entry of `run_prepare`. -/
def arrive : IngestQueues :=
  let id := s.accepted.length
  if limit ≤ s.active then { s with waiting := s.waiting ++ [id], accepted := s.accepted ++ [id] }
  else
    { s with
      active := s.active + 1
      inFlight := s.inFlight ++ [id]
      accepted := s.accepted ++ [id]
      acquired := s.acquired ++ [id] }

/-- The `finally` of `run_prepare`. -/
def handOver : IngestQueues :=
  match s.waiting with
  | [] => { s with active := s.active - 1 }
  | next :: rest => { s with waiting := rest, granted := s.granted ++ [next], acquired := s.acquired ++ [next] }

def step (s : IngestQueues) : IngestLabel → Option IngestQueues
  | .ingest => if s.stopping then none else some (s.arrive limit)
  | .resume =>
    match s.granted with
    | [] => none
    | id :: rest => some { s with granted := rest, inFlight := s.inFlight ++ [id] }
  | .ended k ok =>
    match s.inFlight[k]? with
    | none => none
    | some id =>
      let s := { s with inFlight := s.inFlight.eraseIdx k }.handOver
      some (if ok then { s with returning := s.returning ++ [id], prepared := s.prepared ++ [id] }
        else { s with failed := s.failed ++ [id] })
  | .queueCommit =>
    match s.returning with
    | [] => none
    | id :: rest => some { s with returning := rest, commits := s.commits.push id }
  | .startCommit k => (s.commits.start k).map fun commits => { s with commits := commits }
  | .settleCommit k => (s.commits.settle k).map fun commits => { s with commits := commits }
  | .write => if s.stopping then none else some { s with writes := s.writes.push s.writes.jobs.length }
  | .startWrite k => (s.writes.start k).map fun writes => { s with writes := writes }
  | .settleWrite k => (s.writes.settle k).map fun writes => { s with writes := writes }
  | .stop => some { s with stopping := true }

/-- Steps that take work on or refuse it from now on. -/
def isRequest : IngestLabel → Bool
  | .ingest | .write | .stop => true
  | _ => false

/-- How far the accepted work is from done. -/
def load : ℕ :=
  6 * s.waiting.length + 5 * s.granted.length + 4 * s.inFlight.length + 3 * s.returning.length + s.commits.left +
    s.writes.left

/-- Everything accepted has settled. -/
def Quiet : Prop :=
  s.waiting = [] ∧ s.granted = [] ∧ s.inFlight = [] ∧ s.returning = [] ∧
    (∀ p ∈ s.commits.jobs, p.2 = .settled) ∧ ∀ p ∈ s.writes.jobs, p.2 = .settled

structure Sound (limit : ℕ) (s : IngestQueues) : Prop where
  slots : s.active = s.inFlight.length + s.granted.length
  bounded : s.active ≤ limit
  busy : s.waiting ≠ [] → s.active = limit
  turns : s.acquired ++ s.waiting = s.accepted
  ids : s.accepted = List.range s.accepted.length
  once : (s.waiting ++ s.granted ++ s.inFlight ++ s.failed ++ s.prepared).Perm s.accepted
  order : s.commits.items ++ s.returning = s.prepared
  commits : s.commits.Ordered
  writes : s.writes.Ordered

variable {limit s} {t : IngestQueues}

theorem sound_empty : Sound limit empty where
  slots := rfl
  bounded := Nat.zero_le _
  busy := fun h => absurd rfl h
  turns := rfl
  ids := rfl
  once := .refl _
  order := rfl
  commits := Serial.ordered_empty
  writes := Serial.ordered_empty

theorem Sound.arrive (h : Sound limit s) : Sound limit (s.arrive limit) := by
  have hids : s.accepted ++ [s.accepted.length] = List.range (s.accepted ++ [s.accepted.length]).length := by
    rw [List.length_append, List.length_singleton, List.range_succ, ← h.ids]
  have honce := List.perm_iff_count.mp h.once
  unfold IngestQueues.arrive
  simp only
  split
  · next hfull =>
    refine ⟨h.slots, h.bounded, fun _ => Nat.le_antisymm h.bounded hfull, ?_, hids, ?_, h.order, h.commits, h.writes⟩
    · rw [← List.append_assoc, h.turns]
    · rw [List.perm_iff_count]
      intro id
      have hcount := honce id
      simp only [List.count_append] at hcount ⊢
      omega
  · next hfree =>
    have hwaiting : s.waiting = [] := by
      by_contra hne
      exact hfree (h.busy hne ▸ Nat.le_refl _)
    refine ⟨?_, Nat.lt_of_not_le hfree, fun hne => absurd hwaiting hne, ?_, hids, ?_, h.order, h.commits, h.writes⟩
    · rw [List.length_append, h.slots]
      simp only [List.length_singleton]
      omega
    · have hturns := h.turns
      rw [hwaiting, List.append_nil] at hturns ⊢
      rw [hturns]
    · rw [List.perm_iff_count]
      intro id
      have hcount := honce id
      simp only [List.count_append] at hcount ⊢
      omega

/-- The slot of a prepare that ended has gone to the call waiting longest, or is free when none waits. -/
structure HandedOver (limit : ℕ) (s : IngestQueues) (id : ℕ) (u : IngestQueues) : Prop where
  slots : u.active = u.inFlight.length + u.granted.length
  bounded : u.active ≤ limit
  busy : u.waiting ≠ [] → u.active = limit
  turns : u.acquired ++ u.waiting = s.accepted
  moved : (id :: (u.waiting ++ u.granted ++ u.inFlight)).Perm (s.waiting ++ s.granted ++ s.inFlight)
  accepted : u.accepted = s.accepted
  failed : u.failed = s.failed
  prepared : u.prepared = s.prepared
  returning : u.returning = s.returning
  commits : u.commits = s.commits
  writes : u.writes = s.writes

theorem Sound.handedOver (h : Sound limit s) {k id : ℕ} (hk : s.inFlight[k]? = some id) :
    HandedOver limit s id { s with inFlight := s.inFlight.eraseIdx k }.handOver := by
  obtain ⟨hlt, hid⟩ := List.getElem?_eq_some_iff.mp hk
  have hperm : (id :: s.inFlight.eraseIdx k).Perm s.inFlight := hid ▸ List.getElem_cons_eraseIdx_perm hlt
  have hlength : (s.inFlight.eraseIdx k).length + 1 = s.inFlight.length := hperm.length_eq
  have hcounts := List.perm_iff_count.mp hperm
  have hslots := h.slots
  have hbounded := h.bounded
  have hturns := h.turns
  unfold handOver
  cases hwaiting : s.waiting with
  | nil =>
    rw [hwaiting] at hturns
    refine ⟨by simp only; omega, by simp only; omega, fun hne => absurd rfl hne, hturns, ?_, rfl, rfl, rfl, rfl, rfl, rfl⟩
    rw [List.perm_iff_count]
    intro x
    have hx := hcounts x
    simp only [hwaiting, List.count_append, List.count_cons, List.count_nil] at hx ⊢
    omega
  | cons next rest =>
    rw [hwaiting, List.append_cons] at hturns
    have hbusy := h.busy (by rw [hwaiting]; exact List.cons_ne_nil _ _)
    refine ⟨?_, hbounded, fun _ => hbusy, hturns, ?_, rfl, rfl, rfl, rfl, rfl, rfl⟩
    · simp only [List.length_append, List.length_singleton]
      omega
    · rw [List.perm_iff_count]
      intro x
      have hx := hcounts x
      simp only [hwaiting, List.count_append, List.count_cons, List.count_nil] at hx ⊢
      omega

theorem Sound.ended (h : Sound limit s) {id : ℕ} {u : IngestQueues} (hu : HandedOver limit s id u) :
    Sound limit { u with returning := u.returning ++ [id], prepared := u.prepared ++ [id] } ∧
      Sound limit { u with failed := u.failed ++ [id] } := by
  have honce := List.perm_iff_count.mp h.once
  have hmoved := List.perm_iff_count.mp hu.moved
  have hids : u.accepted = List.range u.accepted.length := hu.accepted ▸ h.ids
  have hturns : u.acquired ++ u.waiting = u.accepted := hu.turns.trans hu.accepted.symm
  have hcommits : u.commits.Ordered := hu.commits ▸ h.commits
  have hwrites : u.writes.Ordered := hu.writes ▸ h.writes
  have horder : u.commits.items ++ u.returning = u.prepared := by
    rw [hu.commits, hu.returning, hu.prepared, h.order]
  constructor
  · refine ⟨hu.slots, hu.bounded, hu.busy, hturns, hids, ?_, ?_, hcommits, hwrites⟩
    · rw [List.perm_iff_count]
      intro x
      have hcount := honce x
      have hx := hmoved x
      simp only [hu.accepted, hu.failed, hu.prepared, List.count_append, List.count_cons, List.count_nil] at hcount hx ⊢
      omega
    · rw [← List.append_assoc, horder]
  · refine ⟨hu.slots, hu.bounded, hu.busy, hturns, hids, ?_, horder, hcommits, hwrites⟩
    rw [List.perm_iff_count]
    intro x
    have hcount := honce x
    have hx := hmoved x
    simp only [hu.accepted, hu.failed, hu.prepared, List.count_append, List.count_cons, List.count_nil] at hcount hx ⊢
    omega

theorem Sound.resume (h : Sound limit s) {id : ℕ} {rest : List ℕ} (hgranted : s.granted = id :: rest) :
    Sound limit { s with granted := rest, inFlight := s.inFlight ++ [id] } := by
  refine ⟨?_, h.bounded, h.busy, h.turns, h.ids, ?_, h.order, h.commits, h.writes⟩
  · have hslots := h.slots
    rw [hgranted] at hslots
    simp only [List.length_append, List.length_cons, List.length_nil] at hslots ⊢
    omega
  · have honce := List.perm_iff_count.mp h.once
    rw [List.perm_iff_count]
    intro x
    have hcount := honce x
    simp only [hgranted, List.count_append, List.count_cons, List.count_nil] at hcount ⊢
    omega

theorem Sound.queueCommit (h : Sound limit s) {id : ℕ} {rest : List ℕ} (hreturning : s.returning = id :: rest) :
    Sound limit { s with returning := rest, commits := s.commits.push id } := by
  refine ⟨h.slots, h.bounded, h.busy, h.turns, h.ids, h.once, ?_, h.commits.push id, h.writes⟩
  rw [← h.order, hreturning, Serial.items_push, List.append_assoc, List.singleton_append]

theorem Sound.step (h : Sound limit s) {l : IngestLabel} (ht : s.step limit l = some t) : Sound limit t := by
  cases l with
  | ingest =>
    simp only [IngestQueues.step] at ht
    split at ht
    · cases ht
    · obtain rfl := Option.some_inj.mp ht
      exact h.arrive
  | resume =>
    simp only [IngestQueues.step] at ht
    split at ht
    · cases ht
    · next id rest hgranted =>
      obtain rfl := Option.some_inj.mp ht
      exact h.resume hgranted
  | ended k ok =>
    simp only [IngestQueues.step] at ht
    split at ht
    · cases ht
    · next id hk =>
      obtain ⟨hprepared, hfailed⟩ := h.ended (h.handedOver hk)
      obtain rfl := Option.some_inj.mp ht
      cases ok with
      | true => exact hprepared
      | false => exact hfailed
  | queueCommit =>
    simp only [IngestQueues.step] at ht
    split at ht
    · cases ht
    · next id rest hreturning =>
      obtain rfl := Option.some_inj.mp ht
      exact h.queueCommit hreturning
  | startCommit k =>
    obtain ⟨commits, hstart, rfl⟩ := Option.map_eq_some_iff.mp ht
    refine ⟨h.slots, h.bounded, h.busy, h.turns, h.ids, h.once, ?_, h.commits.start hstart, h.writes⟩
    rw [Serial.items_start hstart, h.order]
  | settleCommit k =>
    obtain ⟨commits, hsettle, rfl⟩ := Option.map_eq_some_iff.mp ht
    refine ⟨h.slots, h.bounded, h.busy, h.turns, h.ids, h.once, ?_, h.commits.settle hsettle, h.writes⟩
    rw [Serial.items_settle hsettle, h.order]
  | write =>
    simp only [IngestQueues.step] at ht
    split at ht
    · cases ht
    · obtain rfl := Option.some_inj.mp ht
      exact ⟨h.slots, h.bounded, h.busy, h.turns, h.ids, h.once, h.order, h.commits, h.writes.push _⟩
  | startWrite k =>
    obtain ⟨writes, hstart, rfl⟩ := Option.map_eq_some_iff.mp ht
    exact ⟨h.slots, h.bounded, h.busy, h.turns, h.ids, h.once, h.order, h.commits, h.writes.start hstart⟩
  | settleWrite k =>
    obtain ⟨writes, hsettle, rfl⟩ := Option.map_eq_some_iff.mp ht
    exact ⟨h.slots, h.bounded, h.busy, h.turns, h.ids, h.once, h.order, h.commits, h.writes.settle hsettle⟩
  | stop =>
    obtain rfl := Option.some_inj.mp ht
    exact ⟨h.slots, h.bounded, h.busy, h.turns, h.ids, h.once, h.order, h.commits, h.writes⟩

theorem sound_run (h : Run (step limit) (· = empty) anyLabel s) : Sound limit s := by
  refine h.invariant ?_ fun _ _ _ hs _ ht => hs.step ht
  rintro _ rfl
  exact sound_empty

/-! ## Getting done -/

theorem load_handOver {k id : ℕ} (hk : s.inFlight[k]? = some id) :
    ({ s with inFlight := s.inFlight.eraseIdx k }.handOver).load + 4 ≤ s.load := by
  obtain ⟨hlt, -⟩ := List.getElem?_eq_some_iff.mp hk
  have hlength : (s.inFlight.eraseIdx k).length + 1 = s.inFlight.length := by
    rw [List.length_eraseIdx_of_lt hlt]
    omega
  unfold handOver
  cases hwaiting : s.waiting with
  | nil =>
    simp only [load, hwaiting, List.length_nil]
    omega
  | cons next rest =>
    simp only [load, hwaiting, List.length_cons, List.length_append, List.length_nil]
    omega

/-- Every step but a request brings the accepted work nearer to done. -/
theorem load_lt {l : IngestLabel} (hl : isRequest l = false) (ht : s.step limit l = some t) :
    t.load < s.load := by
  cases l with
  | ingest => cases hl
  | write => cases hl
  | stop => cases hl
  | resume =>
    simp only [IngestQueues.step] at ht
    split at ht
    · cases ht
    · next id rest hgranted =>
      obtain rfl := Option.some_inj.mp ht
      simp only [load, hgranted, List.length_append, List.length_cons, List.length_nil]
      omega
  | ended k ok =>
    simp only [IngestQueues.step] at ht
    split at ht
    · cases ht
    · next id hk =>
      have hload := load_handOver hk
      obtain rfl := Option.some_inj.mp ht
      cases ok with
      | true =>
        simp only [if_true, load, List.length_append, List.length_singleton] at hload ⊢
        omega
      | false =>
        simp only [Bool.false_eq_true, if_false, load] at hload ⊢
        omega
  | queueCommit =>
    simp only [IngestQueues.step] at ht
    split at ht
    · cases ht
    · next id rest hreturning =>
      obtain rfl := Option.some_inj.mp ht
      simp only [load, hreturning, List.length_cons, Serial.left_push]
      omega
  | startCommit k =>
    obtain ⟨commits, hstart, rfl⟩ := Option.map_eq_some_iff.mp ht
    have hleft := Serial.left_start hstart
    simp only [load]
    omega
  | settleCommit k =>
    obtain ⟨commits, hsettle, rfl⟩ := Option.map_eq_some_iff.mp ht
    have hleft := Serial.left_settle hsettle
    simp only [load]
    omega
  | startWrite k =>
    obtain ⟨writes, hstart, rfl⟩ := Option.map_eq_some_iff.mp ht
    have hleft := Serial.left_start hstart
    simp only [load]
    omega
  | settleWrite k =>
    obtain ⟨writes, hsettle, rfl⟩ := Option.map_eq_some_iff.mp ht
    have hleft := Serial.left_settle hsettle
    simp only [load]
    omega

/-- Where no step is left but a request, everything accepted is done. -/
theorem Sound.quiet (h : Sound limit s) (hlimit : 0 < limit)
    (hstuck : ∀ l, isRequest l = false → s.step limit l = none) : s.Quiet := by
  have hgranted : s.granted = [] := by
    by_contra hne
    obtain ⟨id, rest, hcons⟩ := List.exists_cons_of_ne_nil hne
    have hnone := hstuck .resume rfl
    simp [IngestQueues.step, hcons] at hnone
  have hinFlight : s.inFlight = [] := by
    by_contra hne
    obtain ⟨id, rest, hcons⟩ := List.exists_cons_of_ne_nil hne
    have hnone := hstuck (.ended 0 true) rfl
    simp [IngestQueues.step, hcons] at hnone
  have hreturning : s.returning = [] := by
    by_contra hne
    obtain ⟨id, rest, hcons⟩ := List.exists_cons_of_ne_nil hne
    have hnone := hstuck .queueCommit rfl
    simp [IngestQueues.step, hcons] at hnone
  have hwaiting : s.waiting = [] := by
    by_contra hne
    have hactive := h.slots
    rw [h.busy hne, hinFlight, hgranted, List.length_nil] at hactive
    omega
  refine ⟨hwaiting, hgranted, hinFlight, hreturning, ?_, ?_⟩
  · refine Serial.settled_of_stuck (fun k => ?_) fun k => ?_
    · exact Option.map_eq_none_iff.mp (hstuck (.startCommit k) rfl)
    · exact Option.map_eq_none_iff.mp (hstuck (.settleCommit k) rfl)
  · refine Serial.settled_of_stuck (fun k => ?_) fun k => ?_
    · exact Option.map_eq_none_iff.mp (hstuck (.startWrite k) rfl)
    · exact Option.map_eq_none_iff.mp (hstuck (.settleWrite k) rfl)

end IngestQueues

/-- Whatever the order of events: no more than the limit prepare, and a call waits only while that
many hold a slot; slots are taken in the order of arrival; every accepted ingest is in one place
until its prepare failed or its commit is queued, in the order prepares ended; commits run one at
a time in that order, as do writes. Every step but a new request brings the accepted work nearer
to done, and where none is left, all of it is done. -/
theorem ingest_queues {limit : ℕ} (hlimit : 0 < limit) {s : IngestQueues}
    (h : Run (IngestQueues.step limit) (· = IngestQueues.empty) anyLabel s) :
    s.inFlight.length + s.granted.length ≤ limit ∧
      (s.waiting ≠ [] → s.inFlight.length + s.granted.length = limit) ∧
      s.acquired ++ s.waiting = s.accepted ∧ s.accepted.Nodup ∧
      (s.waiting ++ s.granted ++ s.inFlight ++ s.failed ++ (s.commits.items ++ s.returning)).Perm s.accepted ∧
      s.commits.items ++ s.returning = s.prepared ∧ s.commits.Ordered ∧ s.writes.Ordered ∧
      (∀ l t, IngestQueues.isRequest l = false → s.step limit l = some t → t.load < s.load) ∧
      ((∀ l, IngestQueues.isRequest l = false → s.step limit l = none) → s.Quiet) := by
  have hs := IngestQueues.sound_run h
  refine ⟨hs.slots ▸ hs.bounded, fun hne => hs.slots ▸ hs.busy hne, hs.turns, ?_, ?_, hs.order, hs.commits, hs.writes,
    fun l t hl ht => IngestQueues.load_lt hl ht, hs.quiet hlimit⟩
  · rw [hs.ids]
    exact List.nodup_range
  · rw [hs.order]
    exact hs.once

namespace IngestSample

/-- With room for one prepare, the second ingest has its slot from the first, which is committing. -/
def queues : IngestQueues :=
  ⟨1, [2], [], [1], [], ⟨[(0, .running)]⟩, ⟨[(0, .queued)]⟩, true, [0, 1, 2], [0, 1], [0], []⟩

theorem run_queues : runLabels (IngestQueues.step 1) .empty
    [.ingest, .ingest, .ingest, .ended 0 true, .resume, .queueCommit, .startCommit 0, .write, .stop] = some queues := rfl

end IngestSample

theorem ingest_queues_three :
    let s := IngestSample.queues
    s.inFlight.length + s.granted.length ≤ 1 ∧
      (s.waiting ≠ [] → s.inFlight.length + s.granted.length = 1) ∧
      s.acquired ++ s.waiting = s.accepted ∧ s.accepted.Nodup ∧
      (s.waiting ++ s.granted ++ s.inFlight ++ s.failed ++ (s.commits.items ++ s.returning)).Perm s.accepted ∧
      s.commits.items ++ s.returning = s.prepared ∧ s.commits.Ordered ∧ s.writes.Ordered ∧
      (∀ l t, IngestQueues.isRequest l = false → s.step 1 l = some t → t.load < s.load) ∧
      ((∀ l, IngestQueues.isRequest l = false → s.step 1 l = none) → s.Quiet) :=
  ingest_queues Nat.one_pos (.of_runLabels (.start rfl) (fun _ _ _ => trivial) IngestSample.run_queues)

end RecordNode
