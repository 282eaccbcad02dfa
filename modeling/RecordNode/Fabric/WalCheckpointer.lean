import Mathlib.Data.Nat.Notation
import RecordNode.Foundation.Run

/-! # Checkpoints off the event loop

The write connection of a store never checkpoints; a worker with a connection of its own does.
Each commit posts it a nudge, the first nudge arms a timer, and the timer's pass goes for what was
committed by then, no two of these passes closer than an interval. A pass may fail, or copy only a
part where a reader is in its way; the next one is for the next commit. A stop is a last message,
behind every nudge, with a last pass; only the first call of it waits. When the worker dies on its
own the write connection checkpoints again. -/

namespace RecordNode

open Foundation

inductive CheckpointerMessage where
  | nudge
  | stop

structure WalCheckpointer where
  alive : Bool
  stopping : Bool
  /-- `wal_autocheckpoint` is 1000 again, not 0. -/
  selfCheckpoints : Bool
  /-- The calls of `stop` in their order, and whether each has resolved. -/
  stops : List Bool
  /-- The first one waits for the worker's exit. -/
  awaiting : Bool
  mailbox : List CheckpointerMessage
  /-- The worker's events that the main thread has not handled: an exit, and an error before it. -/
  exits : ℕ
  running : Bool
  last : ℕ
  timer : Option ℕ
  now : ℕ
  /-- The commits made, those made when the last pass ran and those that passes copied. -/
  commits : ℕ
  passed : ℕ
  covered : ℕ
  /-- The failures that passes reported. -/
  errors : ℕ
  /-- When the timer's passes ran, the last first. -/
  passes : List ℕ
  /-- The worker ended by a stop. -/
  clean : Bool

namespace WalCheckpointer

inductive Label where
  | commit
  /-- The worker handles its next message; if it runs a pass, with this outcome. -/
  | deliver (copied : Option ℕ)
  /-- The timer fires, at its time or later. -/
  | fire (copied : Option ℕ)
  /-- The worker dies, by an error it did not catch or without one. -/
  | crash (error : Bool)
  /-- The main thread handles an event of the worker. -/
  | exited
  | stop
  | tick (ms : ℕ)

def start (now : ℕ) : WalCheckpointer :=
  ⟨true, false, false, [], false, [], 0, true, now, none, now, 0, 0, 0, 0, [], false⟩

/-- The outcome of a pass that starts now: it throws, or the file then holds the commits up to this one. -/
def Possible (s : WalCheckpointer) (copied : Option ℕ) : Prop := ∀ n ∈ copied, s.covered ≤ n ∧ n ≤ s.commits

instance (s : WalCheckpointer) (copied : Option ℕ) : Decidable (s.Possible copied) :=
  inferInstanceAs (Decidable (∀ n ∈ copied, s.covered ≤ n ∧ n ≤ s.commits))

def pass (s : WalCheckpointer) (copied : Option ℕ) : WalCheckpointer :=
  { s with
    passed := s.commits
    covered := copied.getD s.covered
    errors := if copied = none then s.errors + 1 else s.errors }

variable (interval : ℕ)

/-- One message of the worker. -/
def handle (s : WalCheckpointer) (copied : Option ℕ) : CheckpointerMessage → WalCheckpointer
  | .nudge =>
    match s.timer with
    | some _ => s
    | none => { s with timer := some (s.now + (s.last + interval - s.now)) }
  | .stop => { s.pass copied with timer := none, running := false, clean := true, exits := 1 }

/-- `scheduled`: a timer's pass. -/
def scheduled (s : WalCheckpointer) (copied : Option ℕ) : WalCheckpointer :=
  { s.pass copied with timer := none, last := s.now, passes := s.now :: s.passes }

def step (s : WalCheckpointer) : Label → Option WalCheckpointer
  | .commit => some { s with
      commits := s.commits + 1
      mailbox := if s.alive then s.mailbox ++ [.nudge] else s.mailbox }
  | .deliver copied =>
    match s.mailbox with
    | [] => none
    | message :: rest =>
      if s.running ∧ s.Possible copied then some ({ s with mailbox := rest }.handle interval copied message) else none
  | .fire copied =>
    match s.timer with
    | none => none
    | some due => if (s.running ∧ due ≤ s.now) ∧ s.Possible copied then some (s.scheduled copied) else none
  | .crash error => if s.running then some { s with running := false, exits := if error then 2 else 1 } else none
  | .exited =>
    if s.exits = 0 then none
    else
      let s := { s with exits := s.exits - 1 }
      if s.stopping then some { s with stops := if s.awaiting ∧ s.exits = 0 then s.stops.set 0 true else s.stops }
      else if s.alive then some { s with alive := false, selfCheckpoints := true }
      else some s
  | .stop =>
    if s.stopping then some { s with stops := s.stops ++ [true] }
    else if s.alive then
      some { s with
        stopping := true
        alive := false
        awaiting := true
        stops := s.stops ++ [false]
        mailbox := s.mailbox ++ [.stop] }
    else some { s with stopping := true, stops := s.stops ++ [true] }
  | .tick ms => some { s with now := s.now + ms }

/-- The caller stops behind its last commit. -/
def Caller (s : WalCheckpointer) : Label → Prop
  | .commit => s.stopping = false
  | _ => True

structure Good (s : WalCheckpointer) : Prop where
  past : s.last ≤ s.now
  pending : s.running = true → s.passed < s.commits → s.mailbox ≠ [] ∨ ∃ due, s.timer = some due
  timer : ∀ due, s.timer = some due → s.last + interval ≤ due ∧ due ≤ s.now + interval
  spaced : s.passes.Pairwise fun later earlier => earlier + interval ≤ later
  passes : ∀ t ∈ s.passes, t ≤ s.last
  copied : s.covered ≤ s.passed ∧ s.passed ≤ s.commits
  /-- A worker runs, its end is on its way to the main thread, or the connection checkpoints itself. -/
  served : s.alive = true → s.running = true ∨ 0 < s.exits
  fallen : s.alive = false → s.stopping = true ∨ s.selfCheckpoints = true
  ended : s.selfCheckpoints = true ∨ 0 < s.exits ∨ s.clean = true ∨ s.stops.head? = some true → s.running = false
  stops : s.stops = [] ↔ s.stopping = false
  later : ∀ resolved ∈ s.stops.tail, resolved = true
  idle : s.stopping = true → s.alive = false
  clean : s.clean = true → s.passed = s.commits ∧ s.stopping = true
  posted : .stop ∈ s.mailbox → s.stopping = true

variable {interval} {s t : WalCheckpointer}

theorem good_start (now : ℕ) : (start now).Good interval where
  past := Nat.le_refl _
  pending _ h := absurd h (Nat.lt_irrefl 0)
  timer _ h := by cases h
  spaced := List.Pairwise.nil
  passes _ h := absurd h List.not_mem_nil
  copied := ⟨Nat.le_refl _, Nat.le_refl _⟩
  served _ := .inl rfl
  fallen h := by cases h
  ended h := by simp [start] at h
  stops := ⟨fun _ => rfl, fun _ => rfl⟩
  later _ h := absurd h List.not_mem_nil
  idle h := by cases h
  clean h := by cases h
  posted h := absurd h List.not_mem_nil

/-- A pass copies no more than there is. -/
theorem Good.copied_le (h : s.Good interval) {copied : Option ℕ} (hp : s.Possible copied) :
    copied.getD s.covered ≤ s.commits := by
  cases copied with
  | none => exact Nat.le_trans h.copied.1 h.copied.2
  | some n => exact (hp n rfl).2

theorem Good.commit (h : s.Good interval) (hcaller : s.stopping = false) (hs : s.step interval .commit = some t) :
    t.Good interval := by
  obtain rfl := Option.some_inj.mp hs
  refine { h with
    pending := fun hrunning _ => ?_
    copied := ⟨h.copied.1, Nat.le_succ_of_le h.copied.2⟩
    clean := fun hclean => ?_
    posted := fun hmem => ?_ }
  · cases halive : s.alive with
    | true => exact .inl (by simp)
    | false =>
      have hself := (h.fallen halive).resolve_left (by simp [hcaller])
      have hended := h.ended (.inl hself)
      simp [hended] at hrunning
  · simp [(h.clean hclean).2] at hcaller
  · split at hmem
    · exact h.posted (by simpa using hmem)
    · exact h.posted hmem

theorem Good.deliver (h : s.Good interval) {copied : Option ℕ} (hs : s.step interval (.deliver copied) = some t) :
    t.Good interval := by
  simp only [WalCheckpointer.step] at hs
  split at hs
  · cases hs
  · next message rest hmailbox =>
    split at hs
    case isFalse => cases hs
    case isTrue hrunning =>
      obtain rfl := Option.some_inj.mp hs
      have hposted : .stop ∈ rest → s.stopping = true := fun hmem => h.posted (hmailbox ▸ List.mem_cons_of_mem _ hmem)
      have hpast := h.past
      cases message with
      | nudge =>
        simp only [handle]
        split
        · next due hdue =>
          exact { h with pending := fun _ _ => .inr ⟨due, hdue⟩, posted := hposted }
        · refine { h with pending := fun _ _ => .inr ⟨_, rfl⟩, timer := fun due hdue => ?_, posted := hposted }
          obtain rfl := Option.some_inj.mp hdue
          simp only
          omega
      | stop =>
        have hstopping := h.posted (hmailbox ▸ List.mem_cons_self)
        exact { h with
          pending := fun hrun => by simp [handle] at hrun
          timer := fun due hdue => by simp [handle] at hdue
          copied := ⟨h.copied_le hrunning.2, Nat.le_refl _⟩
          served := fun _ => .inr Nat.one_pos
          ended := fun _ => rfl
          clean := fun _ => ⟨rfl, hstopping⟩
          posted := hposted }

theorem Good.fire (h : s.Good interval) {copied : Option ℕ} (hs : s.step interval (.fire copied) = some t) :
    t.Good interval := by
  simp only [WalCheckpointer.step] at hs
  split at hs
  · cases hs
  · next due hdue =>
    split at hs
    case isFalse => cases hs
    case isTrue hfire =>
      obtain rfl := Option.some_inj.mp hs
      obtain ⟨⟨-, hlate⟩, hpossible⟩ := hfire
      obtain ⟨hearliest, -⟩ := h.timer due hdue
      have hpast := h.past
      refine { h with
        past := Nat.le_refl _
        pending := fun _ hlt => absurd hlt (Nat.lt_irrefl _)
        timer := fun _ hnone => by cases hnone
        spaced := List.pairwise_cons.mpr ⟨fun t ht => ?_, h.spaced⟩
        passes := List.forall_mem_cons.mpr ⟨Nat.le_refl _, fun t ht => Nat.le_trans (h.passes t ht) hpast⟩
        copied := ⟨h.copied_le hpossible, Nat.le_refl _⟩
        clean := fun hclean => ⟨rfl, (h.clean hclean).2⟩ }
      have := h.passes t ht
      omega

theorem head?_set_zero (stops : List Bool) : (stops.set 0 true).tail = stops.tail ∧ (stops.set 0 true = [] ↔ stops = []) := by
  cases stops <;> simp

theorem Good.exited (h : s.Good interval) (hs : s.step interval .exited = some t) : t.Good interval := by
  simp only [WalCheckpointer.step] at hs
  split at hs
  · cases hs
  · next hexits =>
    have hend : s.running = false := h.ended (.inr (.inl (Nat.pos_of_ne_zero hexits)))
    split at hs
    · next hstopping =>
      obtain rfl := Option.some_inj.mp hs
      obtain ⟨htail, hnil⟩ := head?_set_zero s.stops
      exact { h with
        pending := fun hrun => by simp [hend] at hrun
        served := fun halive => by simp [h.idle hstopping] at halive
        ended := fun _ => hend
        stops := by
          simp only
          split
          · rw [hnil, h.stops]
          · exact h.stops
        later := by
          simp only
          split
          · rw [htail]
            exact h.later
          · exact h.later }
    · next hstopping =>
      split at hs
      · obtain rfl := Option.some_inj.mp hs
        exact { h with
          pending := fun hrun => by simp [hend] at hrun
          served := fun halive => by cases halive
          fallen := fun _ => .inr rfl
          ended := fun _ => hend
          idle := fun _ => rfl }
      · next halive =>
        obtain rfl := Option.some_inj.mp hs
        exact { h with
          pending := fun hrun => by simp [hend] at hrun
          served := fun halive' => absurd halive' halive
          ended := fun _ => hend }

theorem Good.stop (h : s.Good interval) (hs : s.step interval .stop = some t) : t.Good interval := by
  simp only [WalCheckpointer.step] at hs
  split at hs
  · next hstopping =>
    -- a later call
    obtain rfl := Option.some_inj.mp hs
    have hfirst : s.stops ≠ [] := fun hnil => by simp [h.stops.mp hnil] at hstopping
    obtain ⟨first, rest, hstops⟩ := List.exists_cons_of_ne_nil hfirst
    have hlater := h.later
    have hended := h.ended
    rw [hstops] at hlater hended
    refine { h with ended := ?_, stops := ?_, later := ?_ }
    · simpa [hstops] using hended
    · simp [hstops, hstopping]
    · simp only [hstops, List.cons_append, List.tail_cons, List.forall_mem_append, List.forall_mem_singleton, and_true]
      exact hlater
  · next hstopping =>
    have hnone : s.stops = [] := h.stops.mpr (Bool.eq_false_iff.mpr hstopping)
    split at hs
    · obtain rfl := Option.some_inj.mp hs
      have hended := h.ended
      simp only [hnone] at hended
      exact { h with
        pending := fun _ _ => .inl (by simp)
        served := fun halive => by cases halive
        fallen := fun _ => .inl rfl
        ended := by simpa [hnone] using hended
        stops := by simp [hnone]
        later := by simp [hnone]
        idle := fun _ => rfl
        clean := fun hclean => ⟨(h.clean hclean).1, rfl⟩
        posted := fun _ => rfl }
    · next halive =>
      obtain rfl := Option.some_inj.mp hs
      have hfalse : s.alive = false := Bool.eq_false_iff.mpr halive
      have hself := (h.fallen hfalse).resolve_left hstopping
      exact { h with
        fallen := fun _ => .inl rfl
        ended := fun _ => h.ended (.inl hself)
        stops := by simp [hnone]
        later := by simp [hnone]
        idle := fun _ => hfalse
        clean := fun hclean => ⟨(h.clean hclean).1, rfl⟩
        posted := fun _ => rfl }

theorem Good.step (h : s.Good interval) {l : Label} (hcaller : Caller s l) (hs : s.step interval l = some t) :
    t.Good interval := by
  cases l with
  | commit => exact h.commit hcaller hs
  | deliver => exact h.deliver hs
  | fire => exact h.fire hs
  | crash error =>
    simp only [WalCheckpointer.step] at hs
    split at hs
    case isFalse => cases hs
    case isTrue =>
      obtain rfl := Option.some_inj.mp hs
      exact { h with
        pending := fun hrun => by cases hrun
        served := fun _ => .inr (by cases error <;> simp)
        ended := fun _ => rfl }
  | exited => exact h.exited hs
  | stop => exact h.stop hs
  | tick ms =>
    obtain rfl := Option.some_inj.mp hs
    refine { h with past := Nat.le_add_right_of_le h.past, timer := fun due hdue => ?_ }
    obtain ⟨hearliest, hlatest⟩ := h.timer due hdue
    exact ⟨hearliest, by simp only; omega⟩

/-! ## A pass behind every commit -/

/-- What the worker does by itself, and time. -/
def Label.own : Label → Bool
  | .deliver _ | .fire _ | .tick _ => true
  | .commit | .crash _ | .exited | .stop => false

/-- The worker alone comes to a pass for every commit, within an interval and whatever its outcome. -/
def CatchesUp (interval : ℕ) (s : WalCheckpointer) : Prop :=
  ∀ copied, s.Possible copied → ∃ labels t, (∀ l ∈ labels, l.own = true) ∧ runLabels (step interval) s labels = some t ∧
    t.passed = s.commits ∧ t.covered = copied.getD s.covered ∧ t.now ≤ s.now + interval

theorem catchesUp_timer {due : ℕ} (hrunning : s.running = true) (hdue : s.timer = some due) (hsoon : due ≤ s.now + interval) :
    CatchesUp interval s := by
  intro copied hcopied
  have hfire : due ≤ s.now + (due - s.now) := by omega
  refine ⟨[.tick (due - s.now), .fire copied], ({ s with now := s.now + (due - s.now) } : WalCheckpointer).scheduled copied,
    by simp [Label.own], ?_, rfl, rfl, ?_⟩
  · simp [runLabels, WalCheckpointer.step, hdue, hrunning, hfire]
    exact hcopied
  · simp only [scheduled, pass]
    omega

theorem Good.catchesUp (h : s.Good interval) (hrunning : s.running = true) (hbehind : s.passed < s.commits) :
    CatchesUp interval s := by
  cases htimer : s.timer with
  | some due => exact catchesUp_timer hrunning htimer (h.timer due htimer).2
  | none =>
    intro copied hcopied
    have hmailbox := (h.pending hrunning hbehind).resolve_right (by simp [htimer])
    obtain ⟨message, rest, hmessage⟩ := List.exists_cons_of_ne_nil hmailbox
    have hstep : s.step interval (.deliver copied) = some ({ s with mailbox := rest }.handle interval copied message) := by
      simp [WalCheckpointer.step, hmessage, hrunning, hcopied]
    cases message with
    | stop => exact ⟨[.deliver copied], _, by simp [Label.own], runLabels_cons hstep [], rfl, rfl, Nat.le_add_right _ _⟩
    | nudge =>
      -- the nudge arms the timer
      have harmed : ({ s with mailbox := rest }.handle interval copied .nudge) =
          { s with mailbox := rest, timer := some (s.now + (s.last + interval - s.now)) } := by
        simp [handle, htimer]
      have hpast := h.past
      have hcaught : CatchesUp interval ({ s with mailbox := rest }.handle interval copied .nudge) := by
        rw [harmed]
        exact catchesUp_timer hrunning rfl (by simp only; omega)
      rw [harmed] at hcaught hstep
      obtain ⟨labels, t, hown, hrun, hpassed, hcovered, hnow⟩ := hcaught copied hcopied
      exact ⟨.deliver copied :: labels, t, List.forall_mem_cons.mpr ⟨rfl, hown⟩, (runLabels_cons hstep labels).trans hrun,
        hpassed, hcovered, hnow⟩

end WalCheckpointer

end RecordNode
