import Mathlib.Data.List.Basic
import RecordNode.Foundation.Run

/-! # The commit batcher

Runs on one write connection share a transaction until it is committed at the policy's
limit, by the window's timer, by a flush or on close; a run that throws rolls the whole
batch back. The batcher keeps its own flag for an open transaction, and the connection has
its own. As long as the two agree every run is inside a transaction and what is committed
is whole runs in call order. They part when a COMMIT fails and leaves its transaction open,
and when the connection rolls a transaction back under a run that throws. -/

namespace RecordNode

open Foundation

/-- How a function ends on the data it finds: done, thrown out of with the data as far as it came, or thrown
out of with the transaction rolled back by the connection itself. -/
inductive Outcome (D : Type*) where
  | done (d : D)
  | threw (d : D)
  | aborted

/-- How a COMMIT ends: it throws with its transaction left open on a busy database or a full disk, and
throws with the transaction rolled back on other errors. -/
inductive CommitOutcome where
  | done
  | leftOpen
  | rolledBack
deriving DecidableEq

inductive CallResult where
  | returned
  | threw
deriving DecidableEq

/-- A write connection: what is committed, and the data of the transaction it is inside. -/
structure Connection (D : Type*) where
  committed : D
  transaction : Option D

namespace Connection

variable {D : Type*}

/-- `BEGIN`, refused inside a transaction. -/
def begin (db : Connection D) : Option (Connection D) :=
  match db.transaction with
  | some _ => none
  | none => some ⟨db.committed, some db.committed⟩

/-- `ROLLBACK`, refused outside one. -/
def rollback (db : Connection D) : Option (Connection D) :=
  match db.transaction with
  | some _ => some ⟨db.committed, none⟩
  | none => none

/-- `COMMIT`, refused outside one. -/
def commit (db : Connection D) (outcome : CommitOutcome) : Connection D × CallResult :=
  match db.transaction with
  | none => (db, .threw)
  | some d =>
    match outcome with
    | .done => (⟨d, none⟩, .returned)
    | .leftOpen => (db, .threw)
    | .rolledBack => (⟨db.committed, none⟩, .threw)

/-- A function's statements, inside the transaction or, where there is none, each committed as it runs. -/
def apply (db : Connection D) (fn : D → Outcome D) : Connection D × CallResult :=
  match db.transaction with
  | some d =>
    match fn d with
    | .done d => (⟨db.committed, some d⟩, .returned)
    | .threw d => (⟨db.committed, some d⟩, .threw)
    | .aborted => (⟨db.committed, none⟩, .threw)
  | none =>
    match fn db.committed with
    | .done d => (⟨d, none⟩, .returned)
    | .threw d => (⟨d, none⟩, .threw)
    | .aborted => (db, .threw)

/-- The data a function would find. -/
def data (db : Connection D) : D := db.transaction.getD db.committed

end Connection

structure CommitBatcher (D : Type*) where
  db : Connection D
  /-- The flag `open`. -/
  isOpen : Bool
  count : ℕ
  /-- The window's timer is armed. -/
  timer : Bool
  /-- Every function handed to `run`, in call order. -/
  calls : List (D → Outcome D)

namespace CommitBatcher

variable {D : Type*}

def commit (s : CommitBatcher D) (outcome : CommitOutcome) : CommitBatcher D × CallResult :=
  if s.isOpen then
    -- closed before the COMMIT, which may throw
    let result := s.db.commit outcome
    ({ s with db := result.1, isOpen := false, count := 0, timer := false }, result.2)
  else ({ s with timer := false }, .returned)

/-- A run's transaction: the open one, or a new one. -/
def enter (s : CommitBatcher D) : Option (CommitBatcher D) :=
  if s.isOpen then some s else s.db.begin.map fun db => { s with db := db, isOpen := true }

variable (maxTransactions : ℕ)

def run (s : CommitBatcher D) (fn : D → Outcome D) (outcome : CommitOutcome) : CommitBatcher D × CallResult :=
  match s.enter with
  | none => (s, .threw)
  | some s =>
    match s.db.apply fn with
    | (db, .returned) =>
      let s := { s with db := db, count := s.count + 1 }
      if maxTransactions ≤ s.count then s.commit outcome else ({ s with timer := true }, .returned)
    | (db, .threw) =>
      match db.rollback with
      | none => ({ s with db := db }, .threw)
      | some db => ({ s with db := db, isOpen := false, count := 0, timer := false }, .threw)

inductive Label (D : Type*) where
  /-- A run of this function, with how a COMMIT at its end would go. -/
  | run (fn : D → Outcome D) (outcome : CommitOutcome)
  | flush (outcome : CommitOutcome)
  | close (outcome : CommitOutcome)
  | timer (outcome : CommitOutcome)

def step (s : CommitBatcher D) : Label D → Option (CommitBatcher D)
  | .run fn outcome => some { (s.run maxTransactions fn outcome).1 with calls := s.calls ++ [fn] }
  | .flush outcome => some (s.commit outcome).1
  | .close outcome => some (s.commit outcome).1
  | .timer outcome => if s.timer then some (s.commit outcome).1 else none

def Initial (start : D) (s : CommitBatcher D) : Prop := s = ⟨⟨start, none⟩, false, 0, false, []⟩

/-- No COMMIT that is reached leaves its transaction open, and the connection rolls back no transaction
under the run. -/
def Clean (s : CommitBatcher D) : Label D → Prop
  | .run fn outcome => fn s.db.data ≠ .aborted ∧
      ((∃ d, fn s.db.data = .done d) → maxTransactions ≤ s.count + 1 → outcome ≠ .leftOpen)
  | .flush outcome => s.isOpen = true → outcome ≠ .leftOpen
  | .close outcome => s.isOpen = true → outcome ≠ .leftOpen
  | .timer outcome => s.isOpen = true → outcome ≠ .leftOpen

/-- The data after these functions, each of which is done. -/
def applyAll (d : D) : List (D → Outcome D) → Option D
  | [] => some d
  | fn :: rest =>
    match fn d with
    | .done d => applyAll d rest
    | _ => none

/-- What the batcher promises between calls. -/
structure Healthy (start : D) (s : CommitBatcher D) : Prop where
  /-- The flag says whether the connection is inside a transaction. -/
  inStep : s.isOpen = true ↔ s.db.transaction.isSome = true
  /-- A run's function finds a transaction, and the run returns if the function does and the commit succeeds. -/
  serves : ∃ entered d, s.enter = some entered ∧ entered.db.transaction = some d ∧
    ∀ fn d', fn d = .done d' → (s.run maxTransactions fn .done).2 = .returned
  /-- What is committed is the work of whole runs in call order. -/
  whole : ∃ kept, kept.Sublist s.calls ∧ applyAll start kept = some s.db.committed

/-! ## Clean runs -/

/-- The committed runs and those of the open batch, all whole and in call order. -/
structure Sound (start : D) (s : CommitBatcher D) : Prop where
  inStep : s.isOpen = true ↔ s.db.transaction.isSome = true
  whole : ∃ kept batch, (kept ++ batch).Sublist s.calls ∧ applyAll start kept = some s.db.committed ∧
    ∀ d, s.db.transaction = some d → applyAll s.db.committed batch = some d

variable {maxTransactions} {start : D} {s t : CommitBatcher D}

theorem applyAll_append (d : D) (fns fns' : List (D → Outcome D)) :
    applyAll d (fns ++ fns') = (applyAll d fns).bind fun d => applyAll d fns' := by
  induction fns generalizing d with
  | nil => rfl
  | cons fn rest ih =>
    simp only [List.cons_append, applyAll]
    cases fn d with
    | done d => exact ih d
    | threw d => rfl
    | aborted => rfl

theorem initial_sound (h : Initial start s) : Sound start s := by
  obtain rfl := h
  exact ⟨by simp, [], [], List.Sublist.refl _, rfl, by simp⟩

/-- A batch that is dropped leaves what was committed. -/
theorem Sound.dropped (h : Sound start s) {count : ℕ} {timer : Bool} :
    Sound start { s with db := ⟨s.db.committed, none⟩, isOpen := false, count := count, timer := timer } := by
  obtain ⟨kept, batch, hsub, hkept, -⟩ := h.whole
  refine ⟨by simp, kept, [], ?_, hkept, by simp⟩
  rw [List.append_nil]
  exact (List.sublist_append_left kept batch).trans hsub

theorem Sound.commit {outcome : CommitOutcome} (h : Sound start s) (hclean : s.isOpen = true → outcome ≠ .leftOpen) :
    Sound start (s.commit outcome).1 := by
  unfold CommitBatcher.commit
  by_cases hopen : s.isOpen = true
  case neg =>
    rw [if_neg hopen]
    exact ⟨h.inStep, h.whole⟩
  case pos =>
    obtain ⟨d, hd⟩ := Option.isSome_iff_exists.mp (h.inStep.mp hopen)
    simp only [hopen, if_true, Connection.commit, hd]
    cases outcome with
    | leftOpen => exact absurd rfl (hclean hopen)
    | rolledBack => exact h.dropped
    | done =>
      obtain ⟨kept, batch, hsub, hkept, hbatch⟩ := h.whole
      refine ⟨by simp, kept ++ batch, [], by simpa using hsub, ?_, by simp⟩
      rw [applyAll_append, hkept]
      exact hbatch d hd

/-- A sound batcher can begin a run, and the function then finds the data of its transaction. -/
theorem Sound.enter (h : Sound start s) : ∃ entered, s.enter = some entered ∧ Sound start entered ∧
    entered.isOpen = true ∧ entered.db.transaction = some s.db.data ∧ entered.count = s.count ∧
    entered.calls = s.calls ∧ entered.db.committed = s.db.committed := by
  unfold CommitBatcher.enter
  cases hopen : s.isOpen with
  | true =>
    obtain ⟨d, hd⟩ := Option.isSome_iff_exists.mp (h.inStep.mp hopen)
    exact ⟨s, rfl, h, hopen, by simp [Connection.data, hd], rfl, rfl, rfl⟩
  | false =>
    have hnone : s.db.transaction = none := by
      rw [← Option.not_isSome_iff_eq_none, ← h.inStep, hopen]
      simp
    obtain ⟨kept, batch, hsub, hkept, -⟩ := h.whole
    refine ⟨{ s with db := ⟨s.db.committed, some s.db.committed⟩, isOpen := true }, ?_, ⟨by simp, kept, [], ?_, hkept, ?_⟩,
      rfl, ?_, rfl, rfl, rfl⟩
    · simp [Connection.begin, hnone]
    · rw [List.append_nil]
      exact (List.sublist_append_left kept batch).trans hsub
    · intro d hd
      exact hd
    · simp [Connection.data, hnone]

/-- The call in hand is recorded. -/
theorem Sound.called (h : Sound start s) (fn : D → Outcome D) : Sound start { s with calls := s.calls ++ [fn] } := by
  obtain ⟨kept, batch, hsub, hkept, hbatch⟩ := h.whole
  exact ⟨h.inStep, kept, batch, hsub.trans (List.sublist_append_left _ _), hkept, hbatch⟩

/-- A run whose function is done joins the batch. -/
theorem Sound.joined {fn : D → Outcome D} {d d' : D} {count : ℕ} {timer : Bool} (h : Sound start s)
    (hopen : s.isOpen = true) (hd : s.db.transaction = some d) (hfn : fn d = .done d') :
    Sound start { s with
      db := ⟨s.db.committed, some d'⟩, count := count, timer := timer, calls := s.calls ++ [fn] } := by
  obtain ⟨kept, batch, hsub, hkept, hbatch⟩ := h.whole
  refine ⟨by simp [hopen], kept, batch ++ [fn], ?_, hkept, fun e he => ?_⟩
  · rw [← List.append_assoc]
    exact hsub.append (List.Sublist.refl _)
  · obtain rfl := Option.some_inj.mp he
    rw [applyAll_append, hbatch d hd]
    simp [applyAll, hfn]

theorem commit_calls (s : CommitBatcher D) (calls : List (D → Outcome D)) (outcome : CommitOutcome) :
    ({ s with calls := calls }.commit outcome).1 = { (s.commit outcome).1 with calls := calls } := by
  unfold CommitBatcher.commit
  split <;> rfl

variable (maxTransactions) in
/-- Where a sound batcher's run goes: out of the function with the batch dropped, or on to the commit or the
timer with the run in the batch. -/
theorem Sound.run_cases (h : Sound start s) (fn : D → Outcome D) (outcome : CommitOutcome) :
    ∃ entered, Sound start entered ∧ entered.isOpen = true ∧ entered.db.transaction = some s.db.data ∧
      entered.count = s.count ∧ entered.calls = s.calls ∧
      match fn s.db.data with
      | .aborted => s.run maxTransactions fn outcome = ({ entered with db := ⟨entered.db.committed, none⟩ }, .threw)
      | .threw _ => s.run maxTransactions fn outcome =
          ({ entered with db := ⟨entered.db.committed, none⟩, isOpen := false, count := 0, timer := false }, .threw)
      | .done d => s.run maxTransactions fn outcome =
          if maxTransactions ≤ s.count + 1 then
            { entered with db := ⟨entered.db.committed, some d⟩, count := s.count + 1 }.commit outcome
          else ({ entered with db := ⟨entered.db.committed, some d⟩, count := s.count + 1, timer := true }, .returned) := by
  obtain ⟨entered, henter, hsound, hopen, hdata, hcount, hcalls, -⟩ := h.enter
  refine ⟨entered, hsound, hopen, hdata, hcount, hcalls, ?_⟩
  unfold CommitBatcher.run
  rw [henter]
  cases hfn : fn s.db.data with
  | aborted => simp only [Connection.apply, hdata, hfn, Connection.rollback]
  | threw d => simp only [Connection.apply, hdata, hfn, Connection.rollback]
  | done d => simp only [Connection.apply, hdata, hfn, hcount]

theorem Sound.run {fn : D → Outcome D} {outcome : CommitOutcome} (h : Sound start s)
    (hclean : Clean maxTransactions s (.run fn outcome)) (hs : step maxTransactions s (.run fn outcome) = some t) :
    Sound start t := by
  obtain rfl := Option.some_inj.mp hs
  obtain ⟨entered, hsound, hopen, hdata, hcount, hcalls, hrun⟩ := h.run_cases maxTransactions fn outcome
  cases hfn : fn s.db.data with
  | aborted => exact absurd hfn hclean.1
  | threw d =>
    rw [hfn] at hrun
    rw [hrun, ← hcalls]
    exact hsound.dropped.called fn
  | done d =>
    rw [hfn] at hrun
    rw [hrun]
    by_cases hmax : maxTransactions ≤ s.count + 1
    case pos =>
      rw [if_pos hmax, ← hcalls, ← commit_calls]
      exact (hsound.joined hopen hdata hfn).commit fun _ => hclean.2 ⟨d, hfn⟩ hmax
    case neg =>
      rw [if_neg hmax, ← hcalls]
      exact hsound.joined hopen hdata hfn

theorem Sound.step {l : Label D} (h : Sound start s) (hclean : Clean maxTransactions s l)
    (hs : step maxTransactions s l = some t) : Sound start t := by
  cases l with
  | run fn outcome => exact h.run hclean hs
  | flush outcome => exact Option.some_inj.mp hs ▸ h.commit hclean
  | close outcome => exact Option.some_inj.mp hs ▸ h.commit hclean
  | timer outcome =>
    rw [CommitBatcher.step] at hs
    split at hs
    · exact Option.some_inj.mp hs ▸ h.commit hclean
    · cases hs

theorem Sound.healthy (h : Sound start s) : Healthy maxTransactions start s := by
  obtain ⟨kept, batch, hsub, hkept, -⟩ := h.whole
  obtain ⟨entered, henter, -, -, hdata, -⟩ := h.enter
  refine ⟨h.inStep, ⟨entered, s.db.data, henter, hdata, fun fn d hfn => ?_⟩,
    kept, (List.sublist_append_left kept batch).trans hsub, hkept⟩
  obtain ⟨entered, -, hopen, -, -, -, hrun⟩ := h.run_cases maxTransactions fn .done
  rw [hfn] at hrun
  rw [hrun]
  split
  · simp [CommitBatcher.commit, hopen, Connection.commit]
  · rfl

/-! ## What is not clean -/

/-- A COMMIT that leaves its transaction open leaves the flag down. -/
theorem commit_leftOpen_not_inStep (hopen : s.isOpen = true) (hinside : s.db.transaction.isSome = true) :
    ¬ ((s.commit .leftOpen).1.isOpen = true ↔ (s.commit .leftOpen).1.db.transaction.isSome = true) := by
  obtain ⟨d, hd⟩ := Option.isSome_iff_exists.mp hinside
  simp [CommitBatcher.commit, hopen, Connection.commit, hd]

theorem Sound.not_healthy {l : Label D} (h : Sound start s) (hdirty : ¬ Clean maxTransactions s l)
    (hs : CommitBatcher.step maxTransactions s l = some t) : ¬ Healthy maxTransactions start t := by
  have hcommit {outcome : CommitOutcome} (hc : ¬ (s.isOpen = true → outcome ≠ .leftOpen)) :
      ¬ Healthy maxTransactions start (s.commit outcome).1 := by
    rw [Classical.not_imp, not_not] at hc
    obtain ⟨hopen, rfl⟩ := hc
    exact fun healthy => commit_leftOpen_not_inStep hopen (h.inStep.mp hopen) healthy.inStep
  cases l with
  | run fn outcome =>
    obtain rfl := Option.some_inj.mp hs
    obtain ⟨entered, hsound, hopen, hdata, hcount, hcalls, hrun⟩ := h.run_cases maxTransactions fn outcome
    intro healthy
    have hstep := healthy.inStep
    cases hfn : fn s.db.data with
    | aborted =>
      rw [hfn] at hrun
      simp [hrun, hopen] at hstep
    | threw d =>
      refine hdirty ⟨by simp [hfn], ?_⟩
      rintro ⟨d', hd'⟩
      simp [hfn] at hd'
    | done d =>
      have hlimit : maxTransactions ≤ s.count + 1 ∧ outcome = .leftOpen := by
        by_contra hnot
        exact hdirty ⟨by simp [hfn], fun _ hmax hout => hnot ⟨hmax, hout⟩⟩
      obtain ⟨hmax, rfl⟩ := hlimit
      rw [hfn] at hrun
      simp only [hrun, if_pos hmax] at hstep
      refine commit_leftOpen_not_inStep (s := { entered with db := ⟨entered.db.committed, some d⟩, count := s.count + 1 })
        hopen rfl hstep
  | flush outcome => exact Option.some_inj.mp hs ▸ hcommit hdirty
  | close outcome => exact Option.some_inj.mp hs ▸ hcommit hdirty
  | timer outcome =>
    rw [CommitBatcher.step] at hs
    split at hs
    · exact Option.some_inj.mp hs ▸ hcommit hdirty
    · cases hs

/-- Along every run of clean steps the batcher keeps its promise in every state, and the first step that is
not clean breaks it. -/
theorem commit_batcher (maxTransactions : ℕ) (start : D) :
    (∀ s, Run (step maxTransactions) (Initial start) (Clean maxTransactions) s → Healthy maxTransactions start s) ∧
      ∀ s l t, Run (step maxTransactions) (Initial start) (Clean maxTransactions) s →
        step maxTransactions s l = some t → ¬ Clean maxTransactions s l → ¬ Healthy maxTransactions start t := by
  have hsound {s : CommitBatcher D} (hr : Run (step maxTransactions) (Initial start) (Clean maxTransactions) s) :
      Sound start s :=
    hr.invariant (fun s h => initial_sound h) fun s l t h hclean hs => h.step hclean hs
  exact ⟨fun s hr => (hsound hr).healthy, fun s l t hr hs hdirty => (hsound hr).not_healthy hdirty hs⟩

/-! ## A batch of rows -/

/-- Adds a row. -/
def insertRow (row : ℕ) (rows : List ℕ) : Outcome (List ℕ) := .done (rows ++ [row])

/-- After a run that threw and a run whose COMMIT was rolled back, a third run is committed alone. -/
theorem commit_batcher_rows : ∃ s : CommitBatcher (List ℕ), Run (step 8) (Initial []) (Clean 8) s ∧
    s.db.committed = [3] ∧ Healthy 8 [] s := by
  have h0 : Run (step 8) (Initial ([] : List ℕ)) (Clean 8) ⟨⟨[], none⟩, false, 0, false, []⟩ := .start rfl
  have h1 : Run (step 8) (Initial []) (Clean 8) ⟨⟨[], none⟩, false, 0, false, [.threw]⟩ :=
    .next (.run .threw .done) h0 ⟨by simp, by simp⟩ rfl
  have h2 : Run (step 8) (Initial []) (Clean 8) ⟨⟨[], some [1]⟩, true, 1, true, [.threw, insertRow 1]⟩ :=
    .next (.run (insertRow 1) .done) h1 ⟨by simp [insertRow], by simp⟩ rfl
  have h3 : Run (step 8) (Initial []) (Clean 8) ⟨⟨[], none⟩, false, 0, false, [.threw, insertRow 1]⟩ :=
    .next (.timer .rolledBack) h2 (by simp [Clean]) rfl
  have h4 : Run (step 8) (Initial []) (Clean 8)
      ⟨⟨[], some [3]⟩, true, 1, true, [.threw, insertRow 1, insertRow 3]⟩ :=
    .next (.run (insertRow 3) .done) h3 ⟨by simp [insertRow], by simp⟩ rfl
  have h5 : Run (step 8) (Initial []) (Clean 8)
      ⟨⟨[3], none⟩, false, 0, false, [.threw, insertRow 1, insertRow 3]⟩ :=
    .next (.flush .done) h4 (by simp [Clean]) rfl
  exact ⟨_, h5, rfl, (commit_batcher 8 []).1 _ h5⟩

/-- A flush on a busy database leaves the transaction open and the flag down: the next run, and every one after
it, throws at its BEGIN. -/
theorem commit_batcher_wedged : ∃ s : CommitBatcher (List ℕ), Run (step 8) (Initial []) anyLabel s ∧
    s.isOpen = false ∧ s.db.transaction = some [1] ∧ s.enter = none ∧
    ∀ fn outcome, s.run 8 fn outcome = (s, .threw) := by
  have h0 : Run (step 8) (Initial ([] : List ℕ)) anyLabel ⟨⟨[], none⟩, false, 0, false, []⟩ := .start rfl
  have h1 := Run.next (.run (insertRow 1) .done) h0 trivial rfl
  have h2 := Run.next (.flush .leftOpen) h1 trivial rfl
  exact ⟨_, h2, rfl, rfl, rfl, fun _ _ => rfl⟩

end CommitBatcher

end RecordNode
