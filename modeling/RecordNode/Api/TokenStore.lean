import Mathlib.Data.List.Basic
import Mathlib.Logic.Function.Basic
import RecordNode.Foundation.Run

/-! # The access-token store

A file of token entries that `issue` and `revoke` commands, each a process of its own,
read, change and rewrite behind a lock file. A lock is created exclusively; a command
that finds one reads its age, and removes it when it is older than a dead command's
would be. Creating, reading and removing the lock and renaming the store over are each
one step, and any step of another command may come between two of them. -/

namespace RecordNode

open Foundation

structure AccessToken where
  id : String
  label : String
  tokenSha256 : String
  createdAt : String
  /-- `none` while the token is active. -/
  revokedAt : Option String
deriving DecidableEq

def lockStaleMs : ℕ := 10000

def lockWaitMs : ℕ := 5000

inductive TokenCommand where
  | issue (label now : String)
  | revoke (id now : String)

inductive TokenOutcome where
  | issued (entry : AccessToken)
  | revoked (id : String)
  | failed
deriving DecidableEq

/-- The first entry with the id is marked. -/
def revokeFirst (id now : String) : List AccessToken → List AccessToken
  | [] => []
  | entry :: rest =>
    if entry.id = id then { entry with revokedAt := some now } :: rest else entry :: revokeFirst id now rest

/-- What a command makes of the entries it read: the entries it writes, if any, and its outcome. An
issue draws ids until one is new. -/
def TokenCommand.change (entries : List AccessToken) (drawn tokenSha256 : String) :
    TokenCommand → Option (Option (List AccessToken) × TokenOutcome)
  | .issue label now =>
    if entries.any (·.id = drawn) then none
    else some (some (entries ++ [⟨drawn, label, tokenSha256, now, none⟩]), .issued ⟨drawn, label, tokenSha256, now, none⟩)
  | .revoke id now =>
    match entries.find? (·.id = id) with
    | none => some (none, .failed)
    | some entry =>
      if entry.revokedAt.isSome then some (none, .revoked id) else some (some (revokeFirst id now entries), .revoked id)

/-- Where a command stands in `with_store_lock`. -/
inductive CommandPhase where
  /-- Before the exclusive create. -/
  | opening
  /-- A lock was there. -/
  | refused
  /-- Its age was read, or could not be. -/
  | judging (heldSince : Option ℕ)
  /-- It was taken as left by a dead command. -/
  | removing
  | locked
  | loaded (entries : List AccessToken)
  /-- The change is made or has failed, and the lock is still there. -/
  | leaving (outcome : TokenOutcome)
  | ended (outcome : TokenOutcome)

def CommandPhase.critical : CommandPhase → Bool
  | .locked | .loaded _ | .leaving _ => true
  | _ => false

/-- The phases before the lock and behind a failure to get it. -/
def CommandPhase.outside : CommandPhase → Bool
  | .opening | .refused | .judging _ | .removing | .ended .failed => true
  | _ => false

structure TokenProcess where
  command : TokenCommand
  deadline : ℕ
  /-- When it took the lock. -/
  since : ℕ
  phase : CommandPhase

/-- The command that created the lock, unless it is dead, and when. -/
structure LockFile where
  owner : Option ℕ
  mtime : ℕ

structure TokenStore where
  entries : List AccessToken
  lock : Option LockFile
  now : ℕ
  processes : ℕ → Option TokenProcess

namespace TokenStore

/-- A step of one command. -/
inductive Action where
  | openLock
  | statLock
  /-- The clock is read, and the command removes the lock, gives up or waits. -/
  | judge
  | removeLock
  | load
  /-- The change is decided and renamed over the store. -/
  | change (drawn tokenSha256 : String)
  /-- A system call fails. -/
  | fail
  | release

inductive Label where
  | tick (ms : ℕ)
  | begin (i : ℕ) (command : TokenCommand)
  | act (i : ℕ) (action : Action)

def put (s : TokenStore) (i : ℕ) (p : TokenProcess) : TokenStore :=
  { s with processes := Function.update s.processes i (some p) }

def act (s : TokenStore) (i : ℕ) (p : TokenProcess) : Action → Option TokenStore
  | .openLock =>
    match p.phase, s.lock with
    | .opening, none =>
      some { s.put i { p with phase := .locked, since := s.now } with lock := some ⟨some i, s.now⟩ }
    | .opening, some _ => some (s.put i { p with phase := .refused })
    | _, _ => none
  | .statLock =>
    match p.phase with
    | .refused => some (s.put i { p with phase := .judging (s.lock.map LockFile.mtime) })
    | _ => none
  | .judge =>
    match p.phase with
    | .judging heldSince =>
      some (s.put i { p with
        phase := if heldSince.any fun held => s.now - held > lockStaleMs then .removing
          else if s.now > p.deadline then .ended .failed else .opening })
    | _ => none
  | .removeLock =>
    match p.phase with
    | .removing => some { s.put i { p with phase := .opening } with lock := none }
    | _ => none
  | .load =>
    match p.phase with
    | .locked => some (s.put i { p with phase := .loaded s.entries })
    | _ => none
  | .change drawn tokenSha256 =>
    match p.phase with
    | .loaded entries => (p.command.change entries drawn tokenSha256).map fun made =>
        { s.put i { p with phase := .leaving made.2 } with entries := made.1.getD s.entries }
    | _ => none
  | .fail =>
    match p.phase with
    | .opening => some (s.put i { p with phase := .ended .failed })
    | .locked | .loaded _ | .leaving _ => some (s.put i { p with phase := .leaving .failed })
    | _ => none
  | .release =>
    match p.phase with
    | .leaving outcome => some { s.put i { p with phase := .ended outcome } with lock := none }
    | _ => none

def step (s : TokenStore) : Label → Option TokenStore
  | .tick ms => some { s with now := s.now + ms }
  | .begin i command =>
    match s.processes i with
    | none => some (s.put i ⟨command, s.now + lockWaitMs, 0, .opening⟩)
    | some _ => none
  | .act i action => (s.processes i).bind fun p => s.act i p action

/-- No command has begun; a lock is at most that of a dead one. -/
def Initial (s : TokenStore) : Prop := (∀ i, s.processes i = none) ∧ ∀ lock, s.lock = some lock → lock.owner = none

/-- Every command ends within the time after which its lock would count as stale. -/
def Prompt (s : TokenStore) : Label → Prop
  | .tick ms => ∀ i p, s.processes i = some p → p.phase.critical = true → s.now + ms ≤ p.since + lockStaleMs
  | _ => True

/-- Besides, no command that takes a lock as stale removes a lock another has created since. -/
def Careful (s : TokenStore) (l : Label) : Prop :=
  Prompt s l ∧ ∀ i, l = .act i .removeLock → ∀ lock, s.lock = some lock → lock.owner = none

/-- The outcome of a command that succeeded is in the store. -/
def Recorded (entries : List AccessToken) : TokenOutcome → Prop
  | .issued entry => ∃ kept ∈ entries, kept.id = entry.id ∧ kept.tokenSha256 = entry.tokenSha256
  | .revoked id => ∃ entry, entries.find? (·.id = id) = some entry ∧ entry.revokedAt.isSome = true
  | .failed => True

/-! ## What the changes keep -/

theorem find_revokeFirst_of_ne {id other now : String} (h : other ≠ id) (entries : List AccessToken) :
    (revokeFirst id now entries).find? (·.id = other) = entries.find? (·.id = other) := by
  induction entries with
  | nil => rfl
  | cons entry rest ih =>
    rw [revokeFirst]
    split
    case isTrue he =>
      have hne : ¬ entry.id = other := fun ho => h (ho.symm.trans he)
      simp [hne]
    case isFalse he => simp only [List.find?_cons, ih]

theorem find_revokeFirst {id now : String} {entries : List AccessToken} {entry : AccessToken}
    (h : entries.find? (·.id = id) = some entry) :
    (revokeFirst id now entries).find? (·.id = id) = some { entry with revokedAt := some now } := by
  induction entries with
  | nil => simp at h
  | cons first rest ih =>
    rw [revokeFirst]
    by_cases he : first.id = id
    · rw [List.find?_cons_of_pos (by simpa using he)] at h
      rw [if_pos he, ← Option.some_inj.mp h]
      exact List.find?_cons_of_pos (by simpa using he)
    · rw [List.find?_cons_of_neg (by simpa using he)] at h
      rw [if_neg he, List.find?_cons_of_neg (by simpa using he)]
      exact ih h

/-- A revocation keeps every entry's id and hash. -/
theorem exists_mem_revokeFirst {id now : String} {entries : List AccessToken} {entry : AccessToken}
    (h : entry ∈ entries) :
    ∃ kept ∈ revokeFirst id now entries, kept.id = entry.id ∧ kept.tokenSha256 = entry.tokenSha256 := by
  induction entries with
  | nil => simp at h
  | cons first rest ih =>
    rw [revokeFirst]
    split
    · rcases List.mem_cons.mp h with rfl | h
      · exact ⟨_, List.mem_cons_self, rfl, rfl⟩
      · exact ⟨entry, List.mem_cons_of_mem _ h, rfl, rfl⟩
    · rcases List.mem_cons.mp h with rfl | h
      · exact ⟨entry, List.mem_cons_self, rfl, rfl⟩
      · obtain ⟨kept, hk, hid, hsha⟩ := ih h
        exact ⟨kept, List.mem_cons_of_mem _ hk, hid, hsha⟩

theorem Recorded.append {entries : List AccessToken} {outcome : TokenOutcome} (h : Recorded entries outcome)
    (entry : AccessToken) : Recorded (entries ++ [entry]) outcome := by
  cases outcome with
  | issued issued =>
    obtain ⟨kept, hk, hsame⟩ := h
    exact ⟨kept, List.mem_append_left _ hk, hsame⟩
  | revoked id =>
    obtain ⟨kept, hk, hrevoked⟩ := h
    exact ⟨kept, by rw [List.find?_append, hk, Option.some_or], hrevoked⟩
  | failed => trivial

theorem Recorded.revokeFirst {entries : List AccessToken} {outcome : TokenOutcome} (h : Recorded entries outcome)
    (id now : String) : Recorded (revokeFirst id now entries) outcome := by
  cases outcome with
  | issued issued =>
    obtain ⟨kept, hk, hid, hsha⟩ := h
    obtain ⟨still, hs, hid', hsha'⟩ := exists_mem_revokeFirst hk
    exact ⟨still, hs, hid'.trans hid, hsha'.trans hsha⟩
  | revoked other =>
    obtain ⟨kept, hk, hrevoked⟩ := h
    by_cases ho : other = id
    · subst ho
      exact ⟨_, find_revokeFirst hk, rfl⟩
    · exact ⟨kept, (find_revokeFirst_of_ne ho entries).trans hk, hrevoked⟩
  | failed => trivial

/-- A change made on the entries of the store keeps what is recorded there and records its own outcome. -/
theorem change_recorded {command : TokenCommand} {entries : List AccessToken} {drawn tokenSha256 : String}
    {made : Option (List AccessToken) × TokenOutcome} (h : command.change entries drawn tokenSha256 = some made) :
    Recorded (made.1.getD entries) made.2 ∧
      ∀ outcome, Recorded entries outcome → Recorded (made.1.getD entries) outcome := by
  cases command with
  | issue label now =>
    simp only [TokenCommand.change] at h
    split at h
    · simp at h
    · obtain rfl := Option.some_inj.mp h
      exact ⟨⟨_, List.mem_append_right _ List.mem_cons_self, rfl, rfl⟩, fun _ hr => hr.append _⟩
  | revoke id now =>
    simp only [TokenCommand.change] at h
    split at h
    · obtain rfl := Option.some_inj.mp h
      exact ⟨trivial, fun _ hr => hr⟩
    · rename_i entry hfind
      split at h
      case isTrue hrevoked =>
        obtain rfl := Option.some_inj.mp h
        exact ⟨⟨entry, hfind, hrevoked⟩, fun _ hr => hr⟩
      case isFalse =>
        obtain rfl := Option.some_inj.mp h
        exact ⟨⟨_, find_revokeFirst hfind, rfl⟩, fun _ hr => hr.revokeFirst id now⟩

/-! ## What a step can do -/

variable {s t : TokenStore}

/-- The moves of a command that stands at `p`. -/
inductive Move (s : TokenStore) (i : ℕ) (p : TokenProcess) : Action → TokenStore → Prop
  | lock (h : s.lock = none) : Move s i p .openLock
      { s.put i { p with phase := .locked, since := s.now } with lock := some ⟨some i, s.now⟩ }
  | wait (a : Action) (phase : CommandPhase) (h : p.phase.outside = true) (h' : phase.outside = true) :
      Move s i p a (s.put i { p with phase := phase })
  | remove (h : p.phase = .removing) :
      Move s i p .removeLock { s.put i { p with phase := .opening } with lock := none }
  | load (h : p.phase = .locked) : Move s i p .load (s.put i { p with phase := .loaded s.entries })
  | change {entries : List AccessToken} {drawn tokenSha256 : String} {made : Option (List AccessToken) × TokenOutcome}
      (h : p.phase = .loaded entries) (hm : p.command.change entries drawn tokenSha256 = some made) :
      Move s i p (.change drawn tokenSha256)
        { s.put i { p with phase := .leaving made.2 } with entries := made.1.getD s.entries }
  | fail (h : p.phase.critical = true) : Move s i p .fail (s.put i { p with phase := .leaving .failed })
  | release {outcome : TokenOutcome} (h : p.phase = .leaving outcome) :
      Move s i p .release { s.put i { p with phase := .ended outcome } with lock := none }

theorem move_of_act {i : ℕ} {p : TokenProcess} {a : Action} (h : s.act i p a = some t) : Move s i p a t := by
  obtain ⟨command, deadline, since, phase⟩ := p
  cases a with
  | openLock =>
    simp only [act] at h
    split at h
    · rename_i hlock
      obtain rfl := Option.some_inj.mp h
      exact .lock hlock
    · obtain rfl := Option.some_inj.mp h
      exact .wait _ _ rfl rfl
    · simp at h
  | statLock =>
    simp only [act] at h
    split at h
    · obtain rfl := Option.some_inj.mp h
      exact .wait _ _ rfl rfl
    · simp at h
  | judge =>
    simp only [act] at h
    split at h
    · obtain rfl := Option.some_inj.mp h
      refine .wait _ _ rfl ?_
      split
      · rfl
      · split <;> rfl
    · simp at h
  | removeLock =>
    simp only [act] at h
    split at h
    · obtain rfl := Option.some_inj.mp h
      exact .remove rfl
    · simp at h
  | load =>
    simp only [act] at h
    split at h
    · obtain rfl := Option.some_inj.mp h
      exact .load rfl
    · simp at h
  | change drawn tokenSha256 =>
    simp only [act] at h
    split at h
    · obtain ⟨made, hmade, rfl⟩ := Option.map_eq_some_iff.mp h
      exact .change rfl hmade
    · simp at h
  | fail =>
    simp only [act] at h
    split at h
    · obtain rfl := Option.some_inj.mp h
      exact .wait _ _ rfl rfl
    · obtain rfl := Option.some_inj.mp h
      exact .fail rfl
    · obtain rfl := Option.some_inj.mp h
      exact .fail rfl
    · obtain rfl := Option.some_inj.mp h
      exact .fail rfl
    · simp at h
  | release =>
    simp only [act] at h
    split at h
    · obtain rfl := Option.some_inj.mp h
      exact .release rfl
    · simp at h

/-! ## Mutual exclusion -/

/-- The command behind the lock owns it and has read the store as it is, and the outcomes of the
commands that are done are in it. -/
structure Exclusive (s : TokenStore) : Prop where
  owned : ∀ i p, s.processes i = some p → p.phase.critical = true → ∃ mtime, s.lock = some ⟨some i, mtime⟩
  current : ∀ i p entries, s.processes i = some p → p.phase = .loaded entries → entries = s.entries
  recorded : ∀ i p outcome, s.processes i = some p → p.phase = .leaving outcome ∨ p.phase = .ended outcome →
    Recorded s.entries outcome

theorem put_processes (i j : ℕ) (p : TokenProcess) :
    (s.put i p).processes j = if j = i then some p else s.processes j := by
  simp [put, Function.update_apply]

theorem Exclusive.alone (k : Exclusive s) {i j : ℕ} {p q : TokenProcess} (hp : s.processes i = some p)
    (hi : p.phase.critical = true) (hq : s.processes j = some q) (hj : q.phase.critical = true) : j = i := by
  obtain ⟨_, hl⟩ := k.owned i p hp hi
  obtain ⟨_, hl'⟩ := k.owned j q hq hj
  rw [hl] at hl'
  simpa using congrArg (Option.map LockFile.owner) hl'.symm

/-- What one command's move owes: its own new phase is in order, and the others' lock and entries
are as they were or theirs no longer matter. -/
theorem Exclusive.put (k : Exclusive s) {i : ℕ} {q : TokenProcess} {entries : List AccessToken} {lock : Option LockFile}
    (hlock : q.phase.critical = true → ∃ mtime, lock = some ⟨some i, mtime⟩)
    (hothers : lock = s.lock ∨ ∀ j p, j ≠ i → s.processes j = some p → p.phase.critical = false)
    (hcurrent : ∀ es, q.phase = .loaded es → es = entries)
    (hentries : entries = s.entries ∨ ∀ j p, j ≠ i → s.processes j = some p → p.phase.critical = false)
    (hown : ∀ outcome, q.phase = .leaving outcome ∨ q.phase = .ended outcome → Recorded entries outcome)
    (hkeep : ∀ outcome, Recorded s.entries outcome → Recorded entries outcome) :
    Exclusive { s.put i q with entries := entries, lock := lock } where
  owned j p hp hc := by
    have hj : (s.put i q).processes j = some p := hp
    rw [put_processes] at hj
    split at hj
    case isTrue hji =>
      obtain rfl := Option.some_inj.mp hj
      exact hji ▸ hlock hc
    case isFalse hji =>
      rcases hothers with rfl | hothers
      · exact k.owned j p hj hc
      · exact absurd hc (by simp [hothers j p hji hj])
  current j p es hp hes := by
    have hj : (s.put i q).processes j = some p := hp
    rw [put_processes] at hj
    split at hj
    case isTrue =>
      obtain rfl := Option.some_inj.mp hj
      exact hcurrent es hes
    case isFalse hji =>
      rcases hentries with rfl | hothers
      · exact k.current j p es hj hes
      · have hcritical := hothers j p hji hj
        rw [hes] at hcritical
        exact absurd hcritical (by simp [CommandPhase.critical])
  recorded j p outcome hp ho := by
    have hj : (s.put i q).processes j = some p := hp
    rw [put_processes] at hj
    split at hj
    case isTrue =>
      obtain rfl := Option.some_inj.mp hj
      exact hown outcome ho
    case isFalse => exact hkeep outcome (k.recorded j p outcome hj ho)

/-- A move that changes neither lock nor entries. -/
theorem Exclusive.put_phase (k : Exclusive s) {i : ℕ} {q : TokenProcess}
    (hlock : q.phase.critical = true → ∃ mtime, s.lock = some ⟨some i, mtime⟩)
    (hcurrent : ∀ es, q.phase = .loaded es → es = s.entries)
    (hown : ∀ outcome, q.phase = .leaving outcome ∨ q.phase = .ended outcome → Recorded s.entries outcome) :
    Exclusive (s.put i q) :=
  k.put hlock (Or.inl rfl) hcurrent (Or.inl rfl) hown fun _ hr => hr

/-- No other command is behind the lock. -/
theorem Exclusive.others (k : Exclusive s) {i : ℕ} {p : TokenProcess} (hp : s.processes i = some p)
    (hi : p.phase.critical = true) (j : ℕ) (q : TokenProcess) (hj : j ≠ i) (hq : s.processes j = some q) :
    q.phase.critical = false := by
  by_contra hc
  exact hj (k.alone hp hi hq (by simpa using hc))

/-- A lock that no command owns keeps no one. -/
theorem Exclusive.unowned (k : Exclusive s) (hl : ∀ lock, s.lock = some lock → lock.owner = none) (j : ℕ)
    (q : TokenProcess) (hq : s.processes j = some q) : q.phase.critical = false := by
  by_contra hc
  obtain ⟨mtime, hlock⟩ := k.owned j q hq (by simpa using hc)
  exact absurd (hl _ hlock) (by simp)

theorem CommandPhase.outside_spec {phase : CommandPhase} (h : phase.outside = true) :
    phase.critical = false ∧ (∀ entries, phase ≠ .loaded entries) ∧
      ∀ outcome, phase = .leaving outcome ∨ phase = .ended outcome → outcome = .failed := by
  cases phase with
  | opening | refused | judging | removing => simp [CommandPhase.critical]
  | locked | loaded | leaving => simp [CommandPhase.outside] at h
  | ended outcome =>
    cases outcome with
    | failed => simp [CommandPhase.critical]
    | issued | revoked => simp [CommandPhase.outside] at h

theorem move_exclusive {i : ℕ} {p : TokenProcess} {a : Action} (k : Exclusive s) (hp : s.processes i = some p)
    (hcareful : Careful s (.act i a)) (h : Move s i p a t) : Exclusive t := by
  cases h with
  | lock hlock =>
    refine k.put (fun _ => ⟨s.now, rfl⟩) (Or.inr fun j q _ hq => k.unowned ?_ j q hq) (by simp) (Or.inl rfl)
      (by simp) (fun _ hr => hr)
    intro lock hl
    simp [hlock] at hl
  | wait a phase hphase hnext =>
    obtain ⟨hcritical, hloaded, hfailed⟩ := CommandPhase.outside_spec hnext
    refine k.put_phase (fun hc => absurd hc (by simp [hcritical])) (fun es he => absurd he (hloaded es))
      fun outcome ho => ?_
    rw [hfailed outcome ho]
    trivial
  | remove hphase =>
    refine k.put (fun hc => absurd hc (by simp [CommandPhase.critical]))
      (Or.inr fun j q _ hq => k.unowned (hcareful.2 i rfl) j q hq) (by simp) (Or.inl rfl) (by simp) (fun _ hr => hr)
  | load hphase =>
    have hc : p.phase.critical = true := by rw [hphase]; rfl
    exact k.put_phase (fun _ => k.owned i p hp hc) (fun es he => by simpa using he.symm) (by simp)
  | change hphase hmade =>
    have hc : p.phase.critical = true := by rw [hphase]; rfl
    have hentries := k.current i p _ hp hphase
    subst hentries
    obtain ⟨hown, hkeep⟩ := change_recorded hmade
    refine k.put (fun _ => k.owned i p hp hc) (Or.inl rfl) (by simp) (Or.inr (k.others hp hc)) ?_ hkeep
    rintro outcome (ho | ho)
    · obtain rfl := CommandPhase.leaving.inj ho
      exact hown
    · simp at ho
  | fail hc =>
    refine k.put_phase (fun _ => k.owned i p hp hc) (by simp) ?_
    rintro outcome (ho | ho)
    · obtain rfl := CommandPhase.leaving.inj ho
      trivial
    · simp at ho
  | release hphase =>
    have hc : p.phase.critical = true := by rw [hphase]; rfl
    refine k.put (fun hc => absurd hc (by simp [CommandPhase.critical])) (Or.inr (k.others hp hc)) (by simp)
      (Or.inl rfl) ?_ (fun _ hr => hr)
    rintro outcome (ho | ho)
    · simp at ho
    · obtain rfl := CommandPhase.ended.inj ho
      exact k.recorded i p _ hp (Or.inl hphase)

theorem step_exclusive {l : Label} (k : Exclusive s) (hl : Careful s l) (h : s.step l = some t) : Exclusive t := by
  cases l with
  | tick ms =>
    obtain rfl := Option.some_inj.mp h
    exact ⟨k.owned, k.current, k.recorded⟩
  | begin i command =>
    simp only [step] at h
    split at h
    · obtain rfl := Option.some_inj.mp h
      exact k.put_phase (fun hc => absurd hc (by simp [CommandPhase.critical])) (by simp) (by simp)
    · simp at h
  | act i action =>
    obtain ⟨p, hp, hact⟩ := Option.bind_eq_some_iff.mp h
    exact move_exclusive k hp hl (move_of_act hact)

/-- In every run in which no command removes a lock that another has created since it read the stale
one, the store holds every token a command has issued and marks every token a command has revoked. -/
theorem no_change_lost {i : ℕ} {p : TokenProcess} {outcome : TokenOutcome} (h : Run step Initial Careful s)
    (hp : s.processes i = some p) (ho : p.phase = .ended outcome) : Recorded s.entries outcome := by
  have k : Exclusive s := by
    refine h.invariant ?_ fun _ _ _ k hl hs => step_exclusive k hl hs
    rintro s ⟨hnone, -⟩
    refine ⟨fun i p hp => ?_, fun i p es hp => ?_, fun i p outcome hp => ?_⟩ <;> simp [hnone i] at hp
  exact k.recorded i p outcome hp (Or.inr ho)

namespace DeadLock

def token : AccessToken := ⟨"t", "phone", "00", "2026-01-01", none⟩

/-- One active token, behind the lock of a dead command. -/
def store : TokenStore := ⟨[token], some ⟨none, 0⟩, 20000, fun _ => none⟩

def revokes (i : ℕ) : List Label := [.begin i (.revoke "t" "2026-01-02"), .act i .openLock, .act i .statLock, .act i .judge]

def issues (i : ℕ) : List Label := [.begin i (.issue "tablet" "2026-01-02"), .act i .openLock, .act i .statLock, .act i .judge]

def after (labels : List Label) : TokenStore := (runLabels step store labels).getD store

theorem initial_store : Initial store := by
  refine ⟨fun _ => rfl, fun lock h => ?_⟩
  obtain rfl := Option.some_inj.mp h
  rfl

end DeadLock

open DeadLock in
/-- A command removes a dead command's lock and revokes the token. -/
theorem no_change_lost_revoke : ∃ s : TokenStore, Run step Initial Careful s ∧
    (∃ p, s.processes 0 = some p ∧ p.phase = .ended (.revoked "t")) ∧ Recorded s.entries (.revoked "t") := by
  have hwait : Run step Initial Careful (after (revokes 0)) := by
    refine (Run.start initial_store).of_runLabels (fun l hl s => ?_) (show runLabels step store (revokes 0) = some _ from rfl)
    simp only [revokes, List.mem_cons, List.not_mem_nil, or_false] at hl
    rcases hl with rfl | rfl | rfl | rfl <;> exact ⟨trivial, by simp⟩
  have hremove : Run step Initial Careful (after (revokes 0 ++ [.act 0 .removeLock])) := by
    refine .next (.act 0 .removeLock) hwait ⟨trivial, fun _ _ lock hlock => ?_⟩ rfl
    obtain rfl := Option.some_inj.mp hlock
    rfl
  have hend : Run step Initial Careful (after (revokes 0 ++ [.act 0 .removeLock, .act 0 .openLock, .act 0 .load,
      .act 0 (.change "" ""), .act 0 .release])) := by
    refine hremove.of_runLabels (fun l hl s => ?_) (show runLabels step _
      [.act 0 .openLock, .act 0 .load, .act 0 (.change "" ""), .act 0 .release] = some _ from rfl)
    simp only [List.mem_cons, List.not_mem_nil, or_false] at hl
    rcases hl with rfl | rfl | rfl | rfl <;> exact ⟨trivial, by simp⟩
  obtain ⟨p, hp, ho⟩ : ∃ p, (after (revokes 0 ++ [.act 0 .removeLock, .act 0 .openLock, .act 0 .load,
      .act 0 (.change "" ""), .act 0 .release])).processes 0 = some p ∧ p.phase = .ended (.revoked "t") :=
    ⟨_, rfl, rfl⟩
  exact ⟨_, hend, ⟨p, hp, ho⟩, no_change_lost hend hp ho⟩

open DeadLock in
/-- Two commands find the same dead lock. The second removes the first one's lock, and its rename
writes over the revocation that has succeeded. -/
theorem no_change_lost_removed_lock : ∃ s : TokenStore, Run step Initial Prompt s ∧
    (∀ i p, s.processes i = some p → ∃ outcome, p.phase = .ended outcome) ∧
    (∃ p, s.processes 0 = some p ∧ p.phase = .ended (.revoked "t")) ∧ ¬ Recorded s.entries (.revoked "t") := by
  have hrun : Run step Initial Prompt (after (revokes 0 ++ issues 1 ++ [.act 0 .removeLock, .act 0 .openLock,
      .act 1 .removeLock, .act 1 .openLock, .act 0 .load, .act 1 .load, .act 0 (.change "" ""),
      .act 1 (.change "u" "11"), .act 0 .release, .act 1 .release])) := by
    refine (Run.start initial_store).of_runLabels (fun l hl s => ?_) (show runLabels step store (revokes 0 ++ issues 1 ++
      [.act 0 .removeLock, .act 0 .openLock, .act 1 .removeLock, .act 1 .openLock, .act 0 .load, .act 1 .load,
      .act 0 (.change "" ""), .act 1 (.change "u" "11"), .act 0 .release, .act 1 .release]) = some _ from rfl)
    cases l with
    | tick ms => simp [revokes, issues] at hl
    | begin | act => trivial
  refine ⟨_, hrun, fun i p hp => ?_, ⟨_, rfl, rfl⟩, ?_⟩
  · rcases i with _ | _ | i
    · exact ⟨_, congrArg TokenProcess.phase (Option.some_inj.mp hp).symm⟩
    · exact ⟨_, congrArg TokenProcess.phase (Option.some_inj.mp hp).symm⟩
    · exact absurd (show none = some p from hp) (by simp)
  · rintro ⟨entry, hfind, hrevoked⟩
    obtain rfl := Option.some_inj.mp hfind
    exact absurd hrevoked (by decide)

end TokenStore

end RecordNode
