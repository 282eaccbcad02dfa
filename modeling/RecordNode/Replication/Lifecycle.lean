import RecordNode.Replication.Messages
import RecordNode.Replication.Replicator

/-! # The life of a replicator

A replicator with its heads publisher, its subscription to the library's topic and
its peer handlers. A start sets the topic's handler when it calls the network and goes
on when the subscription resolves; a send publishes its messages one behind the other,
each when the one before it is out; an unlink takes the handlers away at once and the
subscription when the network answers. A subscription that is refused leaves nothing
behind and starts nothing. -/

namespace RecordNode

open Foundation

structure HeadsPublisher where
  paused : Bool
  /-- A timer is armed. -/
  scheduled : Bool
  /-- The sends of the chain, the next to end first: not begun, or with the messages it has left. -/
  sending : List (Option (List Bytes))

namespace HeadsPublisher

def create : HeadsPublisher := ⟨false, false, []⟩

def trigger (p : HeadsPublisher) : HeadsPublisher :=
  if p.paused || p.scheduled then p else { p with scheduled := true }

/-- The timer fires. -/
def flush (p : HeadsPublisher) : HeadsPublisher :=
  if p.paused then { p with scheduled := false }
  else { p with scheduled := false, sending := p.sending ++ [none] }

def pause (p : HeadsPublisher) : HeadsPublisher := { p with paused := true, scheduled := false }

def resume (p : HeadsPublisher) : HeadsPublisher := { p with paused := false }

/-- The next message of the send under way, which reads the heads when it begins. -/
def publish (p : HeadsPublisher) (heads : List Hash) : Option (HeadsPublisher × Bytes) :=
  match p.sending with
  | [] => none
  | send :: rest =>
    match send.getD (encodeHeadsBatches heads networkMessageMaxBytes) with
    | [] => none
    | data :: left => some ({ p with sending := some left :: rest }, data)

/-- The send under way has published its last message. -/
def sent (p : HeadsPublisher) : Option HeadsPublisher :=
  match p.sending with
  | some [] :: rest => some { p with sending := rest }
  | _ => none

end HeadsPublisher

structure ReplicatorSession where
  replicator : Replicator
  publisher : HeadsPublisher
  /-- The topic has the replicator's handler. -/
  subscribed : Bool
  /-- The starts whose peer handlers are registered. -/
  peerHandlers : ℕ
  /-- The calls to `unsubscribe` that have not come back. -/
  unsubscribing : ℕ
  /-- The heads when the merge under way began. -/
  headsBefore : List Hash
  published : List Bytes

namespace ReplicatorSession

def create (oplog : Oplog) : ReplicatorSession where
  replicator := .create oplog
  publisher := .create
  subscribed := false
  peerHandlers := 0
  unsubscribing := 0
  headsBefore := []
  published := []

inductive Label where
  | start
  /-- The subscription of a start resolved. -/
  | subscribed
  | heads (hashes : List Hash)
  | peerJoin
  | result (hash : Hash) (record : ℕ) (bytes : Option Bytes)
  | timeout (hash : Hash) (record : ℕ)
  | pause
  | resume
  | unlink
  | unsubscribed
  | runMerge
  | mergeDone
  | mergeFailed
  | merge (blocks : List Bytes)
  | append (payload : LocalPayload) (keyPair : KeyPair)
  /-- The local heads changed through an append. -/
  | headsChanged
  /-- The publisher's timer fires. -/
  | flush
  | publish
  | sent

def getHeads (s : ReplicatorSession) : List Hash := sortBy compareText s.replicator.oplog.heads.items

section Step
variable (E : Environment) (concurrency : ℕ)

/-- A step of the replicator that concerns neither publisher nor network. -/
def replicate (s : ReplicatorSession) (l : Replicator.Label) : Option ReplicatorSession :=
  (s.replicator.step E concurrency l).map fun r => { s with replicator := r }

def step (s : ReplicatorSession) : Label → Option ReplicatorSession
  | .start => (s.replicate E concurrency .start).map fun s => { s with subscribed := true }
  | .subscribed => (s.replicate E concurrency .subscribed).map fun s => { s with
      peerHandlers := s.peerHandlers + 1
      publisher := s.publisher.trigger }
  | .heads hashes => if s.subscribed then s.replicate E concurrency (.heads hashes) else none
  | .peerJoin => if 0 < s.peerHandlers then some { s with publisher := s.publisher.trigger } else none
  | .result hash record bytes => s.replicate E concurrency (.result hash record bytes)
  | .timeout hash record => s.replicate E concurrency (.timeout hash record)
  | .pause => (s.replicate E concurrency .pause).map fun s => { s with publisher := s.publisher.pause }
  | .resume => (s.replicate E concurrency .resume).map fun s => { s with
      publisher := s.publisher.resume.trigger }
  | .unlink =>
    let subscribed := s.replicator.state = .running ∨ s.replicator.state = .paused
    (s.replicate E concurrency .unlink).map fun s => { s with
      publisher := s.publisher.pause
      peerHandlers := 0
      unsubscribing := if subscribed then s.unsubscribing + 1 else s.unsubscribing }
  | .unsubscribed =>
    if 0 < s.unsubscribing then some { s with subscribed := false, unsubscribing := s.unsubscribing - 1 } else none
  | .runMerge => (s.replicate E concurrency .runMerge).map fun t => { t with headsBefore := s.getHeads }
  | .mergeDone => (s.replicate E concurrency .mergeDone).map fun s =>
      if s.getHeads = s.headsBefore then s else { s with publisher := s.publisher.trigger }
  | .mergeFailed => s.replicate E concurrency .mergeFailed
  | .merge blocks => s.replicate E concurrency (.merge blocks)
  | .append payload keyPair => s.replicate E concurrency (.append payload keyPair)
  | .headsChanged =>
    if s.replicator.state = .running then some { s with publisher := s.publisher.trigger } else none
  | .flush => if s.publisher.scheduled then some { s with publisher := s.publisher.flush } else none
  | .publish => (s.publisher.publish s.getHeads).map fun sent =>
      { s with publisher := sent.1, published := s.published ++ [sent.2] }
  | .sent => s.publisher.sent.map fun p => { s with publisher := p }

end Step

/-- No start resolves once the replicator is unlinked, and an unlink finds no send with messages to
publish. -/
def Orderly (s : ReplicatorSession) : Label → Prop
  | .subscribed => s.replicator.state ≠ .unlinked
  | .unlink => ∀ send ∈ s.publisher.sending, send = some []
  | _ => True

def Initial (s : ReplicatorSession) : Prop := ∃ oplog, s = create oplog

section Steps
variable {E : Environment} {concurrency : ℕ} {r r' : Replicator} {s t : ReplicatorSession}

/-- The labels that move the replicator's state. -/
def turns : Replicator.Label → Bool
  | .start | .subscribed | .pause | .resume | .unlink => true
  | _ => false

theorem step_kept {l : Replicator.Label} (h : r.step E concurrency l = some r') (hl : turns l = false) :
    r'.state = r.state ∧ r'.starting = r.starting := by
  cases l with
  | start | subscribed | pause | resume | unlink => simp [turns] at hl
  | heads hashes =>
    obtain rfl := Option.some_inj.mp h
    unfold Replicator.receive
    split <;> exact ⟨rfl, rfl⟩
  | result hash record bytes =>
    obtain rfl := Option.some_inj.mp h
    exact ⟨rfl, rfl⟩
  | timeout hash record =>
    obtain rfl := Option.some_inj.mp h
    exact ⟨rfl, rfl⟩
  | runMerge =>
    obtain ⟨-, ⟨⟩⟩ := Option.ite_none_right_eq_some.mp h
    exact ⟨rfl, rfl⟩
  | mergeDone =>
    obtain ⟨batch, -, rfl⟩ := Option.map_eq_some_iff.mp h
    exact ⟨rfl, rfl⟩
  | mergeFailed =>
    obtain ⟨batch, -, rfl⟩ := Option.map_eq_some_iff.mp h
    exact ⟨rfl, rfl⟩
  | merge blocks =>
    obtain rfl := Option.some_inj.mp h
    exact ⟨rfl, rfl⟩
  | append payload keyPair =>
    simp only [Replicator.step] at h
    split at h
    · obtain rfl := Option.some_inj.mp h
      exact ⟨rfl, rfl⟩
    · exact absurd h (by simp)

/-- With nothing in flight, an unlinked replicator starts no fetch and stays so, unless a start
resolves. -/
theorem step_unlinked {l : Replicator.Label} (h : r.step E concurrency l = some r') (hl : l ≠ .subscribed)
    (hs : r.state = .unlinked) (hf : r.traversal.inFlight = .empty) :
    r'.state = .unlinked ∧ r'.traversal.inFlight = .empty ∧ r'.traversal.nextRecord = r.traversal.nextRecord := by
  have hsettle (hash : Hash) (record : ℕ) : r.traversal.settle hash record = none := by
    simp [Traversal.settle, hf]
  cases l with
  | start =>
    obtain ⟨hidle, -⟩ := Option.ite_none_right_eq_some.mp h
    simp [hs] at hidle
  | subscribed => exact absurd rfl hl
  | pause =>
    obtain ⟨hrun, -⟩ := Option.ite_none_right_eq_some.mp h
    simp [hs] at hrun
  | resume =>
    obtain ⟨hpaused, -⟩ := Option.ite_none_right_eq_some.mp h
    simp [hs] at hpaused
  | unlink =>
    obtain rfl := Option.some_inj.mp h
    exact ⟨rfl, rfl, rfl⟩
  | heads hashes =>
    obtain rfl := Option.some_inj.mp h
    simp only [Replicator.receive, hs]
    exact ⟨trivial, hf, trivial⟩
  | result hash record bytes =>
    obtain rfl := Option.some_inj.mp h
    simp only [Replicator.receiveResult, Traversal.result, hsettle]
    exact ⟨hs, hf, trivial⟩
  | timeout hash record =>
    obtain rfl := Option.some_inj.mp h
    simp only [Traversal.timeout, hsettle]
    exact ⟨hs, hf, trivial⟩
  | runMerge =>
    obtain ⟨-, ⟨⟩⟩ := Option.ite_none_right_eq_some.mp h
    exact ⟨hs, hf, rfl⟩
  | mergeDone =>
    obtain ⟨batch, -, rfl⟩ := Option.map_eq_some_iff.mp h
    exact ⟨hs, hf, rfl⟩
  | mergeFailed =>
    obtain ⟨batch, -, rfl⟩ := Option.map_eq_some_iff.mp h
    exact ⟨hs, hf, rfl⟩
  | merge blocks =>
    obtain rfl := Option.some_inj.mp h
    exact ⟨hs, hf, rfl⟩
  | append payload keyPair =>
    simp only [Replicator.step] at h
    split at h
    · obtain rfl := Option.some_inj.mp h
      exact ⟨hs, hf, rfl⟩
    · exact absurd h (by simp)

/-- A subscription belongs to a start, to a replicator that runs or is paused, or to an unlink that
still waits for the network. -/
def Owned (s : ReplicatorSession) : Prop :=
  s.subscribed = true → 0 < s.replicator.starting ∨ s.replicator.state = .running ∨ s.replicator.state = .paused ∨
    0 < s.unsubscribing

theorem Owned.replicate {l : Replicator.Label} (h : s.replicate E concurrency l = some t) (hl : turns l = false)
    (ho : Owned s) : Owned t := by
  obtain ⟨r, hr, rfl⟩ := Option.map_eq_some_iff.mp h
  obtain ⟨hstate, hstarting⟩ := step_kept hr hl
  simpa only [Owned, hstate, hstarting] using ho

theorem step_owned {l : Label} (ho : Owned s) (h : s.step E concurrency l = some t) : Owned t := by
  cases l with
  | start =>
    obtain ⟨_, hu, rfl⟩ := Option.map_eq_some_iff.mp h
    obtain ⟨r, hr, rfl⟩ := Option.map_eq_some_iff.mp hu
    obtain ⟨-, ⟨⟩⟩ := Option.ite_none_right_eq_some.mp hr
    exact fun _ => Or.inl (Nat.succ_pos _)
  | subscribed =>
    obtain ⟨_, hu, rfl⟩ := Option.map_eq_some_iff.mp h
    obtain ⟨r, hr, rfl⟩ := Option.map_eq_some_iff.mp hu
    obtain ⟨-, ⟨⟩⟩ := Option.ite_none_right_eq_some.mp hr
    exact fun _ => Or.inr (Or.inl rfl)
  | pause =>
    obtain ⟨_, hu, rfl⟩ := Option.map_eq_some_iff.mp h
    obtain ⟨r, hr, rfl⟩ := Option.map_eq_some_iff.mp hu
    obtain ⟨-, ⟨⟩⟩ := Option.ite_none_right_eq_some.mp hr
    exact fun _ => Or.inr (Or.inr (Or.inl rfl))
  | resume =>
    obtain ⟨_, hu, rfl⟩ := Option.map_eq_some_iff.mp h
    obtain ⟨r, hr, rfl⟩ := Option.map_eq_some_iff.mp hu
    obtain ⟨-, ⟨⟩⟩ := Option.ite_none_right_eq_some.mp hr
    exact fun _ => Or.inr (Or.inl rfl)
  | unlink =>
    simp only [step] at h
    obtain ⟨_, hu, rfl⟩ := Option.map_eq_some_iff.mp h
    obtain ⟨r, hr, rfl⟩ := Option.map_eq_some_iff.mp hu
    obtain rfl := Option.some_inj.mp hr
    intro hsub
    by_cases hrun : s.replicator.state = .running ∨ s.replicator.state = .paused
    · exact Or.inr (Or.inr (Or.inr (by simp [hrun])))
    · rcases ho hsub with h | h | h | h
      · exact Or.inl h
      · exact absurd (Or.inl h) hrun
      · exact absurd (Or.inr h) hrun
      · exact Or.inr (Or.inr (Or.inr (by simpa [hrun] using h)))
  | unsubscribed =>
    obtain ⟨-, ⟨⟩⟩ := Option.ite_none_right_eq_some.mp h
    exact fun hsub => absurd hsub (by simp)
  | heads hashes => exact ho.replicate (Option.ite_none_right_eq_some.mp h).2 rfl
  | peerJoin =>
    obtain ⟨-, ⟨⟩⟩ := Option.ite_none_right_eq_some.mp h
    exact ho
  | result hash record bytes => exact ho.replicate h rfl
  | timeout hash record => exact ho.replicate h rfl
  | runMerge =>
    obtain ⟨u, hr, rfl⟩ := Option.map_eq_some_iff.mp h
    exact (ho.replicate hr rfl : Owned u)
  | mergeDone =>
    obtain ⟨u, hr, rfl⟩ := Option.map_eq_some_iff.mp h
    have hu : Owned u := ho.replicate hr rfl
    split <;> exact hu
  | mergeFailed => exact ho.replicate h rfl
  | merge blocks => exact ho.replicate h rfl
  | append payload keyPair => exact ho.replicate h rfl
  | headsChanged =>
    obtain ⟨-, ⟨⟩⟩ := Option.ite_none_right_eq_some.mp h
    exact ho
  | flush =>
    obtain ⟨-, ⟨⟩⟩ := Option.ite_none_right_eq_some.mp h
    exact ho
  | publish =>
    obtain ⟨sent, -, rfl⟩ := Option.map_eq_some_iff.mp h
    exact ho
  | sent =>
    obtain ⟨p, -, rfl⟩ := Option.map_eq_some_iff.mp h
    exact ho

/-- Unlinked for good, with the fetches and the messages there were at the unlink. -/
structure Retired (unlinked s : ReplicatorSession) : Prop where
  state : s.replicator.state = .unlinked
  idle : s.replicator.traversal.inFlight = .empty
  fetches : s.replicator.traversal.nextRecord = unlinked.replicator.traversal.nextRecord
  paused : s.publisher.paused = true
  unscheduled : s.publisher.scheduled = false
  done : ∀ send ∈ s.publisher.sending, send = some []
  published : s.published = unlinked.published
  handlers : s.peerHandlers = 0
  owned : Owned s

theorem trigger_of_paused {p : HeadsPublisher} (hp : p.paused = true) : p.trigger = p := by
  simp [HeadsPublisher.trigger, hp]

theorem unlink_retired (ho : Owned s) (hd : ∀ send ∈ s.publisher.sending, send = some [])
    (h : s.step E concurrency .unlink = some t) : Retired t t := by
  have howned := step_owned ho h
  simp only [step] at h
  obtain ⟨_, hu, rfl⟩ := Option.map_eq_some_iff.mp h
  obtain ⟨r, hr, rfl⟩ := Option.map_eq_some_iff.mp hu
  obtain rfl := Option.some_inj.mp hr
  exact ⟨rfl, rfl, rfl, rfl, rfl, hd, rfl, rfl, howned⟩

variable {unlinked : ReplicatorSession}

theorem Retired.replicate {l : Replicator.Label} (k : Retired unlinked s) (h : s.replicate E concurrency l = some t)
    (hl : l ≠ .subscribed) (ho : Owned t) : Retired unlinked t := by
  obtain ⟨r, hr, rfl⟩ := Option.map_eq_some_iff.mp h
  obtain ⟨hstate, hidle, hnext⟩ := step_unlinked hr hl k.state k.idle
  exact { k with state := hstate, idle := hidle, fetches := hnext.trans k.fetches, owned := ho }

theorem step_retired {l : Label} (k : Retired unlinked s) (hl : Orderly s l)
    (h : s.step E concurrency l = some t) : Retired unlinked t := by
  have ho := step_owned k.owned h
  have htrigger := trigger_of_paused k.paused
  cases l with
  | start =>
    obtain ⟨_, hu, rfl⟩ := Option.map_eq_some_iff.mp h
    obtain ⟨r, hr, rfl⟩ := Option.map_eq_some_iff.mp hu
    exact absurd ((Option.ite_none_right_eq_some.mp hr).1.symm.trans k.state) (by simp)
  | subscribed => exact absurd k.state hl
  | pause =>
    obtain ⟨_, hu, rfl⟩ := Option.map_eq_some_iff.mp h
    obtain ⟨r, hr, rfl⟩ := Option.map_eq_some_iff.mp hu
    exact absurd ((Option.ite_none_right_eq_some.mp hr).1.symm.trans k.state) (by simp)
  | resume =>
    obtain ⟨_, hu, rfl⟩ := Option.map_eq_some_iff.mp h
    obtain ⟨r, hr, rfl⟩ := Option.map_eq_some_iff.mp hu
    exact absurd ((Option.ite_none_right_eq_some.mp hr).1.symm.trans k.state) (by simp)
  | unlink =>
    simp only [step] at h
    obtain ⟨_, hu, rfl⟩ := Option.map_eq_some_iff.mp h
    obtain ⟨r, hr, rfl⟩ := Option.map_eq_some_iff.mp hu
    obtain rfl := Option.some_inj.mp hr
    exact { k with state := rfl, idle := rfl, paused := rfl, unscheduled := rfl, handlers := rfl, owned := ho }
  | unsubscribed =>
    obtain ⟨-, ⟨⟩⟩ := Option.ite_none_right_eq_some.mp h
    exact { k with owned := ho }
  | heads hashes => exact k.replicate (Option.ite_none_right_eq_some.mp h).2 (by simp) ho
  | peerJoin => exact absurd (Option.ite_none_right_eq_some.mp h).1 (by simp [k.handlers])
  | result hash record bytes => exact k.replicate h (by simp) ho
  | timeout hash record => exact k.replicate h (by simp) ho
  | runMerge =>
    obtain ⟨u, hr, rfl⟩ := Option.map_eq_some_iff.mp h
    have hu : Retired unlinked u := k.replicate hr (by simp) ho
    exact { hu with }
  | mergeDone =>
    obtain ⟨u, hr, rfl⟩ := Option.map_eq_some_iff.mp h
    have hu : Retired unlinked u := k.replicate hr (by simp) (k.owned.replicate hr rfl)
    rw [trigger_of_paused hu.paused]
    split <;> exact hu
  | mergeFailed => exact k.replicate h (by simp) ho
  | merge blocks => exact k.replicate h (by simp) ho
  | append payload keyPair => exact k.replicate h (by simp) ho
  | headsChanged => exact absurd ((Option.ite_none_right_eq_some.mp h).1.symm.trans k.state) (by simp)
  | flush => exact absurd ((Option.ite_none_right_eq_some.mp h).1.symm.trans k.unscheduled) (by simp)
  | publish =>
    -- Every send has published its last message, so there is no next one.
    obtain ⟨out, hp, -⟩ := Option.map_eq_some_iff.mp h
    unfold HeadsPublisher.publish at hp
    split at hp
    · exact absurd hp (by simp)
    · rename_i send rest hsending
      rw [k.done send (hsending ▸ List.mem_cons_self)] at hp
      exact absurd hp (by simp)
  | sent =>
    obtain ⟨p, hp, rfl⟩ := Option.map_eq_some_iff.mp h
    unfold HeadsPublisher.sent at hp
    split at hp
    · rename_i rest hsending
      obtain rfl := Option.some_inj.mp hp
      exact { k with done := fun send hm => k.done send (hsending ▸ List.mem_cons_of_mem _ hm), owned := ho }
    · exact absurd hp (by simp)

end Steps

section Runs
variable {E : Environment} {concurrency : ℕ}

theorem run_owned {allowed : ReplicatorSession → Label → Prop} {s : ReplicatorSession}
    (h : Run (step E concurrency) Initial allowed s) : Owned s := by
  refine h.invariant ?_ fun _ _ _ ho _ hs => step_owned ho hs
  rintro _ ⟨oplog, rfl⟩ hsub
  simp [create] at hsub

/-- In every run in which no start resolves after an unlink and no unlink cuts into a send: from an
unlink on the replicator stays unlinked, publishes nothing and starts no fetch, and once the unlink
and the starts have settled neither its subscription nor a peer handler is left. -/
theorem unlinked_for_good {s unlinked t : ReplicatorSession}
    (hrun : Run (step E concurrency) Initial Orderly s) (hl : Orderly s .unlink)
    (hs : step E concurrency s .unlink = some unlinked)
    (hafter : Run (step E concurrency) (· = unlinked) Orderly t) :
    t.replicator.state = .unlinked ∧ t.published = s.published ∧
      t.replicator.traversal.nextRecord = s.replicator.traversal.nextRecord ∧
      (t.replicator.starting = 0 → t.unsubscribing = 0 → t.subscribed = false ∧ t.peerHandlers = 0) := by
  have hunlink : unlinked.published = s.published ∧
      unlinked.replicator.traversal.nextRecord = s.replicator.traversal.nextRecord := by
    simp only [step] at hs
    obtain ⟨_, hu, rfl⟩ := Option.map_eq_some_iff.mp hs
    obtain ⟨r, hr, rfl⟩ := Option.map_eq_some_iff.mp hu
    obtain rfl := Option.some_inj.mp hr
    exact ⟨rfl, rfl⟩
  have k : Retired unlinked t := by
    refine hafter.invariant ?_ fun _ _ _ k hl h => step_retired k hl h
    rintro _ rfl
    exact unlink_retired (run_owned hrun) hl hs
  refine ⟨k.state, k.published.trans hunlink.1, k.fetches.trans hunlink.2, fun hstarting hwait => ⟨?_, k.handlers⟩⟩
  by_contra hsub
  have howned := k.owned (by simpa using hsub)
  simp [hstarting, hwait, k.state] at howned

end Runs

namespace EmptyLibrary

def session : ReplicatorSession :=
  create (createOplog ⟨"/record/z/tracks", "tracks", .recordstore, [], "z", "z", "z"⟩)

def after (s : ReplicatorSession) (labels : List Label) : ReplicatorSession :=
  (runLabels (step plainEnvironment 1) s labels).getD s

/-- It has fetched a head and published its own. -/
def served : ReplicatorSession := after session [.start, .subscribed, .heads ["z"], .flush, .publish, .sent]

theorem served_orderly : Run (step plainEnvironment 1) Initial Orderly served := by
  have h0 : Run (step plainEnvironment 1) Initial Orderly session := .start ⟨_, rfl⟩
  have h1 : Run (step plainEnvironment 1) Initial Orderly (after session [.start, .subscribed]) :=
    .next .subscribed (.next .start h0 trivial rfl) (show ReplicatorState.idle ≠ .unlinked by decide) rfl
  refine h1.of_runLabels (fun l hl => ?_) (show runLabels (step plainEnvironment 1) _
    [.heads ["z"], .flush, .publish, .sent] = some served from rfl)
  simp only [List.mem_cons, List.not_mem_nil, or_false] at hl
  rcases hl with rfl | rfl | rfl | rfl <;> exact fun _ => trivial

end EmptyLibrary

open EmptyLibrary in
/-- A replicator that has fetched and published is unlinked, and hears of heads before the network
takes its subscription away. -/
theorem unlinked_for_good_late_heads : ∃ unlinked t : ReplicatorSession,
    step plainEnvironment 1 served .unlink = some unlinked ∧
      Run (step plainEnvironment 1) (· = unlinked) Orderly t ∧
      t.replicator.state = .unlinked ∧ t.published.length = 1 ∧ t.replicator.traversal.nextRecord = 1 ∧
      t.subscribed = false ∧ t.peerHandlers = 0 := by
  have hl : Orderly served .unlink := fun _ hm => absurd hm List.not_mem_nil
  have hs : step plainEnvironment 1 served .unlink = some (after served [.unlink]) := rfl
  have hafter : Run (step plainEnvironment 1) (· = after served [.unlink]) Orderly
      (after served [.unlink, .heads ["y"], .unsubscribed]) :=
    .next .unsubscribed (.next (.heads ["y"]) (.start rfl) trivial rfl) trivial rfl
  obtain ⟨hstate, hpublished, hfetches, hleft⟩ := unlinked_for_good served_orderly hl hs hafter
  exact ⟨_, _, hs, hafter, hstate, by rw [hpublished]; rfl, hfetches.trans rfl, hleft rfl rfl⟩

open EmptyLibrary in
/-- An unlink inside a start: when the subscription resolves the replicator runs again, fetches what
it hears of, publishes after a pause, and keeps its subscription and its peer handlers. -/
theorem unlinked_for_good_inside_start : ∃ s unlinked t : ReplicatorSession,
    Run (step plainEnvironment 1) Initial anyLabel s ∧ step plainEnvironment 1 s .unlink = some unlinked ∧
      Run (step plainEnvironment 1) (· = unlinked) anyLabel t ∧ t.replicator.starting = 0 ∧ t.unsubscribing = 0 ∧
      t.replicator.state = .running ∧ t.replicator.traversal.nextRecord ≠ s.replicator.traversal.nextRecord ∧
      t.published ≠ s.published ∧ t.subscribed = true ∧ t.peerHandlers = 1 := by
  have hstart : Run (step plainEnvironment 1) Initial anyLabel (after session [.start]) :=
    .next .start (.start ⟨_, rfl⟩) trivial rfl
  have h0 : Run (step plainEnvironment 1) (· = after session [.start, .unlink]) anyLabel
      (after session [.start, .unlink]) := .start rfl
  have hafter : Run (step plainEnvironment 1) (· = after session [.start, .unlink]) anyLabel
      (after session [.start, .unlink, .subscribed, .heads ["z"], .pause, .resume, .flush, .publish]) :=
    h0.of_runLabels (fun _ _ _ => trivial) (show runLabels (step plainEnvironment 1) _
      [.subscribed, .heads ["z"], .pause, .resume, .flush, .publish] = some _ from rfl)
  exact ⟨_, _, _, hstart, rfl, hafter, rfl, rfl, rfl, by decide, by decide, rfl, rfl⟩

end ReplicatorSession

end RecordNode
