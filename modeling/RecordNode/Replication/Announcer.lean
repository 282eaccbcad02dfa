import RecordNode.Encoding.Value
import RecordNode.Foundation.OrderedMap
import RecordNode.Foundation.Run

/-! # Announcing to peers that join

A peer announces itself when it joins the topic. For a remote peer that joins it announces
again, with the others that join at the same moment, unless it did so for that peer less than
an interval ago: the joins that wait share one timer, and its flush is one call of `publish`
for all of them. What such a call comes to is another matter. There may be nothing to announce,
and the build or the publish may fail; the interval runs from the flush whatever came of it. -/

namespace RecordNode

open Foundation

structure AnnouncerFlush where
  time : ℕ
  targets : List String

/-- How far a call of `publish` has come, and with which data. -/
inductive PublishProgress where
  | building
  | nothing
  | buildFailed
  | publishing (data : Bytes)
  | published (data : Bytes)
  | publishFailed (data : Bytes)
deriving DecidableEq

namespace PublishProgress

/-- What the build gave, if it gave data. -/
def data : PublishProgress → Option Bytes
  | publishing data => some data
  | published data => some data
  | publishFailed data => some data
  | _ => none

def failed : PublishProgress → Bool
  | buildFailed => true
  | publishFailed _ => true
  | _ => false

end PublishProgress

/-- A call of `publish`, by a flush or by `announce_self`. -/
structure PublishCall where
  flush : Option AnnouncerFlush
  progress : PublishProgress

/-- The announcer with the clock, the joins it was told of, its calls of `publish`, what these gave
to the network and the warnings they ended with, each under the call's number. -/
structure Announcer where
  lastAnnounced : OrderedMap String ℕ
  joined : OrderedSet String
  scheduled : Bool
  now : ℕ
  joins : List (String × ℕ)
  calls : List PublishCall
  messages : List (ℕ × Bytes)
  warnings : List ℕ
  stopped : Bool

namespace Announcer

inductive Label where
  /-- This peer joined the topic. -/
  | announceSelf
  | peerJoined (peerId : String)
  /-- The timer fires. -/
  | flush
  | stop
  | tick (ms : ℕ)
  | built (i : ℕ) (data : Option Bytes)
  | buildFailed (i : ℕ)
  | published (i : ℕ)
  | publishFailed (i : ℕ)

def create (now : ℕ) : Announcer := ⟨.empty, .empty, false, now, [], [], [], [], false⟩

/-- The flushes so far, the last first. -/
def flushes (s : Announcer) : List AnnouncerFlush := (s.calls.filterMap PublishCall.flush).reverse

variable (interval : ℕ)

/-- A flush was for the peer less than an interval ago. -/
def recent (s : Announcer) (peerId : String) : Bool :=
  match s.lastAnnounced.get peerId with
  | none => false
  | some last => s.now - last < interval

/-- `publish`, up to the build it waits for. -/
def publish (s : Announcer) (flush : Option AnnouncerFlush) : Announcer :=
  { s with calls := s.calls ++ [⟨flush, .building⟩] }

def setProgress (s : Announcer) (i : ℕ) (c : PublishCall) (progress : PublishProgress) : Announcer :=
  { s with calls := s.calls.set i { c with progress := progress } }

def announceSelf (s : Announcer) : Announcer := s.publish none

def peerJoined (s : Announcer) (peerId : String) : Announcer :=
  let told := { s with joins := (peerId, s.now) :: s.joins }
  if s.recent interval peerId then told else { told with joined := s.joined.add peerId, scheduled := true }

def flush (s : Announcer) : Announcer :=
  let flushed := { s with
    scheduled := false
    joined := .empty
    lastAnnounced := s.joined.items.foldl (fun map peerId => map.set peerId s.now) s.lastAnnounced }
  flushed.publish (some ⟨s.now, s.joined.items⟩)

/-- The build is there: data goes to the network at once. -/
def built (s : Announcer) (i : ℕ) (c : PublishCall) : Option Bytes → Announcer
  | none => s.setProgress i c .nothing
  | some data => { s.setProgress i c (.publishing data) with messages := s.messages ++ [(i, data)] }

/-- The `catch` of a call. -/
def warn (s : Announcer) (i : ℕ) (c : PublishCall) (progress : PublishProgress) : Announcer :=
  { s.setProgress i c progress with warnings := s.warnings ++ [i] }

def step (s : Announcer) : Label → Option Announcer
  | .announceSelf => some s.announceSelf
  | .peerJoined peerId => some (s.peerJoined interval peerId)
  | .flush => if s.scheduled then some s.flush else none
  | .stop => some { s with scheduled := false, stopped := true }
  | .tick ms => some { s with now := s.now + ms }
  | .built i data =>
    match s.calls[i]? with
    | some c => if c.progress = .building then some (s.built i c data) else none
    | none => none
  | .buildFailed i =>
    match s.calls[i]? with
    | some c => if c.progress = .building then some (s.warn i c .buildFailed) else none
    | none => none
  | .published i =>
    match s.calls[i]? with
    | some c =>
      match c.progress with
      | .publishing data => some (s.setProgress i c (.published data))
      | _ => none
    | none => none
  | .publishFailed i =>
    match s.calls[i]? with
    | some c =>
      match c.progress with
      | .publishing data => some (s.warn i c (.publishFailed data))
      | _ => none
    | none => none

/-- What has to go to the network at a step. -/
@[simp] def Label.sent : Label → Option (ℕ × Bytes)
  | .built i (some data) => some (i, data)
  | _ => none

/-- The call that has to end in a warning at a step. -/
@[simp] def Label.warned : Label → Option ℕ
  | .buildFailed i => some i
  | .publishFailed i => some i
  | _ => none

/-- A step at which this peer has to announce itself. -/
@[simp] def Label.announces : Label → Bool
  | .announceSelf => true
  | .flush => true
  | _ => false

/-- Two flushes for one peer are an interval apart. -/
def Spaced (flushes : List AnnouncerFlush) : Prop :=
  flushes.Pairwise fun later earlier => ∀ peerId ∈ later.targets, peerId ∈ earlier.targets → earlier.time + interval ≤ later.time

/-- The peer waits for the next flush, or a flush was for it: after the join, or less than an interval before. -/
def Answered (s : Announcer) (join : String × ℕ) : Prop :=
  join.1 ∈ s.joined ∨ ∃ f ∈ s.flushes, join.1 ∈ f.targets ∧ (join.2 ≤ f.time ∨ join.2 < f.time + interval)

structure Good (s : Announcer) : Prop where
  /-- The map holds the time of a peer's last flush. -/
  last : ∀ f ∈ s.flushes, ∀ peerId ∈ f.targets, ∃ t, s.lastAnnounced.get peerId = some t ∧ f.time ≤ t ∧ t ≤ s.now
  flushed : ∀ peerId t, s.lastAnnounced.get peerId = some t → ∃ f ∈ s.flushes, peerId ∈ f.targets ∧ f.time = t
  waiting : ∀ peerId ∈ s.joined, ∀ t, s.lastAnnounced.get peerId = some t → t + interval ≤ s.now
  spaced : Spaced interval s.flushes
  answered : ∀ join ∈ s.joins, join.2 ≤ s.now ∧ s.Answered interval join
  timer : s.scheduled = true → ∃ peerId, peerId ∈ s.joined
  armed : s.stopped = false → ∀ peerId ∈ s.joined, s.scheduled = true
  targets : ∀ f ∈ s.flushes, f.targets ≠ []

/-- Each call of `publish` gives the network what its build gave, once, and no other data; and it warns
once when its build or its publish fails. -/
structure Sends (s : Announcer) : Prop where
  messages : ∀ i data, (i, data) ∈ s.messages ↔ ∃ c, s.calls[i]? = some c ∧ c.progress.data = some data
  once : (s.messages.map Prod.fst).Nodup
  warnings : ∀ i, i ∈ s.warnings ↔ ∃ c, s.calls[i]? = some c ∧ c.progress.failed = true
  warnedOnce : s.warnings.Nodup

variable {interval} {s t : Announcer}

theorem good_create (now : ℕ) : (create now).Good interval where
  last _ h := absurd h List.not_mem_nil
  flushed _ _ h := by cases h
  waiting _ h := absurd h (OrderedSet.mem_empty _)
  spaced := List.Pairwise.nil
  answered _ h := absurd h List.not_mem_nil
  timer h := by cases h
  armed _ _ h := absurd h (OrderedSet.mem_empty _)
  targets _ h := absurd h List.not_mem_nil

@[simp] theorem flushes_publish (s : Announcer) (f : Option AnnouncerFlush) :
    (s.publish f).flushes = f.toList ++ s.flushes := by
  cases f <;> simp [publish, flushes, List.filterMap_append]

theorem filterMap_flush_set {calls : List PublishCall} {i : ℕ} {c : PublishCall} (hc : calls[i]? = some c)
    (progress : PublishProgress) :
    (calls.set i { c with progress := progress }).filterMap PublishCall.flush = calls.filterMap PublishCall.flush := by
  induction calls generalizing i with
  | nil => rfl
  | cons d rest ih =>
    cases i with
    | zero =>
      rw [List.getElem?_cons_zero] at hc
      obtain rfl := Option.some_inj.mp hc
      simp only [List.set_cons_zero, List.filterMap_cons]
    | succ i =>
      rw [List.getElem?_cons_succ] at hc
      simp only [List.set_cons_succ, List.filterMap_cons, ih hc]

theorem get_setAll (map : OrderedMap String ℕ) (now : ℕ) (peers : List String) (peerId : String) :
    (peers.foldl (fun map peerId => map.set peerId now) map).get peerId =
      if peerId ∈ peers then some now else map.get peerId := by
  induction peers generalizing map with
  | nil => rfl
  | cons p rest ih =>
    rw [List.foldl_cons, ih, OrderedMap.get_set]
    by_cases hrest : peerId ∈ rest
    · simp [hrest]
    · simp [hrest]

theorem Good.peerJoined (h : s.Good interval) (peerId : String) : (s.peerJoined interval peerId).Good interval := by
  have hold {joined : OrderedSet String} (hsub : ∀ p ∈ s.joined, p ∈ joined) {join : String × ℕ} (hjoin : join ∈ s.joins) :
      join.2 ≤ s.now ∧ (join.1 ∈ joined ∨
        ∃ f ∈ s.flushes, join.1 ∈ f.targets ∧ (join.2 ≤ f.time ∨ join.2 < f.time + interval)) :=
    ⟨(h.answered join hjoin).1, (h.answered join hjoin).2.imp_left (hsub _)⟩
  unfold Announcer.peerJoined
  split
  case isTrue hrecent =>
    refine { h with answered := List.forall_mem_cons.mpr ⟨⟨Nat.le_refl _, ?_⟩, fun join hjoin => hold (fun _ hp => hp) hjoin⟩ }
    -- the last flush answers the join
    rw [recent] at hrecent
    split at hrecent
    · cases hrecent
    · next last hlast =>
      obtain ⟨f, hf, htarget, rfl⟩ := h.flushed peerId last hlast
      exact .inr ⟨f, hf, htarget, .inr (by have := of_decide_eq_true hrecent; omega)⟩
  case isFalse hrecent =>
    refine { h with
      waiting := ?_
      answered := List.forall_mem_cons.mpr ⟨⟨Nat.le_refl _, .inl ((OrderedSet.mem_add _ _ _).mpr (.inl rfl))⟩,
        fun join hjoin => hold (fun _ hp => (OrderedSet.mem_add _ _ _).mpr (.inr hp)) hjoin⟩
      timer := fun _ => ⟨peerId, (OrderedSet.mem_add _ _ _).mpr (.inl rfl)⟩
      armed := fun _ _ _ => rfl }
    intro p hp last hlast
    rcases (OrderedSet.mem_add _ _ _).mp hp with rfl | hwaiting
    · simp only [recent] at hrecent hlast
      rw [hlast] at hrecent
      obtain ⟨f, hf, htarget, rfl⟩ := h.flushed p last hlast
      obtain ⟨_, hget, -, hpast⟩ := h.last f hf p htarget
      rw [hlast] at hget
      obtain rfl := Option.some_inj.mp hget
      have := of_decide_eq_false (Bool.not_eq_true _ ▸ hrecent)
      simp only
      omega
    · exact h.waiting p hwaiting last hlast

theorem flushes_flush (s : Announcer) : s.flush.flushes = ⟨s.now, s.joined.items⟩ :: s.flushes :=
  flushes_publish _ _

theorem Good.flush (h : s.Good interval) (hscheduled : s.scheduled = true) : s.flush.Good interval where
  last := by
    rw [flushes_flush, List.forall_mem_cons]
    refine ⟨?_, ?_⟩
    · intro peerId hpeer
      exact ⟨s.now, by rw [Announcer.flush, publish, get_setAll, if_pos hpeer], Nat.le_refl _, Nat.le_refl _⟩
    · intro f hf peerId hpeer
      obtain ⟨t, hget, hle, hnow⟩ := h.last f hf peerId hpeer
      simp only [Announcer.flush, publish, get_setAll]
      split
      · exact ⟨s.now, rfl, Nat.le_trans hle hnow, Nat.le_refl _⟩
      · exact ⟨t, hget, hle, hnow⟩
  flushed peerId t hget := by
    simp only [Announcer.flush, publish, get_setAll] at hget
    rw [flushes_flush]
    split at hget
    · next hpeer =>
      exact ⟨⟨s.now, s.joined.items⟩, List.mem_cons_self, hpeer, Option.some_inj.mp hget⟩
    · obtain ⟨f, hf, htarget, heq⟩ := h.flushed peerId t hget
      exact ⟨f, List.mem_cons_of_mem _ hf, htarget, heq⟩
  waiting _ hp := absurd hp (OrderedSet.mem_empty _)
  spaced := by
    rw [Spaced, flushes_flush]
    refine List.pairwise_cons.mpr ⟨?_, h.spaced⟩
    intro f hf peerId hpeer htarget
    obtain ⟨t, hget, hle, -⟩ := h.last f hf peerId htarget
    exact Nat.le_trans (Nat.add_le_add_right hle interval) (h.waiting peerId hpeer t hget)
  answered join hjoin := by
    rw [Answered, flushes_flush]
    obtain ⟨hpast, hwaiting | ⟨f, hf, hanswer⟩⟩ := h.answered join hjoin
    · exact ⟨hpast, .inr ⟨⟨s.now, s.joined.items⟩, List.mem_cons_self, hwaiting, .inl hpast⟩⟩
    · exact ⟨hpast, .inr ⟨f, List.mem_cons_of_mem _ hf, hanswer⟩⟩
  timer hs := by cases hs
  armed _ _ hp := absurd hp (OrderedSet.mem_empty _)
  targets := by
    rw [flushes_flush]
    obtain ⟨peerId, hpeer⟩ := h.timer hscheduled
    exact List.forall_mem_cons.mpr ⟨List.ne_nil_of_mem hpeer, h.targets⟩

/-- What becomes of the calls has no part in it. -/
theorem Good.calls (h : s.Good interval) (calls : List PublishCall) (messages : List (ℕ × Bytes)) (warnings : List ℕ)
    (hflushes : calls.filterMap PublishCall.flush = s.calls.filterMap PublishCall.flush) :
    ({ s with calls := calls, messages := messages, warnings := warnings } : Announcer).Good interval := by
  have heq : ({ s with calls := calls, messages := messages, warnings := warnings } : Announcer).flushes = s.flushes :=
    congrArg List.reverse hflushes
  exact {
    last := by rw [heq]; exact h.last
    flushed := by rw [heq]; exact h.flushed
    waiting := h.waiting
    spaced := by rw [heq]; exact h.spaced
    answered := by simp only [Answered, heq]; exact h.answered
    timer := h.timer
    armed := h.armed
    targets := by rw [heq]; exact h.targets }

/-! ## What a call of publish comes to -/

theorem sends_create (now : ℕ) : (create now).Sends := by
  refine ⟨?_, List.nodup_nil, ?_, List.nodup_nil⟩ <;> simp [create]

/-- Everything else a step does leaves the calls and what they gave alone. -/
theorem Sends.of_eq (h : s.Sends) (hcalls : t.calls = s.calls) (hmessages : t.messages = s.messages)
    (hwarnings : t.warnings = s.warnings) : t.Sends := by
  refine ⟨?_, hmessages ▸ h.once, ?_, hwarnings ▸ h.warnedOnce⟩
  · rw [hcalls, hmessages]
    exact h.messages
  · rw [hcalls, hwarnings]
    exact h.warnings

theorem exists_append_building {calls : List PublishCall} {f : Option AnnouncerFlush} {P : PublishProgress → Prop}
    (hP : ¬ P .building) (i : ℕ) :
    (∃ c, (calls ++ [⟨f, .building⟩])[i]? = some c ∧ P c.progress) ↔ ∃ c, calls[i]? = some c ∧ P c.progress := by
  constructor
  · rintro ⟨c, hc, hprogress⟩
    rw [List.getElem?_append] at hc
    split at hc
    · exact ⟨c, hc, hprogress⟩
    · rw [List.mem_singleton.mp (List.mem_of_getElem? hc)] at hprogress
      exact absurd hprogress hP
  · rintro ⟨c, hc, hprogress⟩
    exact ⟨c, by rw [List.getElem?_append_left (List.getElem?_eq_some_iff.mp hc).1, hc], hprogress⟩

theorem Sends.publish (h : s.Sends) (f : Option AnnouncerFlush) : (s.publish f).Sends where
  messages i data := (h.messages i data).trans
    (exists_append_building (P := fun p => p.data = some data) (by simp [PublishProgress.data]) i).symm
  once := h.once
  warnings i := (h.warnings i).trans
    (exists_append_building (P := fun p => p.failed = true) (by simp [PublishProgress.failed]) i).symm
  warnedOnce := h.warnedOnce

theorem Sends.flush (h : s.Sends) : s.flush.Sends := by
  unfold Announcer.flush
  apply Sends.publish
  exact h.of_eq rfl rfl rfl

/-- Of the calls after one went on. -/
theorem exists_setProgress {i : ℕ} {c : PublishCall} (hc : s.calls[i]? = some c) (progress : PublishProgress)
    (P : PublishProgress → Prop) (j : ℕ) :
    (∃ d, (s.setProgress i c progress).calls[j]? = some d ∧ P d.progress) ↔
      if j = i then P progress else ∃ d, s.calls[j]? = some d ∧ P d.progress := by
  rw [setProgress, List.getElem?_set]
  by_cases hij : i = j
  · subst hij
    rw [if_pos rfl, if_pos (List.getElem?_eq_some_iff.mp hc).1, if_pos rfl]
    simp
  · rw [if_neg hij, if_neg (Ne.symm hij)]

theorem Sends.messages_setProgress (h : s.Sends) {i : ℕ} {c : PublishCall} (hc : s.calls[i]? = some c)
    {progress : PublishProgress} (hdata : progress.data = c.progress.data) (j : ℕ) (data : Bytes) :
    (j, data) ∈ s.messages ↔ ∃ d, (s.setProgress i c progress).calls[j]? = some d ∧ d.progress.data = some data := by
  rw [h.messages, exists_setProgress hc progress fun p => p.data = some data]
  split
  · next hij =>
    subst hij
    rw [hc, hdata]
    simp
  · rfl

theorem Sends.warnings_setProgress (h : s.Sends) {i : ℕ} {c : PublishCall} (hc : s.calls[i]? = some c)
    {progress : PublishProgress} (hfailed : progress.failed = c.progress.failed) (j : ℕ) :
    j ∈ s.warnings ↔ ∃ d, (s.setProgress i c progress).calls[j]? = some d ∧ d.progress.failed = true := by
  rw [h.warnings, exists_setProgress hc progress fun p => p.failed = true]
  split
  · next hij =>
    subst hij
    rw [hc, hfailed]
    simp
  · rfl

theorem Sends.setProgress (h : s.Sends) {i : ℕ} {c : PublishCall} (hc : s.calls[i]? = some c) {progress : PublishProgress}
    (hdata : progress.data = c.progress.data) (hfailed : progress.failed = c.progress.failed) :
    (s.setProgress i c progress).Sends where
  messages := h.messages_setProgress hc hdata
  once := h.once
  warnings := h.warnings_setProgress hc hfailed
  warnedOnce := h.warnedOnce

theorem Sends.built (h : s.Sends) {i : ℕ} {c : PublishCall} (hc : s.calls[i]? = some c) (hbuilding : c.progress = .building)
    (data : Option Bytes) : (s.built i c data).Sends := by
  cases data with
  | none => exact h.setProgress hc (by rw [hbuilding]; rfl) (by rw [hbuilding]; rfl)
  | some data =>
    have hfresh : ∀ old, (i, old) ∉ s.messages := by
      intro old hold
      obtain ⟨d, hd, hdata⟩ := (h.messages i old).mp hold
      obtain rfl := Option.some_inj.mp (hc.symm.trans hd)
      rw [hbuilding] at hdata
      cases hdata
    refine ⟨?_, ?_, h.warnings_setProgress hc (by rw [hbuilding]; rfl), h.warnedOnce⟩
    · intro j other
      refine Iff.trans ?_ (exists_setProgress hc (.publishing data) (fun p => p.data = some other) j).symm
      simp only [Announcer.built, Announcer.setProgress, List.mem_append, List.mem_singleton, Prod.mk.injEq]
      split
      · next hij =>
        subst hij
        simp [hfresh, PublishProgress.data, eq_comm]
      · next hij => simp [hij, h.messages]
    · simp only [Announcer.built, Announcer.setProgress, List.map_append, List.map_singleton]
      refine h.once.append (List.nodup_singleton i) (List.disjoint_singleton.mpr ?_)
      rintro hmem
      obtain ⟨⟨_, old⟩, hold, rfl⟩ := List.mem_map.mp hmem
      exact hfresh old hold

theorem Sends.warn (h : s.Sends) {i : ℕ} {c : PublishCall} (hc : s.calls[i]? = some c) (hgood : c.progress.failed = false)
    {progress : PublishProgress} (hdata : progress.data = c.progress.data) (hfailed : progress.failed = true) :
    (s.warn i c progress).Sends := by
  have hfresh : i ∉ s.warnings := by
    intro hold
    obtain ⟨d, hd, hd'⟩ := (h.warnings i).mp hold
    obtain rfl := Option.some_inj.mp (hc.symm.trans hd)
    rw [hgood] at hd'
    cases hd'
  refine ⟨h.messages_setProgress hc hdata, h.once, ?_, ?_⟩
  · intro j
    refine Iff.trans ?_ (exists_setProgress hc progress (fun p => p.failed = true) j).symm
    simp only [Announcer.warn, List.mem_append, List.mem_singleton]
    split
    · next hij => simp [hij, hfailed]
    · next hij => simp [hij, h.warnings]
  · exact h.warnedOnce.append (List.nodup_singleton i) (List.disjoint_singleton.mpr hfresh)

/-! ## Steps -/

theorem Good.setProgress (h : s.Good interval) {i : ℕ} {c : PublishCall} (hc : s.calls[i]? = some c)
    (progress : PublishProgress) (messages : List (ℕ × Bytes)) (warnings : List ℕ) :
    ({ s.setProgress i c progress with messages := messages, warnings := warnings } : Announcer).Good interval :=
  h.calls _ messages warnings (filterMap_flush_set hc progress)

/-- What each step is, with what it needs. -/
inductive Stepped (interval : ℕ) (s : Announcer) : Label → Announcer → Prop
  | announceSelf : Stepped interval s .announceSelf s.announceSelf
  | peerJoined (peerId : String) : Stepped interval s (.peerJoined peerId) (s.peerJoined interval peerId)
  | flush (hscheduled : s.scheduled = true) : Stepped interval s .flush s.flush
  | stop : Stepped interval s .stop { s with scheduled := false, stopped := true }
  | tick (ms : ℕ) : Stepped interval s (.tick ms) { s with now := s.now + ms }
  | built {i : ℕ} {c : PublishCall} (data : Option Bytes) (hc : s.calls[i]? = some c) (hbuilding : c.progress = .building) :
    Stepped interval s (.built i data) (s.built i c data)
  | buildFailed {i : ℕ} {c : PublishCall} (hc : s.calls[i]? = some c) (hbuilding : c.progress = .building) :
    Stepped interval s (.buildFailed i) (s.warn i c .buildFailed)
  | published {i : ℕ} {c : PublishCall} {data : Bytes} (hc : s.calls[i]? = some c)
    (hpublishing : c.progress = .publishing data) : Stepped interval s (.published i) (s.setProgress i c (.published data))
  | publishFailed {i : ℕ} {c : PublishCall} {data : Bytes} (hc : s.calls[i]? = some c)
    (hpublishing : c.progress = .publishing data) : Stepped interval s (.publishFailed i) (s.warn i c (.publishFailed data))

theorem stepped {l : Label} (hs : s.step interval l = some t) : Stepped interval s l t := by
  cases l with
  | announceSelf => exact Option.some_inj.mp hs ▸ .announceSelf
  | peerJoined peerId => exact Option.some_inj.mp hs ▸ .peerJoined peerId
  | flush =>
    obtain ⟨hscheduled, hs⟩ := Option.ite_none_right_eq_some.mp hs
    exact Option.some_inj.mp hs ▸ .flush hscheduled
  | stop => exact Option.some_inj.mp hs ▸ .stop
  | tick ms => exact Option.some_inj.mp hs ▸ .tick ms
  | built i data =>
    simp only [Announcer.step] at hs
    split at hs
    · next c hc =>
      obtain ⟨hbuilding, hs⟩ := Option.ite_none_right_eq_some.mp hs
      exact Option.some_inj.mp hs ▸ .built data hc hbuilding
    · cases hs
  | buildFailed i =>
    simp only [Announcer.step] at hs
    split at hs
    · next c hc =>
      obtain ⟨hbuilding, hs⟩ := Option.ite_none_right_eq_some.mp hs
      exact Option.some_inj.mp hs ▸ .buildFailed hc hbuilding
    · cases hs
  | published i =>
    simp only [Announcer.step] at hs
    split at hs
    · next c hc =>
      split at hs
      · next data hpublishing => exact Option.some_inj.mp hs ▸ .published hc hpublishing
      · cases hs
    · cases hs
  | publishFailed i =>
    simp only [Announcer.step] at hs
    split at hs
    · next c hc =>
      split at hs
      · next data hpublishing => exact Option.some_inj.mp hs ▸ .publishFailed hc hpublishing
      · cases hs
    · cases hs

/-- A step serves the joins or moves a call of `publish` on. -/
theorem step_invariant (h : s.Good interval ∧ s.Sends) {l : Label} (hs : s.step interval l = some t) :
    t.Good interval ∧ t.Sends := by
  obtain ⟨hgood, hsends⟩ := h
  cases stepped hs with
  | announceSelf => exact ⟨hgood.calls _ s.messages s.warnings (by simp [List.filterMap_append]), hsends.publish none⟩
  | peerJoined peerId =>
    refine ⟨hgood.peerJoined peerId, hsends.of_eq ?_ ?_ ?_⟩ <;> unfold Announcer.peerJoined <;> split <;> rfl
  | flush hscheduled => exact ⟨hgood.flush hscheduled, hsends.flush⟩
  | stop =>
    refine ⟨?_, hsends.of_eq rfl rfl rfl⟩
    exact { hgood with
      timer := by simp
      armed := by simp }
  | tick ms =>
    refine ⟨{ hgood with last := ?_, waiting := ?_, answered := ?_ }, hsends.of_eq rfl rfl rfl⟩
    · intro f hf peerId hpeer
      obtain ⟨t, hget, hle, hnow⟩ := hgood.last f hf peerId hpeer
      exact ⟨t, hget, hle, Nat.le_add_right_of_le hnow⟩
    · exact fun peerId hp t hget => Nat.le_add_right_of_le (hgood.waiting peerId hp t hget)
    · exact fun join hjoin => ⟨Nat.le_add_right_of_le (hgood.answered join hjoin).1, (hgood.answered join hjoin).2⟩
  | @built i c data hc hbuilding =>
    refine ⟨?_, hsends.built hc hbuilding data⟩
    cases data with
    | none => exact hgood.setProgress hc .nothing s.messages s.warnings
    | some data => exact hgood.setProgress hc (.publishing data) (s.messages ++ [(i, data)]) s.warnings
  | @buildFailed i c hc hbuilding =>
    exact ⟨hgood.setProgress hc _ s.messages (s.warnings ++ [i]),
      hsends.warn hc (by rw [hbuilding]; rfl) (by rw [hbuilding]; rfl) rfl⟩
  | published hc hpublishing =>
    exact ⟨hgood.setProgress hc _ s.messages s.warnings,
      hsends.setProgress hc (by rw [hpublishing]; rfl) (by rw [hpublishing]; rfl)⟩
  | @publishFailed i c data hc hpublishing =>
    exact ⟨hgood.setProgress hc _ s.messages (s.warnings ++ [i]),
      hsends.warn hc (by rw [hpublishing]; rfl) (by rw [hpublishing]; rfl) rfl⟩

theorem Good.recent_iff (h : s.Good interval) (peerId : String) :
    s.recent interval peerId = true ↔ ∃ f ∈ s.flushes, peerId ∈ f.targets ∧ s.now < f.time + interval := by
  rw [recent]
  constructor
  · intro hrecent
    split at hrecent
    · cases hrecent
    · next last hlast =>
      obtain ⟨f, hf, htarget, rfl⟩ := h.flushed peerId last hlast
      obtain ⟨t, hget, -, hnow⟩ := h.last f hf peerId htarget
      rw [hlast] at hget
      obtain rfl := Option.some_inj.mp hget
      exact ⟨f, hf, htarget, by have := of_decide_eq_true hrecent; omega⟩
  · rintro ⟨f, hf, htarget, hlt⟩
    obtain ⟨t, hget, hle, hnow⟩ := h.last f hf peerId htarget
    rw [hget]
    exact decide_eq_true (by omega)

/-- A join is passed over exactly when a flush was for its peer less than an interval ago. -/
theorem Good.passedOver_iff (h : s.Good interval) (peerId : String) :
    peerId ∉ (s.peerJoined interval peerId).joined ↔ ∃ f ∈ s.flushes, peerId ∈ f.targets ∧ s.now < f.time + interval := by
  rw [← h.recent_iff]
  unfold Announcer.peerJoined
  split
  case isTrue hrecent =>
    refine iff_of_true (fun hwaiting => ?_) hrecent
    -- a peer that waits had its last flush an interval ago
    obtain ⟨f, hf, htarget, hlt⟩ := (h.recent_iff peerId).mp hrecent
    obtain ⟨last, hget, hle, -⟩ := h.last f hf peerId htarget
    have := h.waiting peerId hwaiting last hget
    omega
  case isFalse hrecent => exact iff_of_false (fun hnot => hnot ((OrderedSet.mem_add _ _ _).mpr (.inl rfl))) hrecent

/-- A step sends and warns what its label asks for, and calls `publish` when it asks for that. -/
theorem step_sends {l : Label} (hs : s.step interval l = some t) :
    t.messages = s.messages ++ l.sent.toList ∧ t.warnings = s.warnings ++ l.warned.toList ∧
      t.calls.length = s.calls.length + if l.announces then 1 else 0 := by
  cases stepped hs with
  | peerJoined peerId =>
    unfold Announcer.peerJoined
    split <;> simp
  | built data => cases data <;> simp [built, setProgress]
  | announceSelf | flush | stop | tick | buildFailed | published | publishFailed =>
    simp [announceSelf, flush, publish, warn, setProgress]

theorem runLabels_sends {labels : List Label} (hrun : runLabels (step interval) s labels = some t) :
    t.messages = s.messages ++ labels.filterMap Label.sent ∧ t.warnings = s.warnings ++ labels.filterMap Label.warned ∧
      t.calls.length = s.calls.length + labels.countP Label.announces := by
  induction labels generalizing s with
  | nil =>
    obtain rfl := Option.some_inj.mp hrun
    simp
  | cons l rest ih =>
    obtain ⟨u, hu, hrest⟩ := Option.bind_eq_some_iff.mp hrun
    obtain ⟨hmessages, hwarnings, hcalls⟩ := step_sends hu
    obtain ⟨hmessages', hwarnings', hcalls'⟩ := ih hrest
    refine ⟨?_, ?_, ?_⟩
    · rw [hmessages', hmessages, List.append_assoc, List.filterMap_cons]
      cases l.sent <;> rfl
    · rw [hwarnings', hwarnings, List.append_assoc, List.filterMap_cons]
      cases l.warned <;> rfl
    · rw [hcalls', hcalls, List.countP_cons]
      omega

/-- However this peer's own arrival, joins, timers, builds, publishes and a clock that never goes back
interleave, one peer's flushes are an interval apart; every join is answered by one, or waits, and is
passed over exactly when one was for its peer less than an interval ago; a timer is armed while peers
wait; no flush is for nobody; and each flush and own arrival is one call of `publish`, which sends what
its build gave, once, and warns once when it fails. -/
theorem announcer_rate {start : ℕ} {labels : List Label} (h : runLabels (step interval) (create start) labels = some s) :
    Spaced interval s.flushes ∧ (∀ join ∈ s.joins, s.Answered interval join) ∧
      (∀ peerId t, s.step interval (.peerJoined peerId) = some t →
        (peerId ∉ t.joined ↔ ∃ f ∈ s.flushes, peerId ∈ f.targets ∧ s.now < f.time + interval)) ∧
      (s.stopped = false → ∀ peerId ∈ s.joined, s.scheduled = true) ∧ (∀ f ∈ s.flushes, f.targets ≠ []) ∧ s.Sends ∧
      s.messages = labels.filterMap Label.sent ∧ s.warnings = labels.filterMap Label.warned ∧
      s.calls.length = labels.countP Label.announces := by
  have hrun : Run (step interval) (· = create start) anyLabel s := .of_runLabels (.start rfl) (fun _ _ _ => trivial) h
  have hboth : s.Good interval ∧ s.Sends :=
    hrun.invariant (fun _ h0 => h0 ▸ ⟨good_create start, sends_create start⟩) fun _ _ _ hi _ hs => step_invariant hi hs
  obtain ⟨hgood, hsends⟩ := hboth
  obtain ⟨hmessages, hwarnings, hcalls⟩ := runLabels_sends h
  refine ⟨hgood.spaced, fun join hjoin => (hgood.answered join hjoin).2, fun peerId t ht => ?_, hgood.armed, hgood.targets,
    hsends, hmessages, hwarnings, hcalls.trans (Nat.zero_add _)⟩
  obtain rfl := Option.some_inj.mp ht
  exact hgood.passedOver_iff peerId

/-- Two peers join with nothing to announce yet; one joins again within the interval and one after it,
when the publish fails. -/
def joinedAgain : List Label :=
  [.announceSelf, .peerJoined "first", .peerJoined "second", .flush, .built 0 (some [1]), .built 1 none, .published 0,
    .tick 3, .peerJoined "second", .tick 2, .peerJoined "first", .flush, .built 2 (some [2]), .publishFailed 2]

theorem announcer_rate_again : ∃ s, runLabels (step 5) (create 0) joinedAgain = some s ∧
    s.messages = [(0, [1]), (2, [2])] ∧ s.warnings = [2] ∧ s.joins.length = 4 ∧
    Spaced 5 s.flushes ∧ (∀ join ∈ s.joins, s.Answered 5 join) ∧
      (∀ peerId t, s.step 5 (.peerJoined peerId) = some t →
        (peerId ∉ t.joined ↔ ∃ f ∈ s.flushes, peerId ∈ f.targets ∧ s.now < f.time + 5)) ∧
      (s.stopped = false → ∀ peerId ∈ s.joined, s.scheduled = true) ∧ (∀ f ∈ s.flushes, f.targets ≠ []) ∧ s.Sends ∧
      s.messages = joinedAgain.filterMap Label.sent ∧ s.warnings = joinedAgain.filterMap Label.warned ∧
      s.calls.length = joinedAgain.countP Label.announces := by
  obtain ⟨s, hs, hmessages, hwarnings, hjoins⟩ : ∃ s, runLabels (step 5) (create 0) joinedAgain = some s ∧
      s.messages = [(0, [1]), (2, [2])] ∧ s.warnings = [2] ∧ s.joins.length = 4 := ⟨_, rfl, rfl, rfl, rfl⟩
  exact ⟨s, hs, hmessages, hwarnings, hjoins, announcer_rate hs⟩

end Announcer

end RecordNode
