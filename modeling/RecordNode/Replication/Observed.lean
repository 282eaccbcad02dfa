import RecordNode.Replication.Bookkeeping

/-! # A traversal seen from outside

The traversal with its callers and callbacks: what was asked of it, which hashes
`verify` and `on_entry` ran for since the last discard, which fetches a timeout or a
discard settled, and which hashes have landed, a set that only grows. Whatever the
order of its events, the books are kept. Whether it is paused is what its callers asked
for last, whatever the traversal makes of it. -/

namespace RecordNode

open Foundation

namespace Traversal

section Frame
variable {isLanded : Hash → Bool} {t : Traversal}

structure SameFetches (t u : Traversal) : Prop where
  inFlight : u.inFlight = t.inFlight
  fetched : u.fetched = t.fetched
  rejected : u.rejected = t.rejected
  paused : u.paused = t.paused
  nextRecord : u.nextRecord = t.nextRecord

theorem add_sameFetches (hashes : List Hash) : SameFetches t (add isLanded t hashes) := by
  unfold add
  induction hashes generalizing t with
  | nil => exact ⟨rfl, rfl, rfl, rfl, rfl⟩
  | cons hash rest ih =>
    have h : SameFetches t (addHash isLanded t hash) := by
      unfold addHash
      split
      · exact ⟨rfl, rfl, rfl, rfl, rfl⟩
      split
      · exact ⟨rfl, rfl, rfl, rfl, rfl⟩
      split <;> exact ⟨rfl, rfl, rfl, rfl, rfl⟩
    have h' : SameFetches (addHash isLanded t hash) _ := ih
    exact ⟨h'.inFlight.trans h.inFlight, h'.fetched.trans h.fetched, h'.rejected.trans h.rejected,
      h'.paused.trans h.paused, h'.nextRecord.trans h.nextRecord⟩

theorem mem_addHash_enqueued (hash x : Hash) :
    x ∈ (addHash isLanded t hash).enqueued ↔ x ∈ t.enqueued ∨ x = hash ∧ isLanded hash = false := by
  unfold addHash
  split
  case isTrue hl => simp [hl]
  case isFalse hl =>
    simp only [Bool.not_eq_true] at hl
    split
    case isTrue => simp [hl, or_comm]
    case isFalse hold =>
      have hold : hash ∈ t.enqueued := by simpa [OrderedSet.has] using hold
      have hiff : x ∈ t.enqueued ↔ x ∈ t.enqueued ∨ x = hash ∧ isLanded hash = false := by
        constructor
        · exact Or.inl
        · rintro (h | ⟨rfl, -⟩)
          · exact h
          · exact hold
      split <;> exact hiff

theorem mem_add_enqueued (hashes : List Hash) (x : Hash) :
    x ∈ (add isLanded t hashes).enqueued ↔ x ∈ t.enqueued ∨ x ∈ hashes ∧ isLanded x = false := by
  unfold add
  induction hashes generalizing t with
  | nil => simp
  | cons hash rest ih =>
    rw [List.foldl_cons, ih, mem_addHash_enqueued, List.mem_cons]
    by_cases hx : x = hash
    · subst hx
      tauto
    · tauto

end Frame

/-- The traversal, what has landed, and what was seen of it since the last discard. -/
structure Observed where
  traversal : Traversal
  landed : OrderedSet Hash
  /-- The hashes enqueued, by callers and by the entries that came in. -/
  asked : List Hash
  /-- The hashes `verify` ran for. -/
  verified : List Hash
  /-- The hashes `on_entry` ran for. -/
  handed : List Hash
  /-- The fetches a timeout or a discard settled, of all time. -/
  settled : List (Hash × ℕ)
  /-- The last of `pause` and `resume` that was called was `pause`. -/
  held : Bool

namespace Observed

inductive Label where
  | enqueue (hashes : List Hash)
  | pause
  | resume
  | discard
  /-- A fetch comes back, with bytes, with nothing, or with a failure. -/
  | result (hash : Hash) (record : ℕ) (bytes : Option Bytes)
  | timeout (hash : Hash) (record : ℕ)
  /-- The oplog takes these in. -/
  | land (hashes : List Hash)

def create (landed : OrderedSet Hash) : Observed where
  traversal := .create
  landed := landed
  asked := []
  verified := []
  handed := []
  settled := []
  held := false

section Step
variable {T : Type*} (verify : Hash → Bytes → Checked T) (links : T → List Hash) (concurrency : ℕ)

def receiveResult (s : Observed) (hash : Hash) (record : ℕ) (bytes : Option Bytes) : Observed :=
  let landed := s.traversal.result s.landed.has verify links concurrency hash record bytes
  { s with
    traversal := landed.1
    asked := s.asked ++ (landed.2.map links).getD []
    verified := if s.traversal.inFlight.get hash = some record && bytes.isSome then s.verified ++ [hash]
      else s.verified
    handed := if landed.2.isSome then s.handed ++ [hash] else s.handed }

def step (s : Observed) : Label → Option Observed
  | .enqueue hashes => some { s with
      traversal := s.traversal.enqueue s.landed.has concurrency hashes
      asked := s.asked ++ hashes }
  | .pause => some { s with traversal := s.traversal.pause, held := true }
  | .resume => some { s with traversal := s.traversal.resume s.landed.has concurrency, held := false }
  | .discard => some { s with
      traversal := s.traversal.discard
      asked := []
      verified := []
      handed := []
      settled := s.settled ++ s.traversal.inFlight.items }
  | .result hash record bytes => some (s.receiveResult verify links concurrency hash record bytes)
  | .timeout hash record => some { s with
      traversal := s.traversal.timeout s.landed.has concurrency hash record
      settled := if s.traversal.inFlight.get hash = some record then s.settled ++ [(hash, record)] else s.settled }
  | .land hashes => some { s with landed := hashes.foldl OrderedSet.add s.landed }

/-- The states of a traversal that starts empty, whatever has landed by then. -/
def Reached : Observed → Prop :=
  Run (step verify links concurrency) (fun s => ∃ landed, s = create landed) anyLabel

end Step

/-- What holds of an observed traversal at any time. -/
structure Sound (concurrency : ℕ) (s : Observed) : Prop where
  booked : s.traversal.Booked s.landed.has concurrency
  asked : ∀ hash ∈ s.asked, hash ∈ s.traversal.enqueued ∨ s.landed.has hash = true
  verified_nodup : s.verified.Nodup
  verified_iff : ∀ hash, hash ∈ s.verified ↔ s.traversal.Decided hash
  handed_nodup : s.handed.Nodup
  handed_iff : ∀ hash, hash ∈ s.handed ↔ hash ∈ s.traversal.fetched
  stale : ∀ p ∈ s.settled, p.2 < s.traversal.nextRecord ∧ s.traversal.inFlight.get p.1 ≠ some p.2
  paused : s.traversal.paused = s.held

variable {concurrency : ℕ} {s : Observed}

theorem create_sound (landed : OrderedSet Hash) : Sound concurrency (create landed) where
  booked := create_booked
  asked hash h := absurd h List.not_mem_nil
  verified_nodup := List.nodup_nil
  verified_iff hash := by simp [create, Traversal.create, Decided, OrderedMap.has]
  handed_nodup := List.nodup_nil
  handed_iff hash := by simp [create, Traversal.create]
  stale p h := absurd h List.not_mem_nil
  paused := rfl

/-- The pump changes nothing that was observed. -/
theorem Sound.pump (h : Sound concurrency s) :
    Sound concurrency { s with traversal := Traversal.pump s.landed.has concurrency s.traversal } := by
  have p : Pumped s.landed.has s.traversal.queue s.traversal
    (Traversal.pump s.landed.has concurrency s.traversal) := pump_pumped
  refine
    { booked := h.booked.pump
      asked := fun hash hm => p.enqueued ▸ h.asked hash hm
      verified_nodup := h.verified_nodup
      verified_iff := fun hash => ?_
      handed_nodup := h.handed_nodup
      handed_iff := fun hash => p.fetched ▸ h.handed_iff hash
      stale := fun q hq => ?_
      paused := p.paused.trans h.paused }
  · rw [Decided, p.fetched, p.rejected]
    exact h.verified_iff hash
  · obtain ⟨hlt, hne⟩ := h.stale q hq
    refine ⟨lt_of_lt_of_le hlt p.counted, fun hget => ?_⟩
    rcases p.fresh q.1 q.2 hget with hold | ⟨hle, -⟩
    · exact hne hold
    · omega

theorem Sound.add (h : Sound concurrency s) (hashes : List Hash) :
    Sound concurrency { s with
      traversal := Traversal.add s.landed.has s.traversal hashes
      asked := s.asked ++ hashes } := by
  have f : SameFetches s.traversal (Traversal.add s.landed.has s.traversal hashes) := add_sameFetches hashes
  refine
    { booked := h.booked.add hashes
      asked := fun hash hm => ?_
      verified_nodup := h.verified_nodup
      verified_iff := fun hash => ?_
      handed_nodup := h.handed_nodup
      handed_iff := fun hash => f.fetched ▸ h.handed_iff hash
      stale := fun q hq => ?_
      paused := f.paused.trans h.paused }
  · rw [mem_add_enqueued]
    rcases List.mem_append.mp hm with hm | hm
    · exact (h.asked hash hm).imp_left Or.inl
    · cases hl : s.landed.has hash with
      | true => exact Or.inr rfl
      | false => exact Or.inl (Or.inr ⟨hm, rfl⟩)
  · rw [Decided, f.fetched, f.rejected]
    exact h.verified_iff hash
  · rw [f.inFlight, f.nextRecord]
    exact h.stale q hq

/-- A stale record settles nothing. -/
theorem settle_eq_none {t : Traversal} {hash : Hash} {record : ℕ} (h : t.inFlight.get hash ≠ some record) :
    t.settle hash record = none := if_neg h

/-- Taking a fetch out of flight keeps stale records stale. -/
theorem Sound.stale_settle (h : Sound concurrency s) {u : Traversal} {hash : Hash} {record : ℕ}
    (hu : s.traversal.settle hash record = some u) :
    ∀ p ∈ s.settled, p.2 < u.nextRecord ∧ u.inFlight.get p.1 ≠ some p.2 := by
  obtain ⟨-, rfl⟩ := settle_eq_some hu
  intro p hp
  obtain ⟨hlt, hne⟩ := h.stale p hp
  refine ⟨hlt, ?_⟩
  rw [OrderedMap.get_delete]
  split
  · simp
  · exact hne

theorem Sound.giveUp (h : Sound concurrency s) {u : Traversal} {hash : Hash} {record : ℕ}
    (hu : s.traversal.settle hash record = some u) :
    Sound concurrency { s with traversal := { u with unresolved := u.unresolved.add hash } } := by
  have hb := h.booked.giveUp hu
  have hs := h.stale_settle hu
  obtain ⟨-, rfl⟩ := settle_eq_some hu
  exact { h with booked := hb, stale := hs }

/-- `verify` runs: the hash was in flight, so it ran for it the first time. -/
theorem Sound.verified_append (h : Sound concurrency s) {hash : Hash} {record : ℕ}
    (hr : s.traversal.inFlight.get hash = some record) : (s.verified ++ [hash]).Nodup := by
  have hde := (h.booked.flying hash ((OrderedMap.has_iff _ _).mpr ⟨record, hr⟩)).2
  refine List.nodup_append.mpr ⟨h.verified_nodup, by simp, ?_⟩
  rintro x hx y hy rfl
  exact hde ((h.verified_iff x).mp hx |> fun hd => List.mem_singleton.mp hy ▸ hd)

theorem Sound.reject (h : Sound concurrency s) {u : Traversal} {hash : Hash} {record : ℕ}
    (hu : s.traversal.settle hash record = some u) (e : ProtocolError) :
    Sound concurrency { s with
      traversal := { u with unresolved := u.unresolved.delete hash, rejected := u.rejected.set hash e }
      verified := s.verified ++ [hash] } := by
  have hiff : ∀ x, x ∈ u.fetched ∨ (u.rejected.set hash e).has x = true ↔ x = hash ∨ u.Decided x := by
    intro x
    rw [OrderedMap.has_set, Decided]
    tauto
  have hb := h.booked.decide hu hiff
  have hs := h.stale_settle hu
  obtain ⟨hr, rfl⟩ := settle_eq_some hu
  refine { h with booked := hb, stale := hs, verified_nodup := h.verified_append hr, verified_iff := fun x => ?_ }
  rw [List.mem_append, List.mem_singleton, h.verified_iff, or_comm]
  exact (hiff x).symm

theorem Sound.fetch (h : Sound concurrency s) {u : Traversal} {hash : Hash} {record : ℕ}
    (hu : s.traversal.settle hash record = some u) :
    Sound concurrency { s with
      traversal := { u with unresolved := u.unresolved.delete hash, fetched := u.fetched.add hash }
      verified := s.verified ++ [hash]
      handed := s.handed ++ [hash] } := by
  have hiff : ∀ x, x ∈ u.fetched.add hash ∨ u.rejected.has x = true ↔ x = hash ∨ u.Decided x := by
    intro x
    rw [OrderedSet.mem_add, Decided]
    tauto
  have hb := h.booked.decide hu hiff
  have hs := h.stale_settle hu
  obtain ⟨hr, rfl⟩ := settle_eq_some hu
  have hde := (h.booked.flying hash ((OrderedMap.has_iff _ _).mpr ⟨record, hr⟩)).2
  refine
    { h with
      booked := hb
      stale := hs
      verified_nodup := h.verified_append hr
      verified_iff := fun x => ?_
      handed_nodup := ?_
      handed_iff := fun x => ?_ }
  · rw [List.mem_append, List.mem_singleton, h.verified_iff, or_comm]
    exact (hiff x).symm
  · refine List.nodup_append.mpr ⟨h.handed_nodup, by simp, ?_⟩
    rintro x hx y hy rfl
    exact hde (Or.inl (List.mem_singleton.mp hy ▸ (h.handed_iff x).mp hx))
  · rw [List.mem_append, List.mem_singleton, h.handed_iff, OrderedSet.mem_add, or_comm]

section Step
variable {T : Type*} {verify : Hash → Bytes → Checked T} {links : T → List Hash}

/-- A result whose fetch is no longer in flight changes nothing. -/
theorem receiveResult_stale {hash : Hash} {record : ℕ} (h : s.traversal.inFlight.get hash ≠ some record)
    (bytes : Option Bytes) : s.receiveResult verify links concurrency hash record bytes = s := by
  have hr : s.traversal.result s.landed.has verify links concurrency hash record bytes = (s.traversal, none) := by
    rw [Traversal.result, settle_eq_none h]
  simp [receiveResult, hr, h]

theorem Sound.receiveResult (h : Sound concurrency s) (hash : Hash) (record : ℕ) (bytes : Option Bytes) :
    Sound concurrency (s.receiveResult verify links concurrency hash record bytes) := by
  by_cases hr : s.traversal.inFlight.get hash = some record
  case neg => rwa [receiveResult_stale hr]
  case pos =>
    obtain ⟨u, hu⟩ : ∃ u, s.traversal.settle hash record = some u := ⟨_, if_pos hr⟩
    cases bytes with
    | none => simpa [Observed.receiveResult, Traversal.result, hu, hr] using (h.giveUp hu).pump
    | some bytes =>
      cases hv : verify hash bytes with
      | error e => simpa [Observed.receiveResult, Traversal.result, Traversal.land, hu, hr, hv] using (h.reject hu e).pump
      | ok entry =>
        simpa [Observed.receiveResult, Traversal.result, Traversal.land, hu, hr, hv] using
          ((h.fetch hu).add (links entry)).pump

theorem Sound.timeout (h : Sound concurrency s) (hash : Hash) (record : ℕ) :
    Sound concurrency { s with
      traversal := s.traversal.timeout s.landed.has concurrency hash record
      settled := if s.traversal.inFlight.get hash = some record then s.settled ++ [(hash, record)]
        else s.settled } := by
  by_cases hr : s.traversal.inFlight.get hash = some record
  case neg => simpa [Traversal.timeout, settle_eq_none hr, hr] using h
  case pos =>
    obtain ⟨u, hu⟩ : ∃ u, s.traversal.settle hash record = some u := ⟨_, if_pos hr⟩
    have hg := h.giveUp hu
    rw [if_pos hr, Traversal.timeout, hu]
    apply Sound.pump (s := { s with
      traversal := { u with unresolved := u.unresolved.add hash }, settled := s.settled ++ [(hash, record)] })
    refine { hg with stale := fun p hp => ?_ }
    rcases List.mem_append.mp hp with hp | hp
    · exact hg.stale p hp
    · obtain rfl := List.mem_singleton.mp hp
      obtain ⟨-, rfl⟩ := settle_eq_some hu
      exact ⟨h.booked.recorded hash record hr, by simp⟩

theorem Sound.discard (h : Sound concurrency s) :
    Sound concurrency { s with
      traversal := s.traversal.discard
      asked := []
      verified := []
      handed := []
      settled := s.settled ++ s.traversal.inFlight.items } where
  booked := discard_booked
  asked hash hm := absurd hm List.not_mem_nil
  verified_nodup := List.nodup_nil
  verified_iff hash := by simp [Traversal.discard, Decided, OrderedMap.has]
  handed_nodup := List.nodup_nil
  handed_iff hash := by simp [Traversal.discard]
  stale p hp := by
    refine ⟨?_, by simp [Traversal.discard]⟩
    rcases List.mem_append.mp hp with hp | hp
    · exact (h.stale p hp).1
    · exact h.booked.recorded p.1 p.2 ((OrderedMap.get_eq_some_iff _ _ _).mpr hp)
  paused := h.paused

theorem Sound.pause (h : Sound concurrency s) :
    Sound concurrency { s with traversal := s.traversal.pause, held := true } :=
  { h with booked := h.booked.pause, paused := rfl }

theorem Sound.resume (h : Sound concurrency s) :
    Sound concurrency { s with traversal := s.traversal.resume s.landed.has concurrency, held := false } := by
  obtain ⟨v, hv, bv, hen, hfl, hfe, hre, hn, hp⟩ := h.booked.exists_resume
  rw [hv]
  apply Sound.pump (s := { s with traversal := v, held := false })
  refine
    { h with
      booked := bv
      asked := fun hash hm => hen ▸ h.asked hash hm
      verified_iff := fun hash => ?_
      handed_iff := fun hash => hfe ▸ h.handed_iff hash
      stale := fun p hp => ?_
      paused := hp }
  · rw [Decided, hfe, hre]
    exact h.verified_iff hash
  · rw [hn, hfl]
    exact h.stale p hp

theorem Sound.land (h : Sound concurrency s) (hashes : List Hash) :
    Sound concurrency { s with landed := hashes.foldl OrderedSet.add s.landed } := by
  have hl : ∀ hash, s.landed.has hash = true → (hashes.foldl OrderedSet.add s.landed).has hash = true := by
    intro hash hm
    rw [OrderedSet.has_iff] at hm ⊢
    exact (OrderedSet.mem_foldl_add _ _ _).mpr (Or.inr hm)
  exact
    { h with
      booked := h.booked.mono hl
      asked := fun hash hm => (h.asked hash hm).imp_right (hl hash) }

/-- Every event keeps the books. -/
theorem step_sound {l : Label} {s' : Observed} (h : Sound concurrency s)
    (hs : step verify links concurrency s l = some s') : Sound concurrency s' := by
  cases l <;> obtain rfl := Option.some_inj.mp hs
  case enqueue hashes => exact (h.add hashes).pump
  case pause => exact h.pause
  case resume => exact h.resume
  case discard => exact h.discard
  case result hash record bytes => exact h.receiveResult hash record bytes
  case timeout hash record => exact h.timeout hash record
  case land hashes => exact h.land hashes

/-- A fetch that came to nothing is not started again by the pump that follows. -/
theorem Sound.startsClear_giveUp (h : Sound concurrency s) {u : Traversal} {hash : Hash} {record : ℕ}
    (hu : s.traversal.settle hash record = some u) :
    StartsClear s.landed.has s.traversal
      (Traversal.pump s.landed.has concurrency { u with unresolved := u.unresolved.add hash }) := by
  have b := h.booked.giveUp hu
  have hq := b.notFlying_of_settled hu rfl (Or.inl ((OrderedSet.mem_add _ _ _).mpr (Or.inl rfl)))
  obtain ⟨-, rfl⟩ := settle_eq_some hu
  exact StartsClear.pump b rfl hq

/-- Nor is one that came back with bytes. -/
theorem Sound.startsClear_land (h : Sound concurrency s) {u : Traversal} {hash : Hash} {record : ℕ}
    (hu : s.traversal.settle hash record = some u) (bytes : Bytes) :
    StartsClear s.landed.has s.traversal
      (Traversal.pump s.landed.has concurrency (u.land s.landed.has verify links hash bytes).1) := by
  have b : Booked s.landed.has concurrency (u.land s.landed.has verify links hash bytes).1 := h.booked.land hu bytes
  have hland : (u.land s.landed.has verify links hash bytes).1.Decided hash ∧
      (u.land s.landed.has verify links hash bytes).1.inFlight = u.inFlight ∧
      (u.land s.landed.has verify links hash bytes).1.nextRecord = u.nextRecord := by
    unfold Traversal.land
    split
    · exact ⟨Or.inr ((OrderedMap.has_set _ _ _ _).mpr (Or.inl rfl)), rfl, rfl⟩
    case h_2 entry _ =>
      have f : SameFetches { u with unresolved := u.unresolved.delete hash, fetched := u.fetched.add hash }
        (Traversal.add s.landed.has _ (links entry)) := add_sameFetches _
      refine ⟨Or.inl ?_, f.inFlight, f.nextRecord⟩
      rw [f.fetched]
      exact (OrderedSet.mem_add _ _ _).mpr (Or.inl rfl)
  have hq := b.notFlying_of_settled hu hland.2.1 (Or.inr hland.1)
  obtain ⟨-, rfl⟩ := settle_eq_some hu
  exact StartsClear.pump b hland.2.2 hq

/-- Every event starts only fetches that may be started. -/
theorem step_startsClear {l : Label} {s' : Observed} (h : Sound concurrency s)
    (hs : step verify links concurrency s l = some s') :
    StartsClear s'.landed.has s.traversal s'.traversal := by
  have hsame : ∀ (landed : OrderedSet Hash), StartsClear landed.has s.traversal s.traversal :=
    fun _ => StartsClear.of_sub rfl h.booked.recorded
  cases l <;> obtain rfl := Option.some_inj.mp hs
  case enqueue hashes =>
    have f : SameFetches s.traversal (Traversal.add s.landed.has s.traversal hashes) := add_sameFetches hashes
    apply StartsClear.pump (h.booked.add hashes) f.nextRecord
    intro x hx
    rw [← f.inFlight]
    exact ((h.booked.add hashes).queued x hx).2.2.1
  case pause => exact StartsClear.of_sub rfl h.booked.recorded
  case resume =>
    obtain ⟨v, hv, bv, -, hfl, -, -, hn, -⟩ := h.booked.exists_resume
    simp only [hv]
    exact StartsClear.pump bv hn fun x hx => hfl ▸ (bv.queued x hx).2.2.1
  case discard => exact StartsClear.of_sub rfl fun hash record hget => by simp [Traversal.discard] at hget
  case result hash record bytes =>
    by_cases hr : s.traversal.inFlight.get hash = some record
    case neg =>
      rw [receiveResult_stale hr]
      exact hsame _
    case pos =>
      obtain ⟨u, hu⟩ : ∃ u, s.traversal.settle hash record = some u := ⟨_, if_pos hr⟩
      simp only [receiveResult, Traversal.result, hu]
      cases bytes with
      | none => exact h.startsClear_giveUp hu
      | some bytes => exact h.startsClear_land hu bytes
  case timeout hash record =>
    by_cases hr : s.traversal.inFlight.get hash = some record
    case neg =>
      simp only [Traversal.timeout, settle_eq_none hr]
      exact hsame _
    case pos =>
      obtain ⟨u, hu⟩ : ∃ u, s.traversal.settle hash record = some u := ⟨_, if_pos hr⟩
      simp only [Traversal.timeout, hu]
      exact h.startsClear_giveUp hu
  case land hashes => exact hsame _

theorem reached_sound (h : Reached verify links concurrency s) : Sound concurrency s :=
  Run.invariant h (by rintro _ ⟨landed, rfl⟩; exact create_sound landed) fun _ _ _ hs _ => step_sound hs

/-- The traversal's bookkeeping, at every state of every run: the fetches in flight are bounded,
no hash asked for is lost, `verify` and `on_entry` ran at most once for each hash since the last
discard, a step starts only fetches that may be started, and none between a `pause` and the next
`resume`, and a result that comes after its fetch was settled by a timeout or a discard changes
nothing. -/
theorem traversal_bookkeeping (h : Reached verify links concurrency s) :
    s.traversal.inFlight.size ≤ concurrency ∧
      (∀ hash ∈ s.asked, s.traversal.Placed s.landed.has hash) ∧
      s.verified.Nodup ∧ s.handed.Nodup ∧
      (∀ l s', step verify links concurrency s l = some s' →
        StartsClear s'.landed.has s.traversal s'.traversal ∧
          (s'.held = true → ∀ hash record, ¬ Starts s.traversal s'.traversal hash record)) ∧
      ∀ p ∈ s.settled, ∀ bytes, step verify links concurrency s (.result p.1 p.2 bytes) = some s := by
  have k := reached_sound h
  refine ⟨k.booked.bounded, fun hash hm => ?_, k.verified_nodup, k.handed_nodup,
    fun l s' hs => ⟨step_startsClear k hs, fun hheld hash record hstarts => ?_⟩, fun p hp bytes => ?_⟩
  · rcases k.asked hash hm with hm | hl
    · exact k.booked.placed hash hm
    · simp [Placed, hl]
  · have hpaused := ((step_startsClear k hs).clear hash record hstarts).1
    rw [(step_sound k hs).paused, hheld] at hpaused
    cases hpaused
  · rw [step, receiveResult_stale (k.stale p hp).2]

end Step

/-- Every hash verifies but `b`. -/
def verifyButB (hash : Hash) (_ : Bytes) : Checked Hash :=
  if hash = "b" then .error ⟨.invalidShape, "b"⟩ else .ok hash

/-- `a` comes in during a pause, `b` is rejected, `c` times out and `d` is discarded; after that
`b` is fetched again, and paused. -/
def everyEvent : List Label :=
  [.enqueue ["a", "b", "c"], .pause, .result "a" 0 (some []), .resume, .result "b" 1 (some []), .enqueue ["d"],
    .timeout "c" 2, .discard, .enqueue ["b", "e"], .result "b" 4 (some []), .pause]

theorem traversal_bookkeeping_late : ∃ s : Observed,
    Reached verifyButB (fun _ => []) 2 s ∧ s.settled = [("c", 2), ("d", 3)] ∧ s.verified = ["b"] ∧ s.handed = [] ∧
      s.traversal.inFlight.items = [("e", 5)] ∧
      (∀ s', step verifyButB (fun _ => []) 2 s (.enqueue ["f"]) = some s' →
        ∀ hash record, ¬ Starts s.traversal s'.traversal hash record) ∧
      ∀ bytes, step verifyButB (fun _ => []) 2 s (.result "c" 2 bytes) = some s := by
  obtain ⟨s, hs, hsettled, hverified, hhanded, hflight, hheld⟩ : ∃ s : Observed,
      runLabels (step verifyButB (fun _ => []) 2) (create .empty) everyEvent = some s ∧ s.settled = [("c", 2), ("d", 3)] ∧
        s.verified = ["b"] ∧ s.handed = [] ∧ s.traversal.inFlight.items = [("e", 5)] ∧ s.held = true :=
    ⟨_, rfl, rfl, rfl, rfl, rfl, rfl⟩
  have hrun : Reached verifyButB (fun _ => []) 2 s :=
    Run.of_runLabels (.start ⟨.empty, rfl⟩) (fun _ _ _ => trivial) hs
  obtain ⟨-, -, -, -, hstarts, hlate⟩ := traversal_bookkeeping hrun
  refine ⟨s, hrun, hsettled, hverified, hhanded, hflight, fun s' hs' => (hstarts _ s' hs').2 ?_, fun bytes => ?_⟩
  · obtain rfl := Option.some_inj.mp hs'
    exact hheld
  · exact hlate ("c", 2) (hsettled ▸ List.mem_cons_self) bytes

end Observed

end Traversal

end RecordNode
