import RecordNode.Foundation.Run
import RecordNode.Replication.Traversal

/-! # Where a traversal keeps its hashes

A hash moves between the queue, the fetches in flight and the unresolved, fetched
and rejected ones. One invariant says which of these exclude each other and that
no hash falls between them; every operation keeps it. The observed traversal adds
what its callers and callbacks saw since the last discard. -/

namespace RecordNode

open Foundation

namespace Traversal

/-- The hash was verified: fetched or rejected. -/
def Decided (t : Traversal) (hash : Hash) : Prop := hash ∈ t.fetched ∨ t.rejected.has hash = true

def Placed (isLanded : Hash → Bool) (t : Traversal) (hash : Hash) : Prop :=
  hash ∈ t.queue ∨ t.inFlight.has hash = true ∨ hash ∈ t.unresolved ∨ hash ∈ t.fetched ∨
    t.rejected.has hash = true ∨ isLanded hash = true

structure Booked (isLanded : Hash → Bool) (concurrency : ℕ) (t : Traversal) : Prop where
  bounded : t.inFlight.size ≤ concurrency
  queue_nodup : t.queue.Nodup
  queued : ∀ hash ∈ t.queue, hash ∈ t.enqueued ∧ hash ∉ t.unresolved ∧ t.inFlight.has hash = false ∧
    ¬ t.Decided hash
  flying : ∀ hash, t.inFlight.has hash = true → hash ∈ t.enqueued ∧ ¬ t.Decided hash
  waiting : ∀ hash ∈ t.unresolved, hash ∈ t.enqueued ∧ ¬ t.Decided hash
  decided : ∀ hash, t.Decided hash → hash ∈ t.enqueued
  placed : ∀ hash ∈ t.enqueued, t.Placed isLanded hash
  recorded : ∀ hash record, t.inFlight.get hash = some record → record < t.nextRecord

variable {isLanded : Hash → Bool} {concurrency : ℕ} {t : Traversal}

theorem create_booked : Booked isLanded concurrency create where
  bounded := Nat.zero_le _
  queue_nodup := List.nodup_nil
  queued hash h := absurd h List.not_mem_nil
  flying hash h := by simp [create, OrderedMap.has] at h
  waiting hash h := absurd h (OrderedSet.mem_empty hash)
  decided hash h := by simp [create, Decided, OrderedMap.has] at h
  placed hash h := absurd h (OrderedSet.mem_empty hash)
  recorded hash record h := by simp [create] at h

/-- What has landed may grow at any time. -/
theorem Booked.mono (b : Booked isLanded concurrency t) {later : Hash → Bool}
    (hl : ∀ hash, isLanded hash = true → later hash = true) : Booked later concurrency t :=
  { b with
    placed := fun hash h => by
      have hp := b.placed hash h
      simp only [Placed] at hp ⊢
      have := hl hash
      tauto }

/-! ## Each operation keeps the books -/

theorem Booked.start (b : Booked isLanded concurrency t) {hash : Hash} {rest : List Hash}
    (hq : t.queue = hash :: rest) (hroom : t.inFlight.size < concurrency) :
    Booked isLanded concurrency { t.start hash with queue := rest } := by
  have hmem : hash ∈ t.queue := hq ▸ List.mem_cons_self
  obtain ⟨hen, hun, hfl, hde⟩ := b.queued hash hmem
  have hnd := b.queue_nodup
  rw [hq, List.nodup_cons] at hnd
  have hhas := t.inFlight.has_set hash t.nextRecord
  refine
    { bounded := ?_
      queue_nodup := hnd.2
      queued := fun x hx => ?_
      flying := fun x hx => ?_
      waiting := b.waiting
      decided := b.decided
      placed := fun x hx => ?_
      recorded := fun x record hx => ?_ }
  · exact (t.inFlight.size_set_le hash t.nextRecord).trans hroom
  · obtain ⟨h1, h2, h3, h4⟩ := b.queued x (hq ▸ List.mem_cons_of_mem _ hx)
    have hne : x ≠ hash := fun h => hnd.1 (h ▸ hx)
    refine ⟨h1, h2, ?_, h4⟩
    rw [Bool.eq_false_iff, ne_eq, Traversal.start, hhas]
    simp [hne, h3]
  · rcases (hhas x).mp hx with rfl | hx
    · exact ⟨hen, hde⟩
    · exact b.flying x hx
  · have hp := b.placed x hx
    simp only [Placed, Traversal.start, hhas, hq, List.mem_cons] at hp ⊢
    grind
  · simp only [Traversal.start, OrderedMap.get_set] at hx ⊢
    split at hx
    · have := Option.some_inj.mp hx
      omega
    · have := b.recorded x record hx
      omega

/-- A hash that needs no fetch any more leaves the queue. -/
theorem Booked.skip (b : Booked isLanded concurrency t) {hash : Hash} {rest : List Hash}
    (hq : t.queue = hash :: rest) (hl : isLanded hash = true) :
    Booked isLanded concurrency { t with queue := rest } := by
  have hnd := b.queue_nodup
  rw [hq, List.nodup_cons] at hnd
  refine
    { b with
      queue_nodup := hnd.2
      queued := fun x hx => b.queued x (hq ▸ List.mem_cons_of_mem _ hx)
      placed := fun x hx => ?_ }
  have hp := b.placed x hx
  simp only [Placed, hq, List.mem_cons] at hp ⊢
  rcases hp with (rfl | hp) | hp
  · grind
  · exact Or.inl hp
  · exact Or.inr hp

theorem Booked.pumpQueue {queue : List Hash} (b : Booked isLanded concurrency { t with queue := queue }) :
    Booked isLanded concurrency (pumpQueue isLanded concurrency t queue) := by
  induction queue generalizing t with
  | nil => exact b
  | cons hash rest ih =>
    obtain ⟨-, -, hfl, hde⟩ := b.queued hash List.mem_cons_self
    rw [Traversal.pumpQueue]
    split
    case isTrue hroom =>
      split
      case isTrue => exact ih (b.start rfl hroom)
      case isFalse hskip =>
        apply ih
        apply b.skip rfl
        simp only [Bool.and_eq_true, Bool.not_eq_true', not_and, Bool.not_eq_false] at hskip
        by_contra hl
        have hnot : t.fetched.has hash = false := Bool.eq_false_iff.mpr fun h => hde (Or.inl ((OrderedSet.has_iff _ _).mp h))
        have := hskip ⟨Bool.eq_false_iff.mpr hl, hnot⟩
        exact absurd (this.symm.trans hfl) (by simp)
    case isFalse => exact b

theorem Booked.pump (b : Booked isLanded concurrency t) : Booked isLanded concurrency (pump isLanded concurrency t) := by
  unfold Traversal.pump
  split
  · exact b
  · exact Booked.pumpQueue b

theorem Booked.addHash (b : Booked isLanded concurrency t) (hash : Hash) :
    Booked isLanded concurrency (addHash isLanded t hash) := by
  unfold Traversal.addHash
  split
  · exact b
  split
  case isTrue hnew =>
    have hout : hash ∉ t.enqueued := by simpa [OrderedSet.has] using hnew
    have hq : hash ∉ t.queue := fun h => hout (b.queued hash h).1
    have hde : ¬ t.Decided hash := fun h => hout (b.decided hash h)
    have hfl : t.inFlight.has hash = false := Bool.eq_false_iff.mpr fun h => hout (b.flying hash h).1
    refine
      { bounded := b.bounded
        queue_nodup := ?_
        queued := fun x hx => ?_
        flying := fun x hx => ⟨(OrderedSet.mem_add _ _ _).mpr (Or.inr (b.flying x hx).1), (b.flying x hx).2⟩
        waiting := fun x hx => ⟨(OrderedSet.mem_add _ _ _).mpr (Or.inr (b.waiting x hx).1), (b.waiting x hx).2⟩
        decided := fun x hx => (OrderedSet.mem_add _ _ _).mpr (Or.inr (b.decided x hx))
        placed := fun x hx => ?_
        recorded := b.recorded }
    · exact List.nodup_append.mpr ⟨b.queue_nodup, by simp, by grind⟩
    · rcases List.mem_append.mp hx with hx | hx
      · obtain ⟨h1, h2⟩ := b.queued x hx
        exact ⟨(OrderedSet.mem_add _ _ _).mpr (Or.inr h1), h2⟩
      · obtain rfl := List.mem_singleton.mp hx
        exact ⟨(OrderedSet.mem_add _ _ _).mpr (Or.inl rfl), fun h => hout (b.waiting x h).1, hfl, hde⟩
    · simp only [Placed, List.mem_append, List.mem_singleton]
      rcases (OrderedSet.mem_add _ _ _).mp hx with rfl | hx
      · grind
      · have hp := b.placed x hx
        simp only [Placed] at hp
        grind
  split
  case isTrue hretry =>
    simp only [Bool.and_eq_true, OrderedSet.has_iff, Bool.not_eq_true'] at hretry
    have hw := b.waiting hash hretry.1
    have hq : hash ∉ t.queue := fun h => (b.queued hash h).2.1 hretry.1
    refine
      { bounded := b.bounded
        queue_nodup := ?_
        queued := fun x hx => ?_
        flying := b.flying
        waiting := fun x hx => b.waiting x ((OrderedSet.mem_delete _ _ _).mp hx).1
        decided := b.decided
        placed := fun x hx => ?_
        recorded := b.recorded }
    · exact List.nodup_append.mpr ⟨b.queue_nodup, by simp, by grind⟩
    · rcases List.mem_append.mp hx with hx | hx
      · obtain ⟨h1, h2, h3⟩ := b.queued x hx
        exact ⟨h1, fun h => h2 ((OrderedSet.mem_delete _ _ _).mp h).1, h3⟩
      · obtain rfl := List.mem_singleton.mp hx
        exact ⟨hw.1, fun h => ((OrderedSet.mem_delete _ _ _).mp h).2 rfl, hretry.2, hw.2⟩
    · have hp := b.placed x hx
      simp only [Placed, List.mem_append, List.mem_singleton, OrderedSet.mem_delete] at hp ⊢
      by_cases hxh : x = hash <;> grind
  · exact b

theorem Booked.add (b : Booked isLanded concurrency t) (hashes : List Hash) :
    Booked isLanded concurrency (add isLanded t hashes) := by
  unfold Traversal.add
  induction hashes generalizing t with
  | nil => exact b
  | cons hash rest ih => exact ih (b.addHash hash)

theorem settle_eq_some {u : Traversal} {hash : Hash} {record : ℕ} (h : t.settle hash record = some u) :
    t.inFlight.get hash = some record ∧ u = { t with inFlight := t.inFlight.delete hash } := by
  unfold settle at h
  split at h
  case isTrue hr => exact ⟨hr, (Option.some_inj.mp h).symm⟩
  case isFalse => simp at h

/-- A fetch that came to nothing leaves its hash unresolved. -/
theorem Booked.giveUp (b : Booked isLanded concurrency t) {u : Traversal} {hash : Hash} {record : ℕ}
    (h : t.settle hash record = some u) :
    Booked isLanded concurrency { u with unresolved := u.unresolved.add hash } := by
  obtain ⟨hr, rfl⟩ := settle_eq_some h
  have hfl := b.flying hash ((t.inFlight.has_iff hash).mpr ⟨record, hr⟩)
  have hdel := t.inFlight.has_delete hash
  refine
    { bounded := (t.inFlight.size_delete_le hash).trans b.bounded
      queue_nodup := b.queue_nodup
      queued := fun x hx => ?_
      flying := fun x hx => b.flying x ((hdel x).mp hx).1
      waiting := fun x hx => ?_
      decided := b.decided
      placed := fun x hx => ?_
      recorded := fun x r hx => ?_ }
  · obtain ⟨h1, h2, h3, h4⟩ := b.queued x hx
    have hne : x ≠ hash := by
      rintro rfl
      simp [OrderedMap.has, hr] at h3
    refine ⟨h1, ?_, ?_, h4⟩
    · rw [OrderedSet.mem_add]
      tauto
    · rw [Bool.eq_false_iff, ne_eq, hdel]
      simp [h3]
  · rcases (OrderedSet.mem_add _ _ _).mp hx with rfl | hx
    · exact hfl
    · exact b.waiting x hx
  · have hp := b.placed x hx
    simp only [Placed, hdel, OrderedSet.mem_add] at hp ⊢
    by_cases hxh : x = hash <;> grind
  · simp only [OrderedMap.get_delete] at hx
    split at hx
    · simp at hx
    · exact b.recorded x r hx

/-- A verified fetch decides its hash, one way or the other. -/
theorem Booked.decide (b : Booked isLanded concurrency t) {u : Traversal} {hash : Hash} {record : ℕ}
    (h : t.settle hash record = some u) {fetched : OrderedSet Hash} {rejected : OrderedMap Hash ProtocolError}
    (hf : ∀ x, x ∈ fetched ∨ rejected.has x = true ↔ x = hash ∨ u.Decided x) :
    Booked isLanded concurrency
      { u with unresolved := u.unresolved.delete hash, fetched := fetched, rejected := rejected } := by
  obtain ⟨hr, rfl⟩ := settle_eq_some h
  have hfl := b.flying hash ((t.inFlight.has_iff hash).mpr ⟨record, hr⟩)
  have hdel := t.inFlight.has_delete hash
  refine
    { bounded := (t.inFlight.size_delete_le hash).trans b.bounded
      queue_nodup := b.queue_nodup
      queued := fun x hx => ?_
      flying := fun x hx => ?_
      waiting := fun x hx => ?_
      decided := fun x hx => ?_
      placed := fun x hx => ?_
      recorded := fun x r hx => ?_ }
  · obtain ⟨h1, h2, h3, h4⟩ := b.queued x hx
    have hne : x ≠ hash := by
      rintro rfl
      simp [OrderedMap.has, hr] at h3
    refine ⟨h1, fun hm => h2 ((OrderedSet.mem_delete _ _ _).mp hm).1, ?_, fun hd => ?_⟩
    · rw [Bool.eq_false_iff, ne_eq, hdel]
      simp [h3]
    · exact ((hf x).mp hd).elim hne h4
  · obtain ⟨hx, hne⟩ := (hdel x).mp hx
    exact ⟨(b.flying x hx).1, fun hd => ((hf x).mp hd).elim hne (b.flying x hx).2⟩
  · obtain ⟨hx, hne⟩ := (OrderedSet.mem_delete _ _ _).mp hx
    exact ⟨(b.waiting x hx).1, fun hd => ((hf x).mp hd).elim hne (b.waiting x hx).2⟩
  · rcases (hf x).mp hx with rfl | hx
    · exact hfl.1
    · exact b.decided x hx
  · have hp := b.placed x hx
    have hfx := hf x
    simp only [Placed, Decided, hdel, OrderedSet.mem_delete] at hp hfx ⊢
    by_cases hxh : x = hash <;> grind
  · simp only [OrderedMap.get_delete] at hx
    split at hx
    · simp at hx
    · exact b.recorded x r hx

section Land
variable {T : Type*} {verify : Hash → Bytes → Checked T} {links : T → List Hash}

/-- Right after a fetch settled with bytes its hash is decided, and the books are kept. -/
theorem Booked.land (b : Booked isLanded concurrency t) {u : Traversal} {hash : Hash} {record : ℕ}
    (h : t.settle hash record = some u) (bytes : Bytes) :
    Booked isLanded concurrency (u.land isLanded verify links hash bytes).1 := by
  unfold Traversal.land
  split
  · apply b.decide h
    intro x
    rw [OrderedMap.has_set, Decided]
    tauto
  · apply Booked.add
    apply b.decide h
    intro x
    rw [OrderedSet.mem_add, Decided]
    tauto

end Land

theorem mem_pause_unresolved (x : Hash) :
    x ∈ t.pause.unresolved ↔ t.inFlight.has x = true ∨ x ∈ t.unresolved := by
  rw [pause, OrderedSet.mem_foldl_add, OrderedMap.mem_keys_iff, OrderedMap.has_iff]

theorem Booked.pause (b : Booked isLanded concurrency t) : Booked isLanded concurrency t.pause where
  bounded := b.bounded
  queue_nodup := b.queue_nodup
  queued x hx := by
    obtain ⟨h1, h2, h3, h4⟩ := b.queued x hx
    refine ⟨h1, ?_, h3, h4⟩
    rw [mem_pause_unresolved]
    simp [h2, h3]
  flying := b.flying
  waiting x hx := by
    rcases mem_pause_unresolved x |>.mp hx with hx | hx
    · exact b.flying x hx
    · exact b.waiting x hx
  decided := b.decided
  placed x hx := by
    have hp := b.placed x hx
    simp only [Placed, mem_pause_unresolved] at hp ⊢
    tauto
  recorded := b.recorded

/-- The unresolved hashes that stay worth a retry. -/
theorem mem_foldl_landed (l : List Hash) (s : OrderedSet Hash) (x : Hash) :
    x ∈ l.foldl (fun s hash => if isLanded hash then s.delete hash else s) s ↔
      x ∈ s ∧ ¬ (x ∈ l ∧ isLanded x = true) := by
  induction l generalizing s with
  | nil => simp
  | cons hash rest ih =>
    rw [List.foldl_cons, ih, List.mem_cons]
    by_cases hl : isLanded hash = true
    · simp only [if_pos hl, OrderedSet.mem_delete]
      by_cases hx : x = hash
      · simp [hx, hl]
      · simp [hx]
    · simp only [if_neg hl]
      by_cases hx : x = hash
      · simp [hx, hl]
      · simp [hx]

/-- A resume queues what is worth a retry and then pumps. -/
theorem Booked.exists_resume (b : Booked isLanded concurrency t) :
    ∃ v, t.resume isLanded concurrency = Traversal.pump isLanded concurrency v ∧
      Booked isLanded concurrency v ∧ v.enqueued = t.enqueued ∧ v.inFlight = t.inFlight ∧
      v.fetched = t.fetched ∧ v.rejected = t.rejected ∧ v.nextRecord = t.nextRecord ∧ v.paused = false := by
  unfold Traversal.resume
  extract_lets unresolved retry
  have hun : ∀ x, x ∈ unresolved ↔ x ∈ t.unresolved ∧ isLanded x = false := by
    intro x
    rw [mem_foldl_landed, OrderedSet.mem_items]
    cases isLanded x <;> simp
  have hretry : ∀ x, x ∈ retry ↔ x ∈ unresolved ∧ t.inFlight.has x = false := by
    intro x
    rw [List.mem_filter, OrderedSet.mem_items, Bool.not_eq_true']
  have hleft : ∀ x, x ∈ retry.foldl OrderedSet.delete unresolved ↔ x ∈ unresolved ∧ t.inFlight.has x = true := by
    intro x
    rw [OrderedSet.mem_foldl_delete, hretry]
    cases t.inFlight.has x <;> simp
  have hqueue : ∀ x, x ∈ retry ++ t.queue.filter (fun hash => !retry.contains hash) ↔ x ∈ retry ∨ x ∈ t.queue := by
    intro x
    simp only [List.mem_append, List.mem_filter, Bool.not_eq_true', List.contains_eq_mem, decide_eq_false_iff_not]
    tauto
  refine ⟨_, rfl, ?_, rfl, rfl, rfl, rfl, rfl, rfl⟩
  refine
    { bounded := b.bounded
      queue_nodup := ?_
      queued := fun x hx => ?_
      flying := b.flying
      waiting := fun x hx => b.waiting x ((hun x).mp ((hleft x).mp hx).1).1
      decided := b.decided
      placed := fun x hx => ?_
      recorded := b.recorded }
  · refine List.nodup_append.mpr ⟨unresolved.nodup.filter _, b.queue_nodup.filter _, ?_⟩
    rintro x hx y hy rfl
    simp [hx] at hy
  · rcases (hqueue x).mp hx with hx | hx
    · obtain ⟨hu, hf⟩ := (hretry x).mp hx
      obtain ⟨h1, h2⟩ := b.waiting x ((hun x).mp hu).1
      refine ⟨h1, ?_, hf, h2⟩
      rw [hleft, hf]
      simp
    · obtain ⟨h1, h2, h3, h4⟩ := b.queued x hx
      exact ⟨h1, fun h => h2 ((hun x).mp ((hleft x).mp h).1).1, h3, h4⟩
  · have hp := b.placed x hx
    have hl : isLanded x = true ∨ isLanded x = false := by cases isLanded x <;> simp
    have hf : t.inFlight.has x = true ∨ t.inFlight.has x = false := by cases t.inFlight.has x <;> simp
    simp only [Placed, hqueue, hleft, hretry, hun] at hp ⊢
    grind

theorem discard_booked : Booked isLanded concurrency t.discard := by
  have b : Booked isLanded concurrency create := create_booked
  exact { b with recorded := fun hash record h => by simp [discard] at h }

/-! ## Which fetches a step starts -/

/-- What the pump did with `queue`: it started fetches under new records, each for a queued
hash that was neither landed nor in flight, and touched nothing else. -/
structure Pumped (isLanded : Hash → Bool) (queue : List Hash) (t u : Traversal) : Prop where
  enqueued : u.enqueued = t.enqueued
  unresolved : u.unresolved = t.unresolved
  fetched : u.fetched = t.fetched
  rejected : u.rejected = t.rejected
  paused : u.paused = t.paused
  counted : t.nextRecord ≤ u.nextRecord
  kept : ∀ hash record, t.inFlight.get hash = some record → u.inFlight.get hash = some record
  fresh : ∀ hash record, u.inFlight.get hash = some record → t.inFlight.get hash = some record ∨
    t.nextRecord ≤ record ∧ hash ∈ queue ∧ isLanded hash = false
  every : ∀ record, t.nextRecord ≤ record → record < u.nextRecord → ∃ hash, u.inFlight.get hash = some record

theorem Pumped.rfl (queue rest : List Hash) : Pumped isLanded queue t { t with queue := rest } where
  enqueued := Eq.refl _
  unresolved := Eq.refl _
  fetched := Eq.refl _
  rejected := Eq.refl _
  paused := Eq.refl _
  counted := Nat.le_refl _
  kept _ _ h := h
  fresh _ _ h := Or.inl h
  every _ h h' := absurd h (Nat.not_le.mpr h')

theorem Pumped.cons {u : Traversal} {hash : Hash} {rest : List Hash} (hl : isLanded hash = false)
    (hn : t.inFlight.get hash = none) (h : Pumped isLanded rest (t.start hash) u) :
    Pumped isLanded (hash :: rest) t u where
  enqueued := h.enqueued
  unresolved := h.unresolved
  fetched := h.fetched
  rejected := h.rejected
  paused := h.paused
  counted := (Nat.le_succ _).trans h.counted
  kept x record hx := by
    have hne : x ≠ hash := by
      rintro rfl
      simp [hn] at hx
    exact h.kept x record (by simpa [start, hne] using hx)
  fresh x record hx := by
    rcases h.fresh x record hx with hx | ⟨hle, hm, hxl⟩
    · simp only [start, OrderedMap.get_set] at hx
      split at hx
      case isTrue hxh =>
        have := Option.some_inj.mp hx
        exact Or.inr ⟨by omega, hxh ▸ List.mem_cons_self, hxh ▸ hl⟩
      case isFalse => exact Or.inl hx
    · simp only [start] at hle
      exact Or.inr ⟨by omega, List.mem_cons_of_mem _ hm, hxl⟩
  every record hle hlt := by
    rcases Nat.eq_or_lt_of_le hle with heq | hlt'
    · exact ⟨hash, h.kept hash record (by simp [start, heq])⟩
    · exact h.every record hlt' hlt

theorem Pumped.weaken {u : Traversal} {hash : Hash} {rest : List Hash} (h : Pumped isLanded rest t u) :
    Pumped isLanded (hash :: rest) t u :=
  { h with
    fresh := fun x record hx =>
      (h.fresh x record hx).imp_right fun ⟨hle, hm, hl⟩ => ⟨hle, List.mem_cons_of_mem _ hm, hl⟩ }

theorem pumpQueue_pumped (queue : List Hash) :
    Pumped isLanded queue t (pumpQueue isLanded concurrency t queue) := by
  induction queue generalizing t with
  | nil => exact Pumped.rfl _ _
  | cons hash rest ih =>
    rw [pumpQueue]
    split
    · split
      case isTrue hgo =>
        simp only [Bool.and_eq_true, Bool.not_eq_true', OrderedMap.has, Option.isSome_eq_false_iff,
          Option.isNone_iff_eq_none] at hgo
        exact ih.cons hgo.1.1 hgo.2
      case isFalse => exact ih.weaken
    · exact Pumped.rfl _ _

theorem pump_pumped : Pumped isLanded t.queue t (pump isLanded concurrency t) := by
  unfold pump
  split
  · exact Pumped.rfl _ _
  · exact pumpQueue_pumped _

/-- The step from `t` to `u` started a fetch of `hash`: its record was not handed out before. -/
def Starts (t u : Traversal) (hash : Hash) (record : ℕ) : Prop :=
  t.nextRecord ≤ record ∧ u.inFlight.get hash = some record

/-- Every record handed out between `t` and `u` is a fetch in flight, and each is for a hash
that may be fetched. -/
structure StartsClear (isLanded : Hash → Bool) (t u : Traversal) : Prop where
  every : ∀ record, t.nextRecord ≤ record → record < u.nextRecord → ∃ hash, Starts t u hash record
  clear : ∀ hash record, Starts t u hash record → u.paused = false ∧ isLanded hash = false ∧
    hash ∉ u.fetched ∧ u.rejected.has hash = false ∧ t.inFlight.has hash = false

/-- A step that hands out no record starts nothing. -/
theorem StartsClear.of_sub {u : Traversal} (hn : u.nextRecord = t.nextRecord)
    (hr : ∀ hash record, u.inFlight.get hash = some record → record < t.nextRecord) :
    StartsClear isLanded t u where
  every record hle hlt := by omega
  clear hash record h := by
    have := hr hash record h.2
    have := h.1
    omega

theorem StartsClear.pump {v : Traversal} (b : Booked isLanded concurrency v)
    (hn : v.nextRecord = t.nextRecord) (hq : ∀ hash ∈ v.queue, t.inFlight.has hash = false) :
    StartsClear isLanded t (pump isLanded concurrency v) := by
  have p : Pumped isLanded v.queue v (Traversal.pump isLanded concurrency v) := pump_pumped
  constructor
  · intro record hle hlt
    obtain ⟨hash, h⟩ := p.every record (hn ▸ hle) hlt
    exact ⟨hash, hle, h⟩
  · rintro hash record ⟨hle, hget⟩
    have hpaused : v.paused = false := by
      by_contra hp
      have hp : v.paused = true := by simpa using hp
      simp only [Traversal.pump, hp, if_true] at hget
      have := b.recorded hash record hget
      omega
    rcases p.fresh hash record hget with hold | ⟨-, hm, hl⟩
    · have := b.recorded hash record hold
      omega
    · have hde := (b.queued hash hm).2.2.2
      rw [p.fetched, p.rejected, p.paused]
      refine ⟨hpaused, hl, fun h => hde (Or.inl h), ?_, hq hash hm⟩
      exact Bool.eq_false_iff.mpr fun h => hde (Or.inr h)

/-- Once a fetch has settled, its hash is not in the queue, so the pump does not start it again. -/
theorem Booked.notFlying_of_settled {u v : Traversal} {hash : Hash} {record : ℕ}
    (hs : t.settle hash record = some u) (b : Booked isLanded concurrency v)
    (hfl : v.inFlight = u.inFlight) (hout : hash ∈ v.unresolved ∨ v.Decided hash) :
    ∀ x ∈ v.queue, t.inFlight.has x = false := by
  intro x hx
  obtain ⟨-, rfl⟩ := settle_eq_some hs
  obtain ⟨-, h2, h3, h4⟩ := b.queued x hx
  have hne : x ≠ hash := by
    rintro rfl
    exact hout.elim h2 h4
  rw [hfl, Bool.eq_false_iff, ne_eq, OrderedMap.has_delete] at h3
  rw [Bool.eq_false_iff]
  exact fun h => h3 ⟨h, hne⟩

end Traversal

end RecordNode
