import RecordNode.Foundation.Run
import RecordNode.Replication.Lifecycle

/-! # How often heads are published

The publisher beside the timers' clock. A trigger arms a timer for the moment the interval
since the last flush is over, and a flush chains a send. The interval is kept between
flushes; a send begins when the one before it is out, so it is kept between sends as well
in every run in which no flush meets a send under way. A flush that does can always be
followed by two sends that begin within one interval. -/

namespace RecordNode

open Foundation

structure TimedPublisher where
  publisher : HeadsPublisher
  now : ℕ
  /-- When the last flush was; none before the first. -/
  lastSent : Option ℕ
  /-- When the armed timer is due. -/
  due : ℕ
  /-- When each send began, the last first. -/
  begun : List ℕ

namespace TimedPublisher

inductive Label
  | trigger
  /-- The timer fires, at its time or later. -/
  | flush
  | pause
  | resume
  /-- The send under way publishes its next message; one that begins reads these heads. -/
  | publish (heads : List Hash)
  /-- The last message of the send under way is out. -/
  | sent
  | tick (ms : ℕ)

/-- A send can begin: promise continuations run before the clock moves on. -/
def begins (s : TimedPublisher) : Bool := s.publisher.sending.head? matches some none

variable (interval : ℕ)

/-- The delay of the timer a trigger arms. -/
def delay (s : TimedPublisher) : ℕ :=
  match s.lastSent with
  | none => 0
  | some t => t + interval - s.now

def step (s : TimedPublisher) : Label → Option TimedPublisher
  | .trigger =>
    if s.publisher.paused || s.publisher.scheduled then some s
    else some { s with publisher := s.publisher.trigger, due := s.now + s.delay interval }
  | .flush =>
    if s.publisher.scheduled && s.due ≤ s.now then
      some { s with
        publisher := s.publisher.flush
        lastSent := if s.publisher.paused then s.lastSent else some s.now }
    else none
  | .pause => some { s with publisher := s.publisher.pause }
  | .resume => some { s with publisher := s.publisher.resume }
  | .publish heads => (s.publisher.publish heads).map fun sent =>
      { s with publisher := sent.1, begun := if s.begins then s.now :: s.begun else s.begun }
  | .sent => s.publisher.sent.map fun p => { s with publisher := p }
  | .tick ms => if s.begins then none else some { s with now := s.now + ms }

/-- A publisher as it is created. -/
def Initial (s : TimedPublisher) : Prop := s.publisher = .create ∧ s.lastSent = none ∧ s.begun = []

/-- A flush finds every send before it out. -/
def Prompt (s : TimedPublisher) : Label → Prop
  | .flush => s.publisher.paused = true ∨ s.publisher.sending = []
  | _ => True

/-- Any two sends begin an interval apart. -/
def Spaced (begun : List ℕ) : Prop := begun.Pairwise fun later earlier => earlier + interval ≤ later

variable {interval} {s t : TimedPublisher}

/-! ## Prompt runs -/

variable (interval) in
/-- The chain holds one send at most, one that has not begun was flushed just now, and flushes are spaced. -/
structure Rated (s : TimedPublisher) : Prop where
  chain : s.publisher.sending = [] ∨ (∃ left, s.publisher.sending = [some left]) ∨
    s.publisher.sending = [none] ∧ s.lastSent = some s.now
  flushed : ∀ b ∈ s.begun, ∃ t, s.lastSent = some t ∧ b ≤ t ∧ (s.publisher.sending = [none] → b + interval ≤ t)
  due : s.publisher.scheduled = true → ∀ t, s.lastSent = some t → t + interval ≤ s.due
  spaced : Spaced interval s.begun

theorem initial_rated (h : Initial s) : Rated interval s := by
  obtain ⟨hp, hl, hb⟩ := h
  refine ⟨Or.inl (by rw [hp]; rfl), by simp [hb], by simp [hl], ?_⟩
  rw [hb]
  exact List.Pairwise.nil

theorem Rated.trigger (r : Rated interval s) (hs : step interval s .trigger = some t) : Rated interval t := by
  rw [step] at hs
  split at hs
  case isTrue => exact Option.some_inj.mp hs ▸ r
  case isFalse hidle =>
    obtain rfl := Option.some_inj.mp hs
    have hsending : s.publisher.trigger.sending = s.publisher.sending := by
      unfold HeadsPublisher.trigger
      split <;> rfl
    refine ⟨hsending ▸ r.chain, hsending ▸ r.flushed, fun _ t ht => ?_, r.spaced⟩
    simp only at ht
    simp only [delay, ht]
    omega

theorem Rated.flush (r : Rated interval s) (hp : Prompt s .flush) (hs : step interval s .flush = some t) :
    Rated interval t := by
  rw [step] at hs
  split at hs
  case isFalse => cases hs
  case isTrue hdue =>
    obtain rfl := Option.some_inj.mp hs
    simp only [Bool.and_eq_true, decide_eq_true_eq] at hdue
    cases hpaused : s.publisher.paused with
    | true =>
      simp only [HeadsPublisher.flush, hpaused, if_true]
      exact ⟨r.chain, r.flushed, by simp, r.spaced⟩
    | false =>
      have hempty : s.publisher.sending = [] := hp.resolve_left (by simp [hpaused])
      simp only [HeadsPublisher.flush, hpaused, Bool.false_eq_true, if_false, hempty, List.nil_append]
      refine ⟨Or.inr (Or.inr ⟨rfl, rfl⟩), fun b hb => ?_, by simp, r.spaced⟩
      obtain ⟨t, ht, hbt, -⟩ := r.flushed b hb
      have := r.due hdue.1 t ht
      exact ⟨s.now, rfl, by omega, fun _ => by omega⟩

theorem Rated.publish {heads : List Hash} (r : Rated interval s) (hs : step interval s (.publish heads) = some t) :
    Rated interval t := by
  obtain ⟨⟨p, data⟩, hpub, rfl⟩ := Option.map_eq_some_iff.mp hs
  unfold HeadsPublisher.publish at hpub
  rcases r.chain with h | ⟨left, h⟩ | ⟨h, hnow⟩
  · simp [h] at hpub
  · simp only [h, Option.getD_some] at hpub
    cases left with
    | nil => simp at hpub
    | cons first left =>
      obtain ⟨rfl, -⟩ := Prod.mk.inj (Option.some_inj.mp hpub)
      have hbegins : s.begins = false := by simp [begins, h]
      simp only [hbegins, Bool.false_eq_true, if_false]
      refine ⟨Or.inr (Or.inl ⟨left, rfl⟩), fun b hb => ?_, r.due, r.spaced⟩
      obtain ⟨t, ht, hbt, -⟩ := r.flushed b hb
      exact ⟨t, ht, hbt, by simp⟩
  · -- the send begins at the moment of its flush
    simp only [h, Option.getD_none] at hpub
    split at hpub
    case h_1 => cases hpub
    case h_2 first left _ =>
      obtain ⟨rfl, -⟩ := Prod.mk.inj (Option.some_inj.mp hpub)
      have hbegins : s.begins = true := by simp [begins, h]
      simp only [hbegins, if_true]
      refine ⟨Or.inr (Or.inl ⟨left, rfl⟩), fun b hb => ⟨s.now, hnow, ?_, by simp⟩, r.due, ?_⟩
      · rcases List.mem_cons.mp hb with rfl | hb
        · exact Nat.le_refl _
        · obtain ⟨t, ht, hbt, -⟩ := r.flushed b hb
          obtain rfl := Option.some_inj.mp (ht.symm.trans hnow)
          exact hbt
      · refine List.pairwise_cons.mpr ⟨fun b hb => ?_, r.spaced⟩
        obtain ⟨t, ht, -, hwait⟩ := r.flushed b hb
        obtain rfl := Option.some_inj.mp (ht.symm.trans hnow)
        exact hwait h

theorem Rated.sent (r : Rated interval s) (hs : step interval s .sent = some t) : Rated interval t := by
  obtain ⟨p, hsent, rfl⟩ := Option.map_eq_some_iff.mp hs
  unfold HeadsPublisher.sent at hsent
  split at hsent
  case h_2 => cases hsent
  case h_1 rest hrest =>
    obtain rfl := Option.some_inj.mp hsent
    have hnil : rest = [] := by
      rcases r.chain with h | ⟨left, h⟩ | ⟨h, -⟩
      · simp [h] at hrest
      · rw [h] at hrest
        exact (List.cons.inj hrest).2.symm
      · simp [h] at hrest
    refine ⟨Or.inl hnil, fun b hb => ?_, r.due, r.spaced⟩
    obtain ⟨t, ht, hbt, -⟩ := r.flushed b hb
    exact ⟨t, ht, hbt, by simp [hnil]⟩

theorem Rated.tick {ms : ℕ} (r : Rated interval s) (hs : step interval s (.tick ms) = some t) : Rated interval t := by
  rw [step] at hs
  split at hs
  case isTrue => cases hs
  case isFalse hbegins =>
    obtain rfl := Option.some_inj.mp hs
    refine ⟨?_, r.flushed, r.due, r.spaced⟩
    rcases r.chain with h | h | ⟨h, -⟩
    · exact Or.inl h
    · exact Or.inr (Or.inl h)
    · simp [begins, h] at hbegins

theorem Rated.step {l : Label} (r : Rated interval s) (hp : Prompt s l) (hs : step interval s l = some t) :
    Rated interval t := by
  cases l with
  | trigger => exact r.trigger hs
  | flush => exact r.flush hp hs
  | pause =>
    obtain rfl := Option.some_inj.mp hs
    exact ⟨r.chain, r.flushed, by simp [HeadsPublisher.pause], r.spaced⟩
  | resume =>
    obtain rfl := Option.some_inj.mp hs
    exact ⟨r.chain, r.flushed, r.due, r.spaced⟩
  | publish heads => exact r.publish hs
  | sent => exact r.sent hs
  | tick ms => exact r.tick hs

/-! ## Working off the chain -/

theorem encodeHeadsBatches_ne_nil (heads : List Hash) (maxBytes : ℕ) : encodeHeadsBatches heads maxBytes ≠ [] := by
  intro h
  have hlength := congrArg List.length h
  rw [encodeHeadsBatches, List.length_mapIdx] at hlength
  exact splitHeads_ne_nil _ _ _ _ _ (List.length_eq_zero_iff.mp hlength)

section Draining
variable {initial : TimedPublisher → Prop} {allowed : TimedPublisher → Label → Prop}
  (hpublish : ∀ s heads, allowed s (.publish heads)) (hsent : ∀ s, allowed s .sent)
include hpublish hsent

/-- A send under way can be out at once. -/
theorem exists_run_begun (left : List Bytes) {rest : List (Option (List Bytes))}
    (hr : Run (step interval) initial allowed s) (h : s.publisher.sending = some left :: rest) :
    Run (step interval) initial allowed { s with publisher := { s.publisher with sending := rest } } := by
  induction left generalizing s with
  | nil => exact .next .sent hr (hsent s) (by simp [step, HeadsPublisher.sent, h])
  | cons first left ih =>
    have hbegins : s.begins = false := by simp [begins, h]
    have hnext : Run (step interval) initial allowed
        { s with publisher := { s.publisher with sending := some left :: rest } } :=
      .next (.publish []) hr (hpublish s []) (by simp [step, HeadsPublisher.publish, h, hbegins])
    have hdone := ih hnext rfl
    exact hdone

/-- So can the whole chain; what has not begun begins now. -/
theorem exists_run_drained (chain : List (Option (List Bytes))) (hr : Run (step interval) initial allowed s)
    (h : s.publisher.sending = chain) :
    Run (step interval) initial allowed { s with
      publisher := { s.publisher with sending := [] }
      begun := List.replicate (chain.countP Option.isNone) s.now ++ s.begun } := by
  induction chain generalizing s with
  | nil =>
    obtain ⟨⟨paused, scheduled, sending⟩, now, lastSent, due, begun⟩ := s
    obtain rfl : sending = [] := h
    exact hr
  | cons send rest ih =>
    cases send with
    | some left =>
      have hnext := exists_run_begun hpublish hsent left hr h
      have hdone := ih hnext rfl
      exact hdone
    | none =>
      have hbegins : s.begins = true := by simp [begins, h]
      obtain ⟨first, left, hbatches⟩ := List.exists_cons_of_ne_nil (encodeHeadsBatches_ne_nil [] networkMessageMaxBytes)
      have hnext : Run (step interval) initial allowed { s with
          publisher := { s.publisher with sending := some left :: rest }, begun := s.now :: s.begun } :=
        .next (.publish []) hr (hpublish s []) (by simp [step, HeadsPublisher.publish, h, hbegins, hbatches])
      have hdone := ih (exists_run_begun hpublish hsent left hnext rfl) rfl
      have hcount : List.replicate ((none :: rest).countP Option.isNone) s.now ++ s.begun =
          List.replicate (rest.countP Option.isNone) s.now ++ s.now :: s.begun := by
        rw [List.countP_cons_of_pos (by rfl), List.replicate_succ', List.append_assoc, List.singleton_append]
      rw [hcount]
      exact hdone

end Draining

/-! ## A flush that meets a send under way -/

/-- After a flush behind a send that has begun, the send that waits begins late, and the next flush does not. -/
theorem overrun_of_begun (hi : 0 < interval) {now due : ℕ} {begun : List ℕ} {left : List Bytes}
    {rest : List (Option (List Bytes))} :
    ∃ u, Run (step interval) (· = ⟨⟨false, false, some left :: (rest ++ [none])⟩, now, some now, due, begun⟩) anyLabel u ∧
      ¬ Spaced interval u.begun := by
  obtain ⟨machine, hmachine⟩ : ∃ R, R = Run (step interval)
    (· = ⟨⟨false, false, some left :: (rest ++ [none])⟩, now, some now, due, begun⟩) anyLabel := ⟨_, rfl⟩
  have h1 : machine ⟨⟨false, false, some left :: (rest ++ [none])⟩, now + 1, some now, due, begun⟩ := by
    rw [hmachine]
    exact .next (.tick 1) (.start rfl) trivial (by simp [step, begins])
  -- the chain is worked off a moment later, and the last of it begins then
  obtain ⟨earlier, h2⟩ : ∃ earlier,
      machine ⟨⟨false, false, []⟩, now + 1, some now, due, (now + 1) :: earlier⟩ := by
    rw [hmachine] at h1 ⊢
    have hdrained := exists_run_drained (fun _ _ => trivial) (fun _ => trivial) _ h1 rfl
    simp only [List.countP_cons, List.countP_append, List.countP_nil, Option.isNone_some, Option.isNone_none,
      Bool.false_eq_true, if_false, if_true, Nat.add_zero, Nat.zero_add, List.replicate_succ, List.cons_append] at hdrained
    exact ⟨_, hdrained⟩
  have h3 : machine ⟨⟨false, true, []⟩, now + 1, some now, now + interval, (now + 1) :: earlier⟩ := by
    rw [hmachine] at h2 ⊢
    have hdelay : now + 1 + (now + interval - (now + 1)) = now + interval := by omega
    exact .next .trigger h2 trivial (by simp [step, HeadsPublisher.trigger, delay, hdelay])
  have h4 : machine ⟨⟨false, true, []⟩, now + interval, some now, now + interval, (now + 1) :: earlier⟩ := by
    rw [hmachine] at h3 ⊢
    have hnow : now + 1 + (interval - 1) = now + interval := by omega
    exact .next (.tick (interval - 1)) h3 trivial (by simp [step, begins, hnow])
  have h5 : machine ⟨⟨false, false, [none]⟩, now + interval, some (now + interval), now + interval,
      (now + 1) :: earlier⟩ := by
    rw [hmachine] at h4 ⊢
    exact .next .flush h4 trivial (by simp [step, HeadsPublisher.flush])
  rw [hmachine] at h5
  refine ⟨_, exists_run_drained (fun _ _ => trivial) (fun _ => trivial) _ h5 rfl, fun hspaced => ?_⟩
  have hgap : now + 1 + interval ≤ now + interval := List.rel_of_pairwise_cons hspaced List.mem_cons_self
  omega

/-- Two sends of a chain that have not begun begin together. -/
theorem overrun_of_waiting (hi : 0 < interval) {now due : ℕ} {lastSent : Option ℕ} {begun : List ℕ}
    {rest : List (Option (List Bytes))} :
    ∃ u, Run (step interval) (· = ⟨⟨false, false, none :: (rest ++ [none])⟩, now, lastSent, due, begun⟩) anyLabel u ∧
      ¬ Spaced interval u.begun := by
  refine ⟨_, exists_run_drained (fun _ _ => trivial) (fun _ => trivial) _ (.start rfl) rfl, fun hspaced => ?_⟩
  simp only [List.countP_cons, List.countP_append, List.countP_nil, Option.isNone_none, if_true, Nat.zero_add,
    List.replicate_succ, List.cons_append] at hspaced
  have hgap := List.rel_of_pairwise_cons hspaced List.mem_cons_self
  omega

/-- Whatever came before, a flush that meets a send under way can be followed by sends too close. -/
theorem overrun (hi : 0 < interval) (hflush : step interval s .flush = some t) (hlate : ¬ Prompt s .flush) :
    ∃ u, Run (step interval) (· = t) anyLabel u ∧ ¬ Spaced interval u.begun := by
  obtain ⟨⟨paused, scheduled, sending⟩, now, lastSent, due, begun⟩ := s
  simp only [Prompt, not_or, Bool.not_eq_true] at hlate
  obtain ⟨rfl, hbusy⟩ := hlate
  rw [step] at hflush
  split at hflush
  case isFalse => cases hflush
  case isTrue =>
    obtain rfl := Option.some_inj.mp hflush
    obtain ⟨send, rest, rfl⟩ := List.exists_cons_of_ne_nil hbusy
    cases send with
    | some left => exact overrun_of_begun hi
    | none => exact overrun_of_waiting hi

/-- In every run in which no flush meets a send under way, any two sends begin an interval apart; and a flush
that meets one can always be followed by two sends that do not. -/
theorem heads_publication_rate (interval : ℕ) :
    (∀ s, Run (step interval) Initial Prompt s → Spaced interval s.begun) ∧
      ∀ s t, 0 < interval → Run (step interval) Initial anyLabel s → step interval s .flush = some t →
        ¬ Prompt s .flush → ∃ u, Run (step interval) (· = t) anyLabel u ∧ ¬ Spaced interval u.begun := by
  refine ⟨fun s hr => ?_, fun s t hi _ hflush hlate => overrun hi hflush hlate⟩
  have hrated : Rated interval s :=
    hr.invariant (fun s h => initial_rated h) fun s l t r hp hs => r.step hp hs
  exact hrated.spaced

namespace Sample

/-- Time passes from here while a send is under way. -/
theorem run_first (allowed : TimedPublisher → Label → Prop) (hother : ∀ s l, l ≠ .flush → allowed s l)
    (hflush : ∀ now due, allowed ⟨⟨false, true, []⟩, now, none, due, []⟩ .flush) :
    ∃ left, Run (step 1000) Initial allowed ⟨⟨false, false, [some left]⟩, 0, some 0, 0, [0]⟩ := by
  have h0 : Run (step 1000) Initial allowed ⟨.create, 0, none, 0, []⟩ := .start ⟨rfl, rfl, rfl⟩
  have h1 : Run (step 1000) Initial allowed ⟨⟨false, true, []⟩, 0, none, 0, []⟩ :=
    .next .trigger h0 (hother _ _ (by simp)) rfl
  have h2 : Run (step 1000) Initial allowed ⟨⟨false, false, [none]⟩, 0, some 0, 0, []⟩ :=
    .next .flush h1 (hflush 0 0) rfl
  obtain ⟨first, left, hbatches⟩ := List.exists_cons_of_ne_nil (encodeHeadsBatches_ne_nil [] networkMessageMaxBytes)
  exact ⟨left, .next (.publish []) h2 (hother _ _ (by simp)) (by simp [step, HeadsPublisher.publish, begins, hbatches])⟩

end Sample

/-- Two sends a second apart. -/
theorem heads_publication_rate_two :
    ∃ s, Run (step 1000) Initial Prompt s ∧ s.begun = [1000, 0] ∧ Spaced 1000 s.begun := by
  have hother : ∀ s l, l ≠ .flush → Prompt s l := by
    intro s l hl
    cases l with
    | flush => exact absurd rfl hl
    | _ => trivial
  obtain ⟨left, h1⟩ := Sample.run_first Prompt hother fun _ _ => Or.inr rfl
  have h2 := exists_run_begun (fun _ _ => trivial) (fun _ => trivial) left h1 rfl
  have h3 : Run (step 1000) Initial Prompt ⟨⟨false, true, []⟩, 0, some 0, 1000, [0]⟩ := .next .trigger h2 trivial rfl
  have h4 : Run (step 1000) Initial Prompt ⟨⟨false, true, []⟩, 1000, some 0, 1000, [0]⟩ :=
    .next (.tick 1000) h3 trivial rfl
  have h5 : Run (step 1000) Initial Prompt ⟨⟨false, false, [none]⟩, 1000, some 1000, 1000, [0]⟩ :=
    .next .flush h4 (Or.inr rfl) rfl
  have h6 := exists_run_drained (fun _ _ => trivial) (fun _ => trivial) _ h5 rfl
  exact ⟨_, h6, rfl, (heads_publication_rate 1000).1 _ h6⟩

/-- A first send takes a second and a half. The second, flushed after one second, begins then, and the third half
a second later. -/
theorem heads_publications_too_close : ∃ s, Run (step 1000) Initial anyLabel s ∧ s.begun = [2000, 1500, 0] ∧
    ¬ Spaced 1000 s.begun := by
  obtain ⟨left, h1⟩ := Sample.run_first anyLabel (fun _ _ _ => trivial) fun _ _ => trivial
  have h2 : Run (step 1000) Initial anyLabel ⟨⟨false, true, [some left]⟩, 0, some 0, 1000, [0]⟩ :=
    .next .trigger h1 trivial rfl
  have h3 : Run (step 1000) Initial anyLabel ⟨⟨false, true, [some left]⟩, 1000, some 0, 1000, [0]⟩ :=
    .next (.tick 1000) h2 trivial rfl
  have h4 : Run (step 1000) Initial anyLabel ⟨⟨false, false, [some left, none]⟩, 1000, some 1000, 1000, [0]⟩ :=
    .next .flush h3 trivial rfl
  have h5 : Run (step 1000) Initial anyLabel ⟨⟨false, false, [some left, none]⟩, 1500, some 1000, 1000, [0]⟩ :=
    .next (.tick 500) h4 trivial rfl
  have h6 : Run (step 1000) Initial anyLabel ⟨⟨false, false, []⟩, 1500, some 1000, 1000, [1500, 0]⟩ :=
    exists_run_drained (fun _ _ => trivial) (fun _ => trivial) _ h5 rfl
  have h7 : Run (step 1000) Initial anyLabel ⟨⟨false, true, []⟩, 1500, some 1000, 2000, [1500, 0]⟩ :=
    .next .trigger h6 trivial rfl
  have h8 : Run (step 1000) Initial anyLabel ⟨⟨false, true, []⟩, 2000, some 1000, 2000, [1500, 0]⟩ :=
    .next (.tick 500) h7 trivial rfl
  have h9 : Run (step 1000) Initial anyLabel ⟨⟨false, false, [none]⟩, 2000, some 2000, 2000, [1500, 0]⟩ :=
    .next .flush h8 trivial rfl
  have h10 : Run (step 1000) Initial anyLabel ⟨⟨false, false, []⟩, 2000, some 2000, 2000, [2000, 1500, 0]⟩ :=
    exists_run_drained (fun _ _ => trivial) (fun _ => trivial) _ h9 rfl
  exact ⟨_, h10, rfl, by simp [Spaced]⟩

end TimedPublisher

end RecordNode
