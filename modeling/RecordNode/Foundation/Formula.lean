import Mathlib.Data.List.Basic
import Mathlib.Tactic.Common

/-! # Boolean formulas under two valuations

Formulas over atoms, evaluated twice: under a valuation one trusts, and under another that
agrees with it on the atoms known to be right. The known atoms may decide a formula whatever
the others say, and then both valuations agree on it. Where the other atoms are all wrong
the same way and are all negated equally often, up to parity, nothing else makes them agree. -/

namespace RecordNode.Foundation

inductive Formula (α : Type*) where
  | atom (a : α)
  | top
  | bot
  | and (f g : Formula α)
  | or (f g : Formula α)
  | not (f : Formula α)

namespace Formula

variable {α : Type*}

def eval (v : α → Bool) : Formula α → Bool
  | .atom a => v a
  | .top => true
  | .bot => false
  | .and f g => f.eval v && g.eval v
  | .or f g => f.eval v || g.eval v
  | .not f => !f.eval v

def conj (formulas : List (Formula α)) : Formula α := formulas.foldr .and .top

def disj (formulas : List (Formula α)) : Formula α := formulas.foldr .or .bot

@[simp] theorem eval_conj (v : α → Bool) (formulas : List (Formula α)) :
    (conj formulas).eval v = formulas.all (eval v) := by
  induction formulas with
  | nil => rfl
  | cons f rest ih => simp only [conj, List.foldr_cons, eval, List.all_cons] at ih ⊢; rw [ih]

@[simp] theorem eval_disj (v : α → Bool) (formulas : List (Formula α)) :
    (disj formulas).eval v = formulas.any (eval v) := by
  induction formulas with
  | nil => rfl
  | cons f rest ih => simp only [disj, List.foldr_cons, eval, List.any_cons] at ih ⊢; rw [ih]

def atoms : Formula α → List α
  | .atom a => [a]
  | .top | .bot => []
  | .and f g | .or f g => f.atoms ++ g.atoms
  | .not f => f.atoms

/-- The atoms under an even number of negations, or those under an odd number. -/
def sided : Formula α → Bool → List α
  | .atom a, even => if even then [a] else []
  | .top, _ | .bot, _ => []
  | .and f g, even | .or f g, even => f.sided even ++ g.sided even
  | .not f, even => f.sided (!even)

/-! ## What the known atoms decide -/

variable {known : α → Prop} {v w : α → Bool}

/-- The known atoms decide the formula: a conjunction also by one part that fails, a disjunction by
one that holds. -/
def Decided (known : α → Prop) (v : α → Bool) : Formula α → Prop
  | .atom a => known a
  | .top | .bot => True
  | .and f g => (f.Decided known v ∧ g.Decided known v) ∨ (f.Decided known v ∧ f.eval v = false) ∨
      (g.Decided known v ∧ g.eval v = false)
  | .or f g => (f.Decided known v ∧ g.Decided known v) ∨ (f.Decided known v ∧ f.eval v = true) ∨
      (g.Decided known v ∧ g.eval v = true)
  | .not f => f.Decided known v

instance decDecided [DecidablePred known] : (f : Formula α) → Decidable (f.Decided known v)
  | .atom a => inferInstanceAs (Decidable (known a))
  | .top | .bot => inferInstanceAs (Decidable True)
  | .and f g =>
    have := decDecided f
    have := decDecided g
    inferInstanceAs (Decidable ((f.Decided known v ∧ g.Decided known v) ∨ (f.Decided known v ∧ f.eval v = false) ∨
      (g.Decided known v ∧ g.eval v = false)))
  | .or f g =>
    have := decDecided f
    have := decDecided g
    inferInstanceAs (Decidable ((f.Decided known v ∧ g.Decided known v) ∨ (f.Decided known v ∧ f.eval v = true) ∨
      (g.Decided known v ∧ g.eval v = true)))
  | .not f => decDecided f

theorem eval_eq_of_decided (hknown : ∀ a, known a → w a = v a) {f : Formula α} (h : f.Decided known v) :
    f.eval w = f.eval v := by
  induction f with
  | atom a => exact hknown a h
  | top | bot => rfl
  | and f g ihf ihg =>
    simp only [eval]
    obtain ⟨hf, hg⟩ | ⟨hf, hfalse⟩ | ⟨hg, hfalse⟩ := h
    · rw [ihf hf, ihg hg]
    · rw [ihf hf, hfalse, Bool.false_and, Bool.false_and]
    · rw [ihg hg, hfalse, Bool.and_false, Bool.and_false]
  | or f g ihf ihg =>
    simp only [eval]
    obtain ⟨hf, hg⟩ | ⟨hf, htrue⟩ | ⟨hg, htrue⟩ := h
    · rw [ihf hf, ihg hg]
    · rw [ihf hf, htrue, Bool.true_or, Bool.true_or]
    · rw [ihg hg, htrue, Bool.or_true, Bool.or_true]
  | not f ih =>
    simp only [eval]
    rw [ih h]

/-- Undecided, a formula follows its unknown atoms: where all of these are wrongly taken to hold and
sit on one side, it is wrong on that side. -/
theorem eval_of_not_decided {f : Formula α} (hknown : ∀ a, known a → w a = v a)
    (hunknown : ∀ a ∈ f.atoms, ¬ known a → v a = false ∧ w a = true) (even : Bool)
    (hside : ∀ a ∈ f.sided (!even), known a) (h : ¬ f.Decided known v) : f.eval v = !even ∧ f.eval w = even := by
  induction f generalizing even with
  | atom a =>
    cases even with
    | true => simpa [eval] using hunknown a (by simp [atoms]) h
    | false => exact absurd (hside a (by simp [sided])) h
  | top | bot => exact absurd trivial h
  | and f g ihf ihg =>
    simp only [sided, atoms, List.mem_append] at hside hunknown
    have ihf := ihf (fun a ha => hunknown a (.inl ha)) even fun a ha => hside a (.inl ha)
    have ihg := ihg (fun a ha => hunknown a (.inr ha)) even fun a ha => hside a (.inr ha)
    simp only [Decided, not_or, not_and, Bool.not_eq_false] at h
    obtain ⟨hboth, hf, hg⟩ := h
    simp only [eval]
    -- A known part does not fail, since that would decide the whole.
    by_cases hdf : f.Decided known v
    · obtain ⟨hv, hw⟩ := ihg (hboth hdf)
      rw [eval_eq_of_decided hknown hdf, hf hdf, hv, hw, Bool.true_and, Bool.true_and]
      exact ⟨rfl, rfl⟩
    · obtain ⟨hv, hw⟩ := ihf hdf
      by_cases hdg : g.Decided known v
      · rw [eval_eq_of_decided hknown hdg, hg hdg, hv, hw, Bool.and_true, Bool.and_true]
        exact ⟨rfl, rfl⟩
      · obtain ⟨hv', hw'⟩ := ihg hdg
        rw [hv, hw, hv', hw', Bool.and_self, Bool.and_self]
        exact ⟨rfl, rfl⟩
  | or f g ihf ihg =>
    simp only [sided, atoms, List.mem_append] at hside hunknown
    have ihf := ihf (fun a ha => hunknown a (.inl ha)) even fun a ha => hside a (.inl ha)
    have ihg := ihg (fun a ha => hunknown a (.inr ha)) even fun a ha => hside a (.inr ha)
    simp only [Decided, not_or, not_and, Bool.not_eq_true] at h
    obtain ⟨hboth, hf, hg⟩ := h
    simp only [eval]
    -- A known part does not hold, since that would decide the whole.
    by_cases hdf : f.Decided known v
    · obtain ⟨hv, hw⟩ := ihg (hboth hdf)
      rw [eval_eq_of_decided hknown hdf, hf hdf, hv, hw, Bool.false_or, Bool.false_or]
      exact ⟨rfl, rfl⟩
    · obtain ⟨hv, hw⟩ := ihf hdf
      by_cases hdg : g.Decided known v
      · rw [eval_eq_of_decided hknown hdg, hg hdg, hv, hw, Bool.or_false, Bool.or_false]
        exact ⟨rfl, rfl⟩
      · obtain ⟨hv', hw'⟩ := ihg hdg
        rw [hv, hw, hv', hw', Bool.or_self, Bool.or_self]
        exact ⟨rfl, rfl⟩
  | not f ih =>
    obtain ⟨hv, hw⟩ := ih hunknown (!even) (by simpa only [sided, Bool.not_not] using hside) h
    simp [eval, hv, hw]

/-- Where the unknown atoms are all wrong and sit on one side, the two valuations agree on a formula
exactly when the known atoms decide it. -/
theorem eval_eq_iff_decided {f : Formula α} (hknown : ∀ a, known a → w a = v a)
    (hunknown : ∀ a ∈ f.atoms, ¬ known a → v a = false ∧ w a = true)
    (hside : ∃ even, ∀ a ∈ f.sided even, known a) : f.eval w = f.eval v ↔ f.Decided known v := by
  refine ⟨fun heq => ?_, eval_eq_of_decided hknown⟩
  by_contra h
  obtain ⟨even, hside⟩ := hside
  obtain ⟨hv, hw⟩ := eval_of_not_decided hknown hunknown (!even) (by rwa [Bool.not_not]) h
  rw [hv, hw] at heq
  cases even <;> simp at heq

end Formula

end RecordNode.Foundation
