import Mathlib.Logic.Basic

/-! # Runs of a machine

A machine takes labelled steps; a label that is not enabled has no successor. A
run takes enabled steps that a guard allows, one after the other. Whatever the
guard allows, an invariant of the steps holds along the run. -/

namespace RecordNode
namespace Foundation

variable {State Label : Type*}

/-- The states a machine comes to from the initial ones by allowed steps. -/
inductive Run (step : State → Label → Option State) (initial : State → Prop)
    (allowed : State → Label → Prop) : State → Prop
  | start {s : State} (h : initial s) : Run step initial allowed s
  | next {s t : State} (l : Label) (h : Run step initial allowed s) (hl : allowed s l)
      (hs : step s l = some t) : Run step initial allowed t

/-- Every label is allowed everywhere. -/
def anyLabel (_ : State) (_ : Label) : Prop := True

namespace Run

variable {step : State → Label → Option State} {initial : State → Prop}
  {allowed : State → Label → Prop} {s t : State}

/-- The invariant rule. -/
theorem invariant {I : State → Prop} (h : Run step initial allowed s) (h0 : ∀ s, initial s → I s)
    (hstep : ∀ s l t, I s → allowed s l → step s l = some t → I t) : I s := by
  induction h with
  | start h => exact h0 _ h
  | next l _ hl hs ih => exact hstep _ l _ ih hl hs

theorem mono {weaker : State → Label → Prop} (h : Run step initial allowed s)
    (hw : ∀ s l, allowed s l → weaker s l) : Run step initial weaker s :=
  h.invariant (fun _ h => .start h) fun _ l _ ih hl hs => .next l ih (hw _ l hl) hs

theorem any (h : Run step initial allowed s) : Run step initial anyLabel s :=
  h.mono fun _ _ _ => trivial

end Run

/-- The state after a list of labels, when each is enabled where it is taken. -/
def runLabels (step : State → Label → Option State) (s : State) : List Label → Option State
  | [] => some s
  | l :: rest => (step s l).bind fun t => runLabels step t rest

theorem runLabels_cons {step : State → Label → Option State} {s t : State} {l : Label}
    (hs : step s l = some t) (rest : List Label) :
    runLabels step s (l :: rest) = runLabels step t rest := by
  rw [runLabels, hs, Option.bind_some]

/-- A list of enabled labels, each allowed wherever it is taken, is a run. -/
theorem Run.of_runLabels {step : State → Label → Option State} {initial : State → Prop}
    {allowed : State → Label → Prop} {s t : State} (h : Run step initial allowed s) {labels : List Label}
    (hl : ∀ l ∈ labels, ∀ s, allowed s l) (hrun : runLabels step s labels = some t) :
    Run step initial allowed t := by
  induction labels generalizing s with
  | nil => exact Option.some_inj.mp hrun ▸ h
  | cons l rest ih =>
    obtain ⟨r, hr, hrest⟩ := Option.bind_eq_some_iff.mp hrun
    exact ih (.next l h (hl l List.mem_cons_self s) hr) (fun m hm => hl m (List.mem_cons_of_mem _ hm)) hrest

end Foundation
end RecordNode
