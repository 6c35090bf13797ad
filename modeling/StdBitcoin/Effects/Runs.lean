import Mathlib.Logic.Basic

/-!
# Runs and refinement

The runs of a labelled transition system, and the rule by which a relation that every
step preserves relates whole runs.
-/

namespace Effects

variable {σ ρ Label : Type}

/-- Label by label from one state to another. -/
inductive Runs (step : Label → σ → σ → Prop) : List Label → σ → σ → Prop where
  | nil (s : σ) : Runs step [] s s
  | cons {label : Label} {labels : List Label} {s middle s' : σ} (first : step label s middle)
      (rest : Runs step labels middle s') : Runs step (label :: labels) s s'

namespace Runs

variable {step : Label → σ → σ → Prop} {refStep : Label → ρ → ρ → Prop}

/-- What every step preserves holds at the end of every run. -/
theorem preserves {holds : σ → Prop}
    (preserved : ∀ label s s', holds s → step label s s' → holds s') {labels : List Label}
    {s s' : σ} (run : Runs step labels s s') (start : holds s) : holds s' := by
  induction run with
  | nil => exact start
  | cons first _ ih => exact ih (preserved _ _ _ start first)

/-- Steps of a smaller system are steps of a larger one. -/
theorem mono {step' : Label → σ → σ → Prop}
    (weaker : ∀ label s s', step label s s' → step' label s s') {labels : List Label} {s s' : σ}
    (run : Runs step labels s s') : Runs step' labels s s' := by
  induction run with
  | nil s => exact .nil s
  | cons first _ ih => exact .cons (weaker _ _ _ first) ih

/-- A relation that the steps of the reference follow relates the ends of the runs. -/
theorem simulate {related : σ → ρ → Prop}
    (simulated : ∀ label s s' r, related s r → step label s s' →
      ∃ r', refStep label r r' ∧ related s' r')
    {labels : List Label} {s s' : σ} {r : ρ} (run : Runs step labels s s') (start : related s r) :
    ∃ r', Runs refStep labels r r' ∧ related s' r' := by
  induction run generalizing r with
  | nil => exact ⟨r, .nil r, start⟩
  | cons first _ ih =>
      obtain ⟨middle, refFirst, reached⟩ := simulated _ _ _ _ start first
      obtain ⟨r', refRest, finish⟩ := ih reached
      exact ⟨r', .cons refFirst refRest, finish⟩

end Runs

end Effects
