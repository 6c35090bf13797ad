import Mathlib.Data.List.Basic

/-!
# Rules evaluated in order

A list of rules is evaluated up to the first one whose verdict fails, and that
verdict is the outcome. A list that contains all the rules of another accepts no
more than that other list, whatever the verdicts are.
-/

namespace Rules

variable {ι σ : Type} (passes : σ → Bool) (success : σ)

/-- The first failing verdict, or the given one when every rule passes. -/
def evaluate (judge : ι → σ) : List ι → σ
  | [] => success
  | rule :: rules => if passes (judge rule) then evaluate judge rules else judge rule

variable {passes success}

/-- A list of rules goes on with another one if its own rules pass. -/
theorem evaluate_append (ok : passes success) (judge : ι → σ) (first second : List ι) :
    evaluate passes success judge (first ++ second) =
      if passes (evaluate passes success judge first) then
        evaluate passes success judge second
      else evaluate passes success judge first := by
  induction first with
  | nil => simp [evaluate, ok]
  | cons rule first ih =>
      rw [List.cons_append, evaluate, evaluate]
      split
      · exact ih
      · rfl

/-- Rules that are named otherwise are evaluated alike. -/
theorem evaluate_map {κ : Type} (name : κ → ι) (judge : ι → σ) (rules : List κ) :
    evaluate passes success judge (rules.map name) =
      evaluate passes success (judge ∘ name) rules := by
  induction rules with
  | nil => rfl
  | cons rule rules ih =>
      rw [List.map_cons, evaluate, evaluate, ih]
      rfl

/-- The outcome passes exactly when every rule does. -/
theorem passes_evaluate (ok : passes success) (judge : ι → σ) (rules : List ι) :
    passes (evaluate passes success judge rules) ↔ ∀ rule ∈ rules, passes (judge rule) := by
  induction rules with
  | nil => simp [evaluate, ok]
  | cons rule rules ih =>
      rw [evaluate, List.forall_mem_cons]
      split
      · rename_i passed
        rw [ih]
        exact (and_iff_right passed).symm
      · rename_i failed
        exact iff_of_false failed fun all => failed all.1

/-- More rules never accept more. -/
theorem passes_of_subset (ok : passes success) {fewer more : List ι} (subset : fewer ⊆ more)
    (judge : ι → σ) (accepted : passes (evaluate passes success judge more)) :
    passes (evaluate passes success judge fewer) := by
  rw [passes_evaluate ok] at accepted ⊢
  intro rule member
  exact accepted rule (subset member)

end Rules
