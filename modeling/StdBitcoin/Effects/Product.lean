import StdBitcoin.Effects.Demand

/-!
# Two judgements of one program

Two demands may watch different parts of a state. A program that meets each of them on its
own part meets both at once. Many demands ask for a guard, and then for their condition on
every outcome that a relation allows.
-/

namespace Effects

variable {Cmd : Type} {Answer : Cmd → Type} {α γ δ : Type}

namespace Demand

/-- Each part of the state meets a demand of its own, for the same answer. -/
def both (left : Demand Answer γ) (right : Demand Answer δ) : Demand Answer (γ × δ) :=
  fun c g condition => ∃ l r, left c g.1 l ∧ right c g.2 r ∧
    ∀ answer g', l answer g'.1 → r answer g'.2 → condition answer g'

/-- Weaker conditions ask for less of both. -/
theorem both_monotone (left : Demand Answer γ) (right : Demand Answer δ) :
    (left.both right).Monotone := by
  intro c g condition condition' weaker asked
  obtain ⟨l, r, asksLeft, asksRight, holds⟩ := asked
  refine ⟨l, r, asksLeft, asksRight, fun answer g' first second => ?_⟩
  exact weaker answer g' (holds answer g' first second)

end Demand

namespace Prog

variable {left : Demand Answer γ} {right : Demand Answer δ}

/-- Two judgements of one program are one judgement of both parts. -/
theorem ensures_both {p : Prog Answer α} {normal : α → γ → Prop} {thrown : γ → Prop}
    {normal' : α → δ → Prop} {thrown' : δ → Prop} {g : γ} {d : δ}
    (first : ensures left p normal thrown g) (second : ensures right p normal' thrown' d) :
    ensures (left.both right) p (fun result both => normal result both.1 ∧ normal' result both.2)
      (fun both => thrown both.1 ∧ thrown' both.2) (g, d) := by
  induction p generalizing g d with
  | pure result => exact ⟨first, second⟩
  | throw => exact ⟨first, second⟩
  | fault interrupted next interruptedIh nextIh =>
      exact ⟨interruptedIh first.1 second.1, nextIh first.2 second.2⟩
  | step c next ih => exact ⟨_, _, first, second, fun answer _ => ih answer⟩

end Prog

end Effects
