import StdBitcoin.Effects.Demand

/-!
# Partial correctness

The liberal demand of a command is met by a condition that every outcome satisfies,
and it does not ask for an outcome. A program keeps what none of its commands changes.
If only faults make it throw, it returns where there are none.
-/

namespace Effects

variable {Cmd : Type} {Answer : Cmd → Type} {α β σ τ : Type}

/-- The condition holds of the outcome, if the command has one. -/
def liberal (exec : (c : Cmd) → σ → Option (Answer c × σ)) : Demand Answer σ :=
  fun c s condition => ∀ answer s', exec c s = some (answer, s') → condition answer s'

variable {exec : (c : Cmd) → σ → Option (Answer c × σ)} {normal : α → σ → Prop}
  {thrown : σ → Prop} {s s' : σ}

/-- Weaker conditions ask for less. -/
theorem liberal_monotone : (liberal exec).Monotone := by
  intro c s condition condition' weaker holds answer s' outcome
  exact weaker answer s' (holds answer s' outcome)

namespace Prog

/-- A command that has an outcome takes the program there. -/
theorem ensures_liberal_perform {c : Cmd} {answer : Answer c} {normal : Answer c → σ → Prop}
    (outcome : exec c s = some (answer, s')) :
    ensures (liberal exec) (perform c) normal thrown s ↔ normal answer s' := by
  constructor
  · intro holds
    exact holds answer s' outcome
  · intro holds answer' t reached
    obtain ⟨rfl, rfl⟩ := Prod.mk.inj (Option.some.inj (outcome.symm.trans reached))
    exact holds

/-- A run that returns ends in the postcondition. -/
theorem normal_of_ensures {p : Prog Answer α} (holds : ensures (liberal exec) p normal thrown s)
    {faults : List Bool} {value : α} (returns : run exec faults p s = some (some value, s')) :
    normal value s' := by
  induction p generalizing s faults with
  | pure result =>
      obtain ⟨same, rfl⟩ := Prod.mk.inj (Option.some.inj returns)
      obtain rfl := Option.some.inj same
      exact holds
  | throw => cases returns
  | fault left next leftIh nextIh =>
      match faults with
      | true :: faults => exact leftIh holds.1 returns
      | false :: faults => exact nextIh holds.2 returns
      | [] => exact nextIh holds.2 returns
  | step c next ih =>
      rw [run] at returns
      split at returns
      · cases returns
      · rename_i answer t outcome
        exact ih answer (holds answer t outcome) returns

/-- Conditions that always hold. -/
theorem ensures_of_always {p : Prog Answer α} (onNormal : ∀ result s, normal result s)
    (onThrown : ∀ s, thrown s) : ensures (liberal exec) p normal thrown s := by
  induction p generalizing s with
  | pure result => exact onNormal result s
  | throw => exact onThrown s
  | fault left next leftIh nextIh => exact ⟨leftIh, nextIh⟩
  | step c next ih => exact fun answer s' _ => ih answer

/-- A program keeps what its kind of commands does not change. -/
theorem ensures_of_all {kind : Cmd → Prop} {view : σ → τ}
    (keeps : ∀ ⦃c s answer s'⦄, kind c → exec c s = some (answer, s') → view s' = view s)
    {p : Prog Answer α} (all : p.All kind) {before : τ} (start : view s = before) :
    ensures (liberal exec) p (fun _ s' => view s' = before) (fun s' => view s' = before) s := by
  induction p generalizing s with
  | pure result => exact start
  | throw => exact start
  | fault left next leftIh nextIh => exact ⟨leftIh all.1 start, nextIh all.2 start⟩
  | step c next ih =>
      intro answer s' outcome
      exact ih answer (all.2 answer) ((keeps all.1 outcome).trans start)

/-- Nothing but a fault makes the program throw. -/
def Steady (p : Prog Answer α) : Prop :=
  match p with
  | pure _ => True
  | throw => False
  | fault _ next => next.Steady
  | step _ next => ∀ answer, (next answer).Steady

/-- Without a fault a steady program returns. -/
theorem Steady.returns {p : Prog Answer α} (steady : p.Steady) {result : Option α}
    (outcome : run exec [] p s = some (result, s')) : ∃ value, result = some value := by
  induction p generalizing s with
  | pure value =>
      obtain ⟨rfl, -⟩ := Prod.mk.inj (Option.some.inj outcome)
      exact ⟨value, rfl⟩
  | throw => exact steady.elim
  | fault left next leftIh nextIh => exact nextIh steady outcome
  | step c next ih =>
      rw [run] at outcome
      split at outcome
      · cases outcome
      · exact ih _ (steady _) outcome

/-- A program of one kind of commands that nothing but a fault makes throw. -/
structure Calm (kind : Cmd → Prop) (p : Prog Answer α) : Prop where
  all : p.All kind
  steady : p.Steady

namespace Calm

variable {kind : Cmd → Prop} {p handler : Prog Answer α}

theorem pure (result : α) : (Pure.pure result : Prog Answer α).Calm kind := ⟨trivial, trivial⟩

theorem perform {c : Cmd} (fits : kind c) : (perform c : Prog Answer (Answer c)).Calm kind :=
  ⟨all_perform fits, fun _ => trivial⟩

theorem mayThrow : (mayThrow : Prog Answer Unit).Calm kind := ⟨all_mayThrow, trivial⟩

/-- A program whose fault leads it to throw. -/
theorem fault {left next : Prog Answer α} (interrupted : left.All kind) (calm : next.Calm kind) :
    (Prog.fault left next).Calm kind :=
  ⟨⟨interrupted, calm.all⟩, calm.steady⟩

/-- Calm programs follow each other. -/
theorem bind {f : α → Prog Answer β} (calm : p.Calm kind) (rest : ∀ result, (f result).Calm kind) :
    (p >>= f).Calm kind := by
  refine ⟨all_bind calm.all fun result => (rest result).all, ?_⟩
  obtain ⟨-, steady⟩ := calm
  change (p.bind f).Steady
  induction p with
  | pure result => exact (rest result).steady
  | throw => exact steady.elim
  | fault left next leftIh nextIh => exact nextIh steady
  | step c next ih => exact fun answer => ih answer (steady answer)

/-- A handler of the kind, which may throw again, leaves a program calm. -/
theorem onThrow (calm : p.Calm kind) (handles : handler.All kind) :
    (p.onThrow handler).Calm kind := by
  refine ⟨all_onThrow calm.all handles, ?_⟩
  obtain ⟨-, steady⟩ := calm
  induction p with
  | pure result => trivial
  | throw => exact steady.elim
  | fault left next leftIh nextIh => exact nextIh steady
  | step c next ih => exact fun answer => ih answer (steady answer)

end Calm

end Prog

end Effects
