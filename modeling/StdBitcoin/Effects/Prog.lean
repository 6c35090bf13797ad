import Mathlib.Logic.Basic

/-!
# Programs with commands and faults

A program is a tree of commands on some state. At a fault point the environment
decides whether the program goes on or takes its exceptional path; a command that the
state does not allow has no outcome. The weakest precondition of a program asks for an
outcome on every choice of faults, with one postcondition for normal completion and
one for an exception that leaves the program.
-/

namespace Effects

/-- Programs over commands `c` that answer with an `Answer c`. -/
inductive Prog {Cmd : Type} (Answer : Cmd → Type) (α : Type) where
  | pure (result : α)
  | throw
  | fault (thrown next : Prog Answer α)
  | step (c : Cmd) (next : Answer c → Prog Answer α)

namespace Prog

variable {Cmd : Type} {Answer : Cmd → Type} {α β σ : Type}

/-- The second program stands behind every result of the first. -/
def bind (p : Prog Answer α) (f : α → Prog Answer β) : Prog Answer β :=
  match p with
  | pure result => f result
  | throw => throw
  | fault thrown next => fault (thrown.bind f) (next.bind f)
  | step c next => step c fun answer => (next answer).bind f

instance : Monad (Prog Answer) where
  pure := pure
  bind := bind

/-- Run a handler where an exception would leave the program. -/
def onThrow (p : Prog Answer α) (handler : Prog Answer α) : Prog Answer α :=
  match p with
  | pure result => pure result
  | throw => handler
  | fault thrown next => fault (thrown.onThrow handler) (next.onThrow handler)
  | step c next => step c fun answer => (next answer).onThrow handler

/-- A point at which the environment may throw. -/
def mayThrow : Prog Answer Unit := fault throw (pure ())

/-- A single command. -/
def perform (c : Cmd) : Prog Answer (Answer c) := step c pure

section Semantics

variable (exec : (c : Cmd) → σ → Option (Answer c × σ))

/-- Run a program. The flags choose the faults in order, none when they run out. The
result is absent if a command had no outcome, and the value is if an exception left. -/
def run (faults : List Bool) (p : Prog Answer α) (s : σ) : Option (Option α × σ) :=
  match p, faults with
  | pure result, _ => some (some result, s)
  | throw, _ => some (none, s)
  | fault thrown _, true :: faults => thrown.run faults s
  | fault _ next, false :: faults => next.run faults s
  | fault _ next, [] => next.run [] s
  | step c next, faults =>
      match exec c s with
      | none => none
      | some (answer, s) => (next answer).run faults s

/-- The weakest precondition of a program. -/
def wp (p : Prog Answer α) (normal : α → σ → Prop) (thrown : σ → Prop) (s : σ) : Prop :=
  match p with
  | pure result => normal result s
  | throw => thrown s
  | fault left next => left.wp normal thrown s ∧ next.wp normal thrown s
  | step c next => ∃ answer s', exec c s = some (answer, s') ∧ (next answer).wp normal thrown s'

variable {exec} {normal : α → σ → Prop} {thrown : σ → Prop} {s : σ}

@[simp] theorem wp_pure (result : α) :
    wp exec (Pure.pure result : Prog Answer α) normal thrown s ↔ normal result s := Iff.rfl

@[simp] theorem wp_throw :
    wp exec (throw : Prog Answer α) normal thrown s ↔ thrown s := Iff.rfl

/-- The second program starts from every result of the first. -/
@[simp] theorem wp_bind (p : Prog Answer α) (f : α → Prog Answer β) {normal : β → σ → Prop} :
    wp exec (p >>= f) normal thrown s ↔
      wp exec p (fun result => wp exec (f result) normal thrown) thrown s := by
  change wp exec (p.bind f) normal thrown s ↔ _
  induction p generalizing s with
  | pure result => rfl
  | throw => rfl
  | fault left next leftIh nextIh => exact and_congr leftIh nextIh
  | step c next ih =>
      simp only [bind, wp]
      exact exists_congr fun answer => exists_congr fun _ => and_congr_right fun _ => ih answer

/-- The handler starts where the program throws. -/
theorem wp_onThrow (p handler : Prog Answer α) :
    wp exec (p.onThrow handler) normal thrown s ↔
      wp exec p normal (wp exec handler normal thrown) s := by
  induction p generalizing s with
  | pure result => rfl
  | throw => rfl
  | fault left next leftIh nextIh => exact and_congr leftIh nextIh
  | step c next ih =>
      simp only [onThrow, wp]
      exact exists_congr fun answer => exists_congr fun _ => and_congr_right fun _ => ih answer

/-- Both paths of a fault point are followed. -/
theorem wp_mayThrow {normal : Unit → σ → Prop} :
    wp exec (mayThrow : Prog Answer Unit) normal thrown s ↔ thrown s ∧ normal () s := Iff.rfl

/-- A command that has an outcome takes the program there. -/
theorem wp_perform {c : Cmd} {answer : Answer c} {s' : σ} {normal : Answer c → σ → Prop}
    (outcome : exec c s = some (answer, s')) :
    wp exec (perform c) normal thrown s ↔ normal answer s' := by
  simp only [perform, wp, outcome, Option.some.injEq, Prod.mk.injEq]
  constructor
  · intro reached
    obtain ⟨_, _, ⟨rfl, rfl⟩, holds⟩ := reached
    exact holds
  · intro holds
    exact ⟨answer, s', ⟨rfl, rfl⟩, holds⟩

/-- Weaker postconditions are met as well. -/
theorem wp_mono {normal' : α → σ → Prop} {thrown' : σ → Prop} {p : Prog Answer α}
    (onNormal : ∀ result s, normal result s → normal' result s)
    (onThrown : ∀ s, thrown s → thrown' s) (holds : wp exec p normal thrown s) :
    wp exec p normal' thrown' s := by
  induction p generalizing s with
  | pure result => exact onNormal result s holds
  | throw => exact onThrown s holds
  | fault left next leftIh nextIh => exact ⟨leftIh holds.1, nextIh holds.2⟩
  | step c next ih =>
      obtain ⟨answer, s', outcome, rest⟩ := holds
      exact ⟨answer, s', outcome, ih answer rest⟩

/-- A run under the weakest precondition has an outcome, in its postcondition. -/
theorem run_of_wp {p : Prog Answer α} (holds : wp exec p normal thrown s) (faults : List Bool) :
    ∃ result s', run exec faults p s = some (result, s') ∧
      match result with
      | some value => normal value s'
      | none => thrown s' := by
  induction p generalizing s faults with
  | pure result => exact ⟨some result, s, rfl, holds⟩
  | throw => exact ⟨none, s, rfl, holds⟩
  | fault left next leftIh nextIh =>
      match faults with
      | true :: faults => exact leftIh holds.1 faults
      | false :: faults => exact nextIh holds.2 faults
      | [] => exact nextIh holds.2 []
  | step c next ih =>
      obtain ⟨answer, s', outcome, rest⟩ := holds
      simp only [run, outcome]
      exact ih answer rest faults

/-- A run under the weakest precondition of one outcome has that outcome. -/
theorem run_eq_of_wp {p : Prog Answer α} {value : α} {s' : σ}
    (holds : wp exec p (fun result t => result = value ∧ t = s') (fun _ => False) s)
    (faults : List Bool) : run exec faults p s = some (some value, s') := by
  obtain ⟨result, t, outcome, post⟩ := run_of_wp holds faults
  cases result with
  | none => exact post.elim
  | some result =>
      obtain ⟨rfl, rfl⟩ := post
      exact outcome

end Semantics

end Prog

end Effects
