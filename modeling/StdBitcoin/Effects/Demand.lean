import StdBitcoin.Effects.Prog

/-!
# Programs under demands

A demand says of each command what must hold of a state so that a condition is met by
every answer the command may give and by the state it leaves. Programs are judged by the
demands of their commands, and a semantics that realises the demands keeps to that
judgement. The states of the demands may show less than those of the semantics.
-/

namespace Effects

variable {Cmd : Type} {Answer : Cmd → Type} {α β γ σ : Type}

/-- What a command asks of a state, for a condition on its answer and the next state. -/
abbrev Demand (Answer : Cmd → Type) (γ : Type) : Type :=
  (c : Cmd) → γ → (Answer c → γ → Prop) → Prop

/-- Weaker conditions ask for less. -/
def Demand.Monotone (demand : Demand Answer γ) : Prop :=
  ∀ ⦃c g⦄ ⦃condition condition' : Answer c → γ → Prop⦄,
    (∀ answer g', condition answer g' → condition' answer g') →
    demand c g condition → demand c g condition'

namespace Prog

/-- The demands of all commands are met, up to the postconditions. -/
def ensures (demand : Demand Answer γ) (p : Prog Answer α) (normal : α → γ → Prop)
    (thrown : γ → Prop) (g : γ) : Prop :=
  match p with
  | pure result => normal result g
  | throw => thrown g
  | fault left next => left.ensures demand normal thrown g ∧ next.ensures demand normal thrown g
  | step c next => demand c g fun answer => (next answer).ensures demand normal thrown

variable {demand : Demand Answer γ} {normal : α → γ → Prop} {thrown : γ → Prop} {g : γ}

@[simp] theorem ensures_pure (result : α) :
    ensures demand (Pure.pure result : Prog Answer α) normal thrown g ↔ normal result g := Iff.rfl

@[simp] theorem ensures_throw :
    ensures demand (throw : Prog Answer α) normal thrown g ↔ thrown g := Iff.rfl

/-- A single command is a demand for the postcondition. -/
theorem ensures_perform {c : Cmd} {normal : Answer c → γ → Prop} :
    ensures demand (perform c) normal thrown g ↔ demand c g normal := Iff.rfl

/-- Both paths of a fault point are followed. -/
theorem ensures_mayThrow {normal : Unit → γ → Prop} :
    ensures demand (mayThrow : Prog Answer Unit) normal thrown g ↔ thrown g ∧ normal () g := Iff.rfl

/-- The second program starts from every result of the first. -/
@[simp] theorem ensures_bind (p : Prog Answer α) (f : α → Prog Answer β) {normal : β → γ → Prop} :
    ensures demand (p >>= f) normal thrown g ↔
      ensures demand p (fun result => ensures demand (f result) normal thrown) thrown g := by
  change ensures demand (p.bind f) normal thrown g ↔ _
  induction p generalizing g with
  | pure result => rfl
  | throw => rfl
  | fault left next leftIh nextIh => exact and_congr leftIh nextIh
  | step c next ih =>
      have same : (fun answer => ((next answer).bind f).ensures demand normal thrown) =
          fun answer => (next answer).ensures demand
            (fun result => ensures demand (f result) normal thrown) thrown := by
        funext answer g
        exact propext (ih answer)
      rw [bind, ensures, ensures, same]

/-- The handler starts where the program throws. -/
theorem ensures_onThrow (p handler : Prog Answer α) :
    ensures demand (p.onThrow handler) normal thrown g ↔
      ensures demand p normal (ensures demand handler normal thrown) g := by
  induction p generalizing g with
  | pure result => rfl
  | throw => rfl
  | fault left next leftIh nextIh => exact and_congr leftIh nextIh
  | step c next ih =>
      have same : (fun answer => ((next answer).onThrow handler).ensures demand normal thrown) =
          fun answer =>
            (next answer).ensures demand normal (ensures demand handler normal thrown) := by
        funext answer g
        exact propext (ih answer)
      rw [onThrow, ensures, ensures, same]

/-- Weaker postconditions are met as well. -/
theorem ensures_mono (monotone : demand.Monotone) {normal' : α → γ → Prop} {thrown' : γ → Prop}
    {p : Prog Answer α} (onNormal : ∀ result g, normal result g → normal' result g)
    (onThrown : ∀ g, thrown g → thrown' g) (holds : ensures demand p normal thrown g) :
    ensures demand p normal' thrown' g := by
  induction p generalizing g with
  | pure result => exact onNormal result g holds
  | throw => exact onThrown g holds
  | fault left next leftIh nextIh => exact ⟨leftIh holds.1, nextIh holds.2⟩
  | step c next ih => exact monotone (fun answer g' rest => ih answer rest) holds

/-- What an execution must do to realise the demands on related states. -/
def Realises (exec : (c : Cmd) → σ → Option (Answer c × σ)) (demand : Demand Answer γ)
    (related : γ → σ → Prop) : Prop :=
  ∀ ⦃c g s condition⦄, related g s → demand c g condition →
    ∃ answer s', exec c s = some (answer, s') ∧ ∃ g', related g' s' ∧ condition answer g'

/-- Where the demands are realised the weakest precondition holds. -/
theorem wp_of_ensures {exec : (c : Cmd) → σ → Option (Answer c × σ)} {related : γ → σ → Prop}
    (realises : Realises exec demand related) {p : Prog Answer α} {s : σ} (start : related g s)
    (holds : ensures demand p normal thrown g) :
    wp exec p (fun result s' => ∃ g', related g' s' ∧ normal result g')
      (fun s' => ∃ g', related g' s' ∧ thrown g') s := by
  induction p generalizing g s with
  | pure result => exact ⟨g, start, holds⟩
  | throw => exact ⟨g, start, holds⟩
  | fault left next leftIh nextIh => exact ⟨leftIh start holds.1, nextIh start holds.2⟩
  | step c next ih =>
      obtain ⟨answer, s', outcome, g', reached, rest⟩ := realises start holds
      exact ⟨answer, s', outcome, ih answer reached rest⟩

/-- All commands of the program are of one kind. -/
def All (kind : Cmd → Prop) (p : Prog Answer α) : Prop :=
  match p with
  | pure _ => True
  | throw => True
  | fault left next => left.All kind ∧ next.All kind
  | step c next => kind c ∧ ∀ answer, (next answer).All kind

section All

variable {kind : Cmd → Prop}

theorem all_throw : (throw : Prog Answer α).All kind := trivial

theorem all_perform {c : Cmd} (fits : kind c) : (perform c : Prog Answer (Answer c)).All kind :=
  ⟨fits, fun _ => trivial⟩

theorem all_mayThrow : (mayThrow : Prog Answer Unit).All kind := ⟨trivial, trivial⟩

theorem all_bind {p : Prog Answer α} {f : α → Prog Answer β} (all : p.All kind)
    (rest : ∀ result, (f result).All kind) : (p >>= f).All kind := by
  change (p.bind f).All kind
  induction p with
  | pure result => exact rest result
  | throw => trivial
  | fault left next leftIh nextIh => exact ⟨leftIh all.1, nextIh all.2⟩
  | step c next ih => exact ⟨all.1, fun answer => ih answer (all.2 answer)⟩

/-- A handler of the same kind changes nothing. -/
theorem all_onThrow {p handler : Prog Answer α} (all : p.All kind) (handles : handler.All kind) :
    (p.onThrow handler).All kind := by
  induction p with
  | pure result => trivial
  | throw => exact handles
  | fault left next leftIh nextIh => exact ⟨leftIh all.1, nextIh all.2⟩
  | step c next ih => exact ⟨all.1, fun answer => ih answer (all.2 answer)⟩

end All

/-- Commands whose demand is that of their execution. -/
theorem ensures_of_wp {exec : (c : Cmd) → γ → Option (Answer c × γ)} {kind : Cmd → Prop}
    (agrees : ∀ ⦃c g answer g' condition⦄, kind c → exec c g = some (answer, g') →
      condition answer g' → demand c g condition)
    {p : Prog Answer α} (all : p.All kind) (holds : wp exec p normal thrown g) :
    ensures demand p normal thrown g := by
  induction p generalizing g with
  | pure result => exact holds
  | throw => exact holds
  | fault left next leftIh nextIh => exact ⟨leftIh all.1 holds.1, nextIh all.2 holds.2⟩
  | step c next ih =>
      obtain ⟨answer, g', outcome, rest⟩ := holds
      exact agrees all.1 outcome (ih answer (all.2 answer) rest)

end Prog

end Effects
