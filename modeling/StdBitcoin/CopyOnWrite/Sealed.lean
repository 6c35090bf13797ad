import StdBitcoin.CopyOnWrite.Isolation
import StdBitcoin.Effects.Vouched

/-!
# Sealed objects

A class whose only member is a private `copy_on_write`, and which never modifies it, hands
out constructions, copies, moves, assignments and destructions. Where all allocators are
equal, nothing that such objects do can lose a model or disturb another agent, however their
accesses interleave, what they show was constructed, and only constructions throw.
-/

namespace StdBitcoin.CopyOnWrite

open Effects Prog

variable {Agent ι T A α : Type}

/-- Operations that modify nothing, and construct values of one kind. -/
def Op.Sealed (built : T → Prop) : Op ι T A → Prop
  | ofValue _ u | ofValueWith _ _ u => built u
  | copy _ _ | copyWith _ _ _ | move _ _ | moveWith _ _ _ | copyAssign _ _ | moveAssign _ _
  | swap _ _ | destroy _ => True
  | assignValue _ _ _ | modify _ _ | modifyTransform _ _ _ => False

/-- Constructions from a value, which allocate a model. -/
def Op.Constructs : Op ι T A → Prop
  | ofValue _ _ | ofValueWith _ _ _ => True
  | _ => False

/-- All values in models are of one kind. -/
def State.Holds (built : T → Prop) (s : State ι T A) : Prop := ∀ p v, s.valueAt p = some v → built v

/-- Commands that find values of one kind, and write only such values. A move assignment writes
none. -/
def sealed (built : T → Prop) (moves : Bool) : Demand (@Answer ι T A) Unit
  | .value _, _, condition => ∀ v, built v → condition v ()
  | .setValue _ v, _, condition => moves = false ∧ built v ∧ condition () ()
  | .handle _, _, condition | .setSelf _ _, _, condition | .setAlloc _ _, _, condition
  | .emplace _ _, _, condition | .remove _, _, condition | .load _, _, condition
  | .fetchAdd _, _, condition | .fetchSub _, _, condition | .allocate _, _, condition
  | .deallocate _ _, _, condition | .assert _, _, condition => ∀ answer, condition answer ()

variable {built : T → Prop} {moves : Bool}

/-- Weaker conditions ask for less. -/
theorem sealed_monotone : (sealed built moves : Demand (@Answer ι T A) Unit).Monotone := by
  intro c _ condition condition' weaker asked
  cases c with
  | value p => exact fun v good => weaker v () (asked v good)
  | setValue p v => exact ⟨asked.1, asked.2.1, weaker () () asked.2.2⟩
  | _ => exact fun answer => weaker answer () (asked answer)

/-- No sealed operation takes a last reference without a look, or writes into a shared model. -/
theorem clears_sealed :
    Pool.Clears (Op.Sealed built) (fun op : Op ι T A => sealed built op.moves)
      (Op.Intrudes : Op ι T A → _) := by
  intro op c x condition kept asked intrudes
  rcases intrudes with orphans | disturbs
  · cases c with
    | fetchSub p =>
        have leaves := orphans.1
        cases op with
        | modify | modifyTransform => exact kept.elim
        | _ => cases leaves
    | _ => exact orphans.elim
  · cases c with
    | setValue p v =>
        have moves := disturbs.1
        rw [asked.1] at moves
        cases moves
    | _ => exact disturbs.elim

/-- Commands that neither read nor write a value. -/
def Cmd.Plain : Cmd ι T A → Prop
  | .value _ | .setValue _ _ => False
  | _ => True

section Blocks

variable {β : Type} {thrown : Prop} {results : β → Prop} {p : Loc} {o : Handle A} {this x : ι}

/-- A plain command in front changes nothing that is vouched for. -/
theorem sealed_step {c : Cmd ι T A} {f : Answer c → Code ι T A β} (plain : c.Plain)
    (rest : ∀ answer, (f answer).Vouched (sealed built moves) thrown results) :
    (perform c >>= f).Vouched (sealed built moves) thrown results := by
  cases c with
  | value | setValue => exact plain.elim
  | _ => exact rest

theorem sealed_perform {c : Cmd ι T A} (plain : c.Plain) :
    (perform c).Vouched (sealed built moves) thrown fun _ => True := by
  cases c with
  | value | setValue => exact plain.elim
  | _ => exact fun _ => trivial

/-- A program whose results do not matter comes before another one. -/
theorem sealed_seq {p : Code ι T A α} {f : α → Code ι T A β}
    (first : p.Vouched (sealed built moves) thrown fun _ => True)
    (rest : ∀ result, (f result).Vouched (sealed built moves) thrown results) :
    (p >>= f).Vouched (sealed built moves) thrown results :=
  first.bind sealed_monotone fun result _ => rest result

theorem sealed_construct {u : T} (good : built u) :
    (construct u : Code ι T A T).Vouched (sealed built moves) True built :=
  ⟨trivial, good⟩

/-- The memory of a model gets a value of the kind. -/
theorem sealed_makeModel (alloc : A) {build : Code ι T A T}
    (builds : build.Vouched (sealed built false) True built) :
    (makeModel alloc build).Vouched (sealed built false) True fun _ => True := by
  have constructed (q : Loc) : (build.onThrow do deallocate alloc q; Prog.throw).Vouched
      (sealed built false) True built :=
    builds.onThrow sealed_monotone
      (sealed_seq (sealed_perform trivial) fun _ => vouched_throw trivial)
  rw [makeModel]
  refine sealed_seq ⟨trivial, trivial⟩ fun _ => sealed_step trivial fun q => ?_
  exact (constructed q).bind sealed_monotone fun v good => ⟨rfl, good, trivial⟩

theorem sealed_drop (o : Handle A) :
    (drop o : Code ι T A Unit).Vouched (sealed built moves) thrown fun _ => True := by
  rw [drop]
  split
  · trivial
  · refine sealed_step trivial fun count => ?_
    split
    · exact sealed_perform trivial
    · trivial

theorem sealed_reset (this : ι) (v : Option Loc) :
    (reset this v : Code ι T A Unit).Vouched (sealed built moves) thrown fun _ => True :=
  sealed_step trivial fun o => sealed_seq (sealed_drop o) fun _ => sealed_perform trivial

theorem sealed_destroy (this : ι) :
    (destroy this : Code ι T A Unit).Vouched (sealed built moves) thrown fun _ => True := by
  rw [destroy]
  refine sealed_step trivial fun o => ?_
  have dropped : (do drop o; remove this : Code ι T A Unit).Vouched (sealed built moves) thrown
      fun _ => True :=
    sealed_seq (sealed_drop o) fun _ => sealed_perform trivial
  refine sealed_seq ?_ fun _ => dropped
  split
  · trivial
  · exact sealed_step trivial fun _ => sealed_perform trivial

/-- Objects with equal allocators share a model. -/
theorem sealed_share (alloc : A) (o : Handle A) {same : Bool} (equal : same = true) :
    (share alloc same o : Code ι T A (Handle A)).Vouched (sealed built false) thrown
      fun _ => True := by
  rw [share]
  split
  · trivial
  · rw [if_pos equal]
    exact sealed_step trivial fun _ => trivial

/-- An object is constructed as its constructor says. -/
theorem sealed_constructAt (this : ι) {constructor : Code ι T A (Handle A)}
    (constructs : constructor.Vouched (sealed built moves) thrown fun _ => True) :
    (constructAt this constructor).Vouched (sealed built moves) thrown fun _ => True :=
  sealed_seq constructs fun _ => sealed_perform trivial

/-- Only good values are wrapped. -/
theorem sealed_ofValueWith (alloc : A) {u : T} (good : built u) :
    (ofValueWith alloc u : Code ι T A (Handle A)).Vouched (sealed built false) True fun _ => True :=
  sealed_seq (sealed_makeModel alloc (sealed_construct good)) fun _ => trivial

/-- The allocator follows the pointer if it propagates. -/
theorem sealed_propagate (propagate : Bool) (this : ι) (alloc : A) :
    (if propagate then setAlloc this alloc else return () : Code ι T A Unit).Vouched
      (sealed built moves) thrown fun _ => True := by
  split
  · exact sealed_perform trivial
  · trivial

variable {traits : AllocatorTraits A}

/-- With equal allocators the allocator-extended move moves no value. -/
theorem sealed_moveWith (uniform : ∀ a b, traits.eq a b) (alloc : A) (x : ι) :
    (moveWith traits alloc x : Code ι T A (Handle A)).Vouched (sealed built false) thrown
      fun _ => True := by
  rw [moveWith]
  refine sealed_step trivial fun o => ?_
  split
  · trivial
  · rw [uniform, Bool.or_true, if_pos rfl]
    exact sealed_step trivial fun _ => trivial

theorem sealed_swap (this x : ι) :
    (swap traits this x : Code ι T A Unit).Vouched (sealed built moves) thrown fun _ => True := by
  refine sealed_step trivial fun left => sealed_step trivial fun right => ?_
  refine sealed_step trivial fun _ => sealed_step trivial fun _ => sealed_step trivial fun _ => ?_
  split
  · exact sealed_step trivial fun _ => sealed_perform trivial
  · trivial

end Blocks

variable [DecidableEq ι] {traits : AllocatorTraits A} {thrown : Prop}

/-- With equal allocators copy assignment copies no value. -/
theorem sealed_copyAssign (uniform : ∀ a b, traits.eq a b) (this x : ι) :
    (copyAssign traits this x : Code ι T A Unit).Vouched (sealed built false) thrown
      fun _ => True := by
  rw [copyAssign]
  split
  · trivial
  · refine sealed_step trivial fun source => sealed_step trivial fun target => ?_
    refine sealed_seq ?_ fun _ => sealed_propagate _ this source.alloc
    split
    · exact sealed_reset this none
    · rename_i p points
      rw [uniform, Bool.or_true, if_pos rfl]
      exact sealed_step trivial fun _ => sealed_reset this (some p)

/-- Where all allocators are equal, a move assignment takes the pointer. -/
theorem sealed_moveAssign (uniform : ∀ a b, traits.eq a b) (values : ValueTraits T) (this x : ι) :
    (moveAssign traits values this x).Vouched (sealed built moves) thrown fun _ => True := by
  rw [moveAssign]
  split
  · trivial
  · refine sealed_step trivial fun source => sealed_step trivial fun target => ?_
    refine sealed_seq ?_ fun _ => sealed_propagate _ this source.alloc
    split
    · exact sealed_reset this none
    · rename_i p points
      rw [uniform, Bool.or_true, if_pos rfl]
      exact sealed_step trivial fun _ => sealed_reset this (some p)

/-- Sealed operations write no value, except into models that they make, and throw only where they
make one. -/
theorem sealed_code (uniform : ∀ a b, traits.eq a b) (values : ValueTraits T) {op : Op ι T A}
    (kept : op.Sealed built) :
    (op.code traits values).Vouched (sealed built op.moves) op.Constructs fun _ => True := by
  cases op with
  | ofValue this u => exact sealed_constructAt this (sealed_ofValueWith _ kept)
  | ofValueWith this alloc u => exact sealed_constructAt this (sealed_ofValueWith alloc kept)
  | copy this x =>
      refine sealed_constructAt this (sealed_step trivial fun o => sealed_share _ o ?_)
      exact (congrArg _ (uniform _ _)).trans (Bool.or_true _)
  | copyWith this alloc x =>
      exact sealed_constructAt this
        (sealed_step trivial fun o => sealed_share _ o (uniform _ _))
  | move this x =>
      exact sealed_constructAt this (sealed_step trivial fun _ => sealed_step trivial fun _ => trivial)
  | moveWith this alloc x => exact sealed_constructAt this (sealed_moveWith uniform alloc x)
  | copyAssign this x => exact sealed_copyAssign uniform this x
  | moveAssign this x => exact sealed_moveAssign uniform values this x
  | swap this x => exact sealed_swap this x
  | destroy this => exact sealed_destroy this
  | assignValue | modify | modifyTransform => exact kept.elim

section Interleaved

variable {s s' : State ι T A} {c : Cmd ι T A} {answer : Answer c}

/-- A command that writes good values leaves good values. -/
theorem State.Holds.exec (holds : s.Holds built) (outcome : exec traits c s = some (answer, s'))
    (writes : ∀ p v, c = .setValue p v → built v) : s'.Holds built := by
  intro q w found
  by_cases touches : c.Touches s q
  · cases c with
    | setValue p v =>
        obtain rfl := touches
        obtain ⟨m, -, same⟩ := Option.map_eq_some_iff.mp outcome
        obtain ⟨-, rfl⟩ := Prod.mk.inj same
        rw [State.valueAt_setModel_self] at found
        obtain rfl := Option.some.inj found
        exact writes _ _ rfl
    | allocate alloc =>
        obtain rfl := touches
        obtain ⟨-, rfl⟩ := Prod.mk.inj (Option.some.inj outcome)
        change (s.raw alloc).valueAt s.next = some w at found
        rw [State.valueAt, State.models_raw_self] at found
        cases found
    | deallocate alloc p =>
        obtain rfl := touches
        obtain rfl := exec_deallocate outcome
        rw [State.valueAt_setModel_self] at found
        cases found
    | _ => exact touches.elim
  · rw [valueAt_exec outcome touches] at found
    exact holds q w found

/-- Sealed programs keep the values good. -/
theorem keeps_sealed :
    Keeps (execRecorded traits) (sealed built moves)
      fun x : State ι T A × Record ι T A => x.1.Holds built := by
  intro c x answer x' condition holds asked outcome
  obtain ⟨⟨answer', s'⟩, reached, same⟩ := Option.map_eq_some_iff.mp outcome
  obtain ⟨rfl, rfl⟩ := Prod.mk.inj same
  cases c with
  | value p =>
      obtain ⟨v, found, same⟩ := Option.map_eq_some_iff.mp reached
      obtain ⟨rfl, rfl⟩ := Prod.mk.inj same
      exact ⟨holds, asked v (holds p v found)⟩
  | setValue p v =>
      refine ⟨holds.exec reached fun q w same => ?_, asked.2.2⟩
      obtain ⟨-, rfl⟩ := Cmd.setValue.inj same
      exact asked.2.1
  | _ => exact ⟨holds.exec reached nofun, asked _⟩

end Interleaved

section Runs

variable [Fintype Agent] [DecidableEq Agent] (owner : ι → Agent) (traits : AllocatorTraits A)
  (values : ValueTraits T) (built : T → Prop)

/-- A sealed operation that is allowed, and returns or throws. -/
def SealedStep (op : Op ι T A) (x x' : State ι T A × Record ι T A) : Prop :=
  op.Sealed built ∧ op.Happens traits values x x'

/-- The steps of agents that do sealed operations on objects of their own. -/
def SealedEvent : Event Agent (Op ι T A) →
    Pool Agent (Op ι T A) (@Answer ι T A) (State ι T A × Record ι T A) →
    Pool Agent (Op ι T A) (@Answer ι T A) (State ι T A × Record ι T A) → Prop :=
  Pool.Step (execRecorded traits) (Op.code traits values) fun agent op x =>
    op.Sealed built ∧ op.Allowed owner traits agent x

/-- What agents with sealed objects can rely on, whatever the others do. -/
structure Undisturbed (owner : ι → Agent) (values : ValueTraits T) (built : T → Prop)
    (events : List (Event Agent (Op ι T A))) (x : State ι T A × Record ι T A)
    (pool : Pool Agent (Op ι T A) (@Answer ι T A) (State ι T A × Record ι T A)) : Prop where
  built : ∀ h v, pool.state.1.observe h = some (some v) → built v
  advances : ∀ agent, pool.running agent ≠ none → ∀ faulty,
    (pool.advance (execRecorded traits) agent faulty).isSome
  /-- An idle agent has ended all its operations, in their order. -/
  ended : ∀ agent, pool.running agent = none →
    (endings traits values agent events x).map Prod.fst = Event.jobs agent events
  /-- Copies, moves, assignments and destructions return. -/
  returned : ∀ agent, ∀ entry ∈ endings traits values agent events x,
    ¬ entry.1.Constructs → entry.2 = .returned
  /-- What an idle agent sees is what its own operations make of what it saw at first. -/
  seen : ∀ agent, pool.running agent = none →
    Runs (Ended values) (endings traits values agent events x) (x.1.seenBy owner agent)
      (pool.state.1.seenBy owner agent)
  noneLost : pool.Idle → NoneLost pool.state

variable {owner traits values built}

/-- Sealed operations, by however many programs in whatever turns, do not disturb each other. -/
theorem undisturbed_of_sealed (uniform : ∀ a b, traits.eq a b) {ops : List (Op ι T A)}
    {x : State ι T A × Record ι T A}
    (initial : Runs (SealedStep traits values built) ops (.empty, []) x)
    {events : List (Event Agent (Op ι T A))}
    {pool : Pool Agent (Op ι T A) (@Answer ι T A) (State ι T A × Record ι T A)}
    (run : Runs (SealedEvent owner traits values built) events ⟨fun _ => none, x⟩ pool) :
    Undisturbed traits owner values built events x pool := by
  have step (op : Op ι T A) (y y' : State ι T A × Record ι T A) (holds : y.1.Holds built)
      (step : SealedStep traits values built op y y') : y'.1.Holds built := by
    obtain ⟨kept, -, faults, result, outcome⟩ := step
    exact (sealed_code uniform values kept).run keeps_sealed holds outcome
  have holds : x.1.Holds built := initial.preserves step fun p v found => by cases found
  have vouched : Pool.Vouched (Op.Sealed built) (fun op : Op ι T A => sealed built op.moves)
      Op.Constructs (fun x : State ι T A × Record ι T A => x.1.Holds built)
      (⟨fun _ => none, x⟩ : Pool Agent (Op ι T A) (@Answer ι T A) _) := ⟨holds, nofun⟩
  obtain ⟨reached, isolated, threw⟩ := Pool.Vouched.run (fun _ => keeps_sealed) clears_sealed
    (fun _ => sealed_code uniform values) run vouched
  have happens : Runs (Op.Happens traits values) ops (.empty, []) x :=
    initial.mono fun _ _ _ => And.right
  have judged := judged_of_isolated owner traits values happens isolated
  have interleaved := isolated.mono fun _ _ _ => And.left
  constructor
  · intro h v seen
    obtain ⟨o, -, shown⟩ := Option.map_eq_some_iff.mp seen
    obtain ⟨p, -, value⟩ := Option.bind_eq_some_iff.mp shown
    exact reached.state p v value
  · exact fun agent runs faulty => judged.isSome_advance realises_isolated runs faulty
  · exact fun agent idle => Pool.map_endings interleaved rfl idle
  · intro agent entry member other
    cases ending : entry.2 with
    | returned => rfl
    | threw => exact absurd (threw agent entry member ending) other
  · exact fun agent idle => seenBy_of_judged owner traits values judged idle
  · intro idle
    obtain ⟨known, watched, meets⟩ := judged
    apply watched.coherent.noneLost
    intro agent
    have rest := meets agent
    rw [idle agent] at rest
    exact rest.1

end Runs

end StdBitcoin.CopyOnWrite
