import StdBitcoin.CopyOnWrite.Outcomes
import StdBitcoin.CopyOnWrite.Sightings

/-!
# Exceptions

A run of operations that may throw follows the reference model up to what an exception
leaves behind: nothing in most cases, else one object with a value that the action, the
assignment or the move left there. Left out are the move assignments that take the value out
of a model which a third object shares.
-/

namespace StdBitcoin.CopyOnWrite

open Effects Prog

variable {ι T A : Type}

/-- The value of a model that another object shares is moved to another allocator. -/
def Op.Discloses (traits : AllocatorTraits A) (s : State ι T A) : Op ι T A → Prop
  | moveAssign this x => ∃ target source p, s.handles this = some target ∧
      s.handles x = some source ∧
      (traits.propagateOnContainerMoveAssignment || traits.eq target.alloc source.alloc) = false ∧
      source.self = some p ∧ ∃ k, k ≠ x ∧ s.self k = some p
  | _ => False

variable [DecidableEq ι] {traits : AllocatorTraits A} {values : ValueTraits T}
  {x : State ι T A × Record ι T A} {op : Op ι T A}

/-- One agent that holds the whole state, and sees it. -/
def Beheld (g : State ι T A × View ι T A) (x : State ι T A × Record ι T A) : Prop :=
  g.1 = x.1 ∧ Sighted g.1 g.2 x.1

/-- The commands show what the view says of them. -/
theorem realises_beheld :
    Realises (execRecorded traits)
      ((demand traits .alone : Demand (@Answer ι T A) _).both (sight false)) Beheld := by
  intro c g x condition beheld asked
  obtain ⟨s, view⟩ := g
  obtain ⟨rfl, sighted⟩ := beheld
  obtain ⟨l, r, asksPart, asksSight, both⟩ := asked
  obtain ⟨answer, s', outcome, holds, framed⟩ := exec_of_demand (demand_framed asksPart)
  obtain ⟨view', holds', sighted', -⟩ := sighted.exec (fun _ k held => ⟨k, held, le_rfl⟩) outcome
    framed (fun _ _ _ moves => by cases moves) asksSight
  refine ⟨answer, (s', c.record x.1 x.2), ?_, (s', view'), ⟨rfl, sighted'⟩, both _ _ holds holds'⟩
  rw [execRecorded, outcome, Option.map_some]

/-- Nobody else is there, so that every model is the agent's own. -/
theorem foreseen_alone (inv : Consistent traits [] x.1) (ready : op.Ready traits x.1)
    (kept : ¬ op.Discloses traits x.1) :
    Foreseen traits false { State.view inv x.1 with exclusive := fun _ => True } op where
  settled := trivial
  vacant := by
    rintro this u temporary rfl
    rw [View.observe]
    change (x.1.handles temporary).map _ = none
    rw [ready.2]
    rfl
  free := by
    rintro this y target source rfl place found unequal p points
    have only (k : ι) (also : x.1.self k = some p) : k = y := by
      by_contra other
      exact kept ⟨target, source, p, place, found, unequal,
        (State.self_of_handles found).symm.trans points, k, other, also⟩
    exact .inl ⟨trivial, fun h k first second => (only h first).trans (only k second).symm⟩

/-- An operation that returns does what the reference does, one that throws aborts. -/
theorem Consistent.wp_outcome (values : ValueTraits T) (inv : Consistent traits [] x.1)
    (ready : op.Ready traits x.1) (kept : ¬ op.Discloses traits x.1) :
    wp (execRecorded traits) (op.code traits values)
      (fun _ y => op.Reference x.1.observe y.1.observe)
      (fun y => op.Aborts values x.1.observe y.1.observe) x := by
  have start : Beheld (x.1, { State.view inv x.1 with exclusive := fun _ => True }) x :=
    ⟨rfl, { Sighted.view inv le_rfl with }⟩
  have before : (State.view inv x.1).observe = x.1.observe := rfl
  have contract : ensures (demand traits .alone) (op.code traits values)
      (fun _ => Consistent traits []) (Consistent traits []) x.1 :=
    ensures_code values inv ready (fun _ _ => trivial) fun _ => .inr fun _ _ same => same
  have seen {y : State ι T A × Record ι T A} {g : State ι T A × View ι T A} (beheld : Beheld g y)
      (rest : Consistent traits [] g.1) : g.2.observe = y.1.observe := by
    funext h
    rw [beheld.2.observe_eq rest, beheld.1]
    rfl
  refine wp_mono ?_ ?_ (wp_of_ensures realises_beheld start
    (ensures_both contract (sight_code values (foreseen_alone inv ready kept))))
  · rintro _ y ⟨g, beheld, rest, reference⟩
    rw [← seen beheld rest]
    exact reference
  · rintro y ⟨g, beheld, rest, aborts⟩
    rw [← seen beheld rest]
    exact aborts

section Runs

variable (traits : AllocatorTraits A) (values : ValueTraits T)

/-- An operation that returns or throws, and takes no value from another object. -/
def Op.Proceeds (op : Op ι T A) (x x' : State ι T A × Record ι T A) : Prop :=
  op.Happens traits values x x' ∧ ¬ op.Discloses traits x.1

/-- After any run of operations that return or throw, the objects show what the reference shows
up to exceptions. Every further operation that returns does what the reference does, and every
one that throws leaves at most one object changed. -/
theorem outcomes_of_run {ops : List (Op ι T A)} {x : State ι T A × Record ι T A}
    (run : Runs (Op.Proceeds traits values) ops (.empty, []) x) :
    Runs (fun op => op.Outcome values) ops (fun _ => none) x.1.observe ∧
      ∀ op : Op ι T A, op.Ready traits x.1 → ¬ op.Discloses traits x.1 → ∀ faults,
        ∃ result y, Prog.run (execRecorded traits) faults (op.code traits values) x =
            some (result, y) ∧
          match result with
          | some _ => op.Reference x.1.observe y.1.observe
          | none => op.Aborts values x.1.observe y.1.observe := by
  have simulated (op : Op ι T A) (x x' : State ι T A × Record ι T A) (seen : ι → Option (Option T))
      (shows : Tidy traits x ∧ x.1.observe = seen) (step : op.Proceeds traits values x x') :
      ∃ seen', op.Outcome values seen seen' ∧ Tidy traits x' ∧ x'.1.observe = seen' := by
    obtain ⟨tidy, rfl⟩ := shows
    obtain ⟨happens, kept⟩ := step
    obtain ⟨ready, faults, result, outcome⟩ := id happens
    obtain ⟨result', y, outcome', post⟩ :=
      run_of_wp (tidy.consistent.wp_outcome values ready kept) faults
    obtain ⟨rfl, rfl⟩ := Prod.mk.inj (Option.some.inj (outcome.symm.trans outcome'))
    refine ⟨x'.1.observe, ?_, happens.tidy tidy, rfl⟩
    cases result with
    | none => exact .inr post
    | some value => exact .inl post
  obtain ⟨seen, outcomes, tidy, rfl⟩ := run.simulate simulated ⟨Tidy.empty, rfl⟩
  refine ⟨outcomes, fun op ready kept faults => ?_⟩
  obtain ⟨result, y, outcome, post⟩ :=
    run_of_wp (tidy.consistent.wp_outcome values ready kept) faults
  refine ⟨result, y, outcome, ?_⟩
  cases result with
  | none => exact post
  | some value => exact post

end Runs

namespace Sample

/-- The action on the second object throws, and leaves another value there. -/
def thrown : List (Op Nat (List Nat) Nat) := shared ++ [.modify 1 fun v => .error (8 :: v)]

end Sample

/-- A run in which an allocation fails. -/
theorem outcomes_of_run_thrown :
    ∃ x, Runs (Op.Proceeds Sample.resourceTraits Sample.sequenceTraits) Sample.thrown
        (.empty, []) x ∧
      Runs (fun op => op.Outcome Sample.sequenceTraits) Sample.thrown (fun _ => none)
        x.1.observe ∧
      (∀ op : Op Nat (List Nat) Nat, op.Ready Sample.resourceTraits x.1 →
        ¬ op.Discloses Sample.resourceTraits x.1 → ∀ faults,
        ∃ result y, Prog.run (execRecorded Sample.resourceTraits) faults
            (op.code Sample.resourceTraits Sample.sequenceTraits) x = some (result, y) ∧
          match result with
          | some _ => op.Reference x.1.observe y.1.observe
          | none => op.Aborts Sample.sequenceTraits x.1.observe y.1.observe) ∧
      x.1.observe 0 = some (some [5]) ∧ x.1.observe 1 = some (some [8, 5]) := by
  have run : ∃ x, Runs (Op.Proceeds Sample.resourceTraits Sample.sequenceTraits) Sample.thrown
      (.empty, []) x ∧ x.1.observe 0 = some (some [5]) ∧ x.1.observe 1 = some (some [8, 5]) := by
    refine ⟨_, .cons ⟨⟨rfl, [], _, rfl⟩, not_false⟩ (.cons ⟨⟨⟨rfl, _, rfl⟩, [], _, rfl⟩, not_false⟩
      (.cons ⟨⟨rfl, [], _, rfl⟩, not_false⟩ (.cons ⟨⟨⟨_, rfl⟩, [], _, rfl⟩, not_false⟩ (.nil _)))),
      rfl, rfl⟩
  obtain ⟨x, run, first, second⟩ := run
  obtain ⟨outcomes, next⟩ := outcomes_of_run Sample.resourceTraits Sample.sequenceTraits run
  exact ⟨x, run, outcomes, next, first, second⟩

end StdBitcoin.CopyOnWrite
