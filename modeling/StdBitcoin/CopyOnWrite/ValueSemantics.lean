import StdBitcoin.CopyOnWrite.Modifiers
import StdBitcoin.Effects.Runs

/-!
# Value semantics

The reference model gives every handle a value of its own. Over whole runs the
handles show what the reference shows, as long as no move assignment moves the value
out of a model that a third handle shares.
-/

namespace StdBitcoin.CopyOnWrite

open Effects Prog

/-- An operation on the objects at some places. -/
inductive Op (ι T A : Type) where
  | ofValue (this : ι) (u : T)
  | ofValueWith (this : ι) (alloc : A) (u : T)
  | copy (this x : ι)
  | copyWith (this : ι) (alloc : A) (x : ι)
  | move (this x : ι)
  | moveWith (this : ι) (alloc : A) (x : ι)
  | copyAssign (this x : ι)
  | moveAssign (this x : ι)
  | assignValue (this : ι) (u : T) (temporary : ι)
  | swap (this x : ι)
  | modify (this : ι) (action : T → Except T T)
  | modifyTransform (this : ι) (action : T → Except T T) (transform : T → Option T)
  | destroy (this : ι)

variable {ι T A : Type}

/-- Construct an object at a place. -/
def constructAt (this : ι) (constructor : Code ι T A (Handle A)) : Code ι T A Unit := do
  let o ← constructor
  emplace this o

namespace Op

section Definitions

variable (traits : AllocatorTraits A) (values : ValueTraits T)

/-- The code of an operation. -/
def code [DecidableEq ι] : Op ι T A → Code ι T A Unit
  | ofValue this u => constructAt this (CopyOnWrite.ofValue traits u)
  | ofValueWith this alloc u => constructAt this (CopyOnWrite.ofValueWith alloc u)
  | copy this x => constructAt this (CopyOnWrite.copy traits x)
  | copyWith this alloc x => constructAt this (CopyOnWrite.copyWith traits alloc x)
  | move this x => constructAt this (CopyOnWrite.move x)
  | moveWith this alloc x => constructAt this (CopyOnWrite.moveWith traits alloc x)
  | copyAssign this x => CopyOnWrite.copyAssign traits this x
  | moveAssign this x => CopyOnWrite.moveAssign traits values this x
  | assignValue this u temporary => CopyOnWrite.assignValue traits values this u temporary
  | swap this x => CopyOnWrite.swap traits this x
  | modify this action => CopyOnWrite.modify this action
  | modifyTransform this action transform => CopyOnWrite.modifyTransform this action transform
  | destroy this => CopyOnWrite.destroy this

/-- Objects come into being where there is none, and are used only while they are
alive. A modified object has a value, and swapped allocators propagate or agree. -/
def Ready (s : State ι T A) : Op ι T A → Prop
  | ofValue this _ | ofValueWith this _ _ => s.handles this = none
  | copy this x | copyWith this _ x | move this x | moveWith this _ x =>
      s.handles this = none ∧ ∃ source, s.handles x = some source
  | copyAssign this x | moveAssign this x =>
      (∃ target, s.handles this = some target) ∧ ∃ source, s.handles x = some source
  | assignValue this _ temporary =>
      (∃ target, s.handles this = some target) ∧ s.handles temporary = none
  | swap this x => ∃ target source, s.handles this = some target ∧ s.handles x = some source ∧
      (traits.propagateOnContainerSwap ∨ traits.eq target.alloc source.alloc)
  | modify this _ | modifyTransform this _ _ => ∃ p, s.self this = some p
  | destroy this => ∃ target, s.handles this = some target

/-- The value is moved out of a model that a third handle shares. -/
def Clobbers (s : State ι T A) : Op ι T A → Prop
  | moveAssign this x => CopyOnWrite.Clobbers traits values this x s
  | _ => False

/-- The operation is allowed, and returns without an exception. -/
def Completes [DecidableEq ι] (op : Op ι T A) (s s' : State ι T A) : Prop :=
  op.Ready traits s ∧ ∃ faults,
    run (exec traits) faults (op.code traits values) s = some (some (), s')

end Definitions

/-- The reference model: what each place shows before and after, each object with a
value of its own. -/
def Reference [DecidableEq ι] (seen seen' : ι → Option (Option T)) : Op ι T A → Prop
  | ofValue this u | ofValueWith this _ u | assignValue this u _ =>
      seen' = Function.update seen this (some (some u))
  | copy this x | copyWith this _ x | copyAssign this x =>
      seen' = Function.update seen this (seen x)
  | move this x | moveWith this _ x =>
      seen' = Function.update (Function.update seen x (some none)) this (seen x)
  | moveAssign this x => seen' = moveSeen this x seen
  | swap this x => seen' = Function.update (Function.update seen this (seen x)) x (seen this)
  | modify this action => ∃ v w, seen this = some (some v) ∧ action v = .ok w ∧
      seen' = Function.update seen this (some (some w))
  | modifyTransform this action transform => ∃ v w, seen this = some (some v) ∧
      (action v = .ok w ∨ transform v = some w) ∧
      seen' = Function.update seen this (some (some w))
  | destroy this => seen' = Function.update seen this none

end Op

section Steps

variable [DecidableEq ι] {traits : AllocatorTraits A} {values : ValueTraits T} {s : State ι T A}
  {this x : ι} {source : Handle A}

/-- An object that is constructed is seen at its place. -/
theorem wp_constructAt {constructor : Code ι T A (Handle A)} {seen : ι → Option (Option T)}
    {v : Option T} (unseen : seen this = none)
    (constructs : wp (exec traits) constructor (Constructed traits seen v)
      (Consistent traits []) s) :
    wp (exec traits) (constructAt this constructor)
      (fun _ => Shows traits (Function.update seen this (some v))) (Consistent traits []) s := by
  rw [constructAt, wp_bind]
  refine wp_mono (fun o s' constructed => ?_) (fun _ => id) constructs
  have vacant := constructed.vacant unseen
  rw [wp_emplace vacant]
  exact constructed.shows vacant

/-- The source of a move is not the place of the new object. -/
theorem unseen_moved (vacant : s.handles this = none) (found : s.handles x = some source) :
    Function.update s.observe x (some none) this = none := by
  rw [Function.update_of_ne (State.ne_of_vacant vacant found)]
  exact (observe_eq_none_iff s this).mpr vacant

/-- An operation that shows what the reference asks for, and cannot clobber. -/
theorem wp_follows {op : Op ι T A} (harmless : ¬ op.Clobbers traits values s)
    {seen : ι → Option (Option T)} (reference : op.Reference s.observe seen)
    (holds : wp (exec traits) (op.code traits values) (fun _ => Shows traits seen)
      (Consistent traits []) s) :
    wp (exec traits) (op.code traits values)
      (fun _ s' => Consistent traits [] s' ∧
        (op.Reference s.observe s'.observe ↔ ¬ op.Clobbers traits values s))
      (Consistent traits []) s := by
  refine wp_mono (fun _ s' shown => ⟨shown.consistent, iff_of_true ?_ harmless⟩) (fun _ => id) holds
  rw [shown.observe]
  exact reference

/-- Every allowed operation keeps the state consistent, whether it returns or throws,
and follows the reference exactly if it does not clobber. -/
theorem wp_code (values : ValueTraits T) (inv : Consistent traits [] s) {op : Op ι T A}
    (ready : op.Ready traits s) :
    wp (exec traits) (op.code traits values)
      (fun _ s' => Consistent traits [] s' ∧
        (op.Reference s.observe s'.observe ↔ ¬ op.Clobbers traits values s))
      (Consistent traits []) s := by
  cases op with
  | ofValue this u =>
      refine wp_follows not_false rfl ?_
      apply wp_constructAt ((observe_eq_none_iff s this).mpr ready)
      exact wp_mono (fun _ _ => And.left) (fun _ => id) (wp_ofValueWith inv traits.default u)
  | ofValueWith this alloc u =>
      refine wp_follows not_false rfl ?_
      apply wp_constructAt ((observe_eq_none_iff s this).mpr ready)
      exact wp_mono (fun _ _ => And.left) (fun _ => id) (wp_ofValueWith inv alloc u)
  | copy this x =>
      obtain ⟨vacant, source, found⟩ := ready
      refine wp_follows not_false (congrArg _ (State.observe_of_handles found).symm) ?_
      exact wp_constructAt ((observe_eq_none_iff s this).mpr vacant) (wp_copy inv found)
  | copyWith this alloc x =>
      obtain ⟨vacant, source, found⟩ := ready
      refine wp_follows not_false (congrArg _ (State.observe_of_handles found).symm) ?_
      exact wp_constructAt ((observe_eq_none_iff s this).mpr vacant) (wp_copyWith inv found alloc)
  | move this x =>
      obtain ⟨vacant, source, found⟩ := ready
      refine wp_follows not_false (congrArg _ (State.observe_of_handles found).symm) ?_
      exact wp_constructAt (unseen_moved vacant found) (wp_move inv found)
  | moveWith this alloc x =>
      obtain ⟨vacant, source, found⟩ := ready
      refine wp_follows not_false (congrArg _ (State.observe_of_handles found).symm) ?_
      exact wp_constructAt (unseen_moved vacant found) (wp_moveWith inv found alloc)
  | copyAssign this x =>
      obtain ⟨⟨target, place⟩, source, found⟩ := ready
      exact wp_follows not_false rfl (wp_copyAssign inv place found)
  | moveAssign this x =>
      obtain ⟨⟨target, place⟩, source, found⟩ := ready
      obtain ⟨seen, -, follows, holds⟩ := wp_moveAssign values inv place found
      refine wp_mono (fun _ s' shown => ⟨shown.consistent, ?_⟩) (fun _ => And.left) holds
      rw [shown.observe]
      exact follows
  | assignValue this u temporary =>
      obtain ⟨⟨target, place⟩, vacant⟩ := ready
      exact wp_follows not_false rfl (wp_assignValue inv place vacant u)
  | swap this x =>
      obtain ⟨target, source, place, found, swappable⟩ := ready
      exact wp_follows not_false rfl (wp_swap inv place found swappable _)
  | modify this action =>
      obtain ⟨p, points⟩ := ready
      obtain ⟨target, m, v, place, points, live, constructed, seen⟩ := inv.shown points
      refine wp_mono ?_ (fun _ => id) (wp_modify inv place points live constructed action)
      rintro _ s' ⟨w, returned, shown⟩
      exact ⟨shown.consistent,
        iff_of_true ⟨v, w, seen, returned, shown.observe⟩ not_false⟩
  | modifyTransform this action transform =>
      obtain ⟨p, points⟩ := ready
      obtain ⟨target, m, v, place, points, live, constructed, seen⟩ := inv.shown points
      refine wp_mono ?_ (fun _ => id)
        (wp_modifyTransform inv place points live constructed action transform)
      rintro _ s' ⟨w, returned, shown⟩
      exact ⟨shown.consistent,
        iff_of_true ⟨v, w, seen, returned, shown.observe⟩ not_false⟩
  | destroy this =>
      obtain ⟨target, place⟩ := ready
      exact wp_follows not_false rfl (wp_destroy inv place _)

/-- An allowed operation has an outcome, whatever throws. -/
theorem Op.Ready.has_outcome (values : ValueTraits T) (inv : Consistent traits [] s) {op : Op ι T A}
    (ready : op.Ready traits s) (faults : List Bool) :
    (run (exec traits) faults (op.code traits values) s).isSome := by
  obtain ⟨result, s', outcome, -⟩ := run_of_wp (wp_code values inv ready) faults
  rw [outcome]
  rfl

/-- A completed operation follows the reference if and only if it does not clobber. -/
theorem Op.Completes.follows_iff (inv : Consistent traits [] s) {op : Op ι T A} {s' : State ι T A}
    (completes : op.Completes traits values s s') :
    Consistent traits [] s' ∧
      (op.Reference s.observe s'.observe ↔ ¬ op.Clobbers traits values s) := by
  obtain ⟨ready, faults, outcome⟩ := completes
  obtain ⟨result, reached, same, post⟩ := run_of_wp (wp_code values inv ready) faults
  obtain ⟨rfl, rfl⟩ := Prod.mk.inj (Option.some.inj (outcome.symm.trans same))
  exact post

end Steps

section Runs

variable [DecidableEq ι] (traits : AllocatorTraits A) (values : ValueTraits T)

/-- A completed operation that does not clobber. -/
def Op.Keeps (op : Op ι T A) (s s' : State ι T A) : Prop :=
  op.Completes traits values s s' ∧ ¬ op.Clobbers traits values s

/-- Runs without clobbering show what the reference model shows after the same
operations. In every state they reach, every allowed operation has an outcome, and one
that completes follows the reference exactly if it does not clobber. -/
theorem observe_follows_reference {ops : List (Op ι T A)} {s : State ι T A}
    (run : Runs (Op.Keeps traits values) ops .empty s) :
    Runs (fun op seen seen' => Op.Reference seen seen' op) ops (fun _ => none) s.observe ∧
      ∀ op : Op ι T A, op.Ready traits s →
        (∀ faults, (Prog.run (exec traits) faults (op.code traits values) s).isSome) ∧
        ∀ s', op.Completes traits values s s' →
          (op.Reference s.observe s'.observe ↔ ¬ op.Clobbers traits values s) := by
  have simulated (op : Op ι T A) (s s' : State ι T A) (seen : ι → Option (Option T))
      (shows : Shows traits seen s) (step : op.Keeps traits values s s') :
      ∃ seen', Op.Reference seen seen' op ∧ Shows traits seen' s' := by
    obtain ⟨inv, rfl⟩ := shows
    obtain ⟨inv', follows⟩ := step.1.follows_iff inv
    exact ⟨s'.observe, follows.mpr step.2, inv', rfl⟩
  obtain ⟨seen, reference, inv, rfl⟩ := run.simulate simulated ⟨.empty, rfl⟩
  refine ⟨reference, fun op ready => ⟨ready.has_outcome values inv, fun s' completes => ?_⟩⟩
  exact (completes.follows_iff inv).2

end Runs

namespace Sample

/-- An allocator that names its memory resource, compares it and never propagates. -/
def resourceTraits : AllocatorTraits Nat where
  eq := fun a b => decide (a = b)
  eq_refl := fun _ => decide_eq_true rfl
  eq_symm := fun same => decide_eq_true (of_decide_eq_true same).symm
  eq_trans := fun first second =>
    decide_eq_true ((of_decide_eq_true first).trans (of_decide_eq_true second))
  isAlwaysEqual := false
  eq_of_isAlwaysEqual := nofun
  propagateOnContainerCopyAssignment := false
  propagateOnContainerMoveAssignment := false
  propagateOnContainerSwap := false
  selectOnContainerCopyConstruction := fun _ => 0
  default := 0

/-- A sequence whose move empties its source. -/
def sequenceTraits : ValueTraits (List Nat) where
  moved := fun _ => []
  interrupted := id
  halfAssigned := fun old _ => old

/-- Two objects share a model in the first resource; a third has its own in the second. -/
def shared : List (Op Nat (List Nat) Nat) :=
  [.ofValueWith 0 1 [5], .copyWith 1 1 0, .ofValueWith 2 2 [7]]

/-- The second object is modified, and leaves the first alone. -/
def modified : List (Op Nat (List Nat) Nat) := shared ++ [.modify 1 fun v => .ok (8 :: v)]

end Sample

/-- A copy is modified, and the original still shows its value. -/
theorem observe_follows_reference_modified :
    ∃ s, Runs (fun op seen seen' => Op.Reference seen seen' op) Sample.modified (fun _ => none)
        s.observe ∧
      (∀ op : Op Nat (List Nat) Nat, op.Ready Sample.resourceTraits s →
        (∀ faults, (Prog.run (exec Sample.resourceTraits) faults
          (op.code Sample.resourceTraits Sample.sequenceTraits) s).isSome) ∧
        ∀ s', op.Completes Sample.resourceTraits Sample.sequenceTraits s s' →
          (op.Reference s.observe s'.observe ↔
            ¬ op.Clobbers Sample.resourceTraits Sample.sequenceTraits s)) ∧
      s.observe 0 = some (some [5]) ∧ s.observe 1 = some (some [8, 5]) := by
  have run : ∃ s, Runs (Op.Keeps Sample.resourceTraits Sample.sequenceTraits) Sample.modified
      .empty s ∧ s.observe 0 = some (some [5]) ∧ s.observe 1 = some (some [8, 5]) := by
    refine ⟨_, .cons ⟨⟨rfl, [], rfl⟩, not_false⟩ (.cons ⟨⟨⟨rfl, _, rfl⟩, [], rfl⟩, not_false⟩
      (.cons ⟨⟨rfl, [], rfl⟩, not_false⟩ (.cons ⟨⟨⟨_, rfl⟩, [], rfl⟩, not_false⟩ (.nil _)))),
      rfl, rfl⟩
  obtain ⟨s, run, first, second⟩ := run
  obtain ⟨reference, outcomes⟩ :=
    observe_follows_reference Sample.resourceTraits Sample.sequenceTraits run
  exact ⟨s, reference, outcomes, first, second⟩

/-- A move assignment to the third object empties the model that the second still has. -/
theorem moveAssign_empties_other :
    ∃ s, Runs (Op.Completes Sample.resourceTraits Sample.sequenceTraits)
        (Sample.shared ++ [.moveAssign 2 0]) .empty s ∧
      s.observe 1 = some (some []) ∧
      ¬ Runs (fun op seen seen' => Op.Reference seen seen' op)
        (Sample.shared ++ [.moveAssign 2 0]) (fun _ => none) s.observe := by
  refine ⟨_, .cons ⟨rfl, [], rfl⟩ (.cons ⟨⟨rfl, _, rfl⟩, [], rfl⟩ (.cons ⟨rfl, [], rfl⟩
    (.cons ⟨⟨⟨_, rfl⟩, _, rfl⟩, [], rfl⟩ (.nil _)))), rfl, ?_⟩
  intro run
  cases run with
  | cons first run =>
      cases run with
      | cons second run =>
          cases run with
          | cons third run =>
              cases run with
              | cons fourth run =>
                  cases run
                  obtain rfl := first
                  obtain rfl := second
                  obtain rfl := third
                  exact absurd (congrFun fourth 1) (by decide)

end StdBitcoin.CopyOnWrite
