import StdBitcoin.CopyOnWrite.Counting
import StdBitcoin.Effects.Liberal

/-!
# The allocator of a value assignment

An assignment in place leaves the allocator of its handle alone. An assignment through
a temporary ends with a move assignment from it, which takes its allocator over if
allocators propagate. Which of the two happens depends on who shares the model.
-/

namespace StdBitcoin.CopyOnWrite

open Effects Prog

variable {ι T A : Type}

namespace State

/-- `get_allocator()` of the object at a place. -/
def getAllocator (s : State ι T A) (h : ι) : Option A := (s.handles h).map Handle.alloc

/-- The object at a place has a model that no other object shares. -/
def SoleOwner (s : State ι T A) (h : ι) : Prop :=
  ∃ p, s.self h = some p ∧ ∀ k, s.self k = some p → k = h

theorem getAllocator_of_handles {s : State ι T A} {h : ι} {o : Handle A}
    (found : s.handles h = some o) : s.getAllocator h = some o.alloc := by
  rw [getAllocator, found]
  rfl

theorem getAllocator_setHandle_of_ne [DecidableEq ι] {s : State ι T A} {h k : ι}
    (different : k ≠ h) (o : Option (Handle A)) :
    (s.setHandle h o).getAllocator k = s.getAllocator k := by
  rw [getAllocator, handles_setHandle_of_ne different, getAllocator]

end State

/-- The command gives the objects at these places no allocator and no end. -/
def Cmd.Spares (places : ι → Prop) : Cmd ι T A → Prop
  | .setAlloc h _ | .emplace h _ | .remove h => ¬ places h
  | _ => True

section Blocks

variable {places : ι → Prop}

theorem calm_construct (u : T) : (construct u : Code ι T A T).Calm (Cmd.Spares places) :=
  .bind .mayThrow fun _ => .pure u

theorem calm_constructMove (values : ValueTraits T) (p : Loc) :
    (constructMove values p : Code ι T A T).Calm (Cmd.Spares places) := by
  apply Calm.bind (.perform trivial)
  intro v
  apply Calm.fault
  · exact all_bind (all_perform trivial) fun _ => all_throw
  · exact .bind (.perform trivial) fun _ => .pure v

theorem calm_assign (values : ValueTraits T) (p : Loc) (u : T) :
    (assign values p u : Code ι T A Unit).Calm (Cmd.Spares places) := by
  apply Calm.bind (.perform trivial)
  intro v
  apply Calm.fault
  · exact all_bind (all_perform trivial) fun _ => all_throw
  · exact .perform trivial

/-- Making a model changes no object. -/
theorem calm_makeModel (alloc : A) {build : Code ι T A T} (calm : build.Calm (Cmd.Spares places)) :
    (makeModel alloc build).Calm (Cmd.Spares places) := by
  apply Calm.bind .mayThrow
  intro _
  apply Calm.bind (.perform trivial)
  intro p
  apply Calm.bind
  · exact calm.onThrow (all_bind (all_perform trivial) fun _ => all_throw)
  · intro v
    exact .bind (.perform trivial) fun _ => .pure p

theorem calm_drop (o : Handle A) : (drop o : Code ι T A Unit).Calm (Cmd.Spares places) := by
  rw [drop]
  split
  · exact .pure ()
  · apply Calm.bind (.perform trivial)
    intro count
    split
    · exact .perform trivial
    · exact .pure ()

theorem calm_reset (this : ι) (v : Option Loc) :
    (reset this v : Code ι T A Unit).Calm (Cmd.Spares places) := by
  apply Calm.bind (.perform trivial)
  intro o
  exact .bind (calm_drop o) fun _ => .perform trivial

theorem calm_destroy {this : ι} (other : ¬ places this) :
    (destroy this : Code ι T A Unit).Calm (Cmd.Spares places) := by
  apply Calm.bind (.perform trivial)
  intro o
  have dropped : (do drop o; remove this : Code ι T A Unit).Calm (Cmd.Spares places) :=
    .bind (calm_drop o) fun _ => .perform other
  apply Calm.bind
  · split
    · exact .pure ()
    · exact .bind (.perform trivial) fun _ => .perform trivial
  · exact fun _ => dropped

variable [DecidableEq ι] {traits : AllocatorTraits A} {values : ValueTraits T}

/-- A move assignment leaves the allocator of its target alone if allocators do not propagate. -/
theorem calm_moveAssign {this x : ι}
    (keeps : traits.propagateOnContainerMoveAssignment → ¬ places this) :
    (moveAssign traits values this x).Calm (Cmd.Spares places) := by
  rw [moveAssign]
  split
  · exact .pure ()
  · apply Calm.bind (.perform trivial)
    intro source
    apply Calm.bind (.perform trivial)
    intro target
    apply Calm.bind
    · split
      · exact calm_reset this none
      · rename_i p points
        split
        · exact .bind (.perform trivial) fun _ => calm_reset this (some p)
        · apply Calm.bind (calm_makeModel _ (calm_constructMove values p))
          intro q
          exact .bind (calm_reset this (some q)) fun _ => calm_reset x none
    · intro _
      split
      · rename_i propagates
        exact .perform (keeps propagates)
      · exact .pure ()

/-- Replacing the value keeps the allocator that is not propagated. -/
theorem calm_replaceValue {this temporary : ι} (u : T)
    (keeps : traits.propagateOnContainerMoveAssignment → ¬ places this)
    (other : ¬ places temporary) :
    (replaceValue traits values this u temporary).Calm (Cmd.Spares places) := by
  have destroyed : (destroy temporary : Code ι T A Unit).Calm (Cmd.Spares places) :=
    calm_destroy other
  apply Calm.bind
  · exact .bind (calm_makeModel _ (calm_construct u)) fun _ => .pure _
  intro o
  have emplaced : (emplace temporary o : Code ι T A Unit).Calm (Cmd.Spares places) := .perform other
  apply Calm.bind emplaced
  intro _
  apply Calm.bind
  · exact (calm_moveAssign keeps).onThrow (all_bind destroyed.all fun _ => all_throw)
  · exact fun _ => destroyed

/-- The assignment of a value keeps the allocator that is not propagated. -/
theorem calm_assignValue {this temporary : ι} (u : T)
    (keeps : traits.propagateOnContainerMoveAssignment → ¬ places this)
    (other : ¬ places temporary) :
    (assignValue traits values this u temporary).Calm (Cmd.Spares places) := by
  have replaced : (replaceValue traits values this u temporary).Calm (Cmd.Spares places) :=
    calm_replaceValue u keeps other
  apply Calm.bind (.perform trivial)
  intro o
  split
  · exact replaced
  · rename_i p points
    apply Calm.bind (.perform trivial)
    intro count
    split
    · exact calm_assign values p u
    · exact replaced

end Blocks

section Allocators

variable [DecidableEq ι] {traits : AllocatorTraits A} {values : ValueTraits T}
  {s s' : State ι T A} {this temporary : ι}

theorem liberal_handle {h : ι} {o : Handle A} {normal : Handle A → State ι T A → Prop}
    {thrown : State ι T A → Prop} (found : s.handles h = some o) :
    ensures (liberal (exec traits)) (handle h) normal thrown s ↔ normal o s :=
  ensures_liberal_perform (by rw [exec, found]; rfl)

theorem liberal_load {p : Loc} {m : Model T A} {normal : Nat → State ι T A → Prop}
    {thrown : State ι T A → Prop} (live : s.models p = some m) :
    ensures (liberal (exec traits)) (load p) normal thrown s ↔ normal m.count s :=
  ensures_liberal_perform (by rw [exec, live]; rfl)

theorem liberal_emplace {h : ι} {o : Handle A} {normal : Unit → State ι T A → Prop}
    {thrown : State ι T A → Prop} (next : ∀ t, t.handles h = some o → normal () t) :
    ensures (liberal (exec traits)) (emplace h o) normal thrown s := by
  intro _ t outcome
  rw [exec] at outcome
  split at outcome
  · obtain ⟨-, rfl⟩ := Prod.mk.inj (Option.some.inj outcome)
    exact next _ (State.handles_setHandle_self ..)
  · cases outcome

theorem liberal_setAlloc {h : ι} {alloc : A} {normal : Unit → State ι T A → Prop}
    {thrown : State ι T A → Prop} (next : ∀ t, t.getAllocator h = some alloc → normal () t) :
    ensures (liberal (exec traits)) (setAlloc h alloc) normal thrown s := by
  intro _ t outcome
  obtain ⟨o, -, same⟩ := Option.map_eq_some_iff.mp outcome
  obtain ⟨-, rfl⟩ := Prod.mk.inj same
  apply next
  rw [State.getAllocator, State.handles_setHandle_self]
  rfl

/-- A command that spares a place keeps the allocator there. -/
theorem getAllocator_exec {c : Cmd ι T A} {answer : Answer c} (spares : c.Spares (· = this))
    (outcome : exec traits c s = some (answer, s')) :
    s'.getAllocator this = s.getAllocator this := by
  cases c with
  | handle h | load p | value p | fetchAdd p | fetchSub p | setValue p v =>
      obtain ⟨_, -, same⟩ := Option.map_eq_some_iff.mp outcome
      obtain ⟨-, rfl⟩ := Prod.mk.inj same
      rfl
  | setSelf h self =>
      obtain ⟨o, found, same⟩ := Option.map_eq_some_iff.mp outcome
      obtain ⟨-, rfl⟩ := Prod.mk.inj same
      by_cases here : this = h
      · subst here
        rw [State.getAllocator_of_handles found, State.getAllocator_of_handles
          (State.handles_setHandle_self ..)]
      · exact State.getAllocator_setHandle_of_ne here _
  | setAlloc h alloc | remove h =>
      obtain ⟨_, -, same⟩ := Option.map_eq_some_iff.mp outcome
      obtain ⟨-, rfl⟩ := Prod.mk.inj same
      exact State.getAllocator_setHandle_of_ne (Ne.symm spares) _
  | emplace h o =>
      rw [exec] at outcome
      split at outcome
      · obtain ⟨-, rfl⟩ := Prod.mk.inj (Option.some.inj outcome)
        exact State.getAllocator_setHandle_of_ne (Ne.symm spares) _
      · cases outcome
  | allocate alloc =>
      obtain ⟨-, rfl⟩ := Prod.mk.inj (Option.some.inj outcome)
      rfl
  | deallocate alloc p =>
      rw [exec] at outcome
      split at outcome
      · cases outcome
      · obtain ⟨-, same⟩ := Option.ite_none_right_eq_some.mp outcome
        obtain ⟨-, rfl⟩ := Prod.mk.inj (Option.some.inj same)
        rfl
  | assert holds =>
      obtain ⟨-, same⟩ := Option.ite_none_right_eq_some.mp outcome
      obtain ⟨-, rfl⟩ := Prod.mk.inj (Option.some.inj same)
      rfl

/-- A program that spares a place keeps the allocator there. -/
theorem keeps_getAllocator {α : Type} {p : Code ι T A α} (calm : p.Calm (Cmd.Spares (· = this)))
    {alloc : Option A} (start : s.getAllocator this = alloc) :
    ensures (liberal (exec traits)) p (fun _ s' => s'.getAllocator this = alloc)
      (fun _ => True) s :=
  ensures_mono liberal_monotone (fun _ _ => id) (fun _ _ => trivial)
    (ensures_of_all (fun _ _ _ _ => getAllocator_exec) calm.all start)

/-- Where allocators propagate, a move assignment ends with the allocator of its source. -/
theorem getAllocator_moveAssign {x : ι} {source : Handle A} (distinct : x ≠ this)
    (found : s.handles x = some source) (propagates : traits.propagateOnContainerMoveAssignment) :
    ensures (liberal (exec traits)) (moveAssign traits values this x)
      (fun _ s' => s'.getAllocator this = some source.alloc) (fun _ => True) s := by
  rw [moveAssign, if_neg distinct, ensures_bind, liberal_handle found, ensures_bind]
  refine ensures_of_always (fun target s => ?_) fun _ => trivial
  rw [ensures_bind]
  refine ensures_of_always (fun _ s => ?_) fun _ => trivial
  rw [if_pos propagates]
  exact liberal_setAlloc fun _ => id

/-- The temporary is built with the default allocator, and hands it over. -/
theorem getAllocator_replaceValue (u : T) (distinct : temporary ≠ this)
    (propagates : traits.propagateOnContainerMoveAssignment) :
    ensures (liberal (exec traits)) (replaceValue traits values this u temporary)
      (fun _ s' => s'.getAllocator this = some traits.default) (fun _ => True) s := by
  have built : ensures (liberal (exec traits)) (ofValue traits u)
      (fun o _ => o.alloc = traits.default) (fun _ => True) s := by
    rw [ofValue, ofValueWith, ensures_bind]
    exact ensures_of_always (fun _ _ => rfl) fun _ => trivial
  rw [replaceValue, ensures_bind]
  refine ensures_mono liberal_monotone (fun o s allocator => ?_) (fun _ => id) built
  rw [ensures_bind]
  refine liberal_emplace fun t found => ?_
  rw [ensures_bind, ensures_onThrow]
  refine ensures_mono liberal_monotone (fun _ s moved => ?_) (fun s _ => ?_)
    (getAllocator_moveAssign distinct found propagates)
  · rw [allocator] at moved
    exact keeps_getAllocator (calm_destroy distinct) moved
  · rw [ensures_bind]
    exact ensures_of_always (fun _ _ => trivial) fun _ => trivial

end Allocators

/-- A value assignment shows the value, and keeps the allocator. -/
structure AssignsValue (traits : AllocatorTraits A) (this : ι) (u : T) (s s' : State ι T A) :
    Prop where
  observes : s'.observe this = some (some u)
  allocator : ∃ before after, s.getAllocator this = some before ∧
    s'.getAllocator this = some after ∧ traits.eq after before

/-- The object shares its model with nobody, or allocators do not propagate, or the default
allocator is as good as that of the object. -/
def AllocatorSafe (traits : AllocatorTraits A) (this : ι) (s : State ι T A) : Prop :=
  s.SoleOwner this ∨ traits.propagateOnContainerMoveAssignment = false ∨
    ∃ alloc, s.getAllocator this = some alloc ∧ traits.eq traits.default alloc

/-- The allocators before and after compare equal exactly if the object's is safe. -/
def AllocatorDecided (traits : AllocatorTraits A) (this : ι) (s s' : State ι T A) : Prop :=
  ∃ before after, s.getAllocator this = some before ∧ s'.getAllocator this = some after ∧
    (traits.eq after before ↔ AllocatorSafe traits this s)

section Paths

variable {traits : AllocatorTraits A} {s : State ι T A} {this : ι} {target : Handle A}

/-- The sole owner of a model is its only reference. -/
theorem Consistent.soleOwner_iff (inv : Consistent traits [] s) {p : Loc} {m : Model T A}
    (points : s.self this = some p) (live : s.models p = some m) :
    s.SoleOwner this ↔ m.count = 1 := by
  constructor
  · intro sole
    obtain ⟨q, points', only⟩ := sole
    obtain rfl := Option.some.inj (points.symm.trans points')
    obtain ⟨owners, owns, count⟩ := (inv.accounted live).counted
    have single : owners = {this} := by
      ext k
      rw [owns, Finset.mem_singleton]
      exact ⟨only k, fun same => same ▸ points⟩
    rw [count, single, Finset.card_singleton, List.count_nil]
  · intro one
    exact ⟨p, points, fun k also => inv.sole live one points also⟩

variable [DecidableEq ι] {values : ValueTraits T} {temporary : ι}

/-- A path that spares the target. -/
theorem decided_of_calm (place : s.handles this = some target) (safe : AllocatorSafe traits this s)
    {p : Code ι T A Unit} (calm : p.Calm (Cmd.Spares (· = this))) :
    ensures (liberal (exec traits)) p (fun _ => AllocatorDecided traits this s)
      (fun _ => True) s := by
  have before := State.getAllocator_of_handles place
  refine ensures_mono liberal_monotone (fun _ _ same => ?_) (fun _ => id)
    (keeps_getAllocator calm before)
  exact ⟨target.alloc, target.alloc, before, same, iff_of_true (traits.eq_refl _) safe⟩

/-- The path through a temporary whose allocator is taken over. -/
theorem decided_of_replaceValue (place : s.handles this = some target) (distinct : temporary ≠ this)
    (shared : ¬ s.SoleOwner this) (propagates : traits.propagateOnContainerMoveAssignment) (u : T) :
    ensures (liberal (exec traits)) (replaceValue traits values this u temporary)
      (fun _ => AllocatorDecided traits this s) (fun _ => True) s := by
  have before := State.getAllocator_of_handles place
  refine ensures_mono liberal_monotone (fun _ _ handed => ?_) (fun _ => id)
    (getAllocator_replaceValue u distinct propagates)
  refine ⟨target.alloc, traits.default, before, handed, ?_⟩
  rw [AllocatorSafe, before, propagates]
  simp [shared]

/-- What a value assignment does to the allocator, on every path. -/
theorem decided_of_assignValue (inv : Consistent traits [] s) (place : s.handles this = some target)
    (vacant : s.handles temporary = none) (u : T) :
    ensures (liberal (exec traits)) (assignValue traits values this u temporary)
      (fun _ => AllocatorDecided traits this s) (fun _ => True) s := by
  have distinct : temporary ≠ this := State.ne_of_vacant vacant place
  by_cases propagates : traits.propagateOnContainerMoveAssignment
  · rw [assignValue, ensures_bind, liberal_handle place]
    split
    · rename_i null
      apply decided_of_replaceValue place distinct ?_ propagates
      intro sole
      obtain ⟨p, points, -⟩ := sole
      rw [State.self_of_handles place, null] at points
      cases points
    · rename_i p points
      obtain ⟨m, live, -⟩ := inv.pointed place points
      have sole_iff := inv.soleOwner_iff ((State.self_of_handles place).trans points) live
      rw [ensures_bind, liberal_load live]
      split
      · rename_i one
        exact decided_of_calm place (.inl (sole_iff.mpr one)) (calm_assign values p u)
      · rename_i several
        exact decided_of_replaceValue place distinct (mt sole_iff.mp several) propagates u
  · have safe : AllocatorSafe traits this s := .inr (.inl (Bool.eq_false_of_not_eq_true propagates))
    exact decided_of_calm place safe (calm_assignValue u (absurd · propagates) distinct)

end Paths

/-- In every reachable state a value assignment to any object returns if nothing throws.
If it returns, the object shows the value and has an equal allocator exactly if it was the
sole owner of its model, or allocators do not propagate, or its own equals the default. -/
theorem assignsValue_iff [DecidableEq ι] (traits : AllocatorTraits A) (values : ValueTraits T)
    {ops : List (Op ι T A)} {x : State ι T A × Record ι T A}
    (run : Runs (Op.Happens traits values) ops (.empty, []) x) {this temporary : ι} (u : T)
    (ready : (Op.assignValue this u temporary).Ready traits x.1) :
    (∃ s', Prog.run (exec traits) [] (assignValue traits values this u temporary) x.1 =
      some (some (), s')) ∧
    ∀ s', (Op.assignValue this u temporary).Completes traits values x.1 s' →
      (AssignsValue traits this u x.1 s' ↔ AllocatorSafe traits this x.1) := by
  have tidy : Tidy traits x :=
    run.preserves (fun _ _ _ tidy happens => happens.tidy tidy) .empty
  have inv := tidy.consistent
  refine ⟨?_, fun s' completes => ?_⟩
  · have outcome := ready.has_outcome values inv []
    obtain ⟨⟨result, s'⟩, outcome⟩ := Option.isSome_iff_exists.mp outcome
    have calm : (assignValue traits values this u temporary).Calm (Cmd.Spares fun _ => False) :=
      calm_assignValue u (fun _ => not_false) not_false
    obtain ⟨_, rfl⟩ := calm.steady.returns outcome
    exact ⟨s', outcome⟩
  · obtain ⟨-, follows⟩ := completes.follows_iff inv
    have seen := congrFun (follows.mpr not_false) this
    rw [Function.update_self] at seen
    obtain ⟨⟨⟨target, place⟩, vacant⟩, faults, returns⟩ := completes
    obtain ⟨before, after, found, found', decided⟩ :=
      normal_of_ensures (decided_of_assignValue inv place vacant u) returns
    constructor
    · intro assigns
      obtain ⟨before', after', same, same', agrees⟩ := assigns.allocator
      obtain rfl := Option.some.inj (found.symm.trans same)
      obtain rfl := Option.some.inj (found'.symm.trans same')
      exact decided.mp agrees
    · intro safe
      exact ⟨seen, before, after, found, found', decided.mpr safe⟩

namespace Sample

/-- An allocator that propagates on move assignment. -/
def propagatingTraits : AllocatorTraits Nat :=
  { resourceTraits with propagateOnContainerMoveAssignment := true }

end Sample

/-- A value is assigned to one of two objects that share a model. -/
theorem assignsValue_iff_shared :
    ∃ x, Runs (Op.Happens Sample.resourceTraits Sample.sequenceTraits) Sample.shared
        (.empty, []) x ∧
      ¬ x.1.SoleOwner 0 ∧
      ∃ s', Prog.run (exec Sample.resourceTraits) []
          (assignValue Sample.resourceTraits Sample.sequenceTraits 0 [9] 3) x.1 =
            some (some (), s') ∧
        AssignsValue Sample.resourceTraits 0 [9] x.1 s' := by
  have run : ∃ x, Runs (Op.Happens Sample.resourceTraits Sample.sequenceTraits) Sample.shared
      (.empty, []) x ∧ x.1.self 0 = some 0 ∧ x.1.self 1 = some 0 ∧
      (Op.assignValue 0 [9] 3).Ready Sample.resourceTraits x.1 := by
    refine ⟨_, .cons ⟨rfl, [], _, rfl⟩ (.cons ⟨⟨rfl, _, rfl⟩, [], _, rfl⟩
      (.cons ⟨rfl, [], _, rfl⟩ (.nil _))), rfl, rfl, ⟨_, rfl⟩, rfl⟩
  obtain ⟨x, run, first, second, ready⟩ := run
  obtain ⟨⟨s', returns⟩, outcomes⟩ :=
    assignsValue_iff Sample.resourceTraits Sample.sequenceTraits run [9] ready
  refine ⟨x, run, ?_, s', returns, (outcomes s' ⟨ready, [], returns⟩).mpr (.inr (.inl rfl))⟩
  intro sole
  obtain ⟨p, points, only⟩ := sole
  obtain rfl := Option.some.inj (first.symm.trans points)
  exact absurd (only 1 second) (by decide)

/-- The first object had its allocator from the first resource, and a shared model. -/
theorem assignValue_replaces_allocator :
    ∃ x, Runs (Op.Happens Sample.propagatingTraits Sample.sequenceTraits)
        [.ofValueWith 0 1 [5], .copyWith 1 1 0] (.empty, []) x ∧
      ∃ s', (Op.assignValue 0 [9] 3).Completes Sample.propagatingTraits Sample.sequenceTraits
          x.1 s' ∧
        s'.observe 0 = some (some [9]) ∧
        x.1.getAllocator 0 = some 1 ∧ s'.getAllocator 0 = some 0 ∧
        ¬ AssignsValue Sample.propagatingTraits 0 [9] x.1 s' := by
  refine ⟨_, .cons ⟨rfl, [], _, rfl⟩ (.cons ⟨⟨rfl, _, rfl⟩, [], _, rfl⟩ (.nil _)), _,
    ⟨⟨⟨_, rfl⟩, rfl⟩, [], rfl⟩, rfl, rfl, rfl, ?_⟩
  intro assigns
  obtain ⟨before, after, found, found', agrees⟩ := assigns.allocator
  obtain rfl := Option.some.inj found
  obtain rfl := Option.some.inj found'
  exact absurd agrees (by decide)

end StdBitcoin.CopyOnWrite
