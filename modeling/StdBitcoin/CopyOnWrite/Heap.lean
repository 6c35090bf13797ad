import Mathlib.Data.Option.Basic
import Mathlib.Logic.Function.Basic
import StdBitcoin.Effects.Prog

/-!
# Handles and models

A handle is a `copy_on_write` object: an allocator and a pointer to a model, null once
the object is valueless. Several handles may point to one model, which counts them.
The commands are the accesses to these objects; one without an outcome is undefined
behaviour.
-/

namespace StdBitcoin.CopyOnWrite

open Effects

/-- `std::allocator_traits<Allocator>`, with the requirements on allocator equality. -/
structure AllocatorTraits (A : Type) where
  eq : A → A → Bool
  eq_refl : ∀ a, eq a a
  eq_symm : ∀ {a b}, eq a b → eq b a
  eq_trans : ∀ {a b c}, eq a b → eq b c → eq a c
  isAlwaysEqual : Bool
  eq_of_isAlwaysEqual : isAlwaysEqual → ∀ a b, eq a b
  propagateOnContainerCopyAssignment : Bool
  propagateOnContainerMoveAssignment : Bool
  propagateOnContainerSwap : Bool
  selectOnContainerCopyConstruction : A → A
  /-- `Allocator{}`. -/
  default : A

/-- What a move of a `T` leaves in its source, what a move that throws leaves there, and what an
assignment that throws makes of the old value and the one to be assigned. -/
structure ValueTraits (T : Type) where
  moved : T → T
  interrupted : T → T
  halfAssigned : T → T → T

/-- The address of a model. -/
abbrev Loc := Nat

/-- The members of a `copy_on_write` object. -/
@[ext] structure Handle (A : Type) where
  alloc : A
  self : Option Loc
deriving DecidableEq

/-- `model`, with the allocator that its memory came from. The value is absent before
its construction. -/
@[ext] structure Model (T A : Type) where
  count : Nat
  value : Option T
  alloc : A

/-- The objects alive at each place and the models at each address. -/
structure State (ι T A : Type) where
  handles : ι → Option (Handle A)
  models : Loc → Option (Model T A)
  /-- Addresses are not used twice. -/
  next : Loc

variable {ι T A : Type}

namespace State

/-- No object and no model. -/
def empty : State ι T A := ⟨fun _ => none, fun _ => none, 0⟩

/-- The pointer of the handle at a place. -/
def self (s : State ι T A) (h : ι) : Option Loc := (s.handles h).bind Handle.self

/-- The value of a live model. -/
def valueAt (s : State ι T A) (p : Loc) : Option T := (s.models p).bind Model.value

/-- What can be seen of the object at a place: nothing if there is none, else its value
unless it is valueless. -/
def observe (s : State ι T A) (h : ι) : Option (Option T) :=
  (s.handles h).map fun o => o.self.bind s.valueAt

/-- The state with another model at an address. -/
def setModel (s : State ι T A) (p : Loc) (m : Option (Model T A)) : State ι T A :=
  { s with models := Function.update s.models p m }

/-- The state with another object at a place. -/
def setHandle [DecidableEq ι] (s : State ι T A) (h : ι) (o : Option (Handle A)) : State ι T A :=
  { s with handles := Function.update s.handles h o }

end State

/-- Accesses to handles and models. -/
inductive Cmd (ι T A : Type) where
  | handle (h : ι)
  | setSelf (h : ι) (self : Option Loc)
  | setAlloc (h : ι) (alloc : A)
  | emplace (h : ι) (o : Handle A)
  | remove (h : ι)
  | load (p : Loc)
  | fetchAdd (p : Loc)
  | fetchSub (p : Loc)
  | value (p : Loc)
  | setValue (p : Loc) (v : T)
  | allocate (alloc : A)
  | deallocate (alloc : A) (p : Loc)
  | assert (holds : Bool)

/-- What a command returns. -/
def Answer : Cmd ι T A → Type
  | .handle _ => Handle A
  | .load _ | .fetchAdd _ | .fetchSub _ => Nat
  | .value _ => T
  | .allocate _ => Loc
  | .setSelf _ _ | .setAlloc _ _ | .emplace _ _ | .remove _ | .setValue _ _ | .deallocate _ _
  | .assert _ => Unit

section Exec

variable [DecidableEq ι] (traits : AllocatorTraits A)

/-- The outcome of a command, if it is defined. -/
def exec : (c : Cmd ι T A) → State ι T A → Option (Answer c × State ι T A)
  | .handle h, s => (s.handles h).map fun o => (o, s)
  | .setSelf h self, s => (s.handles h).map fun o => ((), s.setHandle h (some { o with self }))
  | .setAlloc h alloc, s => (s.handles h).map fun o => ((), s.setHandle h (some { o with alloc }))
  | .emplace h o, s =>
      match s.handles h with
      | none => some ((), s.setHandle h (some o))
      | some _ => none
  | .remove h, s => (s.handles h).map fun _ => ((), s.setHandle h none)
  | .load p, s => (s.models p).map fun m => (m.count, s)
  | .fetchAdd p, s =>
      (s.models p).map fun m => (m.count, s.setModel p (some { m with count := m.count + 1 }))
  | .fetchSub p, s =>
      (s.models p).map fun m => (m.count, s.setModel p (some { m with count := m.count - 1 }))
  | .value p, s => (s.valueAt p).map fun v => (v, s)
  | .setValue p v, s =>
      (s.models p).map fun m => ((), s.setModel p (some { m with value := some v }))
  | .allocate alloc, s =>
      some (s.next, { s.setModel s.next (some ⟨1, none, alloc⟩) with next := s.next + 1 })
  | .deallocate alloc p, s =>
      match s.models p with
      | none => none
      | some m => if traits.eq alloc m.alloc then some ((), s.setModel p none) else none
  | .assert holds, s => if holds then some ((), s) else none

end Exec

/-- A program on handles and models. -/
abbrev Code (ι T A : Type) := Prog (@Answer ι T A)

end StdBitcoin.CopyOnWrite
