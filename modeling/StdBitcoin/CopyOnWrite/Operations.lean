import StdBitcoin.CopyOnWrite.Heap

/-!
# The operations of `copy_on_write`

Every constructor, assignment and modifier as a program over the accesses to handles
and models, with the points at which an allocation or an operation of the value type
may throw. A constructor yields the members of the new object; the object comes into
being once its constructor has returned.
-/

namespace StdBitcoin.CopyOnWrite

open Effects

variable {ι T A : Type}

/-- Reads an object. -/
def handle (h : ι) : Code ι T A (Handle A) := Prog.perform (Cmd.handle h)

/-- Sets the pointer of an object. -/
def setSelf (h : ι) (self : Option Loc) : Code ι T A Unit := Prog.perform (Cmd.setSelf h self)

/-- Sets the allocator of an object. -/
def setAlloc (h : ι) (alloc : A) : Code ι T A Unit := Prog.perform (Cmd.setAlloc h alloc)

/-- Makes an object. -/
def emplace (h : ι) (o : Handle A) : Code ι T A Unit := Prog.perform (Cmd.emplace h o)

/-- Ends the life of an object. -/
def remove (h : ι) : Code ι T A Unit := Prog.perform (Cmd.remove h)

/-- `load` of the reference count. -/
def load (p : Loc) : Code ι T A Nat := Prog.perform (Cmd.load p)

/-- `fetch_add` of the reference count. -/
def fetchAdd (p : Loc) : Code ι T A Nat := Prog.perform (Cmd.fetchAdd p)

/-- `fetch_sub` of the reference count. -/
def fetchSub (p : Loc) : Code ι T A Nat := Prog.perform (Cmd.fetchSub p)

/-- Reads the value of a model. -/
def value (p : Loc) : Code ι T A T := Prog.perform (Cmd.value p)

/-- Sets the value of a model. -/
def setValue (p : Loc) (v : T) : Code ι T A Unit := Prog.perform (Cmd.setValue p v)

/-- Allocates memory for a model. -/
def allocate (alloc : A) : Code ι T A Loc := Prog.perform (Cmd.allocate alloc)

/-- Deallocates the memory of a model. -/
def deallocate (alloc : A) (p : Loc) : Code ι T A Unit := Prog.perform (Cmd.deallocate alloc p)

/-- `assert`. -/
def assert (holds : Bool) : Code ι T A Unit := Prog.perform (Cmd.assert holds)

/-- The pointer that is about to be dereferenced; a null one is asserted against. -/
def pointee (o : Handle A) : Code ι T A Loc :=
  match o.self with
  | some p => return p
  | none => do
      assert false
      Prog.throw

/-- Construct a `T` from a value outside all models. -/
def construct (u : T) : Code ι T A T := do
  Prog.mayThrow
  return u

/-- Copy-construct a `T` from the value of a model. -/
def constructCopy (p : Loc) : Code ι T A T := do
  let v ← value p
  Prog.mayThrow
  return v

section Values

variable (values : ValueTraits T)

/-- Move-construct a `T` from the value of a model. -/
def constructMove (p : Loc) : Code ι T A T := do
  let v ← value p
  Prog.fault
    (do setValue p (values.interrupted v)
        Prog.throw)
    (do setValue p (values.moved v)
        return v)

/-- Assign to the value of a model. -/
def assign (p : Loc) (u : T) : Code ι T A Unit := do
  let v ← value p
  Prog.fault
    (do setValue p (values.halfAssigned v u)
        Prog.throw)
    (setValue p u)

end Values

/-- `action(_self->value)`: the action leaves a value behind, also when it throws. -/
def invoke (action : T → Except T T) (p : Loc) : Code ι T A Unit := do
  let v ← value p
  match action v with
  | .ok w => setValue p w
  | .error w => do
      setValue p w
      Prog.throw

/-- `_make_model`; a constructor that throws gives the memory back. -/
def makeModel (alloc : A) (construct : Code ι T A T) : Code ι T A Loc := do
  Prog.mayThrow
  let p ← allocate alloc
  let v ← construct.onThrow do
    deallocate alloc p
    Prog.throw
  setValue p v
  return p

/-- `_destroy_model`. -/
def destroyModel (alloc : A) (p : Loc) : Code ι T A Unit := deallocate alloc p

/-- Give up the reference of a handle; the last one destroys the model. -/
def drop (o : Handle A) : Code ι T A Unit :=
  match o.self with
  | none => return ()
  | some p => do
      if (← fetchSub p) = 1 then
        destroyModel o.alloc p

/-- `_reset`. -/
def reset (this : ι) (v : Option Loc) : Code ι T A Unit := do
  drop (← handle this)
  setSelf this v

/-- The destructor. -/
def destroy (this : ι) : Code ι T A Unit := do
  let o ← handle this
  (match o.self with
    | none => return ()
    | some p => do assert (decide (0 < (← load p))) : Code ι T A Unit)
  drop o
  remove this

section Members

variable (traits : AllocatorTraits A) (values : ValueTraits T)

/-- `copy_on_write(allocator_arg, a, u)`. -/
def ofValueWith (alloc : A) (u : T) : Code ι T A (Handle A) := do
  let p ← makeModel alloc (construct u)
  return ⟨alloc, some p⟩

/-- `copy_on_write(u)`. -/
def ofValue (u : T) : Code ι T A (Handle A) := ofValueWith traits.default u

/-- A copy with the given allocator, sharing the model if the allocators agree. -/
def share (alloc : A) (same : Bool) (other : Handle A) : Code ι T A (Handle A) :=
  match other.self with
  | none => return ⟨alloc, none⟩
  | some p => do
      if same then
        let _ ← fetchAdd p
        return ⟨alloc, some p⟩
      else
        let q ← makeModel alloc (constructCopy p)
        return ⟨alloc, some q⟩

/-- `copy_on_write(allocator_arg, a, other)`. -/
def copyWith (alloc : A) (other : ι) : Code ι T A (Handle A) := do
  let o ← handle other
  share alloc (traits.eq alloc o.alloc) o

/-- `copy_on_write(x)`. -/
def copy (x : ι) : Code ι T A (Handle A) := do
  let o ← handle x
  let alloc := traits.selectOnContainerCopyConstruction o.alloc
  share alloc (traits.isAlwaysEqual || traits.eq alloc o.alloc) o

/-- `copy_on_write(allocator_arg, a, std::move(other))`. -/
def moveWith (alloc : A) (other : ι) : Code ι T A (Handle A) := do
  let o ← handle other
  match o.self with
  | none => return ⟨alloc, none⟩
  | some p =>
      if traits.isAlwaysEqual || traits.eq alloc o.alloc then
        setSelf other none
        return ⟨alloc, some p⟩
      else
        -- `*other` is const, so that moving from it copies
        let q ← makeModel alloc (constructCopy p)
        reset other none
        return ⟨alloc, some q⟩

/-- `copy_on_write(std::move(other))`. -/
def move (other : ι) : Code ι T A (Handle A) := do
  let o ← handle other
  setSelf other none
  return o

variable [DecidableEq ι]

/-- `operator=(copy_on_write const&)`. -/
def copyAssign (this x : ι) : Code ι T A Unit :=
  if x = this then return () else do
    let source ← handle x
    let target ← handle this
    (match source.self with
      | none => reset this none
      | some p =>
          if traits.propagateOnContainerCopyAssignment || traits.isAlwaysEqual ||
              traits.eq target.alloc source.alloc then do
            let _ ← fetchAdd p
            reset this (some p)
          else do
            let q ← makeModel target.alloc (constructCopy p)
            reset this (some q) : Code ι T A Unit)
    if traits.propagateOnContainerCopyAssignment then
      setAlloc this source.alloc

/-- `operator=(copy_on_write&&)`. -/
def moveAssign (this x : ι) : Code ι T A Unit :=
  if x = this then return () else do
    let source ← handle x
    let target ← handle this
    (match source.self with
      | none => reset this none
      | some p =>
          if traits.propagateOnContainerMoveAssignment ||
              traits.eq target.alloc source.alloc then do
            setSelf x none
            reset this (some p)
          else do
            -- the value is moved out of a model that others may share
            let q ← makeModel target.alloc (constructMove values p)
            reset this (some q)
            reset x none : Code ι T A Unit)
    if traits.propagateOnContainerMoveAssignment then
      setAlloc this source.alloc

/-- `*this = copy_on_write(u)`, with the place of the temporary. -/
def replaceValue (this : ι) (u : T) (temporary : ι) : Code ι T A Unit := do
  let o ← ofValue traits u
  emplace temporary o
  (moveAssign traits values this temporary).onThrow do
    destroy temporary
    Prog.throw
  destroy temporary

/-- `operator=(U&&)`. -/
def assignValue (this : ι) (u : T) (temporary : ι) : Code ι T A Unit := do
  let o ← handle this
  match o.self with
  | none => replaceValue traits values this u temporary
  | some p =>
      if (← load p) = 1 then
        assign values p u
      else
        replaceValue traits values this u temporary

end Members

/-- Leave a shared model for a new one. -/
def detach (this : ι) (o : Handle A) (p : Loc) (construct : Code ι T A T) : Code ι T A Unit := do
  let q ← makeModel o.alloc construct
  let _ ← fetchSub p
  setSelf this (some q)

/-- `modify(action)`. -/
def modify (this : ι) (action : T → Except T T) : Code ι T A Unit := do
  let o ← handle this
  let p ← pointee o
  (do if 1 < (← load p) then
        detach this o p (constructCopy p) : Code ι T A Unit)
  let o ← handle this
  let p ← pointee o
  invoke action p

/-- `modify(action, transform)`; a transform without a result throws. -/
def modifyTransform (this : ι) (action : T → Except T T) (transform : T → Option T) :
    Code ι T A Unit := do
  let o ← handle this
  let p ← pointee o
  if 1 < (← load p) then
    let v ← value p
    match transform v with
    | none => Prog.throw
    | some w => detach this o p (construct w)
  else
    invoke action p

/-- `swap`. -/
def swap (traits : AllocatorTraits A) (this other : ι) : Code ι T A Unit := do
  let left ← handle this
  let right ← handle other
  assert (traits.propagateOnContainerSwap || traits.eq left.alloc right.alloc)
  setSelf this right.self
  setSelf other left.self
  if traits.propagateOnContainerSwap then
    setAlloc this right.alloc
    setAlloc other left.alloc

end StdBitcoin.CopyOnWrite
