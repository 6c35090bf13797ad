import StdBitcoin.CopyOnWrite.Sealed
import StdBitcoin.Identity

/-!
# Transaction objects

A transaction holds its implementation record in a `copy_on_write` that it never modifies.
Agents copy, move, assign and destroy transactions that share records with those of others.
However their accesses interleave, each of them sees its own operations only, no record is
lost, and no transaction answers for another record than the one it was constructed with.
-/

namespace StdBitcoin

open CopyOnWrite Effects

/-- `std::allocator`: any two of them are equal. -/
def stdAllocator : AllocatorTraits Unit where
  eq := fun _ _ => true
  eq_refl := fun _ => rfl
  eq_symm := id
  eq_trans := fun first _ => first
  isAlwaysEqual := true
  eq_of_isAlwaysEqual := fun _ _ _ => rfl
  propagateOnContainerCopyAssignment := false
  propagateOnContainerMoveAssignment := true
  propagateOnContainerSwap := false
  selectOnContainerCopyConstruction := id
  default := ()

namespace Transaction

variable {ι Agent : Type}

/-- The public constructors, and the special member functions. -/
inductive ObjectOp (ι : Type) where
  | default (this : ι)
  | make (this : ι) (version : UInt32) (inputs : StdVector TxInput) (outputs : StdVector TxOutput)
      (locktime : UInt32)
  | copy (this x : ι)
  | move (this x : ι)
  | copyAssign (this x : ι)
  | moveAssign (this x : ι)
  | destroy (this : ι)

/-- What an operation does to `_impl`. -/
def ObjectOp.onImpl (H : List UInt8 → ByteArray32) : ObjectOp ι → Op ι Implementation Unit
  | default this => .ofValue this .default
  | make this version inputs outputs locktime =>
      .ofValue this (.make H version inputs outputs locktime)
  | copy this x => .copy this x
  | move this x => .move this x
  | copyAssign this x => .copyAssign this x
  | moveAssign this x => .moveAssign this x
  | destroy this => .destroy this

/-- The identifiers and the witness flag of an implementation are those of its fields, unless it
is the default one. -/
def Implementation.Faithful (H : List UInt8 → ByteArray32) (impl : Implementation) : Prop :=
  impl = .default ∨ IdentifierLaw H ⟨impl⟩

variable (H : List UInt8 → ByteArray32)

/-- No operation on transactions modifies an implementation. -/
theorem ObjectOp.sealed (object : ObjectOp ι) :
    (object.onImpl H).Sealed (Implementation.Faithful H) := by
  cases object with
  | default this => exact .inl rfl
  | make this version inputs outputs locktime => exact .inr (identifierLaw_of_built rfl)
  | copy | move | copyAssign | moveAssign | destroy => trivial

/-- The operation is one on transaction objects. -/
def OnObjects (op : Op ι Implementation Unit) : Prop :=
  ∃ object : ObjectOp ι, op = object.onImpl H

/-- The operations on objects are sealed for faithful implementations. -/
theorem OnObjects.sealed {op : Op ι Implementation Unit} (onObjects : OnObjects H op) :
    op.Sealed (Implementation.Faithful H) := by
  obtain ⟨object, rfl⟩ := onObjects
  exact object.sealed H

variable [DecidableEq ι] [Fintype Agent] [DecidableEq Agent] (owner : ι → Agent)
  (values : ValueTraits Implementation)

/-- An operation on transaction objects that is allowed, and returns or throws. -/
def ObjectStep (op : Op ι Implementation Unit)
    (x x' : State ι Implementation Unit × Record ι Implementation Unit) : Prop :=
  OnObjects H op ∧ op.Happens stdAllocator values x x'

/-- The steps of agents that use transaction objects of their own. -/
def ObjectEvent : Event Agent (Op ι Implementation Unit) →
    Pool Agent (Op ι Implementation Unit) (@Answer ι Implementation Unit)
      (State ι Implementation Unit × Record ι Implementation Unit) →
    Pool Agent (Op ι Implementation Unit) (@Answer ι Implementation Unit)
      (State ι Implementation Unit × Record ι Implementation Unit) → Prop :=
  Pool.Step (execRecorded stdAllocator) (Op.code stdAllocator values) fun agent op x =>
    OnObjects H op ∧ op.Allowed owner stdAllocator agent x

/-- From any transactions that a program has made and shared, every interleaving of operations on
them leaves all agents undisturbed, and all transactions with identifiers of their own fields. -/
theorem objects_undisturbed {ops : List (Op ι Implementation Unit)}
    {x : State ι Implementation Unit × Record ι Implementation Unit}
    (initial : Runs (ObjectStep H values) ops (.empty, []) x)
    {events : List (Event Agent (Op ι Implementation Unit))}
    {pool : Pool Agent (Op ι Implementation Unit) (@Answer ι Implementation Unit)
      (State ι Implementation Unit × Record ι Implementation Unit)}
    (run : Runs (ObjectEvent H owner values) events ⟨fun _ => none, x⟩ pool) :
    Undisturbed stdAllocator owner values (Implementation.Faithful H) events x pool := by
  apply undisturbed_of_sealed (fun _ _ => rfl)
  · exact initial.mono fun op y y' step => ⟨step.1.sealed H, step.2⟩
  · refine run.mono fun event pool pool' step => ?_
    cases event with
    | start agent op => exact ⟨step.1, ⟨step.2.1.1.sealed H, step.2.1.2⟩, step.2.2⟩
    | advance agent faulty => exact step

end Transaction

namespace Sample

/-- A moved-from record is empty. -/
def recordTraits : ValueTraits Transaction.Implementation where
  moved := fun _ => .default
  interrupted := id
  halfAssigned := fun old _ => old

/-- Two objects share a record; a third is default-constructed. -/
def objects : List (Op Nat Transaction.Implementation Unit) :=
  [.ofValue 0 (transaction stack).impl, .copy 1 0, .ofValue 2 .default]

/-- One agent destroys its object while the other one assigns the shared record. -/
def turns : List (Bool × Bool) :=
  [(true, false), (true, false), (false, false), (false, false), (false, false), (true, false),
    (false, false)] ++ List.replicate 5 (true, false) ++ List.replicate 2 (false, false)

end Sample

namespace Transaction

/-- An assignment and a destruction in turns leave each other's objects alone. -/
theorem objects_undisturbed_turns :
    ∃ x pool, Runs (ObjectStep Sample.zeroHash Sample.recordTraits) Sample.objects (.empty, []) x ∧
      Runs (ObjectEvent Sample.zeroHash (fun h : Nat => h != 0) Sample.recordTraits)
        (.start true (.copyAssign 2 1) :: .start false (.destroy 0) ::
          Sample.turns.map fun turn => .advance turn.1 turn.2) ⟨fun _ => none, x⟩ pool ∧
      Undisturbed stdAllocator (fun h : Nat => h != 0) Sample.recordTraits
        (Implementation.Faithful Sample.zeroHash)
        (.start true (.copyAssign 2 1) :: .start false (.destroy 0) ::
          Sample.turns.map fun turn => .advance turn.1 turn.2) x pool ∧
      pool.Idle ∧ pool.state.1.observe 0 = none ∧
      pool.state.1.observe 2 = some (some (Sample.transaction Sample.stack).impl) := by
  have run : ∃ x pool,
      Runs (ObjectStep Sample.zeroHash Sample.recordTraits) Sample.objects (.empty, []) x ∧
      Runs (ObjectEvent Sample.zeroHash (fun h : Nat => h != 0) Sample.recordTraits)
        (.start true (.copyAssign 2 1) :: .start false (.destroy 0) ::
          Sample.turns.map fun turn => .advance turn.1 turn.2) ⟨fun _ => none, x⟩ pool ∧
      pool.Idle ∧ pool.state.1.observe 0 = none ∧
      pool.state.1.observe 2 = some (some (Sample.transaction Sample.stack).impl) := by
    refine ⟨_, _, .cons ⟨⟨.make 0 _ _ _ _, rfl⟩, rfl, [], _, rfl⟩
        (.cons ⟨⟨.copy 1 0, rfl⟩, ⟨rfl, _, rfl⟩, [], _, rfl⟩
          (.cons ⟨⟨.default 2, rfl⟩, rfl, [], _, rfl⟩ (.nil _))),
      .cons ⟨rfl, ⟨⟨.copyAssign 2 1, rfl⟩, ⟨⟨_, rfl⟩, _, rfl⟩, by decide⟩, rfl⟩
        (.cons ⟨rfl, ⟨⟨.destroy 0, rfl⟩, ⟨_, rfl⟩, by decide⟩, rfl⟩
          ((Pool.runs_of_play Op.Intrudes rfl).mono fun _ _ _ => And.left)), ?_, rfl, rfl⟩
    intro agent
    cases agent
    · rfl
    · rfl
  obtain ⟨x, pool, initial, run, rest⟩ := run
  exact ⟨x, pool, initial, run, objects_undisturbed Sample.zeroHash _ _ initial run, rest⟩

end Transaction

end StdBitcoin
