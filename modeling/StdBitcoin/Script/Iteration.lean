import StdBitcoin.Script.Instruction

/-!
# Iterating over a script

The iterator and the three script predicates are separate loops over one parser.
Where `std::size_t` is wider than 32 bits each of them is defined on every script, and
all of them read the same stream of instructions.
-/

namespace StdBitcoin

open Codec

/-- The loop of the script predicates, which reject an instruction by its value. As
every instruction has a byte, as many rounds as there are bytes are enough. -/
def scan (w : Nat) (accepts : Instruction → Bool) : Nat → List UInt8 → Option Bool
  | 0, remaining => if remaining.isEmpty then some true else none
  | rounds + 1, remaining =>
      if remaining.isEmpty then
        some true
      else do
        let parsed ← parseInstruction w remaining
        if !parsed.valid || !accepts parsed.value then
          return false
        let remaining ← dropSpan remaining parsed.size
        scan w accepts rounds remaining

/-- `is_well_formed`. -/
def isWellFormed (w : Nat) (script : List UInt8) : Option Bool :=
  scan w (fun _ => true) script.length script

/-- `script_element_size_limit`. -/
def scriptElementSizeLimit : Nat := 520

/-- `is_defined_opcode`. -/
def isDefinedOpcode (code : Opcode) : Bool := code.raw ≤ Opcode.opChecksigadd.raw

/-- `has_valid_opcodes`. -/
def hasValidOpcodes (w : Nat) (script : List UInt8) : Option Bool :=
  scan w (fun i => isDefinedOpcode i.code && i.immediate.length ≤ scriptElementSizeLimit)
    script.length script

/-- `is_push_only`. -/
def isPushOnly (w : Nat) (script : List UInt8) : Option Bool :=
  scan w (fun i => i.code.raw ≤ Opcode.op16.raw) script.length script

/-- `instruction_view::iterator`. -/
structure InstructionIterator where
  remaining : List UInt8
  current : Instruction
  currentSize : Nat
  atEnd : Bool
deriving DecidableEq

namespace InstructionIterator

/-- `_read_next`. -/
def readNext (w : Nat) (remaining : List UInt8) : Option InstructionIterator :=
  if remaining.isEmpty then
    some ⟨remaining, .default, 0, true⟩
  else do
    let parsed ← parseInstruction w remaining
    if !parsed.valid then
      return ⟨remaining, .default, 0, true⟩
    return ⟨remaining, parsed.value, parsed.size, false⟩

/-- `operator++`. -/
def increment (w : Nat) (it : InstructionIterator) : Option InstructionIterator :=
  if it.atEnd then
    some it
  else do
    let remaining ← dropSpan it.remaining it.currentSize
    readNext w remaining

/-- `for (auto i : view)` from an iterator to the sentinel. -/
def collect (w : Nat) : Nat → InstructionIterator → Option (List Instruction)
  | 0, it => if it.atEnd then some [] else none
  | rounds + 1, it =>
      if it.atEnd then
        some []
      else do
        let next ← it.increment w
        let others ← collect w rounds next
        return it.current :: others

end InstructionIterator

/-- What iterating over `instructions(script)` yields. -/
def instructions (w : Nat) (script : List UInt8) : Option (List Instruction) := do
  let first ← InstructionIterator.readNext w script
  first.collect w script.length

/-- Every script is a stream of instructions followed by something that is none. -/
theorem exists_decodes (script : List UInt8) :
    ∃ items rest, Decodes Instruction.wire script items rest := by
  induction length : script.length using Nat.strong_induction_on generalizing script with
  | _ size ih =>
      rcases parseInstruction_spec (le_refl 33) script with ⟨i, tail, rfl, -⟩ | ⟨stuck, -⟩
      · have shorter : tail.length < size := length ▸ i.length_lt_wire_append tail
        obtain ⟨items, rest, decodes⟩ := ih tail.length shorter tail rfl
        exact ⟨i :: items, rest, decodes.cons i⟩
      · exact ⟨[], script, .of_stuck stuck⟩

/-- The instructions of a script, and where they stop, are determined by its bytes. -/
theorem decodes_unique {script rest other : List UInt8} {items others : List Instruction}
    (left : Decodes Instruction.wire script items rest)
    (right : Decodes Instruction.wire script others other) : items = others ∧ rest = other :=
  left.unique separates_wire right

section Readable

variable {w : Nat} {items : List Instruction} {rest : List UInt8}

/-- The parser reads the instructions and then reports that there is none. -/
structure Readable (w : Nat) (items : List Instruction) (rest : List UInt8) : Prop where
  fits : ∀ i ∈ items, i.wire.length < 2 ^ w
  stops : parseInstruction w rest = some .invalid

namespace Readable

theorem tail {i : Instruction} (readable : Readable w (i :: items) rest) :
    Readable w items rest :=
  ⟨fun j member => readable.fits j (List.mem_cons_of_mem i member), readable.stops⟩

theorem parse {i : Instruction} (readable : Readable w (i :: items) rest) (tail : List UInt8) :
    parseInstruction w (i.wire ++ tail) = some ⟨i, i.wire.length, true⟩ :=
  parseInstruction_wire_of_lt i (readable.fits i List.mem_cons_self) tail

end Readable

/-- A predicate loop accepts a script that is read to its end, each instruction
accepted on the way. -/
theorem scan_readable (accepts : Instruction → Bool) (readable : Readable w items rest)
    {rounds : Nat} (enough : (items.flatMap Instruction.wire ++ rest).length ≤ rounds) :
    scan w accepts rounds (items.flatMap Instruction.wire ++ rest) =
      some (rest.isEmpty && items.all accepts) := by
  induction items generalizing rounds with
  | nil =>
      rw [List.flatMap_nil, List.nil_append] at enough ⊢
      cases rest with
      | nil => cases rounds <;> rfl
      | cons byte rest =>
          cases rounds with
          | zero => cases enough
          | succ rounds =>
              rw [scan, if_neg (by simp), readable.stops]
              rfl
  | cons i items ih =>
      rw [List.flatMap_cons, List.append_assoc] at enough ⊢
      have shorter := (i.length_lt_wire_append _).trans_le enough
      cases rounds with
      | zero => cases shorter
      | succ rounds =>
          have nonempty : (i.wire ++ (items.flatMap Instruction.wire ++ rest)).isEmpty = false :=
            rfl
          rw [scan, if_neg (by simp [nonempty]), readable.parse]
          cases verdict : accepts i with
          | false => simp [verdict]
          | true =>
              have rest_scan : scan w accepts rounds (items.flatMap Instruction.wire ++ rest) =
                  some (rest.isEmpty && items.all accepts) :=
                ih readable.tail (Nat.le_of_lt_succ shorter)
              simp only [Option.bind_eq_bind, Option.bind_some, verdict, dropSpan_append, rest_scan]
              simp [verdict]

/-- Where no instruction can be read the iterator is at its end. -/
theorem readNext_of_stops (stops : parseInstruction w rest = some .invalid) :
    InstructionIterator.readNext w rest = some ⟨rest, .default, 0, true⟩ := by
  rw [InstructionIterator.readNext, stops]
  exact ite_self _

/-- The iterator stands at the first instruction of a readable script. -/
theorem readNext_readable {i : Instruction} (readable : Readable w (i :: items) rest)
    (tail : List UInt8) :
    InstructionIterator.readNext w (i.wire ++ tail) =
      some ⟨i.wire ++ tail, i, i.wire.length, false⟩ := by
  have nonempty : (i.wire ++ tail).isEmpty = false := rfl
  rw [InstructionIterator.readNext, nonempty, readable.parse]
  rfl

/-- The next step reads from behind the instruction. -/
theorem increment_wire (w : Nat) (i : Instruction) (tail : List UInt8) :
    InstructionIterator.increment w ⟨i.wire ++ tail, i, i.wire.length, false⟩ =
      InstructionIterator.readNext w tail := by
  rw [InstructionIterator.increment, dropSpan_append]
  rfl

/-- Iteration yields exactly the instructions at the front. -/
theorem readNext_collect_readable (readable : Readable w items rest) {rounds : Nat}
    (enough : (items.flatMap Instruction.wire ++ rest).length ≤ rounds) :
    (InstructionIterator.readNext w (items.flatMap Instruction.wire ++ rest)).bind
      (InstructionIterator.collect w rounds) = some items := by
  induction items generalizing rounds with
  | nil =>
      rw [List.flatMap_nil, List.nil_append, readNext_of_stops readable.stops, Option.bind_some]
      cases rounds <;> rfl
  | cons i items ih =>
      rw [List.flatMap_cons, List.append_assoc] at enough ⊢
      have shorter := (i.length_lt_wire_append _).trans_le enough
      cases rounds with
      | zero => cases shorter
      | succ rounds =>
          have others : (InstructionIterator.readNext w
              (items.flatMap Instruction.wire ++ rest)).bind
                (InstructionIterator.collect w rounds) = some items :=
            ih readable.tail (Nat.le_of_lt_succ shorter)
          obtain ⟨next, first, rest_items⟩ := Option.bind_eq_some_iff.mp others
          rw [readNext_readable readable, Option.bind_some, InstructionIterator.collect,
            increment_wire]
          simp only [first, Option.bind_eq_bind, Option.bind_some, rest_items]
          rfl

end Readable

section Wide

variable {w : Nat} (wide : 33 ≤ w)

include wide

/-- What is stuck parses as invalid. -/
theorem parseInstruction_of_stuck {bytes : List UInt8} (stuck : Stuck Instruction.wire bytes) :
    parseInstruction w bytes = some .invalid := by
  rcases parseInstruction_spec wide bytes with ⟨i, tail, rfl, -⟩ | ⟨-, invalid⟩
  · exact absurd (List.prefix_append _ _) (stuck i)
  · exact invalid

/-- A script that is decoded is readable. -/
theorem readable_of_decodes {script rest : List UInt8} {items : List Instruction}
    (decodes : Decodes Instruction.wire script items rest) : Readable w items rest :=
  ⟨fun i _ => i.length_wire_lt wide, parseInstruction_of_stuck wide decodes.stuck⟩

/-- The iterator gives the instructions that the script is decoded into. -/
theorem instructions_eq {script rest : List UInt8} {items : List Instruction}
    (decodes : Decodes Instruction.wire script items rest) :
    instructions w script = some items := by
  rw [decodes.split]
  exact readNext_collect_readable (readable_of_decodes wide decodes) le_rfl

/-- The predicate loops decide whether a script is read to its end. -/
theorem scan_decodes (accepts : Instruction → Bool) {script rest : List UInt8}
    {items : List Instruction} (decodes : Decodes Instruction.wire script items rest) :
    scan w accepts script.length script = some (rest.isEmpty && items.all accepts) := by
  rw [decodes.split]
  exact scan_readable accepts (readable_of_decodes wide decodes) le_rfl

/-- Well-formed scripts are those that are read to their end. -/
theorem isWellFormed_iff (script : List UInt8) :
    isWellFormed w script = some true ↔ ∃ items, Decodes Instruction.wire script items [] := by
  obtain ⟨items, rest, decodes⟩ := exists_decodes script
  rw [isWellFormed, scan_decodes wide _ decodes]
  constructor
  · intro formed
    obtain rfl : rest = [] := by simpa using formed
    exact ⟨items, decodes⟩
  · intro ⟨others, whole⟩
    obtain ⟨rfl, rfl⟩ := decodes_unique decodes whole
    simp

end Wide

/-- Where `std::size_t` has 64 bits, iteration and the three predicates read the same stream: the
instructions up to where none can be read, and the predicates judge what was read. -/
theorem instructions_and_predicates (script : List UInt8) :
    ∃ (items : List Instruction) (rest : List UInt8),
      instructions 64 script = some items ∧
      (∀ i ∈ items, hasValidImmediate i.code i.immediate) ∧
      script = items.flatMap Instruction.wire ++ rest ∧
      (rest = [] ∨ ∀ i : Instruction, ¬ i.wire <+: rest) ∧
      isWellFormed 64 script = some (decide (rest = [])) ∧
      hasValidOpcodes 64 script = some (decide (rest = [] ∧
        ∀ i ∈ items, i.code.raw ≤ Opcode.opChecksigadd.raw ∧ i.immediate.length ≤ 520)) ∧
      isPushOnly 64 script = some (decide (rest = [] ∧
        ∀ i ∈ items, i.code.raw ≤ Opcode.op16.raw)) := by
  obtain ⟨items, rest, decodes⟩ := exists_decodes script
  have wide : 33 ≤ 64 := by decide
  refine ⟨items, rest, instructions_eq wide decodes, fun i _ => i.valid, decodes.split,
    .inr decodes.stuck, ?_, ?_, ?_⟩
  · rw [isWellFormed, scan_decodes wide _ decodes, Option.some.injEq, Bool.eq_iff_iff]
    simp
  · rw [hasValidOpcodes, scan_decodes wide _ decodes, Option.some.injEq, Bool.eq_iff_iff]
    simp only [isDefinedOpcode, Bool.and_eq_true, List.isEmpty_iff, List.all_eq_true,
      decide_eq_true_iff]
    rfl
  · rw [isPushOnly, scan_decodes wide _ decodes, Option.some.injEq, Bool.eq_iff_iff]
    simp

end StdBitcoin
