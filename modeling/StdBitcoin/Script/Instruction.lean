import StdBitcoin.Codec.Stream
import StdBitcoin.Codec.LittleEndian

/-!
# Script instructions

An instruction is an opcode with its immediate bytes. The constructor asserts
that the opcode can carry an immediate of that size, so an instruction here keeps
the proof of it. Parsing computes its length checks with sums of `std::size_t`,
whose width is a parameter.
-/

namespace StdBitcoin

open Codec

/-- `enum class opcode : std::uint8_t`, which has all 256 values. -/
@[ext] structure Opcode where
  raw : UInt8
deriving DecidableEq

namespace Opcode

/-- `op_0`. -/
def op0 : Opcode := ⟨0x00⟩

/-- `op_pushdata1`. -/
def opPushdata1 : Opcode := ⟨0x4C⟩

/-- `op_pushdata2`. -/
def opPushdata2 : Opcode := ⟨0x4D⟩

/-- `op_pushdata4`. -/
def opPushdata4 : Opcode := ⟨0x4E⟩

/-- `op_1negate`. -/
def op1negate : Opcode := ⟨0x4F⟩

/-- `op_1`. -/
def op1 : Opcode := ⟨0x51⟩

/-- `op_16`. -/
def op16 : Opcode := ⟨0x60⟩

/-- `op_checksigadd`. -/
def opChecksigadd : Opcode := ⟨0xBA⟩

end Opcode

/-- The sizes of immediates that an opcode admits. -/
def hasValidImmediate (code : Opcode) (immediate : List UInt8) : Bool :=
  if code.raw < Opcode.opPushdata1.raw then
    immediate.length = code.raw.toNat
  else if code = Opcode.opPushdata1 then
    immediate.length ≤ 0xFF
  else if code = Opcode.opPushdata2 then
    immediate.length ≤ 0xFFFF
  else if code = Opcode.opPushdata4 then
    immediate.length ≤ 0xFFFFFFFF
  else
    immediate.isEmpty

/-- `instruction`: an opcode with the data behind it, as many bytes as the opcode allows. -/
@[ext] structure Instruction where
  code : Opcode
  immediate : List UInt8
  valid : hasValidImmediate code immediate
deriving DecidableEq

namespace Instruction

/-- The default constructor. -/
def default : Instruction := ⟨.op0, [], rfl⟩

/-- The constructor with its assertion. -/
def make (code : Opcode) (immediate : List UInt8) : Option Instruction :=
  if valid : hasValidImmediate code immediate then some ⟨code, immediate, valid⟩ else none

/-- `pushes_data`. -/
def pushesData (i : Instruction) : Bool := i.code.raw ≤ Opcode.opPushdata4.raw

end Instruction

/-- `parsed_instruction`. -/
structure ParsedInstruction where
  value : Instruction
  size : Nat
  valid : Bool
deriving DecidableEq

namespace ParsedInstruction

/-- `return {}`. -/
def invalid : ParsedInstruction := ⟨.default, 0, false⟩

end ParsedInstruction

/-- `bytes.subspan(offset)`, undefined outside of the span. -/
def dropSpan (bytes : List UInt8) (offset : Nat) : Option (List UInt8) :=
  if offset ≤ bytes.length then some (bytes.drop offset) else none

/-- `bytes.subspan(offset, count)`, undefined outside of the span. The largest value of
`std::size_t` is `std::dynamic_extent`, the count that asks for the rest of the span. -/
def subspan (w : Nat) (bytes : List UInt8) (offset count : Nat) : Option (List UInt8) :=
  if count = 2 ^ w - 1 then
    dropSpan bytes offset
  else if offset + count ≤ bytes.length then
    some ((bytes.drop offset).take count)
  else
    none

/-- Behind the front of a span stands the rest. -/
theorem dropSpan_append (front rest : List UInt8) :
    dropSpan (front ++ rest) front.length = some rest := by
  rw [dropSpan, List.length_append, if_pos (Nat.le_add_right _ _), List.drop_left]

/-- The count `std::dynamic_extent` asks for the rest of the span. -/
theorem subspan_dynamicExtent (w : Nat) (bytes : List UInt8) (offset : Nat) :
    subspan w bytes offset (2 ^ w - 1) = dropSpan bytes offset := if_pos rfl

/-- The span in the middle of three. -/
theorem subspan_append {w : Nat} (front middle back : List UInt8)
    (fixed : middle.length ≠ 2 ^ w - 1) :
    subspan w (front ++ (middle ++ back)) front.length middle.length = some middle := by
  rw [subspan, if_neg fixed, if_pos, List.drop_left, List.take_left]
  rw [List.length_append, List.length_append, ← Nat.add_assoc]
  exact Nat.le_add_right _ _

/-- `read_le16`. -/
def readLe16 (b0 b1 : UInt8) : UInt16 := b0.toUInt16 ||| (b1.toUInt16 <<< 8)

/-- `read_le32`. -/
def readLe32 (b0 b1 b2 b3 : UInt8) : UInt32 :=
  b0.toUInt32 ||| (b1.toUInt32 <<< 8) ||| (b2.toUInt32 <<< 16) ||| (b3.toUInt32 <<< 24)

/-- The branches of `parse_instruction` behind the size of the payload, with
`header` bytes in front of the payload and sums modulo `2 ^ w`. -/
def parsePayload (w : Nat) (bytes : List UInt8) (code : Opcode) (header payloadSize : Nat) :
    Option ParsedInstruction :=
  if bytes.length < (header + payloadSize) % 2 ^ w then
    some .invalid
  else do
    let immediate ← subspan w bytes header payloadSize
    let value ← Instruction.make code immediate
    return { value, size := (header + payloadSize) % 2 ^ w, valid := true }

/-- `parse_instruction` for `std::size_t` of `w` bits. There is no result where the
behaviour is undefined or an assertion fails. -/
def parseInstruction (w : Nat) (bytes : List UInt8) : Option ParsedInstruction :=
  match bytes with
  | [] => some .invalid
  | front :: rest =>
      let code : Opcode := ⟨front⟩
      if front < Opcode.opPushdata1.raw then
        parsePayload w bytes code 1 front.toNat
      else if front = Opcode.opPushdata1.raw then
        match rest with
        | b0 :: _ => parsePayload w bytes code 2 b0.toNat
        | _ => some .invalid
      else if front = Opcode.opPushdata2.raw then
        match rest with
        | b0 :: b1 :: _ => parsePayload w bytes code 3 (readLe16 b0 b1).toNat
        | _ => some .invalid
      else if front = Opcode.opPushdata4.raw then
        match rest with
        | b0 :: b1 :: b2 :: b3 :: _ => parsePayload w bytes code 5 (readLe32 b0 b1 b2 b3).toNat
        | _ => some .invalid
      else do
        let value ← Instruction.make code []
        return { value, size := 1, valid := true }

/-- Bits above a width are added to those below it. -/
theorem or_mul_two_pow {low width : Nat} (fits : low < 2 ^ width) (high : Nat) :
    low ||| high * 2 ^ width = low + high * 2 ^ width := by
  rw [Nat.or_comm, Nat.mul_comm, ← Nat.two_pow_add_eq_or_of_lt fits, Nat.add_comm]

/-- `read_le16` reads two bytes, the least significant first. -/
theorem toNat_readLe16 (b0 b1 : UInt8) :
    (readLe16 b0 b1).toNat = LittleEndian.ofBytes [b0, b1] := by
  have bound0 := b0.toNat_lt
  have bound1 := b1.toNat_lt
  have joined : b0.toNat ||| b1.toNat * 256 = b0.toNat + b1.toNat * 256 := or_mul_two_pow bound0 _
  simp only [readLe16, UInt16.toNat_or, UInt16.toNat_shiftLeft, UInt8.toNat_toUInt16]
  simp only [Nat.shiftLeft_eq, UInt16.reduceToNat, LittleEndian.ofBytes_cons,
    LittleEndian.ofBytes_nil]
  change b0.toNat ||| b1.toNat * 256 % 65536 = _
  rw [Nat.mod_eq_of_lt (by omega), joined]
  omega

/-- `read_le32` reads four bytes, the least significant first. -/
theorem toNat_readLe32 (b0 b1 b2 b3 : UInt8) :
    (readLe32 b0 b1 b2 b3).toNat = LittleEndian.ofBytes [b0, b1, b2, b3] := by
  have bound0 := b0.toNat_lt
  have bound1 := b1.toNat_lt
  have bound2 := b2.toNat_lt
  have bound3 := b3.toNat_lt
  have joined1 : b0.toNat ||| b1.toNat * 256 = b0.toNat + b1.toNat * 256 := or_mul_two_pow bound0 _
  have joined2 : (b0.toNat + b1.toNat * 256) ||| b2.toNat * 65536 =
      b0.toNat + b1.toNat * 256 + b2.toNat * 65536 := by
    have fits : b0.toNat + b1.toNat * 256 < 2 ^ 16 := by omega
    exact or_mul_two_pow fits _
  have joined3 : (b0.toNat + b1.toNat * 256 + b2.toNat * 65536) ||| b3.toNat * 16777216 =
      b0.toNat + b1.toNat * 256 + b2.toNat * 65536 + b3.toNat * 16777216 := by
    have fits : b0.toNat + b1.toNat * 256 + b2.toNat * 65536 < 2 ^ 24 := by omega
    exact or_mul_two_pow fits _
  simp only [readLe32, UInt32.toNat_or, UInt32.toNat_shiftLeft, UInt8.toNat_toUInt32]
  simp only [Nat.shiftLeft_eq, UInt32.reduceToNat, LittleEndian.ofBytes_cons,
    LittleEndian.ofBytes_nil]
  change b0.toNat ||| b1.toNat * 256 % 4294967296 ||| b2.toNat * 65536 % 4294967296 |||
    b3.toNat * 16777216 % 4294967296 = _
  rw [Nat.mod_eq_of_lt (by omega), Nat.mod_eq_of_lt (by omega), Nat.mod_eq_of_lt (by omega),
    joined1, joined2, joined3]
  omega

namespace Opcode

/-- How many bytes of a length stand behind the opcode. -/
def prefixWidth (code : Opcode) : Nat :=
  if code = opPushdata1 then 1
  else if code = opPushdata2 then 2
  else if code = opPushdata4 then 4
  else 0

/-- The opcode is itself the length of its immediate. -/
def IsDirect (code : Opcode) : Prop := code.raw < opPushdata1.raw

instance (code : Opcode) : Decidable code.IsDirect := inferInstanceAs (Decidable (_ < _))

/-- The size of the payload that the bytes behind the opcode announce. -/
def payloadSize (code : Opcode) (rest : List UInt8) : Nat :=
  if code.IsDirect then code.raw.toNat else LittleEndian.ofBytes (rest.take code.prefixWidth)

theorem prefixWidth_le (code : Opcode) : code.prefixWidth ≤ 4 := by
  unfold prefixWidth
  split_ifs <;> omega

/-- A direct push has no bytes for the length. -/
theorem prefixWidth_of_direct {code : Opcode} (direct : code.IsDirect) : code.prefixWidth = 0 := by
  unfold prefixWidth
  split_ifs with one two four
  · subst one
    exact absurd direct (by decide)
  · subst two
    exact absurd direct (by decide)
  · subst four
    exact absurd direct (by decide)
  · rfl

/-- A length has at most 32 bits. -/
theorem payloadSize_lt (code : Opcode) (rest : List UInt8) : code.payloadSize rest < 2 ^ 32 := by
  unfold payloadSize
  split
  · exact code.raw.toNat_lt.trans (by decide)
  · calc LittleEndian.ofBytes (rest.take code.prefixWidth)
      _ < 256 ^ (rest.take code.prefixWidth).length := LittleEndian.ofBytes_lt _
      _ ≤ 256 ^ 4 := Nat.pow_le_pow_right (by decide)
        ((List.length_take_le _ _).trans code.prefixWidth_le)
      _ = 2 ^ 32 := by norm_num

/-- With more than 32 bits the length checks cannot overflow. -/
theorem header_add_payloadSize_lt {w : Nat} (wide : 33 ≤ w) (code : Opcode) (rest : List UInt8) :
    1 + code.prefixWidth + code.payloadSize rest < 2 ^ w := by
  have narrow := code.prefixWidth_le
  have payload := code.payloadSize_lt rest
  have room : 2 ^ 33 ≤ 2 ^ w := Nat.pow_le_pow_right (by decide) wide
  omega

end Opcode

/-- One rule for all opcodes: the size is the opcode, or fits the length field. -/
theorem hasValidImmediate_iff (code : Opcode) (immediate : List UInt8) :
    hasValidImmediate code immediate ↔
      if code.IsDirect then immediate.length = code.raw.toNat
      else immediate.length < 256 ^ code.prefixWidth := by
  unfold hasValidImmediate Opcode.prefixWidth
  by_cases direct : code.IsDirect
  · have small : code.raw < Opcode.opPushdata1.raw := direct
    rw [if_pos small, if_pos direct, decide_eq_true_iff]
  · have large : ¬ code.raw < Opcode.opPushdata1.raw := direct
    rw [if_neg large, if_neg direct]
    split_ifs
    · rw [decide_eq_true_iff]
      omega
    · rw [decide_eq_true_iff]
      omega
    · rw [decide_eq_true_iff]
      omega
    · rw [List.isEmpty_iff, pow_zero, Nat.lt_one_iff, List.length_eq_zero_iff]

/-- The bytes of an instruction. -/
def Instruction.wire (i : Instruction) : List UInt8 :=
  i.code.raw :: (LittleEndian.toBytes i.code.prefixWidth i.immediate.length ++ i.immediate)

namespace Instruction

theorem length_wire (i : Instruction) :
    i.wire.length = 1 + i.code.prefixWidth + i.immediate.length := by
  rw [wire, List.length_cons, List.length_append, LittleEndian.length_toBytes]
  omega

theorem wire_ne_nil (i : Instruction) : i.wire ≠ [] := List.cons_ne_nil _ _

/-- What is left behind an instruction is shorter. -/
theorem length_lt_wire_append (i : Instruction) (tail : List UInt8) :
    tail.length < (i.wire ++ tail).length := by
  rw [List.length_append, i.length_wire]
  omega

/-- The announced size is the size of the immediate. -/
theorem payloadSize_wire (i : Instruction) (rest : List UInt8) :
    i.code.payloadSize (LittleEndian.toBytes i.code.prefixWidth i.immediate.length ++ rest) =
      i.immediate.length := by
  have valid := (hasValidImmediate_iff _ _).mp i.valid
  unfold Opcode.payloadSize
  by_cases direct : i.code.IsDirect
  · rw [if_pos direct] at valid
    rw [if_pos direct, valid]
  · rw [if_neg direct] at valid
    rw [if_neg direct, List.take_left' (LittleEndian.length_toBytes _ _),
      LittleEndian.ofBytes_toBytes_of_lt valid]

end Instruction

/-- The branches of the parser differ in the width of their length field only. -/
theorem parseInstruction_cons {w : Nat} (wide : 1 ≤ w) (code : Opcode) (rest : List UInt8) :
    parseInstruction w (code.raw :: rest) =
      if rest.length < code.prefixWidth then
        some .invalid
      else
        parsePayload w (code.raw :: rest) code (1 + code.prefixWidth) (code.payloadSize rest) := by
  unfold parseInstruction
  dsimp only
  by_cases direct : code.raw < Opcode.opPushdata1.raw
  · have code_direct : code.IsDirect := direct
    rw [if_pos direct, Opcode.prefixWidth_of_direct code_direct, if_neg (Nat.not_lt_zero _),
      Opcode.payloadSize, if_pos code_direct]
  have indirect : ¬ code.IsDirect := direct
  rw [if_neg direct, Opcode.payloadSize, if_neg indirect]
  by_cases one : code.raw = Opcode.opPushdata1.raw
  · obtain rfl : code = .opPushdata1 := Opcode.ext one
    have width : Opcode.opPushdata1.prefixWidth = 1 := rfl
    rw [if_pos rfl, width]
    match rest with
    | [] => rfl
    | b0 :: rest =>
        have single : LittleEndian.ofBytes [b0] = b0.toNat := by simp
        rw [if_neg (by simp)]
        exact congrArg (parsePayload w _ _ 2) single.symm
  rw [if_neg one]
  by_cases two : code.raw = Opcode.opPushdata2.raw
  · obtain rfl : code = .opPushdata2 := Opcode.ext two
    have width : Opcode.opPushdata2.prefixWidth = 2 := rfl
    rw [if_pos rfl, width]
    match rest with
    | [] => rfl
    | [b0] => rfl
    | b0 :: b1 :: rest =>
        rw [if_neg (by simp)]
        exact congrArg (parsePayload w _ _ 3) (toNat_readLe16 b0 b1)
  rw [if_neg two]
  by_cases four : code.raw = Opcode.opPushdata4.raw
  · obtain rfl : code = .opPushdata4 := Opcode.ext four
    have width : Opcode.opPushdata4.prefixWidth = 4 := rfl
    rw [if_pos rfl, width]
    match rest with
    | [] => rfl
    | [b0] => rfl
    | [b0, b1] => rfl
    | [b0, b1, b2] => rfl
    | b0 :: b1 :: b2 :: b3 :: rest =>
        rw [if_neg (by simp)]
        exact congrArg (parsePayload w _ _ 5) (toNat_readLe32 b0 b1 b2 b3)
  · have width : code.prefixWidth = 0 := by
      unfold Opcode.prefixWidth
      rw [if_neg, if_neg, if_neg]
      · exact fun same => four (congrArg Opcode.raw same)
      · exact fun same => two (congrArg Opcode.raw same)
      · exact fun same => one (congrArg Opcode.raw same)
    have two : 1 < 2 ^ w := Nat.one_lt_two_pow (by omega)
    have empty : subspan w (code.raw :: rest) 1 0 = some [] :=
      subspan_append [code.raw] [] rest (by rw [List.length_nil]; omega)
    rw [if_neg four, width, if_neg (Nat.not_lt_zero _), List.take_zero, LittleEndian.ofBytes_nil,
      parsePayload, Nat.add_zero, Nat.mod_eq_of_lt two, if_neg (by simp), empty]
    rfl

/-- The announced payload, where it fits, is the immediate of an instruction that
stands at the front. -/
theorem exists_wire_of_fits {code : Opcode} {rest : List UInt8}
    (fits : code.prefixWidth + code.payloadSize rest ≤ rest.length) :
    ∃ (i : Instruction) (tail : List UInt8), i.code = code ∧ code.raw :: rest = i.wire ++ tail := by
  let immediate := (rest.drop code.prefixWidth).take (code.payloadSize rest)
  have length : immediate.length = code.payloadSize rest := by
    rw [List.length_take, List.length_drop]
    omega
  have prefixed : (rest.take code.prefixWidth).length = code.prefixWidth := by
    rw [List.length_take]
    omega
  have field : LittleEndian.toBytes code.prefixWidth (code.payloadSize rest) =
      rest.take code.prefixWidth := by
    by_cases direct : code.IsDirect
    · rw [Opcode.prefixWidth_of_direct direct]
      rfl
    · rw [Opcode.payloadSize, if_neg direct]
      exact LittleEndian.toBytes_ofBytes_of_length prefixed
  have valid : hasValidImmediate code immediate := by
    rw [hasValidImmediate_iff, length]
    split
    · rename_i direct
      exact if_pos direct
    · rename_i indirect
      have bound := LittleEndian.ofBytes_lt (rest.take code.prefixWidth)
      rw [prefixed] at bound
      rwa [Opcode.payloadSize, if_neg indirect]
  refine ⟨⟨code, immediate, valid⟩,
    (rest.drop code.prefixWidth).drop (code.payloadSize rest), rfl, ?_⟩
  change code.raw :: rest =
    code.raw :: (LittleEndian.toBytes code.prefixWidth immediate.length ++ immediate) ++ _
  rw [length, field, List.cons_append, List.append_assoc, List.take_append_drop,
    List.take_append_drop]

/-- An instruction at the front is parsed, with its immediate and its size, if the size is
representable. -/
theorem parseInstruction_wire_of_lt {w : Nat} (i : Instruction) (fits : i.wire.length < 2 ^ w)
    (tail : List UInt8) :
    parseInstruction w (i.wire ++ tail) = some ⟨i, i.wire.length, true⟩ := by
  let field := LittleEndian.toBytes i.code.prefixWidth i.immediate.length
  have width : field.length = i.code.prefixWidth := LittleEndian.length_toBytes _ _
  have whole : i.wire ++ tail = i.code.raw :: (field ++ (i.immediate ++ tail)) := by
    rw [Instruction.wire, List.cons_append, List.append_assoc]
  have size : i.code.payloadSize (field ++ (i.immediate ++ tail)) = i.immediate.length :=
    i.payloadSize_wire _
  have no_overflow := i.length_wire ▸ fits
  have wide : 1 ≤ w := Nat.pos_of_ne_zero (Nat.one_lt_two_pow_iff.mp (by omega))
  have header : (i.code.raw :: field).length = 1 + i.code.prefixWidth := by
    rw [List.length_cons, width, Nat.add_comm]
  have found : subspan w (i.code.raw :: (field ++ (i.immediate ++ tail))) (1 + i.code.prefixWidth)
      i.immediate.length = some i.immediate := by
    rw [← header]
    exact subspan_append (i.code.raw :: field) i.immediate tail (by omega)
  rw [whole, parseInstruction_cons wide, if_neg (by rw [List.length_append]; omega), size,
    parsePayload, Nat.mod_eq_of_lt no_overflow, found, if_neg]
  · simp [Instruction.make, i.valid, i.length_wire]
  · simp only [List.length_cons, List.length_append]
    omega

/-- A single instruction fits in a `std::size_t` of more than 32 bits. -/
theorem Instruction.length_wire_lt {w : Nat} (wide : 33 ≤ w) (i : Instruction) :
    i.wire.length < 2 ^ w := by
  have bound := Opcode.header_add_payloadSize_lt wide i.code
    (LittleEndian.toBytes i.code.prefixWidth i.immediate.length ++ [])
  rwa [i.payloadSize_wire, ← i.length_wire] at bound

/-- A parser of sufficient width reads any instruction at the front. -/
theorem parseInstruction_wire {w : Nat} (wide : 33 ≤ w) (i : Instruction) (tail : List UInt8) :
    parseInstruction w (i.wire ++ tail) = some ⟨i, i.wire.length, true⟩ :=
  parseInstruction_wire_of_lt i (i.length_wire_lt wide) tail

/-- A payload that does not fit is refused, if the check does not wrap around. -/
theorem parseInstruction_of_short {w : Nat} {code : Opcode} {rest : List UInt8}
    (no_overflow : 1 + code.prefixWidth + code.payloadSize rest < 2 ^ w)
    (short : rest.length < code.prefixWidth + code.payloadSize rest) :
    parseInstruction w (code.raw :: rest) = some .invalid := by
  have wide : 1 ≤ w := Nat.pos_of_ne_zero (Nat.one_lt_two_pow_iff.mp (by omega))
  rw [parseInstruction_cons wide, parsePayload, Nat.mod_eq_of_lt no_overflow, List.length_cons]
  split
  · rfl
  · rw [if_pos (by omega)]

/-- A parser of sufficient width reads an instruction where there is one and reports
an invalid instruction otherwise; it is defined everywhere. -/
theorem parseInstruction_spec {w : Nat} (wide : 33 ≤ w) (bytes : List UInt8) :
    (∃ i rest, bytes = Instruction.wire i ++ rest ∧
      parseInstruction w bytes = some ⟨i, i.wire.length, true⟩) ∨
    (Stuck Instruction.wire bytes ∧ parseInstruction w bytes = some .invalid) := by
  cases bytes with
  | nil => exact .inr ⟨stuck_nil Instruction.wire_ne_nil, rfl⟩
  | cons front rest =>
      obtain ⟨code, rfl⟩ : ∃ code : Opcode, front = code.raw := ⟨⟨front⟩, rfl⟩
      by_cases fits : code.prefixWidth + code.payloadSize rest ≤ rest.length
      · obtain ⟨i, tail, -, split⟩ := exists_wire_of_fits fits
        rw [split]
        exact .inl ⟨i, tail, rfl, parseInstruction_wire wide i tail⟩
      · have invalid : parseInstruction w (code.raw :: rest) = some .invalid :=
          parseInstruction_of_short (Opcode.header_add_payloadSize_lt wide code rest)
            (Nat.lt_of_not_le fits)
        refine .inr ⟨?_, invalid⟩
        rintro i ⟨tail, split⟩
        rw [← split, parseInstruction_wire wide] at invalid
        cases invalid

/-- Instructions are told apart by their bytes, whatever follows. -/
theorem separates_wire : Separates Instruction.wire fun _ => True := by
  intro x y _ _ left right same
  have parsed_x := parseInstruction_wire le_rfl x left
  have parsed_y := parseInstruction_wire le_rfl y right
  rw [same, parsed_y] at parsed_x
  obtain rfl := congrArg ParsedInstruction.value (Option.some.inj parsed_x)
  exact ⟨rfl, List.append_cancel_left same⟩

end StdBitcoin
