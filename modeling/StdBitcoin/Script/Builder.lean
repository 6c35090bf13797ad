import StdBitcoin.Script.Iteration
import StdBitcoin.Script.Number

/-!
# Building scripts

Every builder call appends the bytes of some instructions, so decoding what a
sequence of calls has built gives their instructions call by call. Numbers outside
of the small range are pushed in their shortest form.
-/

namespace StdBitcoin

open Codec

/-- `encode_small_integer` with its assertions. -/
def encodeSmallInteger (value : Int) : Option Opcode :=
  if 0 ≤ value ∧ value ≤ 16 then
    some (if value = 0 then .op0 else ⟨UInt8.ofNat (Opcode.op1.raw.toNat + value.toNat - 1)⟩)
  else none

namespace ScriptBuilder

/-- `_append_size`. -/
def appendSize (bytes : List UInt8) (size : Nat) : List UInt8 :=
  if size < Opcode.opPushdata1.raw.toNat then
    bytes ++ [UInt8.ofNat size]
  else if size ≤ 0xFF then
    bytes ++ [Opcode.opPushdata1.raw, UInt8.ofNat size]
  else if size ≤ 0xFFFF then
    bytes ++ [Opcode.opPushdata2.raw, UInt8.ofNat (size &&& 0xFF),
      UInt8.ofNat (size >>> 8 &&& 0xFF)]
  else
    bytes ++ [Opcode.opPushdata4.raw, UInt8.ofNat (size &&& 0xFF),
      UInt8.ofNat (size >>> 8 &&& 0xFF),
      UInt8.ofNat (size >>> 16 &&& 0xFF), UInt8.ofNat (size >>> 24 &&& 0xFF)]

/-- `append(opcode)`. -/
def append (bytes : List UInt8) (code : Opcode) : List UInt8 := bytes ++ [code.raw]

/-- `script_builder::append_data`. -/
def appendData (bytes data : List UInt8) : List UInt8 := appendSize bytes data.length ++ data

/-- `script_builder::append_number`. -/
def appendNumber (bytes : List UInt8) (value : Int64) : Option (List UInt8) :=
  if value = -1 then
    some (append bytes .op1negate)
  else if 0 ≤ value ∧ value ≤ 16 then do
    let code ← encodeSmallInteger value.toInt
    return append bytes code
  else
    some (appendData bytes (serializeScriptNumber value))

/-- `append(script_ref)`. -/
def appendRef (bytes suffix : List UInt8) : List UInt8 := bytes ++ suffix

end ScriptBuilder

namespace Opcode

/-- The shortest form of a push. -/
def ofSize (size : Nat) : Opcode :=
  if size < opPushdata1.raw.toNat then ⟨UInt8.ofNat size⟩
  else if size ≤ 0xFF then opPushdata1
  else if size ≤ 0xFFFF then opPushdata2
  else opPushdata4

end Opcode

/-- A size below the prefixes is its own opcode. -/
theorem toNat_raw_of_small {size : Nat} (small : size < Opcode.opPushdata1.raw.toNat) :
    (UInt8.ofNat size).toNat = size := by
  rw [UInt8.toNat_ofNat']
  exact Nat.mod_eq_of_lt (small.trans (by decide))

/-- Sizes below that of `op_pushdata1` are direct. -/
theorem isDirect_of_small {size : Nat} (small : size < Opcode.opPushdata1.raw.toNat) :
    (Opcode.mk (UInt8.ofNat size)).IsDirect := by
  rw [Opcode.IsDirect, UInt8.lt_iff_toNat_lt, toNat_raw_of_small small]
  exact small

/-- The opcode that is chosen for a size allows data of this size. -/
theorem hasValidImmediate_ofSize {data : List UInt8} (bounded : data.length < 2 ^ 32) :
    hasValidImmediate (.ofSize data.length) data := by
  rw [hasValidImmediate_iff]
  unfold Opcode.ofSize
  by_cases small : data.length < Opcode.opPushdata1.raw.toNat
  · rw [if_pos small, if_pos (isDirect_of_small small), toNat_raw_of_small small]
  rw [if_neg small]
  by_cases byte : data.length ≤ 0xFF
  · rw [if_pos byte, if_neg (by decide)]
    exact Nat.lt_succ_of_le byte
  rw [if_neg byte]
  by_cases word : data.length ≤ 0xFFFF
  · rw [if_pos word, if_neg (by decide)]
    exact Nat.lt_succ_of_le word
  · rw [if_neg word, if_neg (by decide)]
    exact bounded

namespace Instruction

/-- The instruction that pushes some data. -/
def push (data : List UInt8) (bounded : data.length < 2 ^ 32) : Instruction :=
  ⟨.ofSize data.length, data, hasValidImmediate_ofSize bounded⟩

/-- A push pushes data. -/
theorem pushesData_push {data : List UInt8} (bounded : data.length < 2 ^ 32) :
    (push data bounded).pushesData := by
  change decide ((Opcode.ofSize data.length).raw ≤ _) = true
  rw [decide_eq_true_iff, Opcode.ofSize]
  split_ifs with small
  · rw [UInt8.le_iff_toNat_le, toNat_raw_of_small small]
    change _ < 76 at small
    change _ ≤ 78
    omega
  · decide
  · decide
  · decide

end Instruction

namespace Opcode

/-- The opcode carries no immediate. -/
def IsBare (code : Opcode) : Prop := code = op0 ∨ opPushdata4.raw < code.raw

/-- The only direct push that stands alone is `op_0`. -/
theorem eq_op0_of_bare_of_direct {code : Opcode} (bare : code.IsBare) (direct : code.IsDirect) :
    code = op0 := by
  rcases bare with zero | large
  · exact zero
  · exact absurd (UInt8.lt_trans direct (UInt8.lt_trans (by decide) large)) (UInt8.lt_irrefl _)

theorem prefixWidth_of_bare {code : Opcode} (bare : code.IsBare) : code.prefixWidth = 0 := by
  rcases bare with rfl | large
  · rfl
  · unfold prefixWidth
    rw [if_neg, if_neg, if_neg]
    · rintro rfl
      exact absurd large (by decide)
    · rintro rfl
      exact absurd large (by decide)
    · rintro rfl
      exact absurd large (by decide)

end Opcode

namespace Instruction

theorem immediate_of_bare {i : Instruction} (bare : i.code.IsBare) : i.immediate = [] := by
  have valid := (hasValidImmediate_iff _ _).mp i.valid
  rw [← List.length_eq_zero_iff]
  split at valid
  · rename_i direct
    rw [valid, Opcode.eq_op0_of_bare_of_direct bare direct]
    rfl
  · rw [Opcode.prefixWidth_of_bare bare, pow_zero] at valid
    exact Nat.lt_one_iff.mp valid

/-- An opcode that stands alone is one byte. -/
theorem wire_of_bare {i : Instruction} (bare : i.code.IsBare) : i.wire = [i.code.raw] := by
  rw [wire, immediate_of_bare bare, Opcode.prefixWidth_of_bare bare]
  rfl

end Instruction

namespace ScriptBuilder

/-- The bytes of a size are the opcode of the shortest push and its length field. -/
theorem appendSize_eq (bytes : List UInt8) (size : Nat) :
    appendSize bytes size = bytes ++
      (Opcode.ofSize size).raw :: LittleEndian.toBytes (Opcode.ofSize size).prefixWidth size := by
  have low (n : Nat) : UInt8.ofNat (n &&& 0xFF) = UInt8.ofNat n := by
    apply UInt8.toNat_inj.mp
    rw [UInt8.toNat_ofNat', UInt8.toNat_ofNat', Nat.and_two_pow_sub_one_eq_mod n 8, Nat.mod_mod]
  unfold appendSize Opcode.ofSize
  split_ifs with small
  · rw [Opcode.prefixWidth_of_direct (isDirect_of_small small)]
    rfl
  · rfl
  · rw [low, low, Nat.shiftRight_eq_div_pow]
    rfl
  · have third : size >>> 16 = size / 256 / 256 := by
      rw [Nat.shiftRight_eq_div_pow, Nat.div_div_eq_div_mul]
    have fourth : size >>> 24 = size / 256 / 256 / 256 := by
      rw [Nat.shiftRight_eq_div_pow, Nat.div_div_eq_div_mul, Nat.div_div_eq_div_mul]
    rw [low, low, low, low, third, fourth, Nat.shiftRight_eq_div_pow]
    rfl

/-- Appending data appends the instruction that pushes it. -/
theorem appendData_eq (bytes : List UInt8) {data : List UInt8} (bounded : data.length < 2 ^ 32) :
    appendData bytes data = bytes ++ (Instruction.push data bounded).wire := by
  rw [appendData, appendSize_eq, List.append_assoc]
  rfl

end ScriptBuilder

/-- One call on the builder. -/
inductive BuilderCall where
  | append (code : Opcode)
  | appendData (data : List UInt8)
  | appendNumber (value : Int64)
  | appendRef (suffix : List UInt8)

/-- The opcode of a number from 0 to 16. -/
def smallNumberOpcode (value : Int) : Opcode :=
  if value = 0 then .op0 else ⟨UInt8.ofNat (0x50 + value.toNat)⟩

namespace BuilderCall

/-- What a call does to the bytes. -/
def run : BuilderCall → List UInt8 → Option (List UInt8)
  | append code, bytes => some (ScriptBuilder.append bytes code)
  | appendData data, bytes => some (ScriptBuilder.appendData bytes data)
  | appendNumber value, bytes => ScriptBuilder.appendNumber bytes value
  | appendRef suffix, bytes => some (ScriptBuilder.appendRef bytes suffix)

/-- No bare push prefix, no data of four gigabytes and no broken suffix. -/
def Admissible : BuilderCall → Prop
  | append code => code = .op0 ∨ Opcode.opPushdata4.raw < code.raw
  | appendData data => data.length < 2 ^ 32
  | appendNumber _ => True
  | appendRef suffix => isWellFormed 64 suffix = some true

/-- The instructions that a call stands for. -/
def Yields : BuilderCall → List Instruction → Prop
  | append code, items => ∃ i, items = [i] ∧ i.code = code ∧ i.immediate = []
  | appendData data, items => ∃ i, items = [i] ∧ i.pushesData ∧ i.immediate = data
  | appendNumber value, items => ∃ i, items = [i] ∧
      if value = -1 then
        i.code = .op1negate ∧ i.immediate = []
      else if 0 ≤ value.toInt ∧ value.toInt ≤ 16 then
        i.code = smallNumberOpcode value.toInt ∧ i.immediate = []
      else
        i.pushesData ∧ scriptNumberValue i.immediate = value.toInt
  | appendRef suffix, items => instructions 64 suffix = some items

/-- Instructions without an immediate are written as their opcode. -/
theorem exists_instruction {code : Opcode} (bare : code.IsBare) :
    ∃ i : Instruction, i.code = code ∧ i.immediate = [] ∧ i.wire = [code.raw] := by
  have valid : hasValidImmediate code [] := by
    rw [hasValidImmediate_iff]
    split
    · rename_i direct
      rw [Opcode.eq_op0_of_bare_of_direct bare direct]
      rfl
    · exact Nat.pow_pos (by decide)
  exact ⟨⟨code, [], valid⟩, rfl, rfl, Instruction.wire_of_bare bare⟩

/-- The small integers have opcodes of their own. -/
theorem encodeSmallInteger_eq {value : Int} (lower : 0 ≤ value) (upper : value ≤ 16) :
    encodeSmallInteger value = some (smallNumberOpcode value) := by
  rw [encodeSmallInteger, if_pos ⟨lower, upper⟩, smallNumberOpcode]
  split
  · rfl
  · rename_i nonzero
    have shifted : Opcode.op1.raw.toNat + value.toNat - 1 = 0x50 + value.toNat := by
      change 0x51 + value.toNat - 1 = _
      omega
    rw [shifted]

/-- The opcode of a small integer stands alone. -/
theorem smallNumberOpcode_bare {value : Int} (lower : 0 ≤ value) (upper : value ≤ 16) :
    smallNumberOpcode value = .op0 ∨ Opcode.opPushdata4.raw < (smallNumberOpcode value).raw := by
  unfold smallNumberOpcode
  split
  · exact .inl rfl
  · right
    rw [UInt8.lt_iff_toNat_lt, UInt8.toNat_ofNat', Nat.mod_eq_of_lt (by omega)]
    change 78 < _
    omega

/-- What one call appends. -/
theorem run_eq (call : BuilderCall) (admissible : call.Admissible) :
    ∃ items, call.Yields items ∧
      ∀ bytes, call.run bytes = some (bytes ++ items.flatMap Instruction.wire) := by
  cases call with
  | append code =>
      obtain ⟨i, code_eq, immediate, wire⟩ := exists_instruction admissible
      refine ⟨[i], ⟨i, rfl, code_eq, immediate⟩, fun bytes => ?_⟩
      rw [List.flatMap_singleton, wire]
      rfl
  | appendData data =>
      refine ⟨[.push data admissible], ⟨_, rfl, Instruction.pushesData_push admissible, rfl⟩,
        fun bytes => ?_⟩
      rw [run, ScriptBuilder.appendData_eq bytes admissible, List.flatMap_singleton]
  | appendNumber value =>
      by_cases negate : value = -1
      · obtain ⟨i, code_eq, immediate, wire⟩ := @exists_instruction .op1negate (.inr (by decide))
        refine ⟨[i], ⟨i, rfl, by rw [if_pos negate]; exact ⟨code_eq, immediate⟩⟩, fun bytes => ?_⟩
        rw [run, ScriptBuilder.appendNumber, if_pos negate, List.flatMap_singleton, wire]
        rfl
      by_cases small : 0 ≤ value.toInt ∧ value.toInt ≤ 16
      · obtain ⟨i, code_eq, immediate, wire⟩ :=
          exists_instruction (smallNumberOpcode_bare small.1 small.2)
        refine ⟨[i], ⟨i, rfl, by rw [if_neg negate, if_pos small]; exact ⟨code_eq, immediate⟩⟩,
          fun bytes => ?_⟩
        have small_word : 0 ≤ value ∧ value ≤ 16 :=
          ⟨Int64.le_iff_toInt_le.mpr small.1, Int64.le_iff_toInt_le.mpr small.2⟩
        rw [run, ScriptBuilder.appendNumber, if_neg negate, if_pos small_word,
          encodeSmallInteger_eq small.1 small.2, List.flatMap_singleton, wire]
        rfl
      · have bounded : (serializeScriptNumber value).length < 2 ^ 32 :=
          (length_serializeScriptNumber_le value).trans_lt (by decide)
        refine ⟨[.push _ bounded], ⟨_, rfl, ?_⟩, fun bytes => ?_⟩
        · rw [if_neg negate, if_neg small]
          exact ⟨Instruction.pushesData_push bounded, scriptNumberValue_serializeScriptNumber value⟩
        · have large_word : ¬ (0 ≤ value ∧ value ≤ 16) := fun within =>
            small ⟨Int64.le_iff_toInt_le.mp within.1, Int64.le_iff_toInt_le.mp within.2⟩
          rw [run, ScriptBuilder.appendNumber, if_neg negate, if_neg large_word,
            ScriptBuilder.appendData_eq bytes bounded, List.flatMap_singleton]
  | appendRef suffix =>
      have wide : 33 ≤ 64 := by decide
      obtain ⟨items, decodes⟩ := (isWellFormed_iff wide suffix).mp admissible
      refine ⟨items, instructions_eq wide decodes, fun bytes => ?_⟩
      rw [run, ScriptBuilder.appendRef, decodes.split, List.append_nil]

end BuilderCall

/-- A sequence of calls on a script. -/
def buildOn (bytes : List UInt8) (calls : List BuilderCall) : Option (List UInt8) :=
  calls.foldlM (fun bytes call => call.run bytes) bytes

/-- What a sequence of calls appends, group by group. -/
theorem buildOn_eq (calls : List BuilderCall) (admissible : ∀ call ∈ calls, call.Admissible) :
    ∃ groups, List.Forall₂ BuilderCall.Yields calls groups ∧
      ∀ bytes, buildOn bytes calls = some (bytes ++ groups.flatten.flatMap Instruction.wire) := by
  induction calls with
  | nil =>
      refine ⟨[], .nil, fun bytes => ?_⟩
      rw [List.flatten_nil, List.flatMap_nil, List.append_nil]
      rfl
  | cons call calls ih =>
      obtain ⟨first, others⟩ := List.forall_mem_cons.mp admissible
      obtain ⟨items, yields, run⟩ := call.run_eq first
      obtain ⟨groups, all, rest⟩ := ih others
      refine ⟨items :: groups, .cons yields all, fun bytes => ?_⟩
      have step :
          buildOn bytes (call :: calls) = (call.run bytes).bind fun next => buildOn next calls :=
        List.foldlM_cons
      rw [step, run, Option.bind_some, rest, List.flatten_cons, List.flatMap_append,
        List.append_assoc]

/-- Decoding undoes building, call by call, where `std::size_t` has 64 bits. -/
theorem decode_build (calls : List BuilderCall) (admissible : ∀ call ∈ calls, call.Admissible) :
    ∃ script groups, buildOn [] calls = some script ∧ isWellFormed 64 script = some true ∧
      List.Forall₂ BuilderCall.Yields calls groups ∧
      instructions 64 script = some groups.flatten := by
  obtain ⟨groups, yields, built⟩ := buildOn_eq calls admissible
  let script := groups.flatten.flatMap Instruction.wire
  have wide : 33 ≤ 64 := by decide
  have decodes : Decodes Instruction.wire script groups.flatten [] :=
    ⟨(List.append_nil _).symm, stuck_nil Instruction.wire_ne_nil⟩
  exact ⟨script, groups, built [], (isWellFormed_iff wide script).mpr ⟨_, decodes⟩, yields,
    instructions_eq wide decodes⟩

/-- An opcode, a number and data are read back from the built script. -/
theorem decode_build_sample :
    ∃ script groups,
      buildOn [] [.append .op0, .appendNumber (-1000), .appendData [1, 2]] = some script ∧
      isWellFormed 64 script = some true ∧
      List.Forall₂ BuilderCall.Yields
        [.append .op0, .appendNumber (-1000), .appendData [1, 2]] groups ∧
      instructions 64 script = some groups.flatten := by
  apply decode_build
  intro call member
  simp only [List.mem_cons, List.not_mem_nil, or_false] at member
  rcases member with rfl | rfl | rfl
  · exact .inl rfl
  · trivial
  · exact (by decide : 2 < 2 ^ 32)

end StdBitcoin
