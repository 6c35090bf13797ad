import StdBitcoin.Script.Canonical

/-!
# Output templates

The recognisers of witness programs and of the common output types look at fixed
offsets of the bytes. They accept the scripts that decode to the template, and no
others.
-/

namespace StdBitcoin

open Codec

namespace Opcode

/-- `op_equal`. -/
def opEqual : Opcode := ⟨0x87⟩

/-- `op_hash160`. -/
def opHash160 : Opcode := ⟨0xA9⟩

end Opcode

/-- `is_small_integer`. -/
def isSmallInteger (code : Opcode) : Bool :=
  code = .op0 || (Opcode.op1.raw ≤ code.raw && code.raw ≤ Opcode.op16.raw)

/-- `decode_small_integer` with its assertion. -/
def decodeSmallInteger (code : Opcode) : Option Int :=
  if isSmallInteger code then
    some (if code = .op0 then 0 else 1 + (code.raw.toNat - Opcode.op1.raw.toNat : Int))
  else none

/-- `witness_program_ref`, with what its constructor asserts. -/
@[ext] structure WitnessProgramRef where
  version : UInt8
  program : List UInt8
  version_le : version ≤ 16
  le_size : 2 ≤ program.length
  size_le : program.length ≤ 40
deriving DecidableEq

namespace WitnessProgramRef

/-- The constructor with its assertions. -/
def make (version : UInt8) (program : List UInt8) : Option WitnessProgramRef :=
  if valid : version ≤ 16 ∧ 2 ≤ program.length ∧ program.length ≤ 40 then
    some ⟨version, program, valid.1, valid.2.1, valid.2.2⟩
  else none

end WitnessProgramRef

/-- `witness_program`. There is no result where the behaviour is undefined or an
assertion fails. -/
def witnessProgram (bytes : List UInt8) : Option (Option WitnessProgramRef) :=
  if bytes.length < 4 ∨ 42 < bytes.length then
    some none
  else do
    let versionCode : Opcode := ⟨← bytes[0]?⟩
    if !isSmallInteger versionCode then
      return none
    let version ← decodeSmallInteger versionCode
    let programSize := (← bytes[1]?).toNat
    if programSize < 2 ∨ 40 < programSize then
      return none
    if bytes.length ≠ programSize + 2 then
      return none
    let program ← subspan 64 bytes 2 programSize
    let result ← WitnessProgramRef.make (UInt8.ofNat version.toNat) program
    return some result

/-- `is_pay_to_script_hash`. -/
def isPayToScriptHash (bytes : List UInt8) : Bool :=
  bytes.length = 23 && bytes[0]? = some Opcode.opHash160.raw && bytes[1]? = some 0x14 &&
    bytes[22]? = some Opcode.opEqual.raw

/-- `is_pay_to_witness_script_hash`. -/
def isPayToWitnessScriptHash (bytes : List UInt8) : Bool :=
  bytes.length = 34 && bytes[0]? = some Opcode.op0.raw && bytes[1]? = some 0x20

/-- `is_pay_to_taproot`. -/
def isPayToTaproot (bytes : List UInt8) : Bool :=
  bytes.length = 34 && bytes[0]? = some Opcode.op1.raw && bytes[1]? = some 0x20

/-- The opcode of a small integer stands alone. -/
theorem isBare_of_isSmallInteger {code : Opcode} (small : isSmallInteger code = true) :
    code.IsBare := by
  simp only [isSmallInteger, Bool.or_eq_true, Bool.and_eq_true, decide_eq_true_iff] at small
  rcases small with zero | range
  · exact .inl zero
  · exact .inr (UInt8.lt_of_lt_of_le (by decide) range.1)

/-- The value of a small integer, as the byte of a witness version. -/
def smallVersion (code : Opcode) : UInt8 :=
  if code = .op0 then 0 else UInt8.ofNat (code.raw.toNat - 0x50)

/-- The version is the small integer, at most 16. -/
theorem toNat_smallVersion {code : Opcode} (small : isSmallInteger code = true) :
    decodeSmallInteger code = some ((smallVersion code).toNat : Int) ∧ smallVersion code ≤ 16 := by
  rw [decodeSmallInteger, if_pos small, smallVersion]
  simp only [isSmallInteger, Bool.or_eq_true, Bool.and_eq_true, decide_eq_true_iff] at small
  by_cases zero : code = .op0
  · rw [if_pos zero, if_pos zero]
    exact ⟨rfl, by decide⟩
  · have range := small.resolve_left zero
    have lower : 81 ≤ code.raw.toNat := range.1
    have upper : code.raw.toNat ≤ 96 := range.2
    have same : (UInt8.ofNat (code.raw.toNat - 0x50)).toNat = code.raw.toNat - 0x50 := by
      rw [UInt8.toNat_ofNat']
      omega
    rw [if_neg zero, if_neg zero, UInt8.le_iff_toNat_le, same]
    refine ⟨congrArg some ?_, ?_⟩
    · change 1 + ((code.raw.toNat : Int) - 81) = _
      omega
    · change _ ≤ 16
      omega

/-- The bytes are a small integer, a size and as many bytes as it says. -/
def IsWitnessProgram (version size : UInt8) (program : List UInt8) : Prop :=
  isSmallInteger ⟨version⟩ = true ∧ size.toNat = program.length ∧ 2 ≤ program.length ∧
    program.length ≤ 40

/-- The witness program behind a version and a size. -/
theorem witnessProgram_cons (version size : UInt8) (program : List UInt8) :
    (IsWitnessProgram version size program ∧
      ∃ ref, witnessProgram (version :: size :: program) = some (some ref) ∧
        ref.version = smallVersion ⟨version⟩ ∧ ref.program = program) ∨
    ¬ IsWitnessProgram version size program ∧
      witnessProgram (version :: size :: program) = some none := by
  have length : (version :: size :: program).length = program.length + 2 := rfl
  unfold witnessProgram IsWitnessProgram
  rw [length]
  by_cases outside : program.length + 2 < 4 ∨ 42 < program.length + 2
  · rw [if_pos outside]
    right
    refine ⟨fun shape => ?_, rfl⟩
    omega
  rw [if_neg outside]
  simp only [List.getElem?_cons_zero, List.getElem?_cons_succ, Option.bind_eq_bind,
    Option.bind_some]
  by_cases small : isSmallInteger ⟨version⟩ = true
  · obtain ⟨decoded, bound⟩ := toNat_smallVersion small
    rw [small, decoded]
    simp only [Bool.not_true, Bool.false_eq_true, if_false, Option.bind_some]
    by_cases same : size.toNat = program.length
    · left
      have found : subspan 64 (version :: size :: program) 2 size.toNat = some program := by
        have fixed : program.length ≠ 2 ^ 64 - 1 := by omega
        have middle := subspan_append [version, size] program [] fixed
        rwa [List.append_nil, ← same] at middle
      have made : WitnessProgramRef.make (UInt8.ofNat (smallVersion ⟨version⟩).toNat) program =
          some ⟨smallVersion ⟨version⟩, program, bound, by omega, by omega⟩ := by
        rw [UInt8.ofNat_toNat, WitnessProgramRef.make, dif_pos ⟨bound, by omega, by omega⟩]
      refine ⟨⟨trivial, same, by omega, by omega⟩,
        ⟨smallVersion ⟨version⟩, program, bound, by omega, by omega⟩, ?_, rfl, rfl⟩
      rw [if_neg (by omega), if_neg (by omega), found, Option.bind_some, Int.toNat_natCast, made]
      rfl
    · right
      refine ⟨fun shape => same shape.2.1, ?_⟩
      split
      · rfl
      · rw [if_pos (by omega)]
        rfl
  · right
    refine ⟨fun shape => small shape.1, ?_⟩
    rw [Bool.not_eq_true] at small
    rw [small]
    rfl

/-- `witness_program` is defined on every script, and finds what it looks for. -/
theorem witnessProgram_eq_some_iff (bytes : List UInt8) (version : UInt8) (program : List UInt8) :
    (∃ ref, witnessProgram bytes = some (some ref) ∧ ref.version = version ∧
      ref.program = program) ↔
    ∃ code, isSmallInteger code = true ∧ smallVersion code = version ∧
      bytes = code.raw :: UInt8.ofNat program.length :: program ∧
      2 ≤ program.length ∧ program.length ≤ 40 := by
  constructor
  · intro result
    rcases result with ⟨ref, found, rfl, rfl⟩
    match bytes with
    | [] => cases found
    | [_] => cases found
    | first :: size :: rest =>
        rcases witnessProgram_cons first size rest with
          ⟨shape, other, result, named, kept⟩ | refused
        · obtain rfl := Option.some.inj (Option.some.inj (found.symm.trans result))
          obtain ⟨small, same, lower, upper⟩ := shape
          rw [named, kept]
          refine ⟨⟨first⟩, small, rfl, ?_, lower, upper⟩
          rw [← same, UInt8.ofNat_toNat]
        · rw [refused.2] at found
          cases found
  · intro shape
    rcases shape with ⟨code, small, rfl, rfl, lower, upper⟩
    rcases witnessProgram_cons code.raw (UInt8.ofNat program.length) program with found | refused
    · exact found.2
    · refine absurd ⟨small, ?_, lower, upper⟩ refused.1
      rw [UInt8.toNat_ofNat']
      omega

/-- The recogniser of witness programs reads within the script. -/
theorem isSome_witnessProgram (bytes : List UInt8) : (witnessProgram bytes).isSome := by
  match bytes with
  | [] => rfl
  | [_] => rfl
  | first :: size :: rest =>
      rcases witnessProgram_cons first size rest with ⟨-, ref, found, -⟩ | ⟨-, refused⟩
      · rw [found]
        rfl
      · rw [refused]
        rfl

/-- Fully read scripts are their instructions one after the other. -/
theorem reads_whole_iff (script : List UInt8) (items : List Instruction) :
    isWellFormed 64 script = some true ∧ instructions 64 script = some items ↔
      script = items.flatMap Instruction.wire := by
  have wide : 33 ≤ 64 := by decide
  rw [isWellFormed_iff wide]
  constructor
  · intro formed
    rcases formed with ⟨⟨others, decodes⟩, listed⟩
    rw [instructions_eq wide decodes] at listed
    obtain rfl := Option.some.inj listed
    rw [decodes.split, List.append_nil]
  · rintro rfl
    have decodes := decodes_flatMap items
    exact ⟨⟨items, decodes⟩, instructions_eq wide decodes⟩

namespace Instruction

theorem wire_of_direct {i : Instruction} (direct : i.code.IsDirect) :
    i.wire = i.code.raw :: i.immediate := by
  rw [wire, Opcode.prefixWidth_of_direct direct]
  rfl

/-- A short push whose opcode is its length. -/
theorem isDirect_of_length {i : Instruction} (same : i.code.raw.toNat = i.immediate.length)
    (short : i.immediate.length < 76) : i.code.IsDirect := by
  rw [← same] at short
  exact short

/-- Fewer than 76 bytes are pushed directly. -/
theorem exists_direct (data : List UInt8) (short : data.length < 76) :
    ∃ i : Instruction, i.code.raw.toNat = data.length ∧ i.immediate = data ∧
      i.wire = UInt8.ofNat data.length :: data := by
  have code : Opcode.ofSize data.length = ⟨UInt8.ofNat data.length⟩ := if_pos short
  let i := push data (short.trans (by decide))
  have direct : i.code.IsDirect := by
    change (Opcode.ofSize data.length).IsDirect
    rw [code]
    exact isDirect_of_small short
  refine ⟨i, ?_, rfl, ?_⟩
  · change (Opcode.ofSize data.length).raw.toNat = _
    rw [code]
    exact toNat_raw_of_small short
  · rw [wire_of_direct direct]
    change (Opcode.ofSize data.length).raw :: data = _
    rw [code]

end Instruction

/-- `witness_program` returns this version and this program. -/
def HasWitnessProgram (script : List UInt8) (version : UInt8) (program : List UInt8) : Prop :=
  ∃ ref, witnessProgram script = some (some ref) ∧ ref.version = version ∧ ref.program = program

/-- The script reads as a small integer and a direct push, and nothing else. -/
def ReadsAsWitnessProgram (script : List UInt8) (version : UInt8) (program : List UInt8) : Prop :=
  isWellFormed 64 script = some true ∧
    ∃ number data, instructions 64 script = some [number, data] ∧
      isSmallInteger number.code = true ∧
      decodeSmallInteger number.code = some (version.toNat : Int) ∧
      data.code.raw.toNat = program.length ∧ data.immediate = program ∧
      2 ≤ program.length ∧ program.length ≤ 40

/-- The bytes are those of a witness program if and only if the instructions are. -/
theorem hasWitnessProgram_iff_reads (script : List UInt8) (version : UInt8) (program : List UInt8) :
    HasWitnessProgram script version program ↔ ReadsAsWitnessProgram script version program := by
  rw [HasWitnessProgram, witnessProgram_eq_some_iff, ReadsAsWitnessProgram]
  constructor
  · intro shape
    rcases shape with ⟨code, small, rfl, rfl, lower, upper⟩
    obtain ⟨number, rfl, -, number_wire⟩ :=
      BuilderCall.exists_instruction (isBare_of_isSmallInteger small)
    obtain ⟨data, size, immediate, data_wire⟩ := Instruction.exists_direct program (by omega)
    have whole := (reads_whole_iff (number.code.raw :: UInt8.ofNat program.length :: program)
      [number, data]).mpr (by simp [number_wire, data_wire])
    exact ⟨whole.1, number, data, whole.2, small, (toNat_smallVersion small).1, size, immediate,
      lower, upper⟩
  · intro decoded
    rcases decoded with ⟨formed, number, data, listed, small, decoded, size, rfl, lower, upper⟩
    have direct := Instruction.isDirect_of_length size (by omega)
    have version_eq : smallVersion number.code = version := by
      have same := (toNat_smallVersion small).1.symm.trans decoded
      exact UInt8.toNat_inj.mp (Int.ofNat_inj.mp (Option.some.inj same))
    refine ⟨number.code, small, version_eq, ?_, lower, upper⟩
    rw [(reads_whole_iff script [number, data]).mp ⟨formed, listed⟩, ← size, UInt8.ofNat_toNat,
      List.flatMap_cons, List.flatMap_singleton,
      Instruction.wire_of_bare (isBare_of_isSmallInteger small), Instruction.wire_of_direct direct]
    rfl

/-- The opcode of a witness version. -/
theorem smallNumberOpcode_smallVersion {code : Opcode} (small : isSmallInteger code = true) :
    smallNumberOpcode (smallVersion code).toNat = code := by
  obtain ⟨decoded, -⟩ := toNat_smallVersion small
  rw [decodeSmallInteger, if_pos small] at decoded
  have value := (Option.some.inj decoded).symm
  rw [smallNumberOpcode, value]
  by_cases zero : code = .op0
  · rw [if_pos zero, if_pos rfl, zero]
  · simp only [isSmallInteger, Bool.or_eq_true, Bool.and_eq_true, decide_eq_true_iff] at small
    have range := small.resolve_left zero
    have lower : 81 ≤ code.raw.toNat := range.1
    have same : (1 + ((code.raw.toNat : Int) - Opcode.op1.raw.toNat)) =
      (code.raw.toNat - 80 : Nat) := by
      change 1 + ((code.raw.toNat : Int) - 81) = _
      omega
    rw [if_neg zero, same, if_neg (by omega), Int.toNat_natCast]
    apply Opcode.ext
    change UInt8.ofNat (80 + (code.raw.toNat - 80)) = code.raw
    rw [Nat.add_sub_cancel' (by omega), UInt8.ofNat_toNat]

/-- A witness program is what the builder makes of its version and its bytes. -/
theorem buildOn_of_hasWitnessProgram {script program : List UInt8} {version : UInt8}
    (found : HasWitnessProgram script version program) :
    buildOn [] [.appendNumber (Int64.ofNat version.toNat), .appendData program] = some script := by
  obtain ⟨code, small, rfl, rfl, -, upper⟩ := (witnessProgram_eq_some_iff ..).mp found
  have bound : (smallVersion code).toNat ≤ 16 := (toNat_smallVersion small).2
  have value : (Int64.ofNat (smallVersion code).toNat).toInt = (smallVersion code).toNat := by
    rw [Int64.toInt_ofNat_of_lt (by omega)]
  have number : ScriptBuilder.appendNumber [] (Int64.ofNat (smallVersion code).toNat) =
      some [code.raw] := by
    have nonnegative : Int64.ofNat (smallVersion code).toNat ≠ -1 := by
      intro same
      rw [same] at value
      exact absurd value (by
        change (-1 : Int) ≠ _
        omega)
    have within : 0 ≤ Int64.ofNat (smallVersion code).toNat ∧
        Int64.ofNat (smallVersion code).toNat ≤ 16 := by
      rw [Int64.le_iff_toInt_le, Int64.le_iff_toInt_le, value]
      change (0 : Int) ≤ _ ∧ _ ≤ (16 : Int)
      omega
    rw [ScriptBuilder.appendNumber, if_neg nonnegative, if_pos within, value,
      BuilderCall.encodeSmallInteger_eq (by omega) (by omega), smallNumberOpcode_smallVersion small]
    rfl
  have data : ScriptBuilder.appendData [code.raw] program =
      code.raw :: UInt8.ofNat program.length :: program := by
    rw [ScriptBuilder.appendData, ScriptBuilder.appendSize, if_pos (by
      change _ < 76
      omega)]
    rfl
  simp only [buildOn, List.foldlM_cons, BuilderCall.run, number, List.foldlM_nil,
    Option.bind_eq_bind, Option.bind_some, data]
  rfl

/-- The version determines the opcode. -/
theorem smallVersion_inj {left right : Opcode} (first : isSmallInteger left = true)
    (second : isSmallInteger right = true) (same : smallVersion left = smallVersion right) :
    left = right := by
  rw [← smallNumberOpcode_smallVersion first, same, smallNumberOpcode_smallVersion second]

/-- A recogniser of one version looks for its opcode and the size 32. -/
theorem starts_with_iff (script : List UInt8) {code : Opcode}
    (small : isSmallInteger code = true) :
    (script.length = 34 ∧ script[0]? = some code.raw ∧ script[1]? = some 0x20) ↔
      ∃ program, HasWitnessProgram script (smallVersion code) program ∧ program.length = 32 := by
  constructor
  · intro bytes
    rcases bytes with ⟨length, first, second⟩
    match script with
    | [] => cases first
    | [_] => cases second
    | version :: size :: program =>
        obtain rfl := Option.some.inj first
        obtain rfl := Option.some.inj second
        have size : program.length = 32 := by simpa using length
        refine ⟨program, (witnessProgram_eq_some_iff ..).mpr ⟨code, small, rfl, ?_, ?_, ?_⟩, size⟩
        · rw [size]
          rfl
        · omega
        · omega
  · intro recognised
    rcases recognised with ⟨program, found, size⟩
    obtain ⟨other, also, same, rfl, -, -⟩ := (witnessProgram_eq_some_iff ..).mp found
    obtain rfl := smallVersion_inj also small same
    rw [size]
    exact ⟨congrArg (· + 2) size, rfl, rfl⟩

/-- The script reads as `OP_HASH160`, a direct push of 20 bytes and `OP_EQUAL`. -/
def ReadsAsScriptHash (script : List UInt8) : Prop :=
  isWellFormed 64 script = some true ∧
    ∃ hash data equal, instructions 64 script = some [hash, data, equal] ∧
      hash.code = .opHash160 ∧ data.code = ⟨20⟩ ∧ data.immediate.length = 20 ∧
      equal.code = .opEqual

/-- The form of a pay-to-script-hash script by its bytes. -/
theorem isPayToScriptHash_iff (script : List UInt8) :
    isPayToScriptHash script = true ↔
      ∃ hash : List UInt8, hash.length = 20 ∧
        script = Opcode.opHash160.raw :: 20 :: (hash ++ [Opcode.opEqual.raw]) := by
  simp only [isPayToScriptHash, Bool.and_eq_true, decide_eq_true_iff]
  constructor
  · intro bytes
    rcases bytes with ⟨⟨⟨length, first⟩, second⟩, last⟩
    match script with
    | [] => cases first
    | [_] => cases second
    | code :: size :: rest =>
        obtain rfl := Option.some.inj first
        obtain rfl := Option.some.inj second
        have behind : rest.length = 21 := by simpa using length
        rcases List.eq_nil_or_concat' rest with rfl | ⟨hash, back, rfl⟩
        · cases behind
        · have size : hash.length = 20 := by simpa using behind
          rw [List.getElem?_cons_succ, List.getElem?_cons_succ, List.getElem?_append_right size.le,
            size] at last
          obtain rfl := Option.some.inj last
          exact ⟨hash, size, rfl⟩
  · intro shape
    rcases shape with ⟨hash, size, rfl⟩
    refine ⟨⟨⟨?_, rfl⟩, rfl⟩, ?_⟩
    · simp [size]
    · rw [List.getElem?_cons_succ, List.getElem?_cons_succ,
        List.getElem?_append_right size.le, size]
      rfl

/-- The bytes are those of a pay-to-script-hash script if and only if the instructions are. -/
theorem isPayToScriptHash_iff_reads (script : List UInt8) :
    isPayToScriptHash script = true ↔ ReadsAsScriptHash script := by
  rw [isPayToScriptHash_iff, ReadsAsScriptHash]
  have hash_bare : Opcode.opHash160.IsBare := .inr (by decide)
  have equal_bare : Opcode.opEqual.IsBare := .inr (by decide)
  constructor
  · intro shape
    rcases shape with ⟨bytes, size, rfl⟩
    obtain ⟨hash, hash_code, -, hash_wire⟩ := BuilderCall.exists_instruction hash_bare
    obtain ⟨equal, equal_code, -, equal_wire⟩ := BuilderCall.exists_instruction equal_bare
    obtain ⟨data, length, rfl, data_wire⟩ := Instruction.exists_direct bytes (by omega)
    rw [size] at length data_wire
    have whole := (reads_whole_iff _ [hash, data, equal]).mpr (by
      simp only [List.flatMap_cons, List.flatMap_nil, hash_wire, data_wire, equal_wire]
      rfl)
    refine ⟨whole.1, hash, data, equal, whole.2, hash_code, ?_, size, equal_code⟩
    exact Opcode.ext (UInt8.toNat_inj.mp length)
  · intro decoded
    rcases decoded with ⟨formed, hash, data, equal, listed, hash_code, data_code, size, equal_code⟩
    have direct : data.code.IsDirect := by
      rw [data_code]
      decide
    rw [← hash_code] at hash_bare
    rw [← equal_code] at equal_bare
    refine ⟨data.immediate, size, ?_⟩
    rw [(reads_whole_iff script [hash, data, equal]).mp ⟨formed, listed⟩, List.flatMap_cons,
      List.flatMap_cons, List.flatMap_singleton, Instruction.wire_of_bare hash_bare,
      Instruction.wire_of_direct direct, Instruction.wire_of_bare equal_bare, hash_code, data_code,
      equal_code]
    rfl

theorem isPayToWitnessScriptHash_iff (script : List UInt8) :
    isPayToWitnessScriptHash script = true ↔
      ∃ program, HasWitnessProgram script 0 program ∧ program.length = 32 := by
  have small : isSmallInteger .op0 = true := rfl
  rw [isPayToWitnessScriptHash, Bool.and_eq_true, Bool.and_eq_true, decide_eq_true_iff,
    decide_eq_true_iff, decide_eq_true_iff, and_assoc]
  exact starts_with_iff script small

theorem isPayToTaproot_iff (script : List UInt8) :
    isPayToTaproot script = true ↔
      ∃ program, HasWitnessProgram script 1 program ∧ program.length = 32 := by
  have small : isSmallInteger .op1 = true := by decide
  rw [isPayToTaproot, Bool.and_eq_true, Bool.and_eq_true, decide_eq_true_iff,
    decide_eq_true_iff, decide_eq_true_iff, and_assoc]
  exact starts_with_iff script small

/-- The length or the first byte tells the templates apart. -/
theorem templates_disjoint (script : List UInt8) :
    ¬ (isPayToScriptHash script = true ∧ isPayToWitnessScriptHash script = true) ∧
      ¬ (isPayToScriptHash script = true ∧ isPayToTaproot script = true) ∧
      ¬ (isPayToWitnessScriptHash script = true ∧ isPayToTaproot script = true) := by
  simp only [isPayToScriptHash, isPayToWitnessScriptHash, isPayToTaproot, Bool.and_eq_true,
    decide_eq_true_iff]
  refine ⟨?_, ?_, ?_⟩
  · intro both
    rcases both with ⟨left, right⟩
    have lengths := left.1.1.1.symm.trans right.1.1
    cases lengths
  · intro both
    rcases both with ⟨left, right⟩
    have lengths := left.1.1.1.symm.trans right.1.1
    cases lengths
  · intro both
    rcases both with ⟨left, right⟩
    have codes := left.1.2.symm.trans right.1.2
    exact absurd (Option.some.inj codes) (by decide)

/-- The recognisers of the templates agree with the decoding of the script, where `std::size_t`
has 64 bits. -/
theorem templates_agree (script : List UInt8) :
    (witnessProgram script).isSome ∧
    (∀ version program, HasWitnessProgram script version program ↔
      ReadsAsWitnessProgram script version program) ∧
    (∀ version program, HasWitnessProgram script version program →
      buildOn [] [.appendNumber (Int64.ofNat version.toNat), .appendData program] = some script) ∧
    (isPayToWitnessScriptHash script = true ↔
      ∃ program, HasWitnessProgram script 0 program ∧ program.length = 32) ∧
    (isPayToTaproot script = true ↔
      ∃ program, HasWitnessProgram script 1 program ∧ program.length = 32) ∧
    (isPayToScriptHash script = true ↔ ReadsAsScriptHash script) ∧
    ¬ (isPayToScriptHash script = true ∧ isPayToWitnessScriptHash script = true) ∧
    ¬ (isPayToScriptHash script = true ∧ isPayToTaproot script = true) ∧
    ¬ (isPayToWitnessScriptHash script = true ∧ isPayToTaproot script = true) :=
  ⟨isSome_witnessProgram script, hasWitnessProgram_iff_reads script,
    fun _ _ => buildOn_of_hasWitnessProgram, isPayToWitnessScriptHash_iff script,
    isPayToTaproot_iff script, isPayToScriptHash_iff_reads script, templates_disjoint script⟩

end StdBitcoin
