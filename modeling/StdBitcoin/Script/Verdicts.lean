import StdBitcoin.Script.Canonical

/-!
# Verdicts on built scripts

The predicates judge a script by its bytes. For a script that is built, their verdicts
can be told from the calls on the builder, without a look at the bytes: a number never
spoils a script, data only by its size, and a suffix by its own verdict. Only an
opcode or a suffix can make a script start with `OP_RETURN`.
-/

namespace StdBitcoin

open Codec

namespace Opcode

/-- `op_return`. -/
def opReturn : Opcode := ⟨0x6A⟩

end Opcode

/-- `script_size_limit`. -/
def scriptSizeLimit : Nat := 10000

/-- `is_unspendable`. -/
def isUnspendable (bytes : List UInt8) : Bool :=
  bytes.head? == some Opcode.opReturn.raw || decide (scriptSizeLimit < bytes.length)

namespace Instruction

/-- What `is_push_only` accepts. -/
def isPush (i : Instruction) : Bool := i.code.raw ≤ Opcode.op16.raw

/-- What `has_valid_opcodes` accepts. -/
def isAllowed (i : Instruction) : Bool :=
  isDefinedOpcode i.code && i.immediate.length ≤ scriptElementSizeLimit

/-- Whether the instruction is `op_return`. -/
def isReturn (i : Instruction) : Bool := i.code = .opReturn

theorem isReturn_eq (i : Instruction) : i.isReturn = decide (i.code.raw = Opcode.opReturn.raw) :=
  decide_eq_decide.mpr Opcode.ext_iff

end Instruction

namespace BuilderCall

/-- The call appends pushes only. -/
def pushesOnly : BuilderCall → Bool
  | append code => code.raw ≤ Opcode.op16.raw
  | appendData _ => true
  | appendNumber _ => true
  | appendRef suffix => isPushOnly 64 suffix == some true

/-- The call appends defined opcodes only, and no immediate above the limit. -/
def allowedOnly : BuilderCall → Bool
  | append code => isDefinedOpcode code
  | appendData data => data.length ≤ scriptElementSizeLimit
  | appendNumber _ => true
  | appendRef suffix => hasValidOpcodes 64 suffix == some true

/-- Whether what the call appends starts with `OP_RETURN`, if it appends anything. -/
def startsWithReturn : BuilderCall → Option Bool
  | append code => some (code = .opReturn)
  | appendData _ => some false
  | appendNumber _ => some false
  | appendRef suffix => suffix.head?.map fun front => front = Opcode.opReturn.raw

/-- The call that a number amounts to. -/
def plain : BuilderCall → BuilderCall
  | appendNumber value =>
      if value = -1 then append .op1negate
      else if 0 ≤ value ∧ value ≤ 16 then append (smallNumberOpcode value.toInt)
      else appendData (serializeScriptNumber value)
  | call => call

end BuilderCall

/-- Some way of appending to a script appends the given instructions, and the three
verdicts on these. -/
structure Appends (run : List UInt8 → Option (List UInt8)) (items : List Instruction)
    (pushes allowed : Bool) (returns : Option Bool) : Prop where
  runs : ∀ bytes, run bytes = some (bytes ++ items.flatMap Instruction.wire)
  pushes_eq : items.all Instruction.isPush = pushes
  allowed_eq : items.all Instruction.isAllowed = allowed
  returns_eq : items.head?.map Instruction.isReturn = returns

namespace Instruction

/-- Prefixes and the opcodes below them push, are defined and are not `OP_RETURN`. -/
theorem verdicts_of_pushesData {i : Instruction} (pushes : i.pushesData = true) :
    i.isPush = true ∧ i.isAllowed = decide (i.immediate.length ≤ scriptElementSizeLimit) ∧
      i.isReturn = false := by
  have low : i.code.raw ≤ Opcode.opPushdata4.raw := of_decide_eq_true pushes
  have push : i.code.raw ≤ Opcode.op16.raw := UInt8.le_trans low (by decide)
  have defined : i.code.raw ≤ Opcode.opChecksigadd.raw := UInt8.le_trans low (by decide)
  refine ⟨decide_eq_true push, ?_, decide_eq_false fun same => ?_⟩
  · rw [isAllowed, isDefinedOpcode, decide_eq_true defined, Bool.true_and]
  · rw [same] at low
    exact absurd low (by decide)

end Instruction

namespace Appends

/-- One instruction has the verdicts of its own. -/
theorem single {run : List UInt8 → Option (List UInt8)} {i : Instruction}
    (runs : ∀ bytes, run bytes = some (bytes ++ i.wire)) :
    Appends run [i] i.isPush i.isAllowed (some i.isReturn) := by
  refine ⟨fun bytes => ?_, ?_, ?_, rfl⟩
  · rw [runs, List.flatMap_singleton]
  · rw [List.all_cons, List.all_nil, Bool.and_true]
  · rw [List.all_cons, List.all_nil, Bool.and_true]

/-- An opcode decides by itself. -/
theorem append {code : Opcode} (bare : code.IsBare) :
    ∃ items, Appends (BuilderCall.append code).run items (code.raw ≤ Opcode.op16.raw)
      (isDefinedOpcode code) (some (code = .opReturn)) := by
  obtain ⟨i, rfl, immediate, wire⟩ := BuilderCall.exists_instruction bare
  have runs (bytes : List UInt8) :
      (BuilderCall.append i.code).run bytes = some (bytes ++ i.wire) := by
    rw [wire]
    rfl
  have allowed : i.isAllowed = isDefinedOpcode i.code := by
    rw [Instruction.isAllowed, immediate]
    exact Bool.and_true _
  have described := single runs
  rw [allowed] at described
  exact ⟨[i], described⟩

/-- A push of data counts as a push, and its size is the only question. -/
theorem data {data : List UInt8} (bounded : data.length < 2 ^ 32) :
    ∃ items, Appends (BuilderCall.appendData data).run items true
      (data.length ≤ scriptElementSizeLimit) (some false) := by
  have runs (bytes : List UInt8) : (BuilderCall.appendData data).run bytes =
      some (bytes ++ (Instruction.push data bounded).wire) :=
    congrArg some (ScriptBuilder.appendData_eq bytes bounded)
  obtain ⟨push, allowed, returns⟩ :=
    Instruction.verdicts_of_pushesData (Instruction.pushesData_push bounded)
  have described := single runs
  rw [push, allowed, returns] at described
  exact ⟨_, described⟩

/-- A suffix that is read to its end. -/
theorem ref {suffix : List UInt8} {items : List Instruction}
    (decodes : Decodes Instruction.wire suffix items []) :
    Appends (BuilderCall.appendRef suffix).run items (isPushOnly 64 suffix == some true)
      (hasValidOpcodes 64 suffix == some true)
      (suffix.head?.map fun front => front = Opcode.opReturn.raw) := by
  have wide : 33 ≤ 64 := by decide
  have whole : suffix = items.flatMap Instruction.wire := by
    rw [decodes.split, List.append_nil]
  have pushes : isPushOnly 64 suffix = some (items.all Instruction.isPush) :=
    scan_decodes wide _ decodes
  have allowed : hasValidOpcodes 64 suffix = some (items.all Instruction.isAllowed) :=
    scan_decodes wide _ decodes
  refine ⟨fun bytes => ?_, ?_, ?_, ?_⟩
  · rw [← whole]
    rfl
  · rw [pushes]
    cases items.all Instruction.isPush <;> rfl
  · rw [allowed]
    cases items.all Instruction.isAllowed <;> rfl
  · rw [whole]
    cases items with
    | nil => rfl
    | cons i items =>
        change some i.isReturn = some (decide (i.code.raw = Opcode.opReturn.raw))
        rw [i.isReturn_eq]

end Appends

namespace BuilderCall

theorem run_plain (call : BuilderCall) : call.plain.run = call.run := by
  funext bytes
  cases call with
  | append code => rfl
  | appendData data => rfl
  | appendRef suffix => rfl
  | appendNumber value =>
      rw [plain, run, ScriptBuilder.appendNumber]
      split
      · rfl
      · split
        · rename_i small
          have lower : 0 ≤ value.toInt := Int64.le_iff_toInt_le.mp small.1
          have upper : value.toInt ≤ 16 := Int64.le_iff_toInt_le.mp small.2
          rw [encodeSmallInteger_eq lower upper]
          rfl
        · rfl

/-- A small number pushes, is defined and is not `OP_RETURN`. -/
theorem raw_smallNumberOpcode_le {value : Int} (upper : value ≤ 16) :
    (smallNumberOpcode value).raw ≤ Opcode.op16.raw := by
  unfold smallNumberOpcode
  split
  · decide
  · rw [UInt8.le_iff_toNat_le, UInt8.toNat_ofNat', Nat.mod_eq_of_lt (by omega)]
    change _ ≤ 96
    omega

/-- Every admissible call appends instructions with the verdicts that it announces. -/
theorem appends (call : BuilderCall) (admissible : call.Admissible) :
    ∃ items, Appends call.run items call.pushesOnly call.allowedOnly call.startsWithReturn := by
  cases call with
  | append code => exact Appends.append admissible
  | appendData data => exact Appends.data admissible
  | appendRef suffix =>
      obtain ⟨items, decodes⟩ := (isWellFormed_iff (by decide) suffix).mp admissible
      exact ⟨items, .ref decodes⟩
  | appendNumber value =>
      rw [← run_plain, plain]
      change ∃ items, Appends _ items true true (some false)
      split
      · exact @Appends.append .op1negate (.inr (by decide))
      · split
        · rename_i small
          have lower : 0 ≤ value.toInt := Int64.le_iff_toInt_le.mp small.1
          have upper : value.toInt ≤ 16 := Int64.le_iff_toInt_le.mp small.2
          have low := raw_smallNumberOpcode_le upper
          have defined : isDefinedOpcode (smallNumberOpcode value.toInt) = true :=
            decide_eq_true (UInt8.le_trans low (by decide))
          have other : smallNumberOpcode value.toInt ≠ .opReturn := by
            intro same
            rw [same] at low
            exact absurd low (by decide)
          have described := Appends.append (smallNumberOpcode_bare lower upper)
          rwa [decide_eq_true low, defined, decide_eq_false other] at described
        · have short := length_serializeScriptNumber_le value
          have described := Appends.data (short.trans_lt (by decide))
          have limit : (serializeScriptNumber value).length ≤ scriptElementSizeLimit :=
            short.trans (by decide)
          rwa [decide_eq_true limit] at described

end BuilderCall

/-- The verdicts on what a sequence of calls appends. -/
theorem appends_buildOn (calls : List BuilderCall)
    (admissible : ∀ call ∈ calls, call.Admissible) :
    ∃ items, Appends (fun bytes => buildOn bytes calls) items (calls.all BuilderCall.pushesOnly)
      (calls.all BuilderCall.allowedOnly) (calls.findSome? BuilderCall.startsWithReturn) := by
  induction calls with
  | nil =>
      refine ⟨[], fun bytes => ?_, rfl, rfl, rfl⟩
      rw [List.flatMap_nil, List.append_nil]
      rfl
  | cons call calls ih =>
      obtain ⟨first, others⟩ := List.forall_mem_cons.mp admissible
      obtain ⟨items, head⟩ := call.appends first
      obtain ⟨rest, tail⟩ := ih others
      refine ⟨items ++ rest, fun bytes => ?_, ?_, ?_, ?_⟩
      · have step :
            buildOn bytes (call :: calls) = (call.run bytes).bind fun next => buildOn next calls :=
          List.foldlM_cons
        rw [step, head.runs, Option.bind_some, tail.runs, List.flatMap_append, List.append_assoc]
      · rw [List.all_append, List.all_cons, head.pushes_eq, tail.pushes_eq]
      · rw [List.all_append, List.all_cons, head.allowed_eq, tail.allowed_eq]
      · rw [List.head?_append, Option.map_or, head.returns_eq, tail.returns_eq,
          List.findSome?_cons]
        cases call.startsWithReturn <;> rfl

/-- Appending changes the first byte of an empty script only. -/
theorem isUnspendable_append (front : List UInt8) (items : List Instruction) :
    isUnspendable (front ++ items.flatMap Instruction.wire) =
      (isUnspendable front || (front.isEmpty && items.head?.map Instruction.isReturn == some true) ||
        decide (scriptSizeLimit < (front ++ items.flatMap Instruction.wire).length)) := by
  cases front with
  | nil =>
      cases items with
      | nil => rfl
      | cons i items =>
          have same : (i.code.raw == Opcode.opReturn.raw) = i.isReturn := i.isReturn_eq.symm
          rw [List.nil_append, isUnspendable]
          congr 1
          change (some i.code.raw == some Opcode.opReturn.raw) =
            (false || (true && some i.isReturn == some true))
          rw [Option.some_beq_some, same]
          cases i.isReturn <;> rfl
  | cons byte front =>
      have longer : (byte :: front).length ≤
          (byte :: front ++ items.flatMap Instruction.wire).length := by
        rw [List.length_append]
        exact Nat.le_add_right _ _
      rw [isUnspendable, isUnspendable, List.cons_append, List.head?_cons, List.head?_cons,
        List.isEmpty_cons, Bool.false_and, Bool.or_false, Bool.or_assoc]
      congr 1
      rw [Bool.eq_iff_iff, Bool.or_eq_true, decide_eq_true_iff, decide_eq_true_iff]
      constructor
      · exact .inr
      · intro either
        rcases either with already | now
        · exact already.trans_le longer
        · exact now

/-- What is built on a well-formed script has the verdict of that script together with
those that the calls announce. It is unspendable if the script was, if nothing stood in front of
`OP_RETURN`, or if it has become too long. The width of `std::size_t` is 64 bits. -/
theorem verdicts_of_build {front : List UInt8} (formed : isWellFormed 64 front = some true)
    (calls : List BuilderCall) (admissible : ∀ call ∈ calls, call.Admissible) :
    ∃ script pushes allowed, buildOn front calls = some script ∧
      isWellFormed 64 script = some true ∧
      isPushOnly 64 front = some pushes ∧
      isPushOnly 64 script = some (pushes && calls.all BuilderCall.pushesOnly) ∧
      hasValidOpcodes 64 front = some allowed ∧
      hasValidOpcodes 64 script = some (allowed && calls.all BuilderCall.allowedOnly) ∧
      isUnspendable script =
        (isUnspendable front ||
          (front.isEmpty && calls.findSome? BuilderCall.startsWithReturn == some true) ||
          decide (scriptSizeLimit < script.length)) := by
  have wide : 33 ≤ 64 := by decide
  obtain ⟨first, before⟩ := (isWellFormed_iff wide front).mp formed
  obtain ⟨items, described⟩ := appends_buildOn calls admissible
  have after : Decodes Instruction.wire (front ++ items.flatMap Instruction.wire)
      (first ++ items) [] := before.append (decodes_flatMap items)
  refine ⟨_, first.all Instruction.isPush, first.all Instruction.isAllowed, described.runs front,
    (isWellFormed_iff wide _).mpr ⟨_, after⟩, scan_decodes wide _ before, ?_,
    scan_decodes wide _ before, ?_, ?_⟩
  · rw [← described.pushes_eq, ← List.all_append]
    exact scan_decodes wide _ after
  · rw [← described.allowed_eq, ← List.all_append]
    exact scan_decodes wide _ after
  · rw [← described.returns_eq]
    exact isUnspendable_append front items

/-- A data carrier: `OP_RETURN`, a number and some data on an empty script. -/
theorem verdicts_of_build_carrier :
    ∃ script pushes allowed,
      buildOn [] [.append .opReturn, .appendNumber 1000, .appendData [7, 8]] = some script ∧
      isWellFormed 64 script = some true ∧
      isPushOnly 64 [] = some pushes ∧
      isPushOnly 64 script = some (pushes &&
        [.append .opReturn, .appendNumber 1000, .appendData [7, 8]].all BuilderCall.pushesOnly) ∧
      hasValidOpcodes 64 [] = some allowed ∧
      hasValidOpcodes 64 script = some (allowed &&
        [.append .opReturn, .appendNumber 1000, .appendData [7, 8]].all BuilderCall.allowedOnly) ∧
      isUnspendable script =
        (isUnspendable [] ||
          (([] : List UInt8).isEmpty &&
            [.append .opReturn, .appendNumber 1000, .appendData [7, 8]].findSome?
              BuilderCall.startsWithReturn == some true) ||
          decide (scriptSizeLimit < script.length)) := by
  refine verdicts_of_build rfl _ fun call member => ?_
  simp only [List.mem_cons, List.not_mem_nil, or_false] at member
  rcases member with rfl | rfl | rfl
  · exact .inr (by decide)
  · trivial
  · exact (by decide : 2 < 2 ^ 32)

end StdBitcoin
