import StdBitcoin.Script.Builder

/-!
# Appending and rebuilding scripts

What is appended to a well-formed script is decoded behind it, and the predicates
judge both parts. A script rebuilt from its own instructions has every push in its
shortest form and is otherwise unchanged.
-/

namespace StdBitcoin

open Codec

section Appending

variable {front suffix : List UInt8}

/-- The predicate gives the conjunction of its values on the two parts. -/
def Conjoins (predicate : List UInt8 → Option Bool) (front suffix : List UInt8) : Prop :=
  ∃ left right, predicate front = some left ∧ predicate suffix = some right ∧
    predicate (ScriptBuilder.appendRef front suffix) = some (left && right)

/-- A predicate loop goes on in the suffix where the front ends. -/
theorem conjoins_scan {first : List Instruction} (decodes : Decodes Instruction.wire front first [])
    (suffix : List UInt8) (accepts : Instruction → Bool) :
    Conjoins (fun script => scan 64 accepts script.length script) front suffix := by
  have wide : 33 ≤ 64 := by decide
  obtain ⟨second, rest, behind⟩ := exists_decodes suffix
  refine ⟨_, _, scan_decodes wide accepts decodes, scan_decodes wide accepts behind, ?_⟩
  have whole : Decodes Instruction.wire (ScriptBuilder.appendRef front suffix) (first ++ second)
      rest := decodes.append behind
  dsimp only
  rw [scan_decodes wide accepts whole, List.all_append, List.isEmpty_nil, Bool.true_and,
    Bool.and_left_comm]

/-- Appending to a well-formed script is concatenation of the instructions, and the
predicates are conjunctions, where `std::size_t` has 64 bits. -/
theorem appendRef_concatenates (front suffix : List UInt8)
    (formed : isWellFormed 64 front = some true) :
    (∃ first second, instructions 64 front = some first ∧ instructions 64 suffix = some second ∧
      instructions 64 (ScriptBuilder.appendRef front suffix) = some (first ++ second)) ∧
    Conjoins (isWellFormed 64) front suffix ∧ Conjoins (hasValidOpcodes 64) front suffix ∧
    Conjoins (isPushOnly 64) front suffix := by
  have wide : 33 ≤ 64 := by decide
  obtain ⟨first, decodes⟩ := (isWellFormed_iff wide front).mp formed
  obtain ⟨second, rest, behind⟩ := exists_decodes suffix
  refine ⟨⟨first, second, ?_, ?_, ?_⟩, ?_, ?_, ?_⟩
  · exact instructions_eq wide decodes
  · exact instructions_eq wide behind
  · exact instructions_eq wide (decodes.append behind)
  · exact conjoins_scan decodes suffix _
  · exact conjoins_scan decodes suffix _
  · exact conjoins_scan decodes suffix _

/-- A push cut short behind a well-formed script. -/
theorem appendRef_concatenates_sample :
    (∃ first second, instructions 64 [0x51, 0x01, 0x07] = some first ∧
      instructions 64 [0x52, 0x4C, 0x02, 0x09] = some second ∧
      instructions 64 (ScriptBuilder.appendRef [0x51, 0x01, 0x07] [0x52, 0x4C, 0x02, 0x09]) =
        some (first ++ second)) ∧
    Conjoins (isWellFormed 64) [0x51, 0x01, 0x07] [0x52, 0x4C, 0x02, 0x09] ∧
    Conjoins (hasValidOpcodes 64) [0x51, 0x01, 0x07] [0x52, 0x4C, 0x02, 0x09] ∧
    Conjoins (isPushOnly 64) [0x51, 0x01, 0x07] [0x52, 0x4C, 0x02, 0x09] :=
  appendRef_concatenates [0x51, 0x01, 0x07] [0x52, 0x4C, 0x02, 0x09] (by decide)

end Appending

namespace Opcode

theorem prefixWidth_ofSize {size : Nat} (short : size < 76) : (ofSize size).prefixWidth = 0 := by
  have small : size < opPushdata1.raw.toNat := short
  rw [ofSize, if_pos small]
  exact prefixWidth_of_direct (isDirect_of_small small)

end Opcode

namespace Instruction

/-- An opcode that pushes nothing, or the pushed bytes. -/
def content (i : Instruction) : Opcode ⊕ List UInt8 :=
  if i.pushesData then .inr i.immediate else .inl i.code

/-- The push has the shortest prefix for its length. -/
def Shortest (i : Instruction) : Prop := i.code = .ofSize i.immediate.length

/-- The data of an instruction has fewer than 2^32 bytes. -/
theorem length_immediate_lt (i : Instruction) : i.immediate.length < 2 ^ 32 := by
  rw [← i.payloadSize_wire []]
  exact i.code.payloadSize_lt _

/-- The instruction with the same content and the shortest prefix. -/
def canonical (i : Instruction) : Instruction :=
  if i.pushesData then push i.immediate i.length_immediate_lt else i

/-- A push is replaced by the shortest push of its data. -/
theorem canonical_of_pushesData {i : Instruction} (pushes : i.pushesData = true) :
    i.canonical = push i.immediate i.length_immediate_lt :=
  if_pos pushes

/-- Any other instruction is kept. -/
theorem canonical_of_not_pushesData {i : Instruction} (other : i.pushesData = false) :
    i.canonical = i :=
  if_neg (ne_true_of_eq_false other)

@[simp] theorem pushesData_canonical (i : Instruction) :
    i.canonical.pushesData = i.pushesData := by
  cases pushes : i.pushesData with
  | true =>
      rw [canonical_of_pushesData pushes]
      exact pushesData_push _
  | false =>
      rw [canonical_of_not_pushesData pushes]
      exact pushes

@[simp] theorem content_canonical (i : Instruction) : i.canonical.content = i.content := by
  rw [content, content, pushesData_canonical]
  cases pushes : i.pushesData with
  | true =>
      rw [canonical_of_pushesData pushes]
      rfl
  | false => rw [canonical_of_not_pushesData pushes]

/-- The canonical form is its own. -/
@[simp] theorem canonical_canonical (i : Instruction) : i.canonical.canonical = i.canonical := by
  cases pushes : i.pushesData with
  | true =>
      rw [canonical_of_pushesData ((pushesData_canonical i).trans pushes)]
      simp only [canonical_of_pushesData pushes]
      rfl
  | false =>
      rw [canonical_of_not_pushesData pushes]
      exact canonical_of_not_pushesData pushes

/-- An instruction is canonical if and only if it is no push or the shortest one. -/
theorem canonical_eq_self_iff (i : Instruction) :
    i.canonical = i ↔ (i.pushesData = true → i.Shortest) := by
  cases pushes : i.pushesData with
  | true =>
      rw [canonical_of_pushesData pushes, Instruction.ext_iff]
      constructor
      · intro same _
        exact same.1.symm
      · intro shortest
        exact ⟨(shortest rfl).symm, rfl⟩
  | false =>
      rw [canonical_of_not_pushesData pushes]
      exact iff_of_true rfl nofun

/-- No prefix that admits an immediate is shorter than the chosen one. -/
theorem prefixWidth_ofSize_le {i : Instruction} (pushes : i.pushesData = true) :
    (Opcode.ofSize i.immediate.length).prefixWidth ≤ i.code.prefixWidth := by
  have valid := i.valid
  unfold hasValidImmediate at valid
  by_cases direct : i.code.raw < Opcode.opPushdata1.raw
  · rw [if_pos direct, decide_eq_true_iff] at valid
    have short : i.immediate.length < 76 := by
      rw [valid]
      exact direct
    rw [Opcode.prefixWidth_ofSize short]
    exact Nat.zero_le _
  rw [if_neg direct] at valid
  unfold Opcode.ofSize
  by_cases one : i.code = .opPushdata1
  · rw [if_pos one, decide_eq_true_iff] at valid
    rw [one]
    split_ifs with small
    · rw [Opcode.prefixWidth_of_direct (isDirect_of_small small)]
      exact Nat.zero_le _
    · exact le_rfl
  rw [if_neg one] at valid
  by_cases two : i.code = .opPushdata2
  · rw [if_pos two, decide_eq_true_iff] at valid
    rw [two]
    split_ifs with small byte
    · rw [Opcode.prefixWidth_of_direct (isDirect_of_small small)]
      exact Nat.zero_le _
    · decide
    · exact le_rfl
  -- No other opcode above the direct ones pushes data.
  have four : i.code = .opPushdata4 := by
    have upper : i.code.raw.toNat ≤ 78 := of_decide_eq_true pushes
    have lower : 76 ≤ i.code.raw.toNat := Nat.le_of_not_lt direct
    have not_one : i.code.raw.toNat ≠ 76 := fun same => one (Opcode.ext (UInt8.toNat_inj.mp same))
    have not_two : i.code.raw.toNat ≠ 77 := fun same => two (Opcode.ext (UInt8.toNat_inj.mp same))
    have same : i.code.raw.toNat = 78 := by omega
    exact Opcode.ext (UInt8.toNat_inj.mp same)
  rw [four]
  exact Opcode.prefixWidth_le _

/-- The canonical form is not longer. -/
theorem length_wire_canonical_le (i : Instruction) : i.canonical.wire.length ≤ i.wire.length := by
  cases pushes : i.pushesData with
  | true =>
      rw [canonical_of_pushesData pushes, length_wire, length_wire]
      have narrower := prefixWidth_ofSize_le pushes
      change 1 + (Opcode.ofSize i.immediate.length).prefixWidth + i.immediate.length ≤ _
      omega
  | false => rw [canonical_of_not_pushesData pushes]

/-- The builder call that an instruction is rebuilt with. -/
def call (i : Instruction) : BuilderCall :=
  if i.pushesData then .appendData i.immediate else .append i.code

/-- An instruction that pushes no data is its opcode. -/
theorem isBare_of_not_pushesData {i : Instruction} (other : i.pushesData = false) :
    i.code.IsBare := by
  right
  rw [← UInt8.not_le]
  exact of_decide_eq_false other

/-- The call appends the canonical instruction. -/
theorem run_call (i : Instruction) (bytes : List UInt8) :
    i.call.run bytes = some (bytes ++ i.canonical.wire) := by
  cases pushes : i.pushesData with
  | true =>
      rw [call, if_pos pushes, canonical_of_pushesData pushes, BuilderCall.run,
        ScriptBuilder.appendData_eq bytes i.length_immediate_lt]
  | false =>
      rw [call, if_neg (ne_true_of_eq_false pushes), canonical_of_not_pushesData pushes,
        wire_of_bare (isBare_of_not_pushesData pushes)]
      rfl

end Instruction

/-- The script built from the instructions of another one. -/
def rebuild (script : List UInt8) : Option (List UInt8) := do
  let items ← instructions 64 script
  buildOn [] (items.map Instruction.call)

/-- The calls that rebuild a script append the canonical instructions. -/
theorem buildOn_calls (items : List Instruction) (bytes : List UInt8) :
    buildOn bytes (items.map Instruction.call) =
      some (bytes ++ (items.map Instruction.canonical).flatMap Instruction.wire) := by
  induction items generalizing bytes with
  | nil =>
      rw [List.map_nil, List.map_nil, List.flatMap_nil, List.append_nil]
      rfl
  | cons i items ih =>
      have step : buildOn bytes ((i :: items).map Instruction.call) =
          (i.call.run bytes).bind fun next => buildOn next (items.map Instruction.call) :=
        List.foldlM_cons
      rw [step, Instruction.run_call, Option.bind_some, ih, List.map_cons, List.flatMap_cons,
        List.append_assoc]

section Rebuilding

variable {script : List UInt8} {items : List Instruction}

/-- Instructions that follow each other are read back. -/
theorem decodes_flatMap (items : List Instruction) :
    Decodes Instruction.wire (items.flatMap Instruction.wire) items [] :=
  ⟨(List.append_nil _).symm, stuck_nil Instruction.wire_ne_nil⟩

/-- A script is rebuilt from the canonical instructions. -/
theorem rebuild_eq (decodes : Decodes Instruction.wire script items []) :
    rebuild script = some ((items.map Instruction.canonical).flatMap Instruction.wire) := by
  have wide : 33 ≤ 64 := by decide
  rw [rebuild, instructions_eq wide decodes]
  exact buildOn_calls items []

/-- A rebuilt script is the old one if no instruction has changed. -/
theorem flatMap_canonical_eq_iff (decodes : Decodes Instruction.wire script items []) :
    (items.map Instruction.canonical).flatMap Instruction.wire = script ↔
      ∀ i ∈ items, i.pushesData = true → i.Shortest := by
  have pointwise : items.map Instruction.canonical = items ↔
      ∀ i ∈ items, i.pushesData = true → i.Shortest := by
    nth_rewrite 2 [← List.map_id items]
    rw [List.map_inj_left]
    exact forall₂_congr fun i _ => i.canonical_eq_self_iff
  rw [← pointwise]
  constructor
  · intro same
    have rebuilt := decodes_flatMap (items.map Instruction.canonical)
    rw [same] at rebuilt
    exact (decodes_unique rebuilt decodes).1
  · intro unchanged
    rw [unchanged, decodes.split, List.append_nil]

/-- A rebuilt script is not longer. -/
theorem length_flatMap_canonical_le (items : List Instruction) :
    ((items.map Instruction.canonical).flatMap Instruction.wire).length ≤
      (items.flatMap Instruction.wire).length := by
  induction items with
  | nil => exact le_rfl
  | cons i items ih =>
      rw [List.map_cons, List.flatMap_cons, List.flatMap_cons, List.length_append,
        List.length_append]
      exact Nat.add_le_add i.length_wire_canonical_le ih

/-- Rebuilding a well-formed script keeps what it does, shortens it at best, and is done
after the first time. It changes nothing exactly if every push is in its shortest form. Sizes
have 64 bits here, so that no length check of the decoding wraps. -/
theorem rebuild_canonical (script : List UInt8) (formed : isWellFormed 64 script = some true) :
    ∃ rebuilt before after, rebuild script = some rebuilt ∧ isWellFormed 64 rebuilt = some true ∧
      instructions 64 script = some before ∧ instructions 64 rebuilt = some after ∧
      after.map Instruction.content = before.map Instruction.content ∧
      rebuilt.length ≤ script.length ∧ rebuild rebuilt = some rebuilt ∧
      (rebuilt = script ↔ ∀ i ∈ before, i.pushesData = true → i.Shortest) := by
  have wide : 33 ≤ 64 := by decide
  obtain ⟨before, decodes⟩ := (isWellFormed_iff wide script).mp formed
  let after := before.map Instruction.canonical
  have rebuilt : Decodes Instruction.wire (after.flatMap Instruction.wire) after [] :=
    decodes_flatMap after
  refine ⟨after.flatMap Instruction.wire, before, after, rebuild_eq decodes, ?_, ?_, ?_,
    ?_, ?_, ?_, ?_⟩
  · exact (isWellFormed_iff wide _).mpr ⟨after, rebuilt⟩
  · exact instructions_eq wide decodes
  · exact instructions_eq wide rebuilt
  · rw [List.map_map]
    exact List.map_congr_left fun i _ => i.content_canonical
  · rw [decodes.split, List.append_nil]
    exact length_flatMap_canonical_le before
  · have again : after.map Instruction.canonical = after := by
      rw [List.map_map]
      exact List.map_congr_left fun i _ => i.canonical_canonical
    rw [rebuild_eq rebuilt, again]
  · exact flatMap_canonical_eq_iff decodes

/-- An opcode behind a push that could do without its prefix. -/
theorem rebuild_canonical_sample :
    ∃ rebuilt before after, rebuild [0x4C, 0x01, 0x07, 0x51] = some rebuilt ∧
      isWellFormed 64 rebuilt = some true ∧
      instructions 64 [0x4C, 0x01, 0x07, 0x51] = some before ∧
      instructions 64 rebuilt = some after ∧
      after.map Instruction.content = before.map Instruction.content ∧
      rebuilt.length ≤ 4 ∧ rebuild rebuilt = some rebuilt ∧
      (rebuilt = [0x4C, 0x01, 0x07, 0x51] ↔
        ∀ i ∈ before, i.pushesData = true → i.Shortest) :=
  rebuild_canonical [0x4C, 0x01, 0x07, 0x51] (by decide)

end Rebuilding

end StdBitcoin
