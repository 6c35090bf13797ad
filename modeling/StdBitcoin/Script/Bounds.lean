import Mathlib.Logic.Relation
import StdBitcoin.Script.Iteration

/-!
# Length checks at the width of a word

The parser adds the size of a header to an announced size before it compares, and the sum
is taken at the width of `std::size_t`. With 64 bits the checks are exact. With 32
bits the five largest sizes behind `OP_PUSHDATA4` wrap around. For four of them the payload is
taken from outside of the span. The largest one is also the count that asks for the rest of a
span: the parser then reports a valid instruction of four bytes, whose immediate is neither
of the announced size nor ends where the instruction does, and the loops go on behind these
four bytes.
-/

namespace StdBitcoin

open Codec

/-- A payload behind `OP_PUSHDATA4` whose size wraps around together with its header. -/
def Wraps (w : Nat) (bytes : List UInt8) : Prop :=
  ∃ (payloadSize : UInt32) (rest : List UInt8),
    bytes = Opcode.opPushdata4.raw :: LittleEndian.toBytes 4 payloadSize.toNat ++ rest ∧
      2 ^ w ≤ 5 + payloadSize.toNat

/-- A payload whose size wraps around and is not `std::dynamic_extent`. -/
def Overruns (w : Nat) (bytes : List UInt8) : Prop :=
  ∃ (payloadSize : UInt32) (rest : List UInt8),
    bytes = Opcode.opPushdata4.raw :: LittleEndian.toBytes 4 payloadSize.toNat ++ rest ∧
      2 ^ w ≤ 5 + payloadSize.toNat ∧ payloadSize.toNat < 2 ^ w - 1

/-- From a span to the one a loop goes on with: behind an instruction, or four bytes on where
`OP_PUSHDATA4` announces `std::dynamic_extent`. -/
inductive Stride (w : Nat) : List UInt8 → List UInt8 → Prop
  | whole (i : Instruction) (rest : List UInt8) : Stride w (i.wire ++ rest) rest
  | extent (rest : List UInt8) (narrow : w = 32) :
      Stride w (0x4E :: 0xFF :: 0xFF :: 0xFF :: 0xFF :: rest) (0xFF :: rest)

/-- The strides through the script come to a payload that is not in it. -/
def ReachesOverrun (w : Nat) (script : List UInt8) : Prop :=
  ∃ rest, Relation.ReflTransGen (Stride w) script rest ∧ Overruns w rest

/-- A valid instruction lies inside of the span: its immediate has the announced size and
ends where the instruction ends. -/
structure ParsesInBounds (w : Nat) (bytes : List UInt8) : Prop where
  defined : ∃ parsed, parseInstruction w bytes = some parsed
  valid : ∀ parsed, parseInstruction w bytes = some parsed → parsed.valid = true →
    1 ≤ parsed.size ∧ parsed.size ≤ bytes.length ∧
      ∃ offset rest, bytes = parsed.value.code.raw :: rest ∧
        parsed.value.immediate.length = parsed.value.code.payloadSize rest ∧
        (bytes.drop offset).take parsed.value.immediate.length = parsed.value.immediate ∧
        offset + parsed.value.immediate.length = parsed.size

/-- A round of a predicate loop, from one remaining span to the next. -/
def Round (w : Nat) (accepts : Instruction → Bool) (remaining next : List UInt8) : Prop :=
  remaining ≠ [] ∧ ∃ parsed, parseInstruction w remaining = some parsed ∧
    parsed.valid = true ∧ accepts parsed.value = true ∧
      dropSpan remaining parsed.size = some next

/-- The iterator after a number of increments. -/
def InstructionIterator.after (w : Nat) (script : List UInt8) : Nat → Option InstructionIterator
  | 0 => readNext w script
  | count + 1 => do (← after w script count).increment w

/-- The loops and the iterator stay inside of the script and shorten what remains. -/
structure StaysInRange (w : Nat) (script : List UInt8) : Prop where
  rounds : ∀ accepts remaining, Relation.ReflTransGen (Round w accepts) script remaining →
    ∃ parsed, parseInstruction w remaining = some parsed ∧ (parsed.valid = true →
      ∃ next, dropSpan remaining parsed.size = some next ∧ next.length < remaining.length)
  /-- The loops end after at most as many rounds as the script has bytes. -/
  scans : ∀ accepts, (scan w accepts script.length script).isSome
  increments : ∀ count, ∃ it, InstructionIterator.after w script count = some it ∧
    (it.atEnd = false → ∃ next, it.increment w = some next ∧
      next.remaining.length < it.remaining.length)

/-- The span behind a round is the one the loop goes on with. -/
theorem scan_of_round {w : Nat} {accepts : Instruction → Bool} {remaining next : List UInt8}
    (round : Round w accepts remaining next) (rounds : Nat) :
    scan w accepts (rounds + 1) remaining = scan w accepts rounds next := by
  obtain ⟨nonempty, parsed, parses, valid, accepted, left⟩ := round
  rw [scan, if_neg (by simpa using nonempty), parses]
  simp [valid, accepted, left]

section Parsing

variable {w : Nat} (wide : 32 ≤ w)

theorem payloadSize_pushdata4 (payloadSize : UInt32) (rest : List UInt8) :
    Opcode.opPushdata4.payloadSize (LittleEndian.toBytes 4 payloadSize.toNat ++ rest) =
      payloadSize.toNat := by
  have width : Opcode.opPushdata4.prefixWidth = 4 := rfl
  have bound : payloadSize.toNat < 256 ^ 4 := payloadSize.toNat_lt
  rw [Opcode.payloadSize, if_neg (by decide), width,
    List.take_left' (LittleEndian.length_toBytes _ _), LittleEndian.ofBytes_toBytes_of_lt bound]

include wide

/-- Only the widest length field can wrap around. -/
theorem wraps_of_overflow {code : Opcode} {rest : List UInt8}
    (prefixed : code.prefixWidth ≤ rest.length)
    (overflow : 2 ^ w ≤ 1 + code.prefixWidth + code.payloadSize rest) :
    Wraps w (code.raw :: rest) := by
  have room : 2 ^ 32 ≤ 2 ^ w := Nat.pow_le_pow_right (by decide) wide
  have four : code = .opPushdata4 := by
    by_contra other
    have narrow : code.prefixWidth ≤ 2 := by
      unfold Opcode.prefixWidth
      rw [if_neg other]
      split_ifs <;> omega
    have small : code.payloadSize rest < 2 ^ 16 := by
      unfold Opcode.payloadSize
      split
      · exact code.raw.toNat_lt.trans (by decide)
      · calc LittleEndian.ofBytes (rest.take code.prefixWidth)
          _ < 256 ^ (rest.take code.prefixWidth).length := LittleEndian.ofBytes_lt _
          _ ≤ 256 ^ 2 := Nat.pow_le_pow_right (by decide)
            ((List.length_take_le _ _).trans narrow)
          _ = 2 ^ 16 := by norm_num
    omega
  subst four
  have width : Opcode.opPushdata4.prefixWidth = 4 := rfl
  rw [width] at prefixed overflow
  have length : (rest.take 4).length = 4 := List.length_take_of_le prefixed
  have bound := LittleEndian.ofBytes_lt (rest.take 4)
  rw [length] at bound
  have announced : Opcode.opPushdata4.payloadSize rest = LittleEndian.ofBytes (rest.take 4) := rfl
  have size : (UInt32.ofNat (LittleEndian.ofBytes (rest.take 4))).toNat =
      LittleEndian.ofBytes (rest.take 4) := by
    rw [UInt32.toNat_ofNat']
    exact Nat.mod_eq_of_lt bound
  refine ⟨UInt32.ofNat (LittleEndian.ofBytes (rest.take 4)), rest.drop 4, ?_, ?_⟩
  · rw [size, LittleEndian.toBytes_ofBytes_of_length length, List.cons_append,
      List.take_append_drop]
  · rw [size, ← announced]
    exact overflow

/-- A payload that overruns passes the check, and is not in the span. -/
theorem parseInstruction_of_overruns {bytes : List UInt8} (size : bytes.length < 2 ^ w)
    (overruns : Overruns w bytes) : parseInstruction w bytes = none := by
  obtain ⟨payloadSize, rest, rfl, overflow, fixed⟩ := overruns
  have bound := payloadSize.toNat_lt
  have room : 2 ^ 32 ≤ 2 ^ w := Nat.pow_le_pow_right (by decide) wide
  have width : Opcode.opPushdata4.prefixWidth = 4 := rfl
  have length : (LittleEndian.toBytes 4 payloadSize.toNat ++ rest).length = 4 + rest.length := by
    rw [List.length_append, LittleEndian.length_toBytes]
  rw [List.cons_append, List.length_cons, length] at size
  have wrapped : (1 + 4 + payloadSize.toNat) % 2 ^ w < 5 := by
    rw [Nat.mod_eq_sub_mod overflow, Nat.mod_eq_of_lt (by omega)]
    omega
  rw [List.cons_append, parseInstruction_cons (by omega), width, if_neg (by omega),
    payloadSize_pushdata4, parsePayload, if_neg, subspan, if_neg (by omega), if_neg]
  · rfl
  · rw [List.length_cons, length]
    omega
  · rw [List.length_cons, length]
    omega

omit wide in
/-- Behind the size `std::dynamic_extent` the parser takes the rest of the span. -/
theorem parseInstruction_extent {rest : List UInt8}
    (valid : hasValidImmediate .opPushdata4 rest = true) :
    parseInstruction 32 (0x4E :: 0xFF :: 0xFF :: 0xFF :: 0xFF :: rest) =
      some ⟨⟨.opPushdata4, rest, valid⟩, 4, true⟩ := by
  have width : Opcode.opPushdata4.prefixWidth = 4 := rfl
  have announced : Opcode.opPushdata4.payloadSize (0xFF :: 0xFF :: 0xFF :: 0xFF :: rest) =
      2 ^ 32 - 1 := payloadSize_pushdata4 0xFFFFFFFF rest
  have size : (1 + 4 + (2 ^ 32 - 1)) % 2 ^ 32 = 4 := rfl
  change parseInstruction 32 (Opcode.opPushdata4.raw :: _) = _
  rw [parseInstruction_cons (by decide), width, announced,
    if_neg (by simp only [List.length_cons]; omega), parsePayload, size,
    if_neg (by simp only [List.length_cons]; omega), subspan_dynamicExtent, dropSpan,
    if_pos (by simp only [List.length_cons]; omega)]
  simp [Instruction.make, valid]

/-- Where a size wraps around, the payload overruns, or is the rest of the span. -/
theorem Wraps.cases {bytes : List UInt8} (wraps : Wraps w bytes) :
    Overruns w bytes ∨
      w = 32 ∧ ∃ rest, bytes = 0x4E :: 0xFF :: 0xFF :: 0xFF :: 0xFF :: rest := by
  obtain ⟨payloadSize, rest, split, overflow⟩ := wraps
  have bound := payloadSize.toNat_lt
  by_cases fixed : payloadSize.toNat < 2 ^ w - 1
  · exact .inl ⟨payloadSize, rest, split, overflow, fixed⟩
  · have narrow : w = 32 := by
      by_contra other
      have room : 2 ^ 33 ≤ 2 ^ w := Nat.pow_le_pow_right (by decide) (by omega)
      omega
    subst narrow
    have largest : payloadSize.toNat = 0xFFFFFFFF := by omega
    rw [largest] at split
    exact .inr ⟨rfl, rest, split⟩

/-- On a span of a representable size the parser reads an instruction where there is one,
takes the rest of the span for a payload of the largest size, and reports an invalid
instruction otherwise, unless the payload overruns. -/
theorem parseInstruction_cases {bytes : List UInt8} (size : bytes.length < 2 ^ w) :
    (∃ i rest, bytes = Instruction.wire i ++ rest ∧
      parseInstruction w bytes = some ⟨i, i.wire.length, true⟩) ∨
    (w = 32 ∧ ∃ rest valid, bytes = 0x4E :: 0xFF :: 0xFF :: 0xFF :: 0xFF :: rest ∧
      parseInstruction w bytes = some ⟨⟨.opPushdata4, rest, valid⟩, 4, true⟩) ∨
    parseInstruction w bytes = some .invalid ∨ Overruns w bytes := by
  cases bytes with
  | nil => exact .inr (.inr (.inl rfl))
  | cons front rest =>
      obtain ⟨code, rfl⟩ : ∃ code : Opcode, front = code.raw := ⟨⟨front⟩, rfl⟩
      by_cases fits : code.prefixWidth + code.payloadSize rest ≤ rest.length
      · obtain ⟨i, tail, -, split⟩ := exists_wire_of_fits fits
        have representable : i.wire.length < 2 ^ w := by
          rw [split, List.length_append] at size
          omega
        rw [split]
        exact .inl ⟨i, tail, rfl, parseInstruction_wire_of_lt i representable tail⟩
      right
      by_cases overflow : 1 + code.prefixWidth + code.payloadSize rest < 2 ^ w
      · have invalid := parseInstruction_of_short overflow (Nat.lt_of_not_le fits)
        exact .inr (.inl invalid)
      by_cases prefixed : code.prefixWidth ≤ rest.length
      · have wraps := wraps_of_overflow wide prefixed (Nat.le_of_not_lt overflow)
        rcases wraps.cases wide with overruns | ⟨rfl, tail, split⟩
        · exact .inr (.inr overruns)
        · left
          rw [split] at size ⊢
          have short : tail.length ≤ 0xFFFFFFFF := by
            simp only [List.length_cons] at size
            omega
          have valid : hasValidImmediate .opPushdata4 tail = true := decide_eq_true short
          exact ⟨rfl, tail, valid, rfl, parseInstruction_extent valid⟩
      · right
        left
        rw [parseInstruction_cons (by omega), if_pos (Nat.lt_of_not_le prefixed)]

/-- A size that wraps around is read wrongly: its payload is outside of the span, or shorter
than announced. -/
theorem not_parsesInBounds_of_wraps {bytes : List UInt8} (size : bytes.length < 2 ^ w)
    (wraps : Wraps w bytes) : ¬ ParsesInBounds w bytes := by
  intro bounded
  rcases wraps.cases wide with overruns | ⟨rfl, rest, rfl⟩
  · obtain ⟨parsed, parses⟩ := bounded.defined
    rw [parseInstruction_of_overruns wide size overruns] at parses
    cases parses
  · simp only [List.length_cons] at size
    have valid : hasValidImmediate .opPushdata4 rest = true :=
      decide_eq_true (show rest.length ≤ 0xFFFFFFFF by omega)
    obtain ⟨-, -, offset, others, split, announced, -⟩ :=
      bounded.valid _ (parseInstruction_extent valid) rfl
    obtain rfl := (List.cons.inj split).2
    have largest : Opcode.opPushdata4.payloadSize (0xFF :: 0xFF :: 0xFF :: 0xFF :: rest) =
        0xFFFFFFFF := payloadSize_pushdata4 0xFFFFFFFF rest
    rw [largest] at announced
    dsimp only at announced
    omega

/-- A parse stays within its span if and only if the sum of the sizes does not wrap. -/
theorem parsesInBounds_iff {bytes : List UInt8} (size : bytes.length < 2 ^ w) :
    ParsesInBounds w bytes ↔ ¬ Wraps w bytes := by
  refine ⟨fun bounded wraps => not_parsesInBounds_of_wraps wide size wraps bounded, ?_⟩
  intro exact_sum
  rcases parseInstruction_cases wide size with
    ⟨i, rest, rfl, parses⟩ | ⟨rfl, rest, -, rfl, -⟩ | invalid | overruns
  · refine ⟨⟨_, parses⟩, fun parsed reads _ => ?_⟩
    obtain rfl := Option.some.inj (parses.symm.trans reads)
    have length := i.length_wire
    refine ⟨?_, ?_, 1 + i.code.prefixWidth,
      LittleEndian.toBytes i.code.prefixWidth i.immediate.length ++ i.immediate ++ rest, rfl,
      ?_, ?_, length.symm⟩
    · change 1 ≤ i.wire.length
      omega
    · rw [List.length_append]
      exact Nat.le_add_right _ _
    · rw [List.append_assoc, i.payloadSize_wire]
    · have width : (LittleEndian.toBytes i.code.prefixWidth i.immediate.length).length =
          i.code.prefixWidth := LittleEndian.length_toBytes _ _
      dsimp only
      rw [Instruction.wire, List.cons_append, List.append_assoc, Nat.add_comm 1,
        List.drop_succ_cons, List.drop_left' width, List.take_left]
  · exact absurd ⟨0xFFFFFFFF, rest, rfl, by decide⟩ exact_sum
  · refine ⟨⟨_, invalid⟩, fun parsed reads valid => ?_⟩
    obtain rfl := Option.some.inj (invalid.symm.trans reads)
    cases valid
  · obtain ⟨payloadSize, rest, split, overflow, -⟩ := overruns
    exact absurd ⟨payloadSize, rest, split, overflow⟩ exact_sum

end Parsing

section Loops

variable {w : Nat} {accepts : Instruction → Bool} {bytes script : List UInt8}

/-- A span of a representable size from which no payload outside of it is reached. -/
structure Clear (w : Nat) (bytes : List UInt8) : Prop where
  size : bytes.length < 2 ^ w
  avoids : ¬ ReachesOverrun w bytes

/-- A stride leaves less of the script. -/
theorem Stride.length_lt {next : List UInt8} (stride : Stride w bytes next) :
    next.length < bytes.length := by
  cases stride with
  | whole i rest => exact i.length_lt_wire_append next
  | extent rest narrow =>
      simp only [List.length_cons]
      omega

/-- Where no overrun is ahead none is behind a stride. -/
theorem Clear.stride {next : List UInt8} (clear : Clear w bytes) (stride : Stride w bytes next) :
    Clear w next where
  size := stride.length_lt.trans clear.size
  avoids := fun ⟨rest, reached, overruns⟩ =>
    clear.avoids ⟨rest, .head stride reached, overruns⟩

/-- The parser is defined on a clear span, and what it reads ends where a stride does. -/
theorem Clear.parse (wide : 32 ≤ w) (clear : Clear w bytes) :
    ∃ parsed, parseInstruction w bytes = some parsed ∧ (parsed.valid = true →
      ∃ next, dropSpan bytes parsed.size = some next ∧ Stride w bytes next) := by
  rcases parseInstruction_cases wide clear.size with
    ⟨i, rest, rfl, parses⟩ | ⟨narrow, rest, valid, rfl, parses⟩ | invalid | overruns
  · exact ⟨_, parses, fun _ => ⟨rest, dropSpan_append _ _, .whole i rest⟩⟩
  · have skipped : dropSpan (0x4E :: 0xFF :: 0xFF :: 0xFF :: 0xFF :: rest) 4 =
        some (0xFF :: rest) := dropSpan_append [0x4E, 0xFF, 0xFF, 0xFF] (0xFF :: rest)
    exact ⟨_, parses, fun _ => ⟨_, skipped, .extent rest narrow⟩⟩
  · exact ⟨_, invalid, fun valid => by cases valid⟩
  · exact absurd ⟨bytes, .refl, overruns⟩ clear.avoids

/-- A round is a stride over what was read. -/
theorem Clear.stride_of_round {next : List UInt8} (wide : 32 ≤ w) (clear : Clear w bytes)
    (round : Round w accepts bytes next) : Stride w bytes next := by
  obtain ⟨-, parsed, parses, valid, -, left⟩ := round
  obtain ⟨same, reads, moves⟩ := clear.parse wide
  obtain rfl := Option.some.inj (reads.symm.trans parses)
  obtain ⟨_, skipped, stride⟩ := moves valid
  rwa [← Option.some.inj (skipped.symm.trans left)]

/-- Whatever a loop reaches from a clear span is clear. -/
theorem Clear.reached {remaining : List UInt8} (wide : 32 ≤ w) (clear : Clear w script)
    (reached : Relation.ReflTransGen (Round w accepts) script remaining) : Clear w remaining := by
  induction reached with
  | refl => exact clear
  | tail _ round ih => exact ih.stride (ih.stride_of_round wide round)

/-- The loops come to an end on a clear span. -/
theorem Clear.scan (wide : 32 ≤ w) (clear : Clear w bytes) {rounds : Nat}
    (enough : bytes.length ≤ rounds) : (scan w accepts rounds bytes).isSome = true := by
  induction rounds generalizing bytes with
  | zero =>
      obtain rfl := List.length_eq_zero_iff.mp (Nat.le_zero.mp enough)
      rfl
  | succ rounds ih =>
      rw [StdBitcoin.scan]
      split
      · rfl
      obtain ⟨parsed, parses, moves⟩ := clear.parse wide
      rw [parses, Option.bind_eq_bind, Option.bind_some]
      by_cases stops : (!parsed.valid || !accepts parsed.value) = true
      · rw [if_pos stops]
        rfl
      · have valid : parsed.valid = true := by
          cases read : parsed.valid
          · rw [read] at stops
            exact absurd rfl stops
          · rfl
        obtain ⟨next, skipped, stride⟩ := moves valid
        rw [if_neg stops, skipped]
        exact ih (clear.stride stride) (Nat.le_of_lt_succ (stride.length_lt.trans_le enough))

/-- The iterator is at its end, or one increment moves it along a stride to a clear span. -/
def InstructionIterator.Stands (w : Nat) (it : InstructionIterator) : Prop :=
  it.atEnd = false → ∃ next, dropSpan it.remaining it.currentSize = some next ∧
    Stride w it.remaining next ∧ Clear w next

/-- Where no overrun is ahead the iterator stands at the bytes it reads. -/
theorem Clear.readNext (wide : 32 ≤ w) (clear : Clear w bytes) :
    ∃ it, InstructionIterator.readNext w bytes = some it ∧ it.remaining = bytes ∧
      it.Stands w := by
  unfold InstructionIterator.readNext
  split
  · exact ⟨_, rfl, rfl, fun running => by cases running⟩
  obtain ⟨parsed, parses, moves⟩ := clear.parse wide
  rw [parses, Option.bind_eq_bind, Option.bind_some]
  cases valid : parsed.valid with
  | false => exact ⟨_, rfl, rfl, fun running => by cases running⟩
  | true =>
      obtain ⟨next, skipped, stride⟩ := moves valid
      exact ⟨_, rfl, rfl, fun _ => ⟨next, skipped, stride, clear.stride stride⟩⟩

/-- An increment keeps the iterator inside of the script, and moves it unless it is at the
end. -/
theorem InstructionIterator.Stands.increment (wide : 32 ≤ w) {it : InstructionIterator}
    (stands : it.Stands w) :
    ∃ next, it.increment w = some next ∧ next.Stands w ∧
      (it.atEnd = false → next.remaining.length < it.remaining.length) := by
  unfold InstructionIterator.increment
  cases ended : it.atEnd with
  | true => exact ⟨it, rfl, stands, fun running => by cases running⟩
  | false =>
      obtain ⟨left, skipped, stride, clear⟩ := stands ended
      obtain ⟨next, read, remains, again⟩ := clear.readNext wide
      refine ⟨next, ?_, again, fun _ => ?_⟩
      · rw [skipped]
        exact read
      · rw [remains]
        exact stride.length_lt

/-- The iterator stands in the script after any number of increments. -/
theorem Clear.after (wide : 32 ≤ w) (clear : Clear w script) (count : Nat) :
    ∃ it, InstructionIterator.after w script count = some it ∧ it.Stands w := by
  induction count with
  | zero =>
      obtain ⟨it, read, -, stands⟩ := clear.readNext wide
      exact ⟨it, read, stands⟩
  | succ count ih =>
      obtain ⟨it, reached, stands⟩ := ih
      obtain ⟨next, moved, again, -⟩ := stands.increment wide
      refine ⟨next, ?_, again⟩
      rw [InstructionIterator.after, reached]
      exact moved

/-- On a clear script every loop stays in range. -/
theorem Clear.staysInRange (wide : 32 ≤ w) (clear : Clear w script) : StaysInRange w script where
  rounds := by
    intro accepts remaining reached
    obtain ⟨parsed, parses, moves⟩ := (clear.reached wide reached).parse wide
    refine ⟨parsed, parses, fun valid => ?_⟩
    obtain ⟨next, skipped, stride⟩ := moves valid
    exact ⟨next, skipped, stride.length_lt⟩
  scans := fun _ => clear.scan wide le_rfl
  increments := by
    intro count
    obtain ⟨it, reached, stands⟩ := clear.after wide count
    refine ⟨it, reached, fun running => ?_⟩
    obtain ⟨next, moved, -, shorter⟩ := stands.increment wide
    exact ⟨next, moved, shorter running⟩

/-- A loop that accepts every instruction follows each stride. -/
theorem Stride.round {next : List UInt8} (stride : Stride w bytes next)
    (size : bytes.length < 2 ^ w) : Round w (fun _ => true) bytes next := by
  cases stride with
  | whole i rest =>
      rw [List.length_append] at size
      have fits : i.wire.length < 2 ^ w := by omega
      have parses := parseInstruction_wire_of_lt i fits next
      exact ⟨List.append_ne_nil_of_left_ne_nil i.wire_ne_nil _, _, parses, rfl, rfl,
        dropSpan_append _ _⟩
  | extent rest narrow =>
      subst narrow
      simp only [List.length_cons] at size
      have valid : hasValidImmediate .opPushdata4 rest = true :=
        decide_eq_true (show rest.length ≤ 0xFFFFFFFF by omega)
      exact ⟨List.cons_ne_nil _ _, _, parseInstruction_extent valid, rfl, rfl,
        dropSpan_append [0x4E, 0xFF, 0xFF, 0xFF] (0xFF :: rest)⟩

/-- A loop that accepts every instruction has no result where the strides reach a payload that
is not in the script. -/
theorem ReachesOverrun.scan_eq_none (wide : 32 ≤ w) (size : script.length < 2 ^ w)
    (reaches : ReachesOverrun w script) (rounds : Nat) :
    scan w (fun _ => true) rounds script = none := by
  obtain ⟨rest, reached, overruns⟩ := reaches
  induction reached using Relation.ReflTransGen.head_induction_on generalizing rounds with
  | refl =>
      have undefined := parseInstruction_of_overruns wide size overruns
      obtain ⟨payloadSize, behind, rfl, -⟩ := overruns
      cases rounds with
      | zero => rfl
      | succ rounds =>
          rw [scan, if_neg (by simp), undefined]
          rfl
  | @head bytes next stride _ ih =>
      have round := stride.round size
      cases rounds with
      | zero =>
          rw [scan, if_neg (by simpa using round.1)]
      | succ rounds =>
          rw [scan_of_round round]
          exact ih (stride.length_lt.trans size) rounds

/-- All reads stay in range if and only if no overrun is reached. -/
theorem staysInRange_iff (wide : 32 ≤ w) (size : script.length < 2 ^ w) :
    StaysInRange w script ↔ ¬ ReachesOverrun w script := by
  constructor
  · intro inRange reaches
    have ends := inRange.scans fun _ => true
    rw [reaches.scan_eq_none wide size] at ends
    cases ends
  · intro avoids
    exact Clear.staysInRange wide ⟨size, avoids⟩

end Loops

/-- The length checks of the parser are exact unless a size wraps around, which takes a word of
32 bits and one of the five largest sizes behind `OP_PUSHDATA4`. The loops and the iterator
stay in range unless they come to one of four of these, whose payload is not in the script. -/
theorem lengthChecks_exact_iff {w : Nat} (width : w = 32 ∨ w = 64) {bytes : List UInt8}
    (size : bytes.length < 2 ^ w) :
    (ParsesInBounds w bytes ↔ ¬ Wraps w bytes) ∧
      (StaysInRange w bytes ↔ ¬ ReachesOverrun w bytes) := by
  have wide : 32 ≤ w := by omega
  exact ⟨parsesInBounds_iff wide size, staysInRange_iff wide size⟩

/-- With sizes of 32 bits a push that is cut short is refused in bounds. -/
theorem lengthChecks_exact_iff_push :
    (ParsesInBounds 32 [0x4E, 0x01, 0x00, 0x00, 0x00, 0xAB] ↔
      ¬ Wraps 32 [0x4E, 0x01, 0x00, 0x00, 0x00, 0xAB]) ∧
    (StaysInRange 32 [0x4E, 0x01, 0x00, 0x00, 0x00, 0xAB] ↔
      ¬ ReachesOverrun 32 [0x4E, 0x01, 0x00, 0x00, 0x00, 0xAB]) :=
  lengthChecks_exact_iff (.inl rfl) (by decide)

/-- With 32 bits the check passes for 2^32 - 5 bytes of payload in a span of five bytes. -/
theorem lengthChecks_wrap :
    ¬ [0x4E, 0xFB, 0xFF, 0xFF, 0xFF].length < (5 + 0xFFFFFFFB) % 2 ^ 32 ∧
      subspan 32 [0x4E, 0xFB, 0xFF, 0xFF, 0xFF] 5 0xFFFFFFFB = none ∧
      ¬ ParsesInBounds 32 [0x4E, 0xFB, 0xFF, 0xFF, 0xFF] ∧
      ¬ StaysInRange 32 [0x4E, 0xFB, 0xFF, 0xFF, 0xFF] := by
  have undefined : parseInstruction 32 [0x4E, 0xFB, 0xFF, 0xFF, 0xFF] = none := by decide
  refine ⟨by decide, by decide, ?_, ?_⟩
  · intro bounded
    obtain ⟨parsed, parses⟩ := bounded.defined
    rw [undefined] at parses
    cases parses
  · intro inRange
    obtain ⟨parsed, parses, -⟩ := inRange.rounds (fun _ => true) _ .refl
    rw [undefined] at parses
    cases parses

/-- With 32 bits a payload of 2^32 - 1 bytes is read from a span of five: the instruction has no
immediate and four bytes, and the loop goes on with the last of the five. -/
example :
    parseInstruction 32 [0x4E, 0xFF, 0xFF, 0xFF, 0xFF] =
        some ⟨⟨.opPushdata4, [], rfl⟩, 4, true⟩ ∧
      isWellFormed 32 [0x4E, 0xFF, 0xFF, 0xFF, 0xFF] = some true := by
  decide

end StdBitcoin
