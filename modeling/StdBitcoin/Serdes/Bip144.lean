import StdBitcoin.Serdes.RoundTrip

/-!
# The extended transaction format

The deserialisation algorithm of the extended format, with the flag byte kept
until the end, compared with the parser. In the algorithm an empty input vector
followed by the flag zero stands for a transaction without inputs and outputs; the
parser sends this layout through the witness step, which always refuses it.
-/

namespace StdBitcoin

open Codec Wire

namespace Bip144

/-- The steps after the vectors: witnesses if their flag bit is set, no other
flag bit, and the locktime. -/
def readRest (version : UInt32) (flags : UInt8) (inputs : StdVector TxInput)
    (outputs : StdVector TxOutput) : Reader UInt8 Transaction.Observable := do
  let inputs ← if flags &&& 1 ≠ 0 then readWitness inputs else pure inputs
  if flags &&& 0xFE ≠ 0 then
    failure
  let locktime ← readU32
  return ⟨version, inputs, outputs, locktime⟩

/-- The reference algorithm. -/
def readTx : Reader UInt8 Transaction.Observable := do
  let version ← readU32
  let inputs ← readRange readTxin
  if inputs.toList.isEmpty then
    let flags ← readU8
    if flags ≠ 0 then
      let inputs ← readRange readTxin
      let outputs ← readRange readTxout
      readRest version flags inputs outputs
    else
      readRest version flags .empty .empty
  else
    let outputs ← readRange readTxout
    readRest version 0 inputs outputs

/-- The reference algorithm on a whole input. -/
def parse (raw : List UInt8) : Option Transaction.Observable :=
  match readTx.run raw with
  | some (seen, []) => some seen
  | _ => none

/-- The parser of the format accepts what its reader takes as a whole. -/
theorem parse_eq_some_iff (raw : List UInt8) (seen : Transaction.Observable) :
    parse raw = some seen ↔ readTx.run raw = some (seen, []) := by
  unfold parse
  split
  · rename_i found run
    rw [run]
    simp
  · rename_i other
    constructor
    · intro absurdity
      cases absurdity
    · intro run
      exact absurd run (other seen)

theorem readRest_zero (version : UInt32) (inputs : StdVector TxInput)
    (outputs : StdVector TxOutput) :
    readRest version 0 inputs outputs =
      (fun locktime => ⟨version, inputs, outputs, locktime⟩) <$> readU32 := by
  simp [readRest]

theorem readRest_one (version : UInt32) (inputs : StdVector TxInput)
    (outputs : StdVector TxOutput) :
    readRest version 1 inputs outputs = (do
      let inputs ← readWitness inputs
      (fun locktime => ⟨version, inputs, outputs, locktime⟩) <$> readU32) := by
  have only : (1 : UInt8) &&& 0xFE = 0 := by decide
  simp [readRest, only]

theorem unknown_flag {flags : UInt8} (nonzero : flags ≠ 0) (not_one : flags ≠ 1) :
    flags &&& 0xFE ≠ 0 := by
  have all : ∀ n < 256, UInt8.ofNat n &&& 0xFE = 0 → UInt8.ofNat n = 0 ∨ UInt8.ofNat n = 1 := by
    decide +kernel
  intro masked
  have known := all flags.toNat flags.toNat_lt
  rw [UInt8.ofNat_toNat] at known
  rcases known masked with same | same
  · exact nonzero same
  · exact not_one same

/-- Any flag but 0 and 1 is refused. -/
theorem readRest_unknown {flags : UInt8} (nonzero : flags ≠ 0) (not_one : flags ≠ 1)
    (version : UInt32) (inputs : StdVector TxInput) (outputs : StdVector TxOutput) :
    readRest version flags inputs outputs = failure := by
  simp only [readRest, if_pos (unknown_flag nonzero not_one), failure_bind]
  split
  · exact bind_failure _
  · exact bind_failure _

section Hashing

variable (H : List UInt8 → ByteArray32)

/-- What stands behind an empty input vector, for some treatment of the flag zero. -/
def readFlagged (version : UInt32) (zero : Reader UInt8 Transaction.Observable) :
    Reader UInt8 Transaction.Observable := do
  let flags ← readU8
  if flags = 1 then Transaction.observe <$> readExtended H version
  else if flags = 0 then zero
  else failure

/-- The shape shared by the reference and the parser. -/
def readShaped (zero : UInt32 → Reader UInt8 Transaction.Observable) :
    Reader UInt8 Transaction.Observable := do
  let version ← readU32
  let inputs ← readRange readTxin
  if inputs.toList.isEmpty then readFlagged H version (zero version)
  else Transaction.observe <$> readLegacy H version inputs

/-- Without inputs and outputs only the locktime is left to read. -/
def readBare (version : UInt32) : Reader UInt8 Transaction.Observable :=
  (fun locktime => ⟨version, .empty, .empty, locktime⟩) <$> readU32

/-- The reader of the format accepts a transaction without inputs and outputs behind the flag 0. -/
theorem readTx_eq_readShaped : readTx = readShaped H readBare := by
  rw [readTx, readShaped]
  congr 1
  funext version
  congr 1
  funext inputs
  by_cases none : inputs.toList.isEmpty
  · rw [if_pos none, if_pos none, readFlagged]
    congr 1
    funext flags
    by_cases zero : flags = 0
    · subst zero
      rw [if_neg (by simp), if_neg (by decide), if_pos rfl, readRest_zero]
      rfl
    · rw [if_pos zero, if_neg zero]
      by_cases one : flags = 1
      · subst one
        simp only [readRest_one, readExtended, if_true, map_eq_pure_bind, bind_assoc, pure_bind]
        rfl
      · simp only [if_neg one, readRest_unknown zero one, bind_failure]
  · rw [if_neg none, if_neg none]
    simp only [readRest_zero, readLegacy, map_eq_pure_bind, bind_assoc, pure_bind]
    rfl

/-- The reader of the code refuses everything behind the flag 0. -/
theorem observe_readTx_eq_readShaped :
    Transaction.observe <$> Wire.readTx H = readShaped H fun _ => failure := by
  have refused : Transaction.observe <$> (failure : Reader UInt8 Transaction) = failure := rfl
  simp only [Wire.readTx, readShaped, readFlagged, map_bind,
    apply_ite (Functor.map Transaction.observe), refused, ite_self]

instance delimited_readFlagged (version : UInt32) (zero : Reader UInt8 Transaction.Observable)
    [Delimited zero] : Delimited (readFlagged H version zero) := by
  unfold readFlagged
  infer_instance

instance delimited_readBare (version : UInt32) : Delimited (readBare version) := by
  unfold readBare
  infer_instance

/-- What is accepted behind the flag 0 comes to what is accepted without it. -/
theorem reads_readFlagged_iff (version : UInt32) (zero : Reader UInt8 Transaction.Observable)
    [Delimited zero] (seen : Transaction.Observable) (taken : List UInt8) :
    Reads (readFlagged H version zero) seen taken ↔
      Reads (readFlagged H version failure) seen taken ∨
      ∃ back, Reads zero seen back ∧ taken = 0 :: back := by
  have each (flags : UInt8) (seen : Transaction.Observable) (back : List UInt8) :
      Reads (if flags = 1 then Transaction.observe <$> readExtended H version
          else if flags = 0 then zero else failure) seen back ↔
        Reads (if flags = 1 then Transaction.observe <$> readExtended H version
          else if flags = 0 then failure else failure) seen back ∨
            (flags = 0 ∧ Reads zero seen back) := by
    by_cases one : flags = 1
    · simp [one]
    · by_cases none : flags = 0 <;> simp [one, none]
  rw [readFlagged, readFlagged, inverts_readU8.reads_bind_or_iff each]
  apply or_congr Iff.rfl
  constructor
  · rintro ⟨flags, back, -, ⟨rfl, beyond⟩, rfl⟩
    exact ⟨back, beyond, rfl⟩
  · rintro ⟨back, beyond, rfl⟩
    exact ⟨0, back, trivial, ⟨rfl, beyond⟩, rfl⟩

/-- The two readers differ behind the marker with the flag 0 and nowhere else. -/
theorem reads_readShaped_iff (zero : UInt32 → Reader UInt8 Transaction.Observable)
    [∀ version, Delimited (zero version)] (seen : Transaction.Observable) (taken : List UInt8) :
    Reads (readShaped H zero) seen taken ↔ Reads (readShaped H fun _ => failure) seen taken ∨
      ∃ version back, Reads (zero version) seen back ∧
        taken = (encodeU32 version).flatten ++ 0 :: 0 :: back := by
  have counted (version : UInt32) (inputs : StdVector TxInput) (seen : Transaction.Observable)
      (back : List UInt8) :
      Reads (if inputs.toList.isEmpty then readFlagged H version (zero version)
          else Transaction.observe <$> readLegacy H version inputs) seen back ↔
        Reads (if inputs.toList.isEmpty then readFlagged H version failure
          else Transaction.observe <$> readLegacy H version inputs) seen back ∨
        (inputs = .empty ∧ ∃ rest, Reads (zero version) seen rest ∧ back = 0 :: rest) := by
    by_cases none : inputs = .empty
    · subst none
      simp [reads_readFlagged_iff H version (zero version)]
    · have some : inputs.toList.isEmpty = false := by
        rw [Bool.eq_false_iff, ne_eq, List.isEmpty_iff]
        exact fun empty => none (StdVector.ext empty)
      simp [some, none]
  rw [readShaped, readShaped, inverts_readU32.reads_bind_or_iff fun version =>
    (inverts_readRange inverts_readTxin).reads_bind_or_iff (counted version)]
  apply or_congr Iff.rfl
  constructor
  · rintro ⟨version, _, -, ⟨_, _, -, ⟨rfl, rest, reads, rfl⟩, rfl⟩, rfl⟩
    exact ⟨version, rest, reads, rfl⟩
  · rintro ⟨version, rest, reads, rfl⟩
    exact ⟨version, _, trivial,
      ⟨.empty, _, ⟨Nat.zero_le _, by simp⟩, ⟨rfl, rest, reads, rfl⟩, rfl⟩, rfl⟩

/-- The encodings without inputs and outputs: version, two zero bytes, locktime. -/
def Bare (raw : List UInt8) : Prop := raw.length = 10 ∧ raw[4]? = some 0 ∧ raw[5]? = some 0

instance (raw : List UInt8) : Decidable (Bare raw) := inferInstanceAs (Decidable (_ ∧ _ ∧ _))

/-- A bare message is ten bytes: the version, two zeros and the locktime. -/
theorem bare_iff (raw : List UInt8) :
    Bare raw ↔ ∃ version locktime : UInt32,
      raw = (encodeU32 version).flatten ++ 0 :: 0 :: (encodeU32 locktime).flatten := by
  constructor
  · rintro ⟨length, marker, flag⟩
    obtain ⟨version, front⟩ := fixedWidth_readU32 raw (by omega)
    obtain ⟨taken, whole, reads⟩ := run_eq_some_iff.mp front
    obtain ⟨-, rfl⟩ := (inverts_readU32 _ _).mp reads
    obtain ⟨locktime, back⟩ := fixedWidth_readU32 (raw.drop 6) (by rw [List.length_drop]; omega)
    rw [List.drop_drop, List.drop_of_length_le length.le] at back
    obtain ⟨-, rest⟩ := inverts_readU32.run_eq_nil_iff.mp back
    refine ⟨version, locktime, ?_⟩
    have two : raw.drop 4 = 0 :: 0 :: raw.drop 6 := by
      rw [List.drop_eq_getElem_cons (by omega), List.drop_eq_getElem_cons (by omega)]
      rw [List.getElem?_eq_getElem (by omega), Option.some.injEq] at marker flag
      rw [marker, flag]
    rw [← rest, ← two]
    exact whole
  · rintro ⟨version, locktime, rfl⟩
    refine ⟨?_, ?_, ?_⟩ <;> simp [encodeU32]

/-- The reference reads what the parser reads, and the bare encodings. -/
theorem reads_readTx_iff (seen : Transaction.Observable) (taken : List UInt8) :
    Reads readTx seen taken ↔
      Reads (Transaction.observe <$> Wire.readTx H) seen taken ∨
      ∃ version locktime, seen = ⟨version, .empty, .empty, locktime⟩ ∧
        taken = (encodeU32 version).flatten ++ 0 :: 0 :: (encodeU32 locktime).flatten := by
  rw [readTx_eq_readShaped H, observe_readTx_eq_readShaped, reads_readShaped_iff]
  apply or_congr Iff.rfl
  constructor
  · rintro ⟨version, back, reads, rfl⟩
    obtain ⟨locktime, word, rfl⟩ := (reads_map_iff _ _ _).mp reads
    obtain ⟨-, rfl⟩ := (inverts_readU32 _ _).mp word
    exact ⟨version, locktime, rfl, rfl⟩
  · rintro ⟨version, locktime, rfl, rfl⟩
    exact ⟨version, _,
      (reads_map_iff _ _ _).mpr ⟨locktime, (inverts_readU32 _ _).mpr ⟨trivial, rfl⟩, rfl⟩,
      rfl⟩

/-- The parser takes the flag zero to its witness step and fails there. -/
theorem parseTransaction_bare {raw : List UInt8} (bare : Bare raw) :
    parseTransaction H raw = none := by
  obtain ⟨version, locktime, rfl⟩ := (bare_iff raw).mp bare
  have version_reads : Reads readU32 version (encodeU32 version).flatten :=
    (inverts_readU32 _ _).mpr ⟨trivial, rfl⟩
  have inputs_reads : Reads (readRange readTxin) .empty [0] :=
    (inverts_readRange inverts_readTxin _ _).mpr ⟨⟨Nat.zero_le _, by simp⟩, rfl⟩
  have flag_reads : Reads readU8 0 [0] := (inverts_readU8 _ _).mpr ⟨trivial, rfl⟩
  have fails : (Wire.readTx H).run
      ((encodeU32 version).flatten ++ ([0] ++ ([0] ++ (encodeU32 locktime).flatten))) = none := by
    rw [Wire.readTx, version_reads.run_bind, inputs_reads.run_bind, if_pos StdVector.isEmpty_empty,
      flag_reads.run_bind]
    rfl
  rw [Option.eq_none_iff_forall_ne_some]
  intro tx parsed
  rw [parseTransaction, StdBitcoin.parse_eq_some_iff, strict_decodeTx] at parsed
  exact Option.some_ne_none _ (parsed.symm.trans fails)

/-- `parse_transaction` accepts what its reader takes as a whole. -/
theorem map_observe_parseTransaction_eq_some_iff (raw : List UInt8)
    (seen : Transaction.Observable) :
    (parseTransaction H raw).map Transaction.observe = some seen ↔
      Reads (Transaction.observe <$> Wire.readTx H) seen raw := by
  rw [Option.map_eq_some_iff, reads_map_iff]
  apply exists_congr
  intro tx
  rw [parseTransaction, StdBitcoin.parse_eq_some_iff, strict_decodeTx, run_eq_nil_iff]
  tauto

/-- The parser agrees with the reference on every input but the bare encodings,
which only the reference accepts. -/
theorem parseTransaction_agrees_iff (raw : List UInt8) :
    (parseTransaction H raw).map Transaction.observe = parse raw ↔ ¬ Bare raw := by
  have delimited : Delimited readTx := by
    rw [readTx_eq_readShaped H]
    unfold readShaped
    infer_instance
  constructor
  · intro agrees bare
    obtain ⟨version, locktime, encoded⟩ := (bare_iff raw).mp bare
    have accepted : parse raw = some ⟨version, .empty, .empty, locktime⟩ := by
      rw [parse_eq_some_iff, run_eq_nil_iff, reads_readTx_iff H]
      exact .inr ⟨version, locktime, rfl, encoded⟩
    rw [parseTransaction_bare H bare, accepted] at agrees
    cases agrees
  · intro usual
    apply Option.ext
    intro seen
    rw [map_observe_parseTransaction_eq_some_iff, parse_eq_some_iff, run_eq_nil_iff,
      reads_readTx_iff H, or_iff_left]
    rintro ⟨version, locktime, -, encoded⟩
    exact usual ((bare_iff raw).mpr ⟨version, locktime, encoded⟩)

/-- The serialisation of a transaction without inputs and outputs is not accepted. -/
theorem parseTransaction_empty_refused :
    written (serializeTx (Transaction.make Sample.zeroHash 1 .empty .empty 0) vectorSink) =
        [1, 0, 0, 0, 0, 0, 0, 0, 0, 0] ∧
      parseTransaction Sample.zeroHash [1, 0, 0, 0, 0, 0, 0, 0, 0, 0] = none ∧
      parse [1, 0, 0, 0, 0, 0, 0, 0, 0, 0] = some ⟨1, .empty, .empty, 0⟩ := by
  refine ⟨by decide, ?_, by decide⟩
  exact parseTransaction_bare _ (by decide)

end Hashing

end Bip144

end StdBitcoin
