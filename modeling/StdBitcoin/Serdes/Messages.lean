import StdBitcoin.Serdes.Format

/-!
# What the message readers accept

The readers of inputs, outputs, headers, transactions and blocks invert their
encoders. A transaction is read from either layout, and what is read is always a
value of the four-argument constructor with at least one input.
-/

namespace StdBitcoin

open Codec

namespace Wire

theorem inverts_readTxin :
    Inverts readTxin (fun input => input.BodyWithin wireLimit ∧ input.witness = .empty)
      fun input => (encodeTxin input).flatten := by
  intro input taken
  rw [readTxin, readOutpoint, bind_assoc, (inverts_take 32).reads_bind_iff]
  simp only [bind_assoc, pure_bind, inverts_readU32.reads_bind_iff,
    inverts_readBytes.reads_bind_iff, reads_pure_iff]
  constructor
  · rintro ⟨hash, _, -,
      ⟨index, _, -, ⟨script, _, within, ⟨sequence, _, -, ⟨rfl, rfl⟩, rfl⟩, rfl⟩, rfl⟩,
      rfl⟩
    have bound : index.toUInt64.toNat < 2 ^ 32 := by
      rw [UInt32.toNat_toUInt64]
      exact index.toNat_lt
    refine ⟨⟨⟨bound, within⟩, rfl⟩, ?_⟩
    simp [encodeTxin, encodeOutpoint, encodeHash256, BasicHashId.asBytes]
  · rintro ⟨⟨⟨bound, within⟩, unwitnessed⟩, rfl⟩
    have index : input.prevout.index.toUInt32.toUInt64 = input.prevout.index := by
      apply UInt64.toNat_inj.mp
      simp only [UInt32.toNat_toUInt64, UInt64.toNat_toUInt32]
      exact Nat.mod_eq_of_lt bound
    refine ⟨input.prevout.txid.value, _, trivial, ⟨input.prevout.index.toUInt32, _, trivial,
      ⟨input.script.bytes, _, within, ⟨input.sequence, [], trivial, ⟨?_, rfl⟩, rfl⟩, rfl⟩, rfl⟩, ?_⟩
    · rw [index, ← unwitnessed]
    · simp [encodeTxin, encodeOutpoint, encodeHash256, BasicHashId.asBytes]

theorem inverts_readTxout :
    Inverts readTxout (fun output => output.script.bytes.Within wireLimit)
      fun output => (encodeTxout output).flatten := by
  intro output taken
  simp only [readTxout, inverts_readU64.reads_bind_iff, inverts_readBytes.reads_bind_iff,
    reads_pure_iff]
  constructor
  · rintro ⟨amount, _, -, ⟨script, _, within, ⟨rfl, rfl⟩, rfl⟩, rfl⟩
    refine ⟨within, ?_⟩
    simp [encodeTxout]
  · rintro ⟨within, rfl⟩
    refine ⟨output.value.toUInt64, _, trivial,
      ⟨output.script.bytes, [], within, ⟨?_, rfl⟩, rfl⟩, ?_⟩
    · simp
    · simp [encodeTxout]

end Wire

namespace TxInput

/-- The input as it stands in the input vector of the extended layout. -/
def stripped (input : TxInput) : TxInput := input.withWitness .empty

@[simp] theorem encodeTxin_stripped (input : TxInput) :
    encodeTxin input.stripped = encodeTxin input :=
  rfl

/-- An input has no witness if and only if its stack is empty. -/
theorem hasWitness_eq_false_iff (input : TxInput) :
    input.hasWitness = false ↔ input.witness = .empty := by
  rw [hasWitness, Bool.not_eq_false', List.isEmpty_iff]
  exact @StdVector.toList_inj _ input.witness .empty

/-- No input has a witness if and only if all stacks are empty. -/
theorem any_hasWitness_eq_false_iff (inputs : List TxInput) :
    inputs.any hasWitness = false ↔ ∀ input ∈ inputs, input.witness = .empty := by
  simp only [List.any_eq_false, Bool.not_eq_true, hasWitness_eq_false_iff]

theorem witnessWithin_of_eq_empty {limit : Nat} {input : TxInput} (empty : input.witness = .empty) :
    input.WitnessWithin limit := by
  rw [WitnessWithin, empty]
  exact ⟨Nat.zero_le _, fun _ member => absurd member List.not_mem_nil⟩

/-- Inputs without witnesses and the inputs made of them by adding witnesses. -/
theorem forall₂_withWitness_iff {accepts : TxInput → Prop} {bare elems : List TxInput}
    (unwitnessed : ∀ input ∈ bare, input.witness = .empty) :
    List.Forall₂ (fun input elem => elem = input.withWitness elem.witness ∧ accepts elem)
      bare elems ↔
      bare = elems.map stripped ∧ ∀ elem ∈ elems, accepts elem := by
  induction bare generalizing elems with
  | nil => cases elems <;> simp
  | cons input bare ih =>
      cases elems with
      | nil => simp
      | cons elem elems =>
          obtain ⟨first, others⟩ := List.forall_mem_cons.mp unwitnessed
          have head : elem = input.withWitness elem.witness ↔ input = elem.stripped := by
            constructor
            · intro same
              rw [same, stripped, withWitness, withWitness, ← first]
            · rintro rfl
              rfl
          rw [List.forall₂_cons, ih others, head, List.map_cons, List.cons.injEq,
            List.forall_mem_cons]
          tauto

end TxInput

/-- The bounds under which a transaction can be written and read back. -/
structure Transaction.Observable.Within (limit : Nat) (seen : Transaction.Observable) : Prop where
  inputs : seen.inputs.Within limit
  bodies : ∀ input ∈ seen.inputs.toList, input.BodyWithin limit
  witnesses : ∀ input ∈ seen.inputs.toList, input.WitnessWithin limit
  outputs : seen.outputs.Within limit
  scripts : ∀ output ∈ seen.outputs.toList, output.script.bytes.Within limit

instance (limit : Nat) (seen : Transaction.Observable) : Decidable (seen.Within limit) :=
  decidable_of_iff
    (seen.inputs.Within limit ∧ (∀ input ∈ seen.inputs.toList, input.BodyWithin limit) ∧
      (∀ input ∈ seen.inputs.toList, input.WitnessWithin limit) ∧ seen.outputs.Within limit ∧
      ∀ output ∈ seen.outputs.toList, output.script.bytes.Within limit)
    ⟨fun ⟨inputs, bodies, witnesses, outputs, scripts⟩ =>
        ⟨inputs, bodies, witnesses, outputs, scripts⟩,
      fun within =>
        ⟨within.inputs, within.bodies, within.witnesses, within.outputs, within.scripts⟩⟩

namespace Wire

instance delimited_readWitness (input : StdVector TxInput) : Delimited (readWitness input) := by
  unfold readWitness
  infer_instance

/-- `read_witness` attaches to every input the stack that is written for it, and refuses a part in
which all stacks are empty. -/
theorem reads_readWitness_iff (input elems : StdVector TxInput) (taken : List UInt8) :
    Reads (readWitness input) elems taken ↔
      List.Forall₂ (fun before after => after = before.withWitness after.witness ∧
          after.WitnessWithin wireLimit) input.toList elems.toList ∧
        elems.toList.any TxInput.hasWitness ∧
        taken = elems.toList.flatMap fun elem =>
          (encodeRange elem.witness encodeBytes).flatten := by
  have item (before after : TxInput) (taken : List UInt8) :
      Reads (before.withWitness <$> readRange readBytes) after taken ↔
        (after = before.withWitness after.witness ∧ after.WitnessWithin wireLimit) ∧
          taken = (encodeRange after.witness encodeBytes).flatten := by
    rw [reads_map_iff]
    constructor
    · rintro ⟨witness, reads, rfl⟩
      obtain ⟨within, rfl⟩ := (inverts_readRange inverts_readBytes _ _).mp reads
      exact ⟨⟨rfl, within⟩, rfl⟩
    · rintro ⟨⟨same, within⟩, rfl⟩
      exact ⟨after.witness, (inverts_readRange inverts_readBytes _ _).mpr ⟨within, rfl⟩, same⟩
  rw [readWitness, reads_bind_iff]
  constructor
  · rintro ⟨out, front, back, items, tail, rfl⟩
    obtain ⟨all, rfl⟩ := (reads_forEach_iff item _ _ _).mp items
    cases some : out.1.any TxInput.hasWitness with
    | false =>
        rw [some] at tail
        exact absurd tail (not_reads_failure _ _)
    | true =>
        rw [some] at tail
        obtain ⟨rfl, rfl⟩ := (reads_pure_iff _ _ _).mp tail
        exact ⟨all, some, List.append_nil _⟩
  · rintro ⟨all, some, rfl⟩
    refine ⟨⟨elems.toList, all.length_eq.symm⟩, _, [],
      (reads_forEach_iff item _ _ _).mpr ⟨all, rfl⟩,
      ?_, (List.append_nil _).symm⟩
    dsimp only
    rw [some]
    exact (reads_pure_iff _ _ _).mpr ⟨rfl, rfl⟩

section Hashing

variable (H : List UInt8 → ByteArray32)

instance delimited_readLegacy (version : UInt32) (inputs : StdVector TxInput) :
    Delimited (readLegacy H version inputs) := by
  unfold readLegacy
  infer_instance

instance delimited_readExtended (version : UInt32) : Delimited (readExtended H version) := by
  unfold readExtended
  infer_instance

instance delimited_readTx : Delimited (readTx H) := by
  unfold readTx
  infer_instance

/-- The legacy layout goes on with the outputs and the locktime. -/
theorem reads_readLegacy_iff (version : UInt32) (inputs : StdVector TxInput) (tx : Transaction)
    (taken : List UInt8) :
    Reads (readLegacy H version inputs) tx taken ↔
      tx = Transaction.make H version inputs tx.outputs tx.locktime ∧
        tx.outputs.Within wireLimit ∧
        (∀ output ∈ tx.outputs.toList, output.script.bytes.Within wireLimit) ∧
        taken = (encodeRange tx.outputs encodeTxout ++ encodeU32 tx.locktime).flatten := by
  simp only [readLegacy, (inverts_readRange inverts_readTxout).reads_bind_iff,
    inverts_readU32.reads_bind_iff, reads_pure_iff]
  constructor
  · rintro ⟨outputs, _, ⟨within, scripts⟩, ⟨locktime, _, -, ⟨rfl, rfl⟩, rfl⟩, rfl⟩
    exact ⟨rfl, within, scripts, by
      simp [Transaction.make, Transaction.outputs, Transaction.locktime,
        Transaction.Implementation.make]⟩
  · rintro ⟨built, within, scripts, rfl⟩
    exact ⟨tx.outputs, _, ⟨within, scripts⟩, ⟨tx.locktime, [], trivial, ⟨built, rfl⟩, rfl⟩, by simp⟩

/-- Inputs with stripped witnesses are written like the inputs themselves. -/
theorem encodeRange_stripped (inputs : StdVector TxInput) :
    encodeRange (inputs.map TxInput.stripped) encodeTxin = encodeRange inputs encodeTxin := by
  simp [encodeRange, StdVector.size, List.flatMap_map]

/-- The extended layout goes on with inputs, outputs, witnesses and the locktime, and at least one
witness is not empty. -/
theorem reads_readExtended_iff (version : UInt32) (tx : Transaction) (taken : List UInt8) :
    Reads (readExtended H version) tx taken ↔
      tx = Transaction.make H version tx.inputs tx.outputs tx.locktime ∧
        tx.inputs.toList.any TxInput.hasWitness ∧ tx.observe.Within wireLimit ∧
        taken = (encodeRange tx.inputs encodeTxin ++ encodeRange tx.outputs encodeTxout ++
          (tx.inputs.toList.flatMap fun input => encodeRange input.witness encodeBytes) ++
          encodeU32 tx.locktime).flatten := by
  simp only [readExtended, (inverts_readRange inverts_readTxin).reads_bind_iff,
    (inverts_readRange inverts_readTxout).reads_bind_iff, @reads_bind_iff _ _ _ (readWitness _),
    reads_readWitness_iff, inverts_readU32.reads_bind_iff, reads_pure_iff]
  constructor
  · rintro ⟨bare, _, ⟨within, bodies⟩, ⟨outputs, _, ⟨outputs_within, scripts⟩, ⟨inputs, _, _,
      ⟨witnessed, some, rfl⟩, ⟨locktime, _, -, ⟨rfl, rfl⟩, rfl⟩, rfl⟩, rfl⟩, rfl⟩
    obtain ⟨same, witnesses⟩ :=
      (TxInput.forall₂_withWitness_iff fun input member => (bodies input member).2).mp witnessed
    obtain rfl : bare = inputs.map TxInput.stripped := StdVector.ext same
    rw [encodeRange_stripped]
    refine ⟨rfl, some, ?_, ?_⟩
    · exact {
        inputs := (StdVector.within_map_iff _ _).mp within
        bodies := fun input member => (bodies _ (List.mem_map_of_mem member)).1
        witnesses := witnesses
        outputs := outputs_within
        scripts := scripts }
    · simp only [List.flatten_append, flatten_flatMap, List.append_assoc, List.append_nil]
      rfl
  · rintro ⟨built, some, within, rfl⟩
    have bare : ∀ input ∈ (tx.inputs.map TxInput.stripped).toList,
        input.BodyWithin wireLimit ∧ input.witness = .empty := by
      intro input member
      obtain ⟨whole, present, rfl⟩ := List.mem_map.mp member
      exact ⟨within.bodies whole present, rfl⟩
    have witnessed :=
      (TxInput.forall₂_withWitness_iff fun input member => (bare input member).2).mpr
      ⟨rfl, within.witnesses⟩
    refine ⟨tx.inputs.map TxInput.stripped, _, ⟨?_, bare⟩, ⟨tx.outputs, _,
      ⟨within.outputs, within.scripts⟩, ⟨tx.inputs, _, _, ⟨witnessed, some, rfl⟩,
        ⟨tx.locktime, [], trivial, ⟨built, rfl⟩, rfl⟩, rfl⟩, rfl⟩, ?_⟩
    · exact (StdVector.within_map_iff _ _).mpr within.inputs
    · rw [encodeRange_stripped]
      simp only [List.flatten_append, flatten_flatMap, List.append_assoc, List.append_nil]

end Hashing

end Wire

namespace Transaction

/-- The transactions that the format carries: values of the four-argument
constructor with at least one input. -/
structure Carried (H : List UInt8 → ByteArray32) (tx : Transaction) : Prop where
  built : tx = ofObservable H tx.observe
  nonempty : tx.inputs.toList ≠ []
  within : tx.observe.Within wireLimit

/-- The flag of a transaction that was built from its content is that of its inputs. -/
theorem hasWitness_of_built {H : List UInt8 → ByteArray32} {tx : Transaction}
    (built : tx = ofObservable H tx.observe) :
    tx.hasWitness = tx.inputs.toList.any TxInput.hasWitness := by
  rw [built]
  rfl

end Transaction

/-- The legacy layout: version, inputs, outputs, locktime. -/
theorem flatten_encodeTx_legacy {tx : Transaction} (none : tx.hasWitness = false) :
    (encodeTx tx).flatten = (encodeU32 tx.version).flatten ++
    ((encodeRange tx.inputs encodeTxin).flatten ++
      (encodeRange tx.outputs encodeTxout ++ encodeU32 tx.locktime).flatten) := by
  simp [encodeTx, encodeTxData, none]

/-- The extended layout: behind the version come the marker and the flag, and the witnesses stand
before the locktime. -/
theorem flatten_encodeTx_extended {tx : Transaction} (some : tx.hasWitness = true) :
    (encodeTx tx).flatten = (encodeU32 tx.version).flatten ++ (0 :: 1 ::
      (encodeRange tx.inputs encodeTxin ++ encodeRange tx.outputs encodeTxout ++
        (tx.inputs.toList.flatMap fun input => encodeRange input.witness encodeBytes) ++
        encodeU32 tx.locktime).flatten) := by
  simp [encodeTx, encodeTxData, some, encodeU8]

/-- An empty input vector is written as the marker. -/
theorem flatten_encodeRange_empty {α : Type} (encodeElem : α → Writes) :
    (encodeRange .empty encodeElem).flatten = [0] := rfl

namespace Wire

variable (H : List UInt8 → ByteArray32)

/-- `read_tx` undoes `encode_tx` on what the wire carries. -/
theorem inverts_readTx :
    Inverts (readTx H) (Transaction.Carried H) fun tx => (encodeTx tx).flatten := by
  intro tx taken
  rw [readTx, inverts_readU32.reads_bind_iff]
  simp only [(inverts_readRange inverts_readTxin).reads_bind_iff]
  constructor
  · rintro ⟨version, _, -, ⟨inputs, back, ⟨within, bodies⟩, tail, rfl⟩, rfl⟩
    by_cases none : inputs.toList = []
    · obtain rfl : inputs = .empty := StdVector.ext none
      rw [if_pos (List.isEmpty_iff.mpr none), inverts_readU8.reads_bind_iff] at tail
      obtain ⟨flags, body, -, tail, rfl⟩ := tail
      by_cases extended : flags = 1
      · rw [if_pos extended, reads_readExtended_iff] at tail
        obtain ⟨built, some, within, rfl⟩ := tail
        have version_eq : tx.version = version := congrArg Transaction.version built
        subst version_eq extended
        refine ⟨⟨built, ?_, within⟩, ?_⟩
        · intro empty
          rw [empty] at some
          cases some
        · rw [flatten_encodeTx_extended ((Transaction.hasWitness_of_built built).trans some)]
          rfl
      · rw [if_neg extended] at tail
        exact absurd tail (not_reads_failure _ _)
    · rw [if_neg (by rwa [List.isEmpty_iff]), reads_readLegacy_iff] at tail
      obtain ⟨built, outputs_within, scripts, rfl⟩ := tail
      have version_eq : tx.version = version := congrArg Transaction.version built
      have inputs_eq : tx.inputs = inputs := congrArg Transaction.inputs built
      subst version_eq inputs_eq
      have unwitnessed : tx.hasWitness = false := by
        rw [Transaction.hasWitness_of_built built, TxInput.any_hasWitness_eq_false_iff]
        exact fun input member => (bodies input member).2
      refine ⟨⟨built, none, ?_⟩, ?_⟩
      · exact {
          inputs := within
          bodies := fun input member => (bodies input member).1
          witnesses := fun input member => TxInput.witnessWithin_of_eq_empty (bodies input member).2
          outputs := outputs_within
          scripts := scripts }
      · exact (flatten_encodeTx_legacy unwitnessed).symm
  · rintro ⟨⟨built, nonempty, within⟩, rfl⟩
    cases layout : tx.hasWitness with
    | false =>
        have unwitnessed := (TxInput.any_hasWitness_eq_false_iff _).mp
          ((Transaction.hasWitness_of_built built).symm.trans layout)
        refine ⟨tx.version, _, trivial, ⟨tx.inputs, _, ⟨within.inputs, fun input member =>
          ⟨within.bodies input member, unwitnessed input member⟩⟩, ?_, rfl⟩,
          flatten_encodeTx_legacy layout⟩
        rw [if_neg (by rwa [List.isEmpty_iff]), reads_readLegacy_iff]
        exact ⟨built, within.outputs, within.scripts, rfl⟩
    | true =>
        refine ⟨tx.version, _, trivial, ⟨.empty, _, ⟨Nat.zero_le _, by simp⟩, ?_, rfl⟩,
          flatten_encodeTx_extended layout⟩
        rw [if_pos StdVector.isEmpty_empty, inverts_readU8.reads_bind_iff]
        refine ⟨1, _, trivial, ?_, rfl⟩
        rw [if_pos rfl, reads_readExtended_iff]
        exact ⟨built, (Transaction.hasWitness_of_built built).symm.trans layout, within, rfl⟩

end Wire

/-- A header time as a count of seconds that the four-byte field can carry. -/
def BlockHeader.TimeFits (header : BlockHeader) : Prop :=
  0 ≤ header.time.toInt ∧ header.time.toInt < 2 ^ 32

instance (header : BlockHeader) : Decidable header.TimeFits := inferInstanceAs (Decidable (_ ∧ _))

theorem toInt_seconds (time : UInt32) : time.toUInt64.toInt64.toInt = time.toNat := by
  have bound := time.toNat_lt
  change time.toUInt64.toBitVec.toInt = _
  rw [BitVec.toInt_eq_toNat_of_lt]
  · rfl
  · change 2 * time.toNat < _
    omega

/-- A time of 32 bits survives the way through `std::uint32_t`. -/
theorem seconds_of_fits {time : Int64} (nonnegative : 0 ≤ time.toInt)
    (bound : time.toInt < 2 ^ 32) :
    time.toUInt64.toUInt32.toUInt64.toInt64 = time := by
  have sign := BitVec.toInt_eq_toNat_cond time.toBitVec
  change time.toInt = ite (2 * time.toUInt64.toNat < 2 ^ 64) (time.toUInt64.toNat : Int) _ at sign
  have range := time.toUInt64.toNat_lt
  apply Int64.toInt_inj.mp
  rw [toInt_seconds, UInt64.toNat_toUInt32]
  split at sign <;> omega

/-- The blocks that the format carries. -/
structure Block.Carried (H : List UInt8 → ByteArray32) (b : Block) : Prop where
  time : b.header.TimeFits
  transactions : b.transactions.Within wireLimit
  all : ∀ tx ∈ b.transactions.toList, tx.Carried H

namespace Wire

instance delimited_readBlockHeader : Delimited readBlockHeader := by
  unfold readBlockHeader
  infer_instance

instance delimited_readBlock (H : List UInt8 → ByteArray32) : Delimited (readBlock H) := by
  unfold readBlock
  infer_instance

/-- `read_block_header` undoes `encode_block_header` where the time has 32 bits. -/
theorem inverts_readBlockHeader :
    Inverts readBlockHeader BlockHeader.TimeFits fun header =>
      (encodeBlockHeader header).flatten := by
  intro header taken
  simp only [readBlockHeader, inverts_readU32.reads_bind_iff, (inverts_take 32).reads_bind_iff,
    reads_pure_iff]
  constructor
  · rintro ⟨version, _, -,
      ⟨prevBlock, _, -, ⟨merkleRoot, _, -, ⟨time, _, -, ⟨bits, _, -, ⟨nonce, _, -,
      ⟨rfl, rfl⟩, rfl⟩, rfl⟩, rfl⟩, rfl⟩, rfl⟩, rfl⟩
    refine ⟨?_, by simp [encodeBlockHeader, encodeHash256, BasicHashId.asBytes]⟩
    rw [BlockHeader.TimeFits, toInt_seconds]
    exact ⟨Int.natCast_nonneg _, by exact_mod_cast time.toNat_lt⟩
  · rintro ⟨⟨nonnegative, bound⟩, rfl⟩
    refine ⟨header.version, _, trivial, ⟨header.prevBlockHash.value, _, trivial,
      ⟨header.merkleRoot.value, _, trivial, ⟨header.time.toUInt64.toUInt32, _, trivial,
        ⟨header.bits, _, trivial, ⟨header.nonce, [], trivial, ⟨?_, rfl⟩, rfl⟩, rfl⟩, rfl⟩, rfl⟩,
          rfl⟩,
      by simp [encodeBlockHeader, encodeHash256, BasicHashId.asBytes]⟩
    rw [seconds_of_fits nonnegative bound]

/-- `read_block` undoes `encode_block` on what the wire carries. -/
theorem inverts_readBlock (H : List UInt8 → ByteArray32) :
    Inverts (readBlock H) (Block.Carried H) fun b => (encodeBlock b).flatten := by
  intro b taken
  simp only [readBlock, inverts_readBlockHeader.reads_bind_iff,
    (inverts_readRange (inverts_readTx H)).reads_bind_iff, reads_pure_iff]
  constructor
  · rintro ⟨header, _, time, ⟨transactions, _, ⟨within, all⟩, ⟨rfl, rfl⟩, rfl⟩, rfl⟩
    exact ⟨⟨time, within, all⟩, by simp [encodeBlock]⟩
  · rintro ⟨⟨time, within, all⟩, rfl⟩
    exact ⟨b.header, _, time, ⟨b.transactions, [], ⟨within, all⟩, ⟨rfl, rfl⟩, rfl⟩,
      by simp [encodeBlock]⟩

end Wire

end StdBitcoin
