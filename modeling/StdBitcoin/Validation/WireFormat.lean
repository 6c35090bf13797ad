import StdBitcoin.Identity
import StdBitcoin.Serdes.SerializedSize
import StdBitcoin.Validation.Legacy

/-!
# The wire format of converted values

Bitcoin Core serialises its own types. If it follows the wire format field by field, the
bytes of a converted transaction, header or block are those that `serialize` writes
for the original, so that what is validated is what is hashed and sent.
-/

namespace StdBitcoin

open Codec

namespace Legacy

/-- The variable-length size. -/
def compactSize (size : Nat) : List UInt8 :=
  if size < 253 then [UInt8.ofNat size]
  else if size ≤ 0xFFFF then 253 :: LittleEndian.toBytes 2 size
  else if size ≤ 0xFFFFFFFF then 254 :: LittleEndian.toBytes 4 size
  else 255 :: LittleEndian.toBytes 8 size

/-- A vector: its size and its elements. -/
def vectorFormat {α : Type} (elems : StdVector α) (elemFormat : α → List UInt8) : List UInt8 :=
  compactSize elems.toList.length ++ elems.toList.flatMap elemFormat

/-- A vector of bytes, as a script or a witness item. -/
def bytesFormat (bytes : StdVector UInt8) : List UInt8 := vectorFormat bytes fun byte => [byte]

/-- The hash and the index of an outpoint, in 36 bytes. -/
def outPointFormat (p : COutPoint) : List UInt8 :=
  p.hash.toList ++ LittleEndian.toBytes 4 p.n.toNat

/-- An input without its witness. -/
def txInFormat (input : CTxIn) : List UInt8 :=
  outPointFormat input.prevout ++ bytesFormat input.scriptSig ++
    LittleEndian.toBytes 4 input.nSequence.toNat

/-- The amount and the script of an output. -/
def txOutFormat (output : CTxOut) : List UInt8 :=
  LittleEndian.toBytes 8 output.nValue.toUInt64.toNat ++ bytesFormat output.scriptPubKey

/-- The stack of an input, as it stands behind the outputs. -/
def witnessFormat (input : CTxIn) : List UInt8 :=
  vectorFormat input.scriptWitness.stack bytesFormat

/-- What Bitcoin Core writes for its types. -/
structure Serializers where
  tx : CTransaction → List UInt8
  header : CBlockHeader → List UInt8
  block : CBlock → List UInt8

/-- Core follows the wire format, with the extended layout if some input has a witness. -/
structure Serializers.FollowFormat (core : Serializers) : Prop where
  basic : ∀ tx, (∀ input ∈ tx.vin.toList, input.scriptWitness.stack.toList = []) →
    core.tx tx = LittleEndian.toBytes 4 tx.version.toNat ++ vectorFormat tx.vin txInFormat ++
      vectorFormat tx.vout txOutFormat ++ LittleEndian.toBytes 4 tx.nLockTime.toNat
  extended : ∀ tx, (∃ input ∈ tx.vin.toList, input.scriptWitness.stack.toList ≠ []) →
    core.tx tx = LittleEndian.toBytes 4 tx.version.toNat ++ [0x00, 0x01] ++
      vectorFormat tx.vin txInFormat ++ vectorFormat tx.vout txOutFormat ++
        tx.vin.toList.flatMap witnessFormat ++ LittleEndian.toBytes 4 tx.nLockTime.toNat
  header : ∀ h, core.header h = LittleEndian.toBytes 4 h.nVersion.toUInt32.toNat ++
    h.hashPrevBlock.toList ++ h.hashMerkleRoot.toList ++ LittleEndian.toBytes 4 h.nTime.toNat ++
      LittleEndian.toBytes 4 h.nBits.toNat ++ LittleEndian.toBytes 4 h.nNonce.toNat
  block : ∀ b, core.block b = core.header b.header ++ vectorFormat b.vtx core.tx

section Fields

/-- `encode_size` writes the compact size. -/
theorem flatten_encodeSize (size : UInt64) :
    (encodeSize size).flatten = compactSize size.toNat := by
  have small : size < 253 ↔ size.toNat < 253 := Iff.rfl
  have two : size ≤ 0xFFFF ↔ size.toNat ≤ 0xFFFF := Iff.rfl
  have four : size ≤ 0xFFFFFFFF ↔ size.toNat ≤ 0xFFFFFFFF := Iff.rfl
  unfold encodeSize compactSize
  simp only [small, two, four]
  split_ifs with fits_one fits_two fits_four
  · rfl
  · have low : size.toUInt16.toNat = size.toNat := by
      rw [UInt64.toNat_toUInt16]
      exact Nat.mod_eq_of_lt (Nat.lt_succ_of_le fits_two)
    change 253 :: (LittleEndian.toBytes 2 size.toUInt16.toNat ++ []) = _
    rw [low, List.append_nil]
  · have low : size.toUInt32.toNat = size.toNat := by
      rw [UInt64.toNat_toUInt32]
      exact Nat.mod_eq_of_lt (Nat.lt_succ_of_le fits_four)
    change 254 :: (LittleEndian.toBytes 4 size.toUInt32.toNat ++ []) = _
    rw [low, List.append_nil]
  · change 255 :: (LittleEndian.toBytes 8 size.toNat ++ []) = _
    rw [List.append_nil]

/-- A range whose elements are written alike is written as the vector of the converted
elements. -/
theorem flatten_encodeRange {α β : Type} {range : StdVector α} {encodeElem : α → Writes}
    {convert : α → β} {elemFormat : β → List UInt8}
    (each : ∀ elem ∈ range.toList, (encodeElem elem).flatten = elemFormat (convert elem)) :
    (encodeRange range encodeElem).flatten = vectorFormat (range.map convert) elemFormat := by
  rw [encodeRange, List.flatten_append, flatten_encodeSize, StdVector.toNat_size, flatten_flatMap,
    vectorFormat, StdVector.toList_map, List.length_map, List.flatMap_map]
  exact congrArg _ (List.flatMap_congr each)

theorem flatten_encodeBytes (bytes : StdVector UInt8) :
    (encodeBytes bytes).flatten = bytesFormat bytes := by
  rw [encodeBytes, List.flatten_append, flatten_encodeSize, StdVector.toNat_size, bytesFormat,
    vectorFormat, List.flatten_singleton]
  simp

theorem flatten_encodeTxin (input : TxInput) :
    (encodeTxin input).flatten = txInFormat (convertTxin input) := by
  simp only [encodeTxin, encodeOutpoint, encodeHash256, encodeU32, List.flatten_append,
    List.flatten_singleton, flatten_encodeBytes]
  rfl

theorem flatten_encodeTxout (output : TxOutput) :
    (encodeTxout output).flatten = txOutFormat (convertTxout output) := by
  simp only [encodeTxout, encodeU64, List.flatten_append, List.flatten_singleton,
    flatten_encodeBytes]
  rfl

theorem flatten_encodeWitness (input : TxInput) :
    (encodeRange input.witness encodeBytes).flatten = witnessFormat (convertTxin input) :=
  flatten_encodeRange fun item _ => flatten_encodeBytes item

/-- Core finds a witness where the original has one. -/
theorem exists_stack_iff (tx : Transaction) :
    (∃ input ∈ (convertTx tx).vin.toList, input.scriptWitness.stack.toList ≠ []) ↔
      tx.inputs.toList.any TxInput.hasWitness := by
  have stack (input : TxInput) :
      (convertTxin input).scriptWitness.stack.toList = input.witness.toList := List.map_id' _
  rw [Transaction.hasWitness_iff]
  constructor
  · intro witnessed
    obtain ⟨_, member, nonempty⟩ := witnessed
    obtain ⟨input, present, rfl⟩ := List.mem_map.mp member
    rw [stack] at nonempty
    exact ⟨input, present, nonempty⟩
  · intro witnessed
    obtain ⟨input, present, nonempty⟩ := witnessed
    refine ⟨convertTxin input, List.mem_map_of_mem present, ?_⟩
    rw [stack]
    exact nonempty

end Fields

section Conversions

variable {core : Serializers} (follow : core.FollowFormat)

include follow

/-- A header is written as the converted one is. -/
theorem serialize_convertHeader (header : BlockHeader) :
    core.header (convertHeader header) = (encodeBlockHeader header).flatten := by
  rw [follow.header]
  simp only [encodeBlockHeader, encodeHash256, encodeU32, List.flatten_append,
    List.flatten_singleton, convertHeader, convertUInt256, UInt32.toUInt32_toInt32]
  rfl

/-- The flag that the constructor keeps is the one that Core computes. -/
theorem serialize_convertTx {tx : Transaction}
    (cached : tx.hasWitness = tx.inputs.toList.any TxInput.hasWitness) :
    core.tx (convertTx tx) = (encodeTx tx).flatten := by
  have inputs : (encodeRange tx.inputs encodeTxin).flatten =
      vectorFormat (tx.inputs.map convertTxin) txInFormat :=
    flatten_encodeRange fun input _ => flatten_encodeTxin input
  have outputs : (encodeRange tx.outputs encodeTxout).flatten =
      vectorFormat (tx.outputs.map convertTxout) txOutFormat :=
    flatten_encodeRange fun output _ => flatten_encodeTxout output
  have witnesses : (tx.inputs.toList.flatMap fun input =>
      encodeRange input.witness encodeBytes).flatten =
        (tx.inputs.map convertTxin).toList.flatMap witnessFormat := by
    rw [flatten_flatMap, StdVector.toList_map, List.flatMap_map]
    exact List.flatMap_congr fun input _ => flatten_encodeWitness input
  cases witnessed : tx.hasWitness with
  | false =>
      have none : ∀ input ∈ (convertTx tx).vin.toList, input.scriptWitness.stack.toList = [] := by
        intro input member
        by_contra nonempty
        have witness := (exists_stack_iff tx).mp ⟨input, member, nonempty⟩
        rw [← cached, witnessed] at witness
        cases witness
      rw [follow.basic _ none, encodeTx, encodeTxData, witnessed]
      simp only [Bool.false_eq_true, if_false, List.flatten_append,
        List.append_nil, inputs, outputs, encodeU32, List.flatten_singleton]
      rfl
  | true =>
      have some : ∃ input ∈ (convertTx tx).vin.toList,
          input.scriptWitness.stack.toList ≠ [] :=
        (exists_stack_iff tx).mpr (cached.symm.trans witnessed)
      rw [follow.extended _ some, encodeTx, encodeTxData, witnessed]
      simp only [if_true, List.flatten_append, inputs, outputs, witnesses, encodeU32, encodeU8,
        List.flatten_singleton]
      rfl

/-- A block is written as the converted one is, if its transactions know whether they have
witnesses. -/
theorem serialize_convertBlock {b : Block}
    (cached : ∀ tx ∈ b.transactions.toList,
      tx.hasWitness = tx.inputs.toList.any TxInput.hasWitness) :
    core.block (convertBlock b) = (encodeBlock b).flatten := by
  have transactions : (encodeRange b.transactions encodeTx).flatten =
      vectorFormat (b.transactions.map convertTx) core.tx :=
    flatten_encodeRange fun tx member => (serialize_convertTx follow (cached tx member)).symm
  rw [follow.block, encodeBlock, List.flatten_append, transactions,
    ← serialize_convertHeader follow]
  rfl

end Conversions

/-- The transactions that the public interface hands out. -/
def HandedOut (H : List UInt8 → ByteArray32) (tx : Transaction) : Prop :=
  ∃ origin : Transaction.Origin, origin.value H = some tx

/-- A transaction that the library hands out knows whether it has a witness. -/
theorem HandedOut.cached {H : List UInt8 → ByteArray32} {tx : Transaction}
    (handedOut : HandedOut H tx) :
    tx.hasWitness = tx.inputs.toList.any TxInput.hasWitness := by
  obtain ⟨origin, obtained⟩ := handedOut
  cases root : origin.isDefault with
  | false => exact Transaction.hasWitness_of_built (Transaction.Origin.built root obtained)
  | true =>
      obtain rfl := Transaction.Origin.eq_default root obtained
      rfl

/-- A sink that does not throw receives the writes. -/
theorem receives_writes {σ : Type} {bufferSize : Nat} (positive : 0 < bufferSize)
    (sink : ByteSink σ Empty) (state : σ) (writes : Writes) :
    ∃ chunks, Receives (serializeWrites bufferSize (recording sink) writes) state chunks ∧
      chunks.flatten = writes.flatten :=
  ⟨chunks bufferSize writes.flatten, serializeWrites_recording positive sink writes state,
    flatten_chunks positive _⟩

/-- What Core serialises of the converted value is what `serialize` writes, for every
transaction, header and block and every sink that does not throw. -/
theorem serialize_converted {core : Serializers} (follow : core.FollowFormat)
    (H : List UInt8 → ByteArray32) {σ : Type} (sink : ByteSink σ Empty) (state : σ) :
    (∀ tx, HandedOut H tx →
      ∃ chunks, Receives (serializeTx tx (recording sink)) state chunks ∧
        core.tx (convertTx tx) = chunks.flatten) ∧
    (∀ header,
      ∃ chunks, Receives (serializeBlockHeader header (recording sink)) state chunks ∧
        core.header (convertHeader header) = chunks.flatten) ∧
    ∀ b, (∀ tx ∈ b.transactions.toList, HandedOut H tx) →
      ∃ chunks, Receives (serializeBlock b (recording sink)) state chunks ∧
        core.block (convertBlock b) = chunks.flatten := by
  refine ⟨?_, ?_, ?_⟩
  · intro tx handedOut
    obtain ⟨chunks, receives, bytes⟩ :=
      receives_writes (by decide : 0 < 512) sink state (encodeTx tx)
    exact ⟨chunks, receives, (serialize_convertTx follow handedOut.cached).trans bytes.symm⟩
  · intro header
    obtain ⟨chunks, receives, bytes⟩ :=
      receives_writes (by decide : 0 < 80) sink state (encodeBlockHeader header)
    exact ⟨chunks, receives, (serialize_convertHeader follow header).trans bytes.symm⟩
  · intro b handedOut
    obtain ⟨chunks, receives, bytes⟩ :=
      receives_writes (by decide : 0 < 512) sink state (encodeBlock b)
    have cached := serialize_convertBlock follow fun tx member => (handedOut tx member).cached
    exact ⟨chunks, receives, cached.trans bytes.symm⟩

namespace Serializers

/-- The serialiser of a transaction, from its fields. -/
def wireTx (tx : CTransaction) : List UInt8 :=
  let witnessed := tx.vin.toList.any fun input => !input.scriptWitness.stack.toList.isEmpty
  LittleEndian.toBytes 4 tx.version.toNat ++ (if witnessed then [0x00, 0x01] else []) ++
    vectorFormat tx.vin txInFormat ++ vectorFormat tx.vout txOutFormat ++
      (if witnessed then tx.vin.toList.flatMap witnessFormat else []) ++
        LittleEndian.toBytes 4 tx.nLockTime.toNat

/-- The serialiser of a header, from its fields. -/
def wireHeader (h : CBlockHeader) : List UInt8 :=
  LittleEndian.toBytes 4 h.nVersion.toUInt32.toNat ++
    h.hashPrevBlock.toList ++ h.hashMerkleRoot.toList ++ LittleEndian.toBytes 4 h.nTime.toNat ++
      LittleEndian.toBytes 4 h.nBits.toNat ++ LittleEndian.toBytes 4 h.nNonce.toNat

/-- Serialisers that compute the wire format. -/
def wire : Serializers where
  tx := wireTx
  header := wireHeader
  block := fun b => wireHeader b.header ++ vectorFormat b.vtx wireTx

/-- The serialisers from the fields follow the format. -/
theorem followFormat_wire : wire.FollowFormat where
  basic := by
    intro tx none
    have witnessed : (tx.vin.toList.any fun input =>
        !input.scriptWitness.stack.toList.isEmpty) = false := by
      simpa using none
    change wireTx tx = _
    simp only [wireTx, witnessed, Bool.false_eq_true, if_false, List.append_nil]
  extended := by
    intro tx some
    have witnessed : (tx.vin.toList.any fun input =>
        !input.scriptWitness.stack.toList.isEmpty) = true := by
      simpa using some
    change wireTx tx = _
    simp only [wireTx, witnessed, if_true]
  header := fun _ => rfl
  block := fun _ => rfl

end Serializers

/-- The library hands out the sample transactions. -/
theorem handedOut_sample (witness : StdVector (StdVector UInt8)) :
    HandedOut Sample.zeroHash (Sample.transaction witness) :=
  ⟨.make 2 (Sample.transaction witness).inputs (Sample.transaction witness).outputs 0, rfl⟩

/-- A block with a transaction of either layout. -/
theorem serialize_converted_sample :
    (∀ tx ∈ Sample.block.transactions.toList, HandedOut Sample.zeroHash tx) ∧
      ∃ chunks, Receives (serializeBlock Sample.block (recording vectorSink)) [] chunks ∧
        Serializers.wire.block (convertBlock Sample.block) = chunks.flatten := by
  have handedOut : ∀ tx ∈ Sample.block.transactions.toList, HandedOut Sample.zeroHash tx := by
    intro tx member
    have listed : tx = Sample.transaction .empty ∨ tx = Sample.transaction Sample.stack := by
      simpa [Sample.block] using member
    rcases listed with rfl | rfl
    · exact handedOut_sample _
    · exact handedOut_sample _
  exact ⟨handedOut, (serialize_converted Serializers.followFormat_wire Sample.zeroHash vectorSink
    []).2.2 Sample.block handedOut⟩

end Legacy

end StdBitcoin
