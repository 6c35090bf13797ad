import StdBitcoin.Serdes.Cursor

/-!
# The wire format as readers

The format of each field as a reader that stops at the first short read, and the
proof that the decoders with their sticky failure flag run exactly these readers.
-/

namespace StdBitcoin

open Codec
open Decoder (good fail read ofSpan)

namespace Wire

/-- One byte. -/
def readU8 : Reader UInt8 UInt8 :=
  (fun bytes => UInt8.ofNat (LittleEndian.ofBytes bytes.toList)) <$> take 1

/-- Two bytes, little-endian. -/
def readU16 : Reader UInt8 UInt16 :=
  (fun bytes => UInt16.ofNat (LittleEndian.ofBytes bytes.toList)) <$> take 2

/-- Four bytes, little-endian. -/
def readU32 : Reader UInt8 UInt32 :=
  (fun bytes => UInt32.ofNat (LittleEndian.ofBytes bytes.toList)) <$> take 4

/-- Eight bytes, little-endian. -/
def readU64 : Reader UInt8 UInt64 :=
  (fun bytes => UInt64.ofNat (LittleEndian.ofBytes bytes.toList)) <$> take 8

/-- The shortest of the four forms, up to the width the decoder accepts. -/
def readSize : Reader UInt8 UInt64 := do
  let tag ← readU8
  if tag < 253 then
    return tag.toUInt64
  if tag = 253 then
    let x ← readU16
    if x < 253 then failure else return x.toUInt64
  else if tag = 254 then
    let x ← readU32
    if x < 0x10000 then failure else return x.toUInt64
  else
    let x ← readU64
    if x < 0x100000000 ∨ maxSize < x then failure else return x

/-- A size and that many bytes. -/
def readBytes : Reader UInt8 (StdVector UInt8) := do
  let size ← readSize
  let buf ← take size.toNat
  return .ofVector buf

/-- A size and that many elements. -/
def readRange {α : Type} (elem : Reader UInt8 α) : Reader UInt8 (StdVector α) := do
  let size ← readSize
  let out ← repeated elem size.toNat
  return .ofBounded (Cursor.atMost out)

/-- A transaction and the index of one of its outputs. -/
def readOutpoint : Reader UInt8 Outpoint := do
  let hash ← take 32
  let index ← readU32
  return ⟨⟨hash⟩, index.toUInt64⟩

/-- An input without its witness. -/
def readTxin : Reader UInt8 TxInput := do
  let prevout ← readOutpoint
  let script ← readBytes
  let sequence ← readU32
  return { prevout, script := ⟨script⟩, sequence, witness := .empty }

/-- An amount and a script. -/
def readTxout : Reader UInt8 TxOutput := do
  let amount ← readU64
  let script ← readBytes
  return { value := amount.toInt64, script := ⟨script⟩ }

/-- One witness stack for each input, not all of them empty. -/
def readWitness (input : StdVector TxInput) : Reader UInt8 (StdVector TxInput) := do
  let elems ← forEach (fun elem => elem.withWitness <$> readRange readBytes) input.toList
  if !elems.1.any TxInput.hasWitness then
    failure
  return .ofSameLength input elems

section Hashing

variable (H : List UInt8 → ByteArray32)

/-- The layout without witnesses, behind the version and a non-empty input vector. -/
def readLegacy (version : UInt32) (inputs : StdVector TxInput) : Reader UInt8 Transaction := do
  let outputs ← readRange readTxout
  let locktime ← readU32
  return Transaction.make H version inputs outputs locktime

/-- The layout with witnesses, behind the marker and the flag. -/
def readExtended (version : UInt32) : Reader UInt8 Transaction := do
  let inputs ← readRange readTxin
  let outputs ← readRange readTxout
  let inputs ← readWitness inputs
  let locktime ← readU32
  return Transaction.make H version inputs outputs locktime

/-- A transaction of either layout, told apart by the first size. -/
def readTx : Reader UInt8 Transaction := do
  let version ← readU32
  let inputs ← readRange readTxin
  if inputs.toList.isEmpty then
    let flags ← readU8
    if flags = 1 then readExtended H version else failure
  else
    readLegacy H version inputs

/-- A header of a block. -/
def readBlockHeader : Reader UInt8 BlockHeader := do
  let version ← readU32
  let prevBlock ← take 32
  let merkleRoot ← take 32
  let time ← readU32
  let bits ← readU32
  let nonce ← readU32
  return {
    version
    prevBlockHash := ⟨prevBlock⟩
    merkleRoot := ⟨merkleRoot⟩
    time := time.toUInt64.toInt64
    bits
    nonce }

/-- A header and the transactions. -/
def readBlock : Reader UInt8 Block := do
  let header ← readBlockHeader
  let transactions ← readRange (readTx H)
  return ⟨header, transactions⟩

end Hashing

end Wire

open Wire

instance settled_decodeU8 : spanCursor.Settled decodeU8 := by
  unfold decodeU8
  infer_instance

instance settled_decodeU16 : spanCursor.Settled decodeU16 := by
  unfold decodeU16
  infer_instance

instance settled_decodeU32 : spanCursor.Settled decodeU32 := by
  unfold decodeU32
  infer_instance

instance settled_decodeU64 : spanCursor.Settled decodeU64 := by
  unfold decodeU64
  infer_instance

-- Three guarded reads below nested cases are more than the default search covers.
set_option synthInstance.maxSize 512 in
instance settled_decodeSize : spanCursor.Settled decodeSize := by
  unfold decodeSize
  infer_instance

@[simp] theorem strict_decodeU8 : spanCursor.strict decodeU8 = readU8 := by
  simp [decodeU8, readU8]

@[simp] theorem strict_decodeU16 : spanCursor.strict decodeU16 = readU16 := by
  simp [decodeU16, readU16]

@[simp] theorem strict_decodeU32 : spanCursor.strict decodeU32 = readU32 := by
  simp [decodeU32, readU32]

@[simp] theorem strict_decodeU64 : spanCursor.strict decodeU64 = readU64 := by
  simp [decodeU64, readU64]

set_option synthInstance.maxSize 512 in

/-- The decoder of sizes, with its tests of `good()`, reads a size. -/
@[simp] theorem strict_decodeSize : spanCursor.strict decodeSize = readSize := by
  simp [decodeSize, readSize, Cursor.strict_bind, Cursor.strict_ite]

instance settled_decodeBytes : spanCursor.Settled decodeBytes := by
  unfold decodeBytes
  infer_instance

@[simp] theorem strict_decodeBytes : spanCursor.strict decodeBytes = readBytes := by
  simp [decodeBytes, readBytes, Cursor.strict_bind]

instance settled_decodeRange {α : Type} {decodeElem : Decode α}
    [spanCursor.Settled decodeElem] : spanCursor.Settled (decodeRange decodeElem) := by
  unfold decodeRange
  infer_instance

/-- The loop over the elements, with its test of `good()`, reads a range. -/
@[simp] theorem strict_decodeRange {α : Type} {decodeElem : Decode α}
    [spanCursor.Settled decodeElem] :
    spanCursor.strict (decodeRange decodeElem) = readRange (spanCursor.strict decodeElem) := by
  simp [decodeRange, readRange, Cursor.strict_bind, Cursor.strict_collect, Cursor.atMost]

instance settled_decodeUint256 : spanCursor.Settled decodeUint256 := by
  unfold decodeUint256
  infer_instance

@[simp] theorem strict_decodeUint256 : spanCursor.strict decodeUint256 = take 32 :=
  Decoder.strict_read _

instance settled_decodeTxin : spanCursor.Settled decodeTxin := by
  unfold decodeTxin decodeOutpoint
  infer_instance

@[simp] theorem strict_decodeTxin : spanCursor.strict decodeTxin = readTxin := by
  simp [decodeTxin, readTxin, decodeOutpoint, readOutpoint, Cursor.strict_bind]

instance settled_decodeTxout : spanCursor.Settled decodeTxout := by
  unfold decodeTxout
  infer_instance

@[simp] theorem strict_decodeTxout : spanCursor.strict decodeTxout = readTxout := by
  simp [decodeTxout, readTxout, Cursor.strict_bind]

instance settled_decodeWitness (input : StdVector TxInput) :
    spanCursor.Settled (decodeWitness input) := by
  unfold decodeWitness
  infer_instance

/-- The loop over the inputs reads a stack for each of them. -/
@[simp] theorem strict_decodeWitness (input : StdVector TxInput) :
    spanCursor.strict (decodeWitness input) = readWitness input := by
  simp [decodeWitness, readWitness, Cursor.strict_bind, Cursor.strict_forEach, Cursor.strict_ite]

section Hashing

variable (H : List UInt8 → ByteArray32)

set_option synthInstance.maxSize 512 in
instance settled_decodeTx : spanCursor.Settled (decodeTx H) := by
  unfold decodeTx
  dsimp only
  infer_instance

/-- Without inputs there is no witness to read. -/
theorem readWitness_empty : readWitness .empty = failure := by
  funext input
  rfl

set_option synthInstance.maxSize 512 in

/-- The decoder of transactions reads a transaction. -/
@[simp] theorem strict_decodeTx : spanCursor.strict (decodeTx H) = readTx H := by
  unfold decodeTx
  simp only [readTx, readExtended, readLegacy, Cursor.strict_bind, Cursor.strict_ite,
    strict_decodeU32, strict_decodeRange, strict_decodeTxin, strict_decodeTxout, strict_decodeU8,
    strict_decodeWitness, Decoder.strict_fail, Cursor.strict_pure]
  congr 1
  funext version
  congr 1
  funext inputs
  by_cases none : inputs.toList = []
  · obtain rfl : inputs = .empty := StdVector.ext none
    simp only [StdVector.toList_empty, List.isEmpty_nil, Bool.not_true, Bool.false_eq_true,
      if_false, if_true, readWitness_empty]
    congr 1
    funext flags
    -- The flag zero rejoins the witness step, which has no input to give a stack to.
    by_cases zero : flags = 0
    · subst zero
      rfl
    · simp only [ne_eq, zero, not_false_eq_true, if_true]
      rfl
  · simp [none]

@[simp] theorem strict_decodeBlockHeader :
    spanCursor.strict decodeBlockHeader = readBlockHeader := by
  simp [decodeBlockHeader, readBlockHeader, Cursor.strict_bind]

@[simp] theorem strict_decodeBlock : spanCursor.strict (decodeBlock H) = readBlock H := by
  simp [decodeBlock, readBlock, Cursor.strict_bind]

/-- The parse functions run the reader of the format on the whole input. -/
theorem parse_eq_some_iff {α : Type} (decode : Decode α) (raw : List UInt8) (value : α) :
    parse decode raw = some value ↔ (spanCursor.strict decode).run raw = some (value, []) := by
  rw [spanCursor.strict_run_eq_some_iff]
  change parse decode raw = some value ↔ @Eq (α × Decoder) (decode (ofSpan raw)) (value, ofSpan [])
  unfold parse
  rcases decode (ofSpan raw) with ⟨result, ⟨⟨data⟩, failed⟩⟩
  cases failed <;> cases data <;> simp [SpanSource.empty, ofSpan]

end Hashing

end StdBitcoin
