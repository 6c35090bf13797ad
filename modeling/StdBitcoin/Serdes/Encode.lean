import StdBitcoin.Codec.LittleEndian
import StdBitcoin.Vocabulary

/-!
# Encoders and cached hashes

An encoder never reads from its sink, so it is the list of its `write` calls. The
hash writer, the counting sink and the buffered sink all run on that one list.
-/

namespace StdBitcoin

open Codec

/-- The spans an encoder passes to `w.write`, call by call. -/
abbrev Writes := List (List UInt8)

/-- `encode_u8`. -/
def encodeU8 (v : UInt8) : Writes := [[v]]

/-- `encode_u16`, little-endian. -/
def encodeU16 (v : UInt16) : Writes := [LittleEndian.toBytes 2 v.toNat]

/-- `encode_u32`, little-endian. -/
def encodeU32 (v : UInt32) : Writes := [LittleEndian.toBytes 4 v.toNat]

/-- `encode_u64`, little-endian. -/
def encodeU64 (v : UInt64) : Writes := [LittleEndian.toBytes 8 v.toNat]

/-- `encode_hash256`: the bytes in the order in which they are stored. -/
def encodeHash256 {policy : HashPolicy} (v : BasicHashId policy) : Writes := [v.asBytes]

/-- `encode_size`: one byte, or a tag and the narrowest of three wider fields. -/
def encodeSize (v : UInt64) : Writes :=
  if v < 253 then
    encodeU8 v.toUInt8
  else if v ≤ 0xFFFF then
    encodeU8 253 ++ encodeU16 v.toUInt16
  else if v ≤ 0xFFFFFFFF then
    encodeU8 254 ++ encodeU32 v.toUInt32
  else
    encodeU8 255 ++ encodeU64 v

/-- `encode_bytes`: the size and then the bytes, written at once. -/
def encodeBytes (bytes : StdVector UInt8) : Writes := encodeSize bytes.size ++ [bytes.toList]

/-- `encode_range`: the size and then the elements, one after the other. -/
def encodeRange {α : Type} (range : StdVector α) (encodeElem : α → Writes) : Writes :=
  encodeSize range.size ++ range.toList.flatMap encodeElem

/-- The bytes of a sequence are those of its elements in order. -/
theorem flatten_flatMap {α : Type} (elems : List α) (encodeElem : α → Writes) :
    (elems.flatMap encodeElem).flatten = elems.flatMap fun elem => (encodeElem elem).flatten := by
  rw [List.flatMap_def, List.flatten_flatten, List.map_map]
  rfl

/-- `encode_outpoint`: the index is cut to four bytes. -/
def encodeOutpoint (p : Outpoint) : Writes := encodeHash256 p.txid ++ encodeU32 p.index.toUInt32

/-- `encode_txin`, without the witness, which stands behind the outputs. -/
def encodeTxin (input : TxInput) : Writes :=
  encodeOutpoint input.prevout ++ encodeBytes input.script.bytes ++ encodeU32 input.sequence

/-- `encode_txout`. -/
def encodeTxout (out : TxOutput) : Writes :=
  encodeU64 out.value.toUInt64 ++ encodeBytes out.script.bytes

/-- `encode_tx_impl`: marker, flag and witnesses are there only in the extended layout. -/
def encodeTxData (version : UInt32) (inputs : StdVector TxInput) (outputs : StdVector TxOutput)
    (locktime : UInt32) (segwit : Bool) : Writes :=
  encodeU32 version ++
    (if segwit then encodeU8 0 ++ encodeU8 1 else []) ++
    encodeRange inputs encodeTxin ++
    encodeRange outputs encodeTxout ++
    (if segwit then inputs.toList.flatMap fun input => encodeRange input.witness encodeBytes
      else []) ++
    encodeU32 locktime

/-- `encode_tx`: the layout is extended if an input has a witness. -/
def encodeTx (tx : Transaction) : Writes :=
  encodeTxData tx.version tx.inputs tx.outputs tx.locktime tx.hasWitness

/-- `encode_block_header`: the time is cut to four bytes. -/
def encodeBlockHeader (h : BlockHeader) : Writes :=
  encodeU32 h.version ++ encodeHash256 h.prevBlockHash ++ encodeHash256 h.merkleRoot ++
    encodeU32 h.time.toUInt64.toUInt32 ++ encodeU32 h.bits ++ encodeU32 h.nonce

/-- A header has 80 bytes. -/
theorem length_encodeBlockHeader (header : BlockHeader) :
    (encodeBlockHeader header).flatten.length = 80 := by
  simp [encodeBlockHeader, encodeU32, encodeHash256]

/-- `encode_block`. -/
def encodeBlock (b : Block) : Writes :=
  encodeBlockHeader b.header ++ encodeRange b.transactions encodeTx

section Hashing

-- What `HashWriter::GetHash` returns for the bytes written to it.
variable (H : List UInt8 → ByteArray32)

/-- `calc_hash`: the digest of either layout. -/
def calcHash (version : UInt32) (inputs : StdVector TxInput) (outputs : StdVector TxOutput)
    (locktime : UInt32) (segwit : Bool) : ByteArray32 :=
  H (encodeTxData version inputs outputs locktime segwit).flatten

namespace Transaction

/-- The constructor that fills the cached members. -/
def Implementation.make (version : UInt32) (inputs : StdVector TxInput)
    (outputs : StdVector TxOutput) (locktime : UInt32) : Implementation :=
  let isSegwit := inputs.toList.any TxInput.hasWitness
  { version, inputs, outputs, locktime, isSegwit
    hash := calcHash H version inputs outputs locktime false
    witnessHash := calcHash H version inputs outputs locktime isSegwit }

/-- The four-argument constructor. -/
def make (version : UInt32) (inputs : StdVector TxInput) (outputs : StdVector TxOutput)
    (locktime : UInt32) : Transaction :=
  ⟨.make H version inputs outputs locktime⟩

/-- The constructor applied to what the observers show. -/
def ofObservable (seen : Observable) : Transaction :=
  make H seen.version seen.inputs seen.outputs seen.locktime

/-- A constructed transaction shows what it was constructed from. -/
@[simp] theorem observe_ofObservable (seen : Observable) :
    (ofObservable H seen).observe = seen := rfl

end Transaction

/-- `block_hash{hdr}`. -/
def BlockHash.ofHeader (hdr : BlockHeader) : BlockHash := ⟨H (encodeBlockHeader hdr).flatten⟩

end Hashing

end StdBitcoin
