import StdBitcoin.Codec.Sticky
import StdBitcoin.Serdes.Encode

/-!
# Decoders

A decoder reads from a span and carries a failure flag. A short read sets the flag
and leaves the rest of its target zero-filled; decoding then goes on, and only
the parse functions look at the flag again.
-/

namespace StdBitcoin

open Codec

/-- `span_source`: what is left of the span. -/
structure SpanSource where
  data : List UInt8
deriving DecidableEq

namespace SpanSource

/-- `read_some`: as many bytes as there are, up to the size of the buffer. -/
def readSome (source : SpanSource) (out : List UInt8) : (Nat × List UInt8) × SpanSource :=
  let n := min out.length source.data.length
  ((n, source.data.take n ++ out.drop n), ⟨source.data.drop n⟩)

/-- `empty()`. -/
def empty (source : SpanSource) : Bool := source.data.isEmpty

end SpanSource

/-- `decoder`: the source, and whether a read has failed. -/
structure Decoder where
  source : SpanSource
  failed : Bool
deriving DecidableEq

/-- A decoder function takes the decoder by reference. -/
abbrev Decode (α : Type) := StateM Decoder α

namespace Decoder

/-- The decoder at the front of a span, with no failure yet. -/
def ofSpan (raw : List UInt8) : Decoder := ⟨⟨raw⟩, false⟩

/-- `good()`. -/
def good : Decode Bool := fun r => (!r.failed, r)

/-- `fail()`: the failure stays. -/
def fail : Decode Unit := fun r => ((), { r with failed := true })

/-- `while (!out.empty() && good())`. Each round fills at least one byte or
fails, so as many rounds as `out` has bytes are enough. -/
def readLoop : Nat → List UInt8 → Decoder → List UInt8 × Decoder
  | 0, out, r => (out, r)
  | rounds + 1, out, r =>
      if out.isEmpty || r.failed then
        (out, r)
      else
        let ((n, filled), source) := r.source.readSome out
        if n = 0 then
          (filled, ⟨source, true⟩)
        else
          let (rest, final) := readLoop rounds (filled.drop n) { r with source }
          (filled.take n ++ rest, final)

/-- The buffer keeps its size, however many of its bytes are read. -/
theorem length_readLoop (rounds : Nat) (out : List UInt8) (r : Decoder) :
    (readLoop rounds out r).1.length = out.length := by
  induction rounds generalizing out r with
  | zero => rfl
  | succ rounds ih =>
      rw [readLoop]
      split
      · rfl
      · have filled (n : Nat) (small : n ≤ r.source.data.length) (fits : n ≤ out.length) :
            (r.source.data.take n ++ out.drop n).length = out.length := by
          rw [List.length_append, List.length_take_of_le small, List.length_drop]
          omega
        have length := filled (min out.length r.source.data.length) (Nat.min_le_right _ _)
          (Nat.min_le_left _ _)
        dsimp only [SpanSource.readSome]
        split
        · exact length
        · rw [List.length_append, ih, List.length_take, List.length_drop, length]
          omega

/-- `read(out)`: a short read is a failure. -/
def read {n : Nat} (out : List.Vector UInt8 n) : Decode (List.Vector UInt8 n) := fun r =>
  let result := readLoop n out.toList r
  (⟨result.1, (length_readLoop ..).trans out.toList_length⟩, result.2)

end Decoder

open Decoder (good fail read)

/-- `std::array<std::byte, n>{}` and `std::vector<std::byte>(n)`. -/
def zeros (n : Nat) : List.Vector UInt8 n := List.Vector.replicate n 0

/-- `decode_u8`. -/
def decodeU8 : Decode UInt8 := do
  let v ← read (zeros 1)
  return UInt8.ofNat (LittleEndian.ofBytes v.toList)

/-- `decode_u16`, little-endian. -/
def decodeU16 : Decode UInt16 := do
  let v ← read (zeros 2)
  return UInt16.ofNat (LittleEndian.ofBytes v.toList)

/-- `decode_u32`, little-endian. -/
def decodeU32 : Decode UInt32 := do
  let v ← read (zeros 4)
  return UInt32.ofNat (LittleEndian.ofBytes v.toList)

/-- `decode_u64`, little-endian. -/
def decodeU64 : Decode UInt64 := do
  let v ← read (zeros 8)
  return UInt64.ofNat (LittleEndian.ofBytes v.toList)

/-- `decode_uint256`. -/
def decodeUint256 : Decode ByteArray32 := read (zeros 32)

/-- `MAX_SIZE`. -/
def maxSize : UInt64 := 4000000

/-- `decode_size`: wider fields than necessary are refused. The limit is asked for behind the tag
255 only. -/
def decodeSize : Decode UInt64 := do
  let tag ← decodeU8
  if !(← good) then
    return 0
  if tag < 253 then
    return tag.toUInt64
  if tag = 253 then
    let x ← decodeU16
    if !(← good) || x < 253 then
      fail
      return 0
    return x.toUInt64
  if tag = 254 then
    let x ← decodeU32
    if !(← good) || x < 0x10000 then
      fail
      return 0
    return x.toUInt64
  let x ← decodeU64
  if !(← good) || x < 0x100000000 || x > maxSize then
    fail
    return 0
  return x

/-- `decode_bytes`. -/
def decodeBytes : Decode (StdVector UInt8) := do
  let size ← decodeSize
  let buf ← read (zeros size.toNat)
  return .ofVector buf

/-- The batched `reserve` calls have no effect on the result and are left out. -/
def decodeRange {α : Type} (decodeElem : Decode α) : Decode (StdVector α) := do
  let size ← decodeSize
  let out ← collect good decodeElem size.toNat
  return .ofBounded out

/-- `decode_outpoint`. -/
def decodeOutpoint : Decode Outpoint := do
  let hash ← decodeUint256
  let index ← decodeU32
  return ⟨⟨hash⟩, index.toUInt64⟩

/-- `decode_txin`: the witness follows later, if there is one. -/
def decodeTxin : Decode TxInput := do
  let prevout ← decodeOutpoint
  let script ← decodeBytes
  let sequence ← decodeU32
  return { prevout, script := ⟨script⟩, sequence, witness := .empty }

/-- `decode_txout`. -/
def decodeTxout : Decode TxOutput := do
  let amount ← decodeU64
  let script ← decodeBytes
  return { value := amount.toInt64, script := ⟨script⟩ }

/-- `decode_witness`: one stack for each input, at least one of them not empty. -/
def decodeWitness (input : StdVector TxInput) : Decode (StdVector TxInput) := do
  let elems ← forEach (fun elem => do
    let witness ← decodeRange decodeBytes
    return elem.withWitness witness) input.toList
  if !elems.1.any TxInput.hasWitness then
    fail
    return .empty
  return .ofSameLength input elems

section Hashing

variable (H : List UInt8 → ByteArray32)

/-- `decode_tx`: no inputs mean the extended layout, if the flag is 1. -/
def decodeTx : Decode Transaction := do
  let version ← decodeU32
  let mut inputs ← decodeRange decodeTxin
  let mut outputs := StdVector.empty
  if !inputs.toList.isEmpty then
    outputs ← decodeRange decodeTxout
  else
    let flags ← decodeU8
    if flags = 1 then
      inputs ← decodeRange decodeTxin
      outputs ← decodeRange decodeTxout
    else if flags ≠ 0 then
      fail
      return Transaction.default
    inputs ← decodeWitness inputs
  let locktime ← decodeU32
  return Transaction.make H version inputs outputs locktime

/-- `decode_block_header`. -/
def decodeBlockHeader : Decode BlockHeader := do
  let version ← decodeU32
  let prevBlock ← decodeUint256
  let merkleRoot ← decodeUint256
  let time ← decodeU32
  let bits ← decodeU32
  let nonce ← decodeU32
  return {
    version
    prevBlockHash := ⟨prevBlock⟩
    merkleRoot := ⟨merkleRoot⟩
    time := time.toUInt64.toInt64
    bits
    nonce }

/-- `decode_block`. -/
def decodeBlock : Decode Block := do
  let header ← decodeBlockHeader
  let transactions ← decodeRange (decodeTx H)
  return ⟨header, transactions⟩

/-- The check shared by the parse functions: nothing failed and nothing is left. -/
def parse {α : Type} (decode : Decode α) (raw : List UInt8) : Option α :=
  let (value, dec) := decode (Decoder.ofSpan raw)
  if dec.failed || !dec.source.empty then none else some value

/-- `parse_block`. -/
def parseBlock (raw : List UInt8) : Option Block := parse (decodeBlock H) raw

/-- `parse_block_header`. -/
def parseBlockHeader (raw : List UInt8) : Option BlockHeader := parse decodeBlockHeader raw

/-- `parse_transaction`. -/
def parseTransaction (raw : List UInt8) : Option Transaction := parse (decodeTx H) raw

end Hashing

end StdBitcoin
