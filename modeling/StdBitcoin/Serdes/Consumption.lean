import StdBitcoin.Codec.Consumption
import StdBitcoin.Serdes.RoundTrip

/-!
# Declared counts and consumed bytes

Every decoder takes its bytes from the front of the span, and a success of any element
takes at least one. A declared count therefore never makes a range longer than the
bytes that are consumed for it.
-/

namespace StdBitcoin

open Codec
open Decoder (good fail read ofSpan)

/-- The bytes left in the span, and the failure flag. -/
def spanTape : Tape Decoder UInt8 where
  rest := fun r => r.source.data
  failed := Decoder.failed

namespace Decoder

instance asks_good : spanTape.Asks good where
  answer := fun _ => rfl

instance forward_fail : spanTape.Forward fail where
  frozen := by
    intro r failed
    exact congrArg (Decoder.mk r.source) failed.symm
  advances := fun _ => List.suffix_rfl

/-- A read leaves a suffix of the data. -/
theorem data_readLoop_suffix (rounds : Nat) (out : List UInt8) (r : Decoder) :
    (readLoop rounds out r).2.source.data <:+ r.source.data := by
  induction rounds generalizing out r with
  | zero => exact List.suffix_rfl
  | succ rounds ih =>
      rw [readLoop]
      split
      · exact List.suffix_rfl
      · dsimp only [SpanSource.readSome]
        split
        · exact List.drop_suffix _ _
        · exact (ih _ _).trans (List.drop_suffix _ _)

instance forward_read {n : Nat} (out : List.Vector UInt8 n) : spanTape.Forward (read out) where
  frozen := by
    intro r failed
    rcases r with ⟨source, flag⟩
    obtain rfl : flag = true := failed
    change (readLoop n out.toList ⟨source, true⟩).2 = _
    rw [readLoop_failed]
  advances := fun r => data_readLoop_suffix n out.toList r

/-- A buffer that is filled has taken bytes, unless it is empty. -/
instance productive_read {n : Nat} [NeZero n] (out : List.Vector UInt8 n) :
    spanTape.Productive (read out) where
  consumes := by
    intro r good
    have start := spanTape.good_of_good (read out) good
    rcases r with ⟨⟨data⟩, flag⟩
    obtain rfl : flag = false := start
    have length : out.toList.length = n := out.toList_length
    have enough : out.toList.length ≤ data.length := by
      by_contra short
      have failed := readLoop_short length.le (Nat.lt_of_not_le short)
      exact Bool.false_ne_true (good.symm.trans failed)
    have positive : 0 < n := NeZero.pos n
    change (readLoop n out.toList (ofSpan data)).2.source.data.length < data.length
    rw [readLoop_enough length.le enough]
    change (data.drop _).length < data.length
    rw [List.length_drop]
    omega

end Decoder

section Decoders

instance forward_decodeU8 : spanTape.Forward decodeU8 := by
  unfold decodeU8
  infer_instance

instance productive_decodeU8 : spanTape.Productive decodeU8 := by
  unfold decodeU8
  infer_instance

instance forward_decodeU16 : spanTape.Forward decodeU16 := by
  unfold decodeU16
  infer_instance

instance forward_decodeU32 : spanTape.Forward decodeU32 := by
  unfold decodeU32
  infer_instance

instance productive_decodeU32 : spanTape.Productive decodeU32 := by
  unfold decodeU32
  infer_instance

instance forward_decodeU64 : spanTape.Forward decodeU64 := by
  unfold decodeU64
  infer_instance

instance productive_decodeU64 : spanTape.Productive decodeU64 := by
  unfold decodeU64
  infer_instance

instance forward_decodeUint256 : spanTape.Forward decodeUint256 := Decoder.forward_read _

instance productive_decodeUint256 : spanTape.Productive decodeUint256 := Decoder.productive_read _

set_option synthInstance.maxSize 512 in
instance forward_decodeSize : spanTape.Forward decodeSize := by
  unfold decodeSize
  infer_instance

set_option synthInstance.maxSize 512 in
instance productive_decodeSize : spanTape.Productive decodeSize := by
  unfold decodeSize
  infer_instance

instance forward_decodeBytes : spanTape.Forward decodeBytes := by
  unfold decodeBytes
  infer_instance

instance productive_decodeBytes : spanTape.Productive decodeBytes := by
  unfold decodeBytes
  infer_instance

instance forward_decodeRange {α : Type} {decodeElem : Decode α} [spanTape.Forward decodeElem] :
    spanTape.Forward (decodeRange decodeElem) := by
  unfold decodeRange
  infer_instance

instance productive_decodeRange {α : Type} {decodeElem : Decode α}
    [spanTape.Forward decodeElem] : spanTape.Productive (decodeRange decodeElem) := by
  unfold decodeRange
  infer_instance

instance forward_decodeOutpoint : spanTape.Forward decodeOutpoint := by
  unfold decodeOutpoint
  infer_instance

instance productive_decodeOutpoint : spanTape.Productive decodeOutpoint := by
  unfold decodeOutpoint
  infer_instance

instance forward_decodeTxin : spanTape.Forward decodeTxin := by
  unfold decodeTxin
  infer_instance

instance productive_decodeTxin : spanTape.Productive decodeTxin := by
  unfold decodeTxin
  infer_instance

instance forward_decodeTxout : spanTape.Forward decodeTxout := by
  unfold decodeTxout
  infer_instance

instance productive_decodeTxout : spanTape.Productive decodeTxout := by
  unfold decodeTxout
  infer_instance

instance forward_decodeWitness (input : StdVector TxInput) :
    spanTape.Forward (decodeWitness input) := by
  unfold decodeWitness
  infer_instance

variable (H : List UInt8 → ByteArray32)

instance forward_decodeTx : spanTape.Forward (decodeTx H) := by
  unfold decodeTx
  dsimp only
  infer_instance

instance productive_decodeTx : spanTape.Productive (decodeTx H) := by
  unfold decodeTx
  dsimp only
  infer_instance

instance forward_decodeBlockHeader : spanTape.Forward decodeBlockHeader := by
  unfold decodeBlockHeader
  infer_instance

instance forward_decodeBlock : spanTape.Forward (decodeBlock H) := by
  unfold decodeBlock
  infer_instance

end Decoders

/-- A range has at most as many elements as the bytes that are consumed for it, and as
many as it declares if the reader is good afterwards. -/
structure BuysBytes {α : Type} (decodeElem : Decode α) (r : Decoder) : Prop where
  bounded : ∃ taken, r.source.data = taken ++ (decodeRange decodeElem r).2.source.data ∧
    (decodeRange decodeElem r).1.toList.length ≤ taken.length
  complete : (decodeRange decodeElem r).2.failed = false →
    (decodeRange decodeElem r).1.toList.length = (decodeSize r).1.toNat

/-- The size is read first, and pays for the one element that may fail. -/
theorem buysBytes {α : Type} (decodeElem : Decode α) [spanTape.Forward decodeElem]
    [spanTape.Productive decodeElem] (r : Decoder) : BuysBytes decodeElem r := by
  let size := (decodeSize r).1.toNat
  let middle := (decodeSize r).2
  have range : (decodeRange decodeElem r).1.toList = (collect good decodeElem size middle).1.1 :=
    rfl
  have final : (decodeRange decodeElem r).2 = (collect good decodeElem size middle).2 := rfl
  constructor
  · obtain ⟨taken, split⟩ := spanTape.advances (decodeRange decodeElem) r
    refine ⟨taken, split.symm, ?_⟩
    have consumed := congrArg List.length split
    rw [List.length_append, final] at consumed
    rw [range]
    cases sized : spanTape.failed middle with
    | true =>
        rw [spanTape.collect_of_failed sized]
        exact Nat.zero_le _
    | false =>
        have paid : middle.source.data.length < r.source.data.length :=
          spanTape.consumes decodeSize sized
        have kept : (collect good decodeElem size middle).1.1.length +
            (collect good decodeElem size middle).2.source.data.length ≤
              middle.source.data.length + 1 :=
          spanTape.length_collect_le middle size
        change _ + (collect good decodeElem size middle).2.source.data.length =
          r.source.data.length at consumed
        omega
  · intro live
    rw [final] at live
    rw [range]
    exact spanTape.length_collect_of_good live

section Formats

variable (H : List UInt8 → ByteArray32)

/-- The decoders of elements, and ranges of them. -/
inductive ElementDecoder : {α : Type} → Decode α → Prop where
  | bytes : ElementDecoder decodeBytes
  | txin : ElementDecoder decodeTxin
  | txout : ElementDecoder decodeTxout
  | tx : ElementDecoder (decodeTx H)
  | range {α : Type} {decodeElem : Decode α} (elem : ElementDecoder decodeElem) :
      ElementDecoder (decodeRange decodeElem)

/-- All decoders. -/
inductive Decoding : {α : Type} → Decode α → Prop where
  | u8 : Decoding decodeU8
  | u16 : Decoding decodeU16
  | u32 : Decoding decodeU32
  | u64 : Decoding decodeU64
  | uint256 : Decoding decodeUint256
  | size : Decoding decodeSize
  | outpoint : Decoding decodeOutpoint
  | element {α : Type} {decodeElem : Decode α} (elem : ElementDecoder H decodeElem) :
      Decoding decodeElem
  | witness (input : StdVector TxInput) : Decoding (decodeWitness input)
  | blockHeader : Decoding decodeBlockHeader
  | block : Decoding (decodeBlock H)

variable {H} {α : Type}

/-- Decoders of elements never go back. -/
theorem ElementDecoder.forward {decodeElem : Decode α} (elem : ElementDecoder H decodeElem) :
    spanTape.Forward decodeElem := by
  induction elem with
  | range elem ih => exact forward_decodeRange
  | _ => infer_instance

/-- Decoders of elements take a byte or fail. -/
theorem ElementDecoder.productive {decodeElem : Decode α} (elem : ElementDecoder H decodeElem) :
    spanTape.Productive decodeElem := by
  cases elem with
  | range elem =>
      have forward := elem.forward
      exact productive_decodeRange
  | _ => infer_instance

/-- The three decoders never go back. -/
theorem Decoding.forward {decode : Decode α} (decoding : Decoding H decode) :
    spanTape.Forward decode := by
  cases decoding with
  | element elem => exact elem.forward
  | _ => infer_instance

end Formats

/-- No declared count gets more elements than bytes, and no decoder does anything to a
reader that has failed. -/
theorem decodeRange_buysBytes (H : List UInt8 → ByteArray32) :
    (∀ {α : Type} {decodeElem : Decode α}, ElementDecoder H decodeElem →
      ∀ r, BuysBytes decodeElem r) ∧
    ∀ {α : Type} {decode : Decode α}, Decoding H decode →
      ∀ r : Decoder, r.failed = true → (decode r).2 = r := by
  constructor
  · intro α decodeElem elem r
    have forward := elem.forward
    have productive := elem.productive
    exact buysBytes decodeElem r
  · intro α decode decoding r failed
    have forward := decoding.forward
    exact spanTape.frozen decode failed

/-- A thousand transactions are declared, and three bytes follow. -/
theorem decodeRange_buysBytes_cut :
    BuysBytes (decodeTx Sample.zeroHash) (ofSpan [0xFD, 0xE8, 0x03, 1, 2, 3]) ∧
      (decodeTx Sample.zeroHash ⟨⟨[1, 2, 3]⟩, true⟩).2 = ⟨⟨[1, 2, 3]⟩, true⟩ := by
  obtain ⟨bounded, frozen⟩ := decodeRange_buysBytes Sample.zeroHash
  exact ⟨bounded .tx _, frozen (.element .tx) _ rfl⟩

end StdBitcoin
