import StdBitcoin.Serdes.Buffering

/-!
# Sizes of encodings

`serialized_size` runs the encoders on a sink that counts in a `std::size_t`. Sinks that
do not throw receive what is counted, cut into chunks.
-/

namespace StdBitcoin

open Codec

variable {σ ε : Type}

/-- `counting_sink`, whose state is `_size`. -/
def countingSink : ByteSink UInt64 Empty := fun bytes size =>
  (.ok (), size + UInt64.ofNat bytes.length)

/-- `serialized_size(tx)`. -/
def serializedSizeTx (tx : Transaction) : UInt64 := (writeAll countingSink (encodeTx tx) 0).2

/-- `serialized_size(header)`. -/
def serializedSizeBlockHeader (_ : BlockHeader) : UInt64 := 80

/-- `serialized_size(b)`. -/
def serializedSizeBlock (b : Block) : UInt64 := (writeAll countingSink (encodeBlock b) 0).2

/-- The counting sink adds up the bytes in 64 bits. -/
theorem writeAll_countingSink (writes : Writes) (size : UInt64) :
    (writeAll countingSink writes size).2 = size + UInt64.ofNat writes.flatten.length := by
  induction writes generalizing size with
  | nil => exact (UInt64.add_zero size).symm
  | cons bytes writes ih =>
      rw [List.flatten_cons, List.length_append, UInt64.ofNat_add, ← UInt64.add_assoc]
      exact ih _

/-- The count wraps around. -/
theorem toNat_countingSink (writes : Writes) :
    (writeAll countingSink writes 0).2.toNat = writes.flatten.length % 2 ^ 64 := by
  rw [writeAll_countingSink, UInt64.zero_add, UInt64.toNat_ofNat']

/-- Chunks of a byte string, none of them empty and all but the last full. -/
structure Chunked (bufferSize : Nat) (bytes : List UInt8) (chunks : List (List UInt8)) : Prop where
  nonempty : ∀ chunk ∈ chunks, chunk ≠ []
  flatten : chunks.flatten = bytes
  full : ∀ chunk ∈ chunks.dropLast, chunk.length = bufferSize
  fits : ∀ chunk ∈ chunks, chunk.length ≤ bufferSize

/-- The chunks of a list are the list in order, each full but the last. -/
theorem chunked_chunks {bufferSize : Nat} (positive : 0 < bufferSize) (bytes : List UInt8) :
    Chunked bufferSize bytes (chunks bufferSize bytes) where
  nonempty := fun _ => ne_nil_of_mem_chunks positive
  flatten := flatten_chunks positive bytes
  full := fun _ => length_of_mem_dropLast_chunks positive
  fits := fun _ => length_le_of_mem_chunks positive

/-- What a sink receives that does not throw. -/
def Receives (run : σ × CallLog Empty → Outcome Empty × (σ × CallLog Empty)) (state : σ)
    (chunks : List (List UInt8)) : Prop :=
  ∃ final, run (state, []) = (.returned, (final, accepted chunks))

section Zeros

/-- An output with a script of zeros. -/
def zerosOutput (scriptSize : UInt64) : TxOutput := ⟨0, ⟨.ofVector (.replicate scriptSize.toNat 0)⟩⟩

/-- A transaction without inputs and with one output of zero bytes. -/
def zerosTx (scriptSize : UInt64) : Transaction :=
  .make (fun _ => .replicate 32 0) 1 .empty ⟨[zerosOutput scriptSize], (by decide : 1 < 2 ^ 64)⟩ 0

/-- The script of each output is written as it is. -/
theorem script_mem_encodeTx {tx : Transaction} {out : TxOutput} (member : out ∈ tx.outputs.toList) :
    out.script.bytes.toList ∈ encodeTx tx := by
  have own : out.script.bytes.toList ∈ encodeRange tx.outputs encodeTxout := by
    apply List.mem_append_right
    refine List.mem_flatMap.mpr ⟨out, member, ?_⟩
    exact List.mem_append_right _ (List.mem_append_right _ (List.mem_singleton_self _))
  rw [encodeTx, encodeTxData]
  simp [own]

/-- The encoding is no shorter than the script in it. -/
theorem le_length_encodeTx (scriptSize : UInt64) :
    scriptSize.toNat ≤ (encodeTx (zerosTx scriptSize)).flatten.length := by
  have member : zerosOutput scriptSize ∈ (zerosTx scriptSize).outputs.toList :=
    List.mem_singleton_self _
  have part := (List.sublist_flatten_of_mem (script_mem_encodeTx member)).length_le
  rwa [zerosOutput, StdVector.toList_ofVector, List.Vector.toList_length] at part

end Zeros

/-- A sink receives the encoding in chunks, full ones but for the last, and `serialized_size` is
the number of bytes in 64 bits. -/
theorem serialize_chunked {bufferSize : Nat} (positive : 0 < bufferSize) (sink : ByteSink σ Empty)
    (state : σ) :
    (∀ writes, ∃ chunks, Chunked bufferSize writes.flatten chunks ∧
      Receives (serializeWrites bufferSize (recording sink) writes) state chunks) ∧
    (∀ tx, ∃ chunks, Receives (serializeTx tx (recording sink)) state chunks ∧
      chunks.flatten = (encodeTx tx).flatten ∧
      (serializedSizeTx tx).toNat = chunks.flatten.length % 2 ^ 64) ∧
    (∀ b, ∃ chunks, Receives (serializeBlock b (recording sink)) state chunks ∧
      chunks.flatten = (encodeBlock b).flatten ∧
      (serializedSizeBlock b).toNat = chunks.flatten.length % 2 ^ 64) ∧
    ∀ header, ∃ chunk, Receives (serializeBlockHeader header (recording sink)) state [chunk] ∧
      chunk = (encodeBlockHeader header).flatten ∧ chunk.length = 80 ∧
      (serializedSizeBlockHeader header).toNat = chunk.length := by
  refine ⟨?_, ?_, ?_, ?_⟩
  · intro writes
    exact ⟨chunks bufferSize writes.flatten, chunked_chunks positive _,
      serializeWrites_recording positive sink writes state⟩
  · intro tx
    refine ⟨chunks 512 (encodeTx tx).flatten,
      serializeWrites_recording (by decide) sink _ state, ?_⟩
    rw [flatten_chunks (by decide)]
    exact ⟨rfl, toNat_countingSink _⟩
  · intro b
    refine ⟨chunks 512 (encodeBlock b).flatten,
      serializeWrites_recording (by decide) sink _ state, ?_⟩
    rw [flatten_chunks (by decide)]
    exact ⟨rfl, toNat_countingSink _⟩
  · intro header
    have length := length_encodeBlockHeader header
    refine ⟨(encodeBlockHeader header).flatten, ?_, rfl, length, ?_⟩
    · have room : 0 < 80 := by decide
      have run := serializeWrites_recording room sink (encodeBlockHeader header) state
      rwa [chunks_of_length room length] at run
    · rw [length]
      rfl

/-- An encoding that does not fit into one buffer. -/
theorem serialize_chunked_vector :
    0 < 512 ∧ ∃ chunks, Chunked 512 (encodeTx (zerosTx 600)).flatten chunks ∧
      Receives (serializeTx (zerosTx 600) (recording vectorSink)) [] chunks ∧
      1 < chunks.length ∧
      ∃ received, Receives (serializeTx (zerosTx 600) (recording vectorSink)) [] received ∧
        received.flatten = (encodeTx (zerosTx 600)).flatten ∧
        (serializedSizeTx (zerosTx 600)).toNat = received.flatten.length % 2 ^ 64 := by
  have positive : 0 < 512 := by decide
  have large : 600 ≤ (encodeTx (zerosTx 600)).flatten.length := le_length_encodeTx 600
  obtain ⟨chunks, cut, receives⟩ :=
    (serialize_chunked positive vectorSink []).1 (encodeTx (zerosTx 600))
  refine ⟨positive, chunks, cut, receives, ?_,
    (serialize_chunked positive vectorSink []).2.1 (zerosTx 600)⟩
  rw [← cut.flatten] at large
  match chunks with
  | [] => cases large
  | [chunk] =>
      have fits := cut.fits chunk (List.mem_singleton_self _)
      rw [List.flatten_singleton] at large
      omega
  | _ :: _ :: _ => exact Nat.one_lt_succ_succ _

section Shared

/-- A block whose transactions all share one implementation. -/
def sharedBlock (copies scriptSize : UInt64) : Block where
  header := ⟨0, .zero, .zero, 0, 0, 0⟩
  transactions := .ofVector (.replicate copies.toNat (zerosTx scriptSize))

/-- The encoding is no shorter than all scripts in it. -/
theorem le_length_encodeBlock (copies scriptSize : UInt64) :
    copies.toNat * scriptSize.toNat ≤
      (encodeBlock (sharedBlock copies scriptSize)).flatten.length := by
  have each := Nat.mul_le_mul_left copies.toNat (le_length_encodeTx scriptSize)
  have all : ((sharedBlock copies scriptSize).transactions.toList.flatMap fun tx =>
      (encodeTx tx).flatten).length =
        copies.toNat * (encodeTx (zerosTx scriptSize)).flatten.length := by
    rw [List.length_flatMap]
    change (List.map _ (List.replicate copies.toNat (zerosTx scriptSize))).sum = _
    rw [List.map_replicate, List.sum_replicate_nat]
  rw [encodeBlock, encodeRange, List.flatten_append, List.flatten_append, flatten_flatMap,
    List.length_append, List.length_append, all]
  omega

/-- A sink receives more bytes than a `std::size_t` counts. -/
theorem length_written_ne_serializedSize :
    (written (serializeBlock (sharedBlock 0x40000000 0x400000000) vectorSink)).length ≠
      (serializedSizeBlock (sharedBlock 0x40000000 0x400000000)).toNat := by
  have large := le_length_encodeBlock 0x40000000 0x400000000
  have small := (serializedSizeBlock (sharedBlock 0x40000000 0x400000000)).toNat_lt
  rw [written_serializeBlock]
  change 0x40000000 * 0x400000000 ≤ _ at large
  omega

end Shared

end StdBitcoin
