import StdBitcoin.Codec.Reservation
import StdBitcoin.Serdes.Consumption

/-!
# Memory for declared counts

The loop that decodes a range reserves its vector in batches. However large a count
the input declares, the memory that is asked for exceeds what the elements decoded so far
take by no more than the size of a batch.
-/

namespace StdBitcoin

open Codec
open Decoder (good ofSpan)

/-- `MAX_VECTOR_ALLOCATE`, in bytes. -/
def maxVectorAllocate : Nat := 1000000

/-- `batch_size` for elements of the given size. -/
def batchSize (elementSize : Nat) : Nat := maxVectorAllocate / elementSize

/-- `decode_range` with its calls of `reserve`. -/
def decodeRangeReserving {α : Type} (policy : GrowthPolicy) (elementSize : Nat)
    (decodeElem : Decode α) : Decode (Growing α) := do
  let size ← decodeSize
  let out := Growing.empty.reserve policy (min size.toNat (batchSize elementSize))
  Growing.fill policy good decodeElem size.toNat (batchSize elementSize) size.toNat out

/-- The vector gets the elements of the range, and every allocation was asked for within the
declared size, with at most a batch of memory for more elements than bytes consumed. -/
structure ReservesInStep {α : Type} (policy : GrowthPolicy) (elementSize : Nat)
    (decodeElem : Decode α) (r : Decoder) : Prop where
  items : (decodeRangeReserving policy elementSize decodeElem r).1.items =
    (decodeRange decodeElem r).1.toList
  state : (decodeRangeReserving policy elementSize decodeElem r).2 = (decodeRange decodeElem r).2
  allocations : ∃ taken, r.source.data = taken ++ (decodeRange decodeElem r).2.source.data ∧
    ∀ allocation ∈ (decodeRangeReserving policy elementSize decodeElem r).1.allocations,
      ∃ held requested, allocation = .asked held requested ∧
        requested ≤ (decodeSize r).1.toNat ∧ held ≤ taken.length ∧
          requested * elementSize ≤ held * elementSize + maxVectorAllocate

/-- A batch has at least one element. -/
theorem batchSize_pos {elementSize : Nat} (positive : 0 < elementSize)
    (small : elementSize ≤ maxVectorAllocate) : 0 < batchSize elementSize :=
  Nat.div_pos small positive

/-- A batch needs no more memory than is allowed at a time. -/
theorem batchSize_mul_le (elementSize : Nat) :
    batchSize elementSize * elementSize ≤ maxVectorAllocate :=
  Nat.div_mul_le_self _ _

/-- Whatever count is declared, the memory for a range grows with its elements. -/
theorem decodeRange_reservesInStep (H : List UInt8 → ByteArray32) {α : Type}
    {decodeElem : Decode α} (elem : ElementDecoder H decodeElem) (policy : GrowthPolicy)
    {elementSize : Nat} (positive : 0 < elementSize) (small : elementSize ≤ maxVectorAllocate)
    (r : Decoder) : ReservesInStep policy elementSize decodeElem r := by
  let size := (decodeSize r).1.toNat
  let batch := batchSize elementSize
  let start : Growing α := Growing.empty.reserve policy (min size batch)
  have nothing : start.items = [] := Growing.items_reserve
  have missing : start.items.length + size = size := by
    rw [nothing]
    exact Nat.zero_add size
  have ahead : min size batch ≤ (Growing.empty : Growing α).items.length + batch :=
    (Nat.min_le_right size batch).trans (Nat.le_add_left _ _)
  have measured : start.Measured size batch :=
    Growing.measured_empty.reserve (Nat.min_le_left _ _) ahead
  obtain ⟨items, final, asked⟩ := Growing.fill_eq_collect spanTape policy good decodeElem
    (batchSize_pos positive small) missing measured (decodeSize r).2
  rw [nothing, List.nil_append] at items
  have forward := elem.forward
  have productive := elem.productive
  obtain ⟨taken, split, bought⟩ := (buysBytes decodeElem r).bounded
  refine ⟨items, final, taken, split, fun allocation member => ?_⟩
  obtain ⟨held, requested, same, holds, within, step⟩ := asked allocation member
  rw [items] at holds
  refine ⟨held, requested, same, within, holds.trans bought, ?_⟩
  calc requested * elementSize
    _ ≤ (held + batch) * elementSize := Nat.mul_le_mul_right _ step
    _ = held * elementSize + batch * elementSize := Nat.add_mul ..
    _ ≤ held * elementSize + maxVectorAllocate :=
      Nat.add_le_add_left (batchSize_mul_le elementSize) _

/-- A vector that takes what it is asked for, and doubles otherwise. -/
def doubling : GrowthPolicy where
  reserved := id
  appended := fun n => 2 * n + 1
  le_reserved := fun _ => le_rfl
  lt_appended := fun _ => by omega

/-- Sixty-five thousand transactions are declared, and three bytes follow. -/
theorem decodeRange_reservesInStep_cut :
    ReservesInStep doubling 8 (decodeTx Sample.zeroHash)
      (ofSpan [0xFE, 0x00, 0x00, 0x01, 0x00, 1, 2, 3]) :=
  decodeRange_reservesInStep Sample.zeroHash .tx doubling (by decide) (by decide) _

end StdBitcoin
