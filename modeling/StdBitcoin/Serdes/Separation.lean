import StdBitcoin.Codec.Separation
import StdBitcoin.Serdes.Messages

/-!
# What the written bytes determine

The encoders tell values of every size apart, beyond the sizes that can be read.
Only the index of an outpoint is truncated.
-/

namespace StdBitcoin

open Codec Wire

/-- A size from 2^32 on stands behind the tag 255. -/
theorem flatten_encodeSize_u64 {size : UInt64} (large : 2 ^ 32 ≤ size.toNat) :
    (encodeSize size).flatten = 255 :: (encodeU64 size).flatten := by
  have bounds : ¬ size < 253 ∧ ¬ size ≤ 0xFFFF ∧ ¬ size ≤ 0xFFFFFFFF := by
    rw [UInt64.lt_iff_toNat_lt, UInt64.le_iff_toNat_le, UInt64.le_iff_toNat_le]
    change ¬ _ < 253 ∧ ¬ _ ≤ 65535 ∧ ¬ _ ≤ 4294967295
    omega
  rw [encodeSize, if_neg bounds.1, if_neg bounds.2.1, if_neg bounds.2.2]
  rfl

/-- Only the longest form has the last tag. -/
theorem flatten_encodeSize_append_ne {size : UInt64} (small : size.toNat < 2 ^ 32)
    (rest tail : List UInt8) : (encodeSize size).flatten ++ rest ≠ 255 :: tail := by
  intro headed
  have reads : Reads readSize size (encodeSize size).flatten :=
    (inverts_readSize size _).mpr ⟨small, rfl⟩
  rcases (reads_readSize_iff size _).mp reads with
    ⟨tag, direct, -, taken⟩ | ⟨x, -, -, taken⟩ | ⟨x, -, -, taken⟩
  · rw [taken] at headed
    obtain ⟨rfl, -⟩ := List.cons.inj headed
    exact absurd direct (by decide)
  · rw [taken] at headed
    exact absurd (List.cons.inj headed).1 (by decide)
  · rw [taken] at headed
    exact absurd (List.cons.inj headed).1 (by decide)

/-- No two sizes have encodings of which one begins the other. -/
theorem separates_encodeSize : Separates (fun size => (encodeSize size).flatten) fun _ => True := by
  intro x y _ _ left right same
  dsimp only at same
  by_cases small_x : x.toNat < 2 ^ 32
  · by_cases small_y : y.toNat < 2 ^ 32
    · exact inverts_readSize.separates small_x small_y same
    · rw [flatten_encodeSize_u64 (Nat.le_of_not_lt small_y)] at same
      exact absurd same (flatten_encodeSize_append_ne small_x _ _)
  · rw [flatten_encodeSize_u64 (Nat.le_of_not_lt small_x)] at same
    by_cases small_y : y.toNat < 2 ^ 32
    · exact absurd same.symm (flatten_encodeSize_append_ne small_y _ _)
    · rw [flatten_encodeSize_u64 (Nat.le_of_not_lt small_y)] at same
      exact inverts_readU64.separates trivial trivial (List.cons.inj same).2

/-- A first byte below the tags is the whole size. -/
theorem size_eq_of_cons {size : UInt64} {tag : UInt8} (direct : tag < 253) {rest tail : List UInt8}
    (same : (encodeSize size).flatten ++ rest = tag :: tail) :
    size = tag.toUInt64 ∧ rest = tail := by
  have short : (encodeSize size).flatten ++ rest = (encodeSize tag.toUInt64).flatten ++ tail := by
    rw [same, flatten_encodeSize_u8 direct]
    rfl
  exact separates_encodeSize trivial trivial short

theorem length_eq_of_size_eq {α : Type} {xs ys : StdVector α} (same : xs.size = ys.size) :
    xs.toList.length = ys.toList.length := by
  rw [← StdVector.toNat_size, same, StdVector.toNat_size]

/-- Vectors of bytes are told apart by their encodings, whatever follows. -/
theorem separates_encodeBytes :
    Separates (fun bytes => (encodeBytes bytes).flatten) fun _ => True := by
  intro x y _ _ left right same
  simp only [encodeBytes, List.flatten_append, List.flatten_singleton, List.append_assoc] at same
  obtain ⟨size, rest⟩ := separates_encodeSize trivial trivial same
  obtain ⟨bytes, rfl⟩ := List.append_inj rest (length_eq_of_size_eq size)
  exact ⟨StdVector.ext bytes, rfl⟩

/-- Ranges are told apart by their encodings if the elements are. -/
theorem separates_encodeRange {α : Type} {encodeElem : α → Writes} {domain : α → Prop}
    (separates : Separates (fun x => (encodeElem x).flatten) domain) :
    Separates (fun xs => (encodeRange xs encodeElem).flatten) fun xs => ∀ x ∈ xs.toList,
      domain x := by
  intro xs ys first second left right same
  simp only [encodeRange, List.flatten_append, flatten_flatMap, List.append_assoc] at same
  obtain ⟨size, rest⟩ := separates_encodeSize trivial trivial same
  obtain ⟨elems, rfl⟩ := separates.flatMap (length_eq_of_size_eq size) first second rest
  exact ⟨StdVector.ext elems, rfl⟩

/-- The fields of an input that stand in the input vector. -/
theorem separates_encodeTxin :
    Separates (fun input => (encodeTxin input).flatten) fun input : TxInput =>
      input.prevout.index.toNat < 2 ^ 32 ∧ input.witness = .empty := by
  intro x y first second left right same
  simp only [encodeTxin, encodeOutpoint, encodeHash256, BasicHashId.asBytes, List.flatten_append,
    List.flatten_singleton, List.append_assoc] at same
  obtain ⟨hash, rest⟩ := (inverts_take 32).separates trivial trivial same
  obtain ⟨index, rest⟩ := inverts_readU32.separates trivial trivial rest
  obtain ⟨script, rest⟩ := separates_encodeBytes trivial trivial rest
  obtain ⟨sequence, rfl⟩ := inverts_readU32.separates trivial trivial rest
  have index : x.prevout.index = y.prevout.index := by
    apply UInt64.toNat_inj.mp
    rw [← Nat.mod_eq_of_lt first.1, ← Nat.mod_eq_of_lt second.1]
    exact congrArg UInt32.toNat index
  exact ⟨TxInput.ext (Outpoint.ext (BasicHashId.ext hash) index) (Script.ext script) sequence
    (first.2.trans second.2.symm), rfl⟩

theorem separates_encodeTxout :
    Separates (fun output => (encodeTxout output).flatten) fun _ => True := by
  intro x y _ _ left right same
  simp only [encodeTxout, List.flatten_append, List.append_assoc] at same
  obtain ⟨value, rest⟩ := inverts_readU64.separates trivial trivial same
  obtain ⟨script, rfl⟩ := separates_encodeBytes trivial trivial rest
  exact ⟨TxOutput.ext (congrArg UInt64.toInt64 value) (Script.ext script), rfl⟩

end StdBitcoin
