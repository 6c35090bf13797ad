import StdBitcoin.Serdes.Wire

/-!
# What the readers accept

Every reader of the wire format inverts the encoder of the same field on the
domain of the values that the format can carry. Sizes reach up to 32 bits, because
the longest form is refused.
-/

namespace StdBitcoin

open Codec

namespace Wire

instance delimited_readU8 : Delimited readU8 := by
  unfold readU8
  infer_instance

instance delimited_readU16 : Delimited readU16 := by
  unfold readU16
  infer_instance

instance delimited_readU32 : Delimited readU32 := by
  unfold readU32
  infer_instance

instance delimited_readU64 : Delimited readU64 := by
  unfold readU64
  infer_instance

instance delimited_readSize : Delimited readSize := by
  unfold readSize
  infer_instance

theorem inverts_readU8 : Inverts readU8 (fun _ => True) fun v => (encodeU8 v).flatten := by
  have words : Inverts readU8 (fun _ => True) fun v => LittleEndian.toBytes 1 v.toNat :=
    LittleEndian.inverts_map_take UInt8.toNat_lt (fun _ => UInt8.ofNat_toNat)
      fun _ bound => UInt8.toNat_ofNat_of_lt' bound
  simpa only [readU8, encodeU8, List.flatten_singleton, LittleEndian.toBytes,
    UInt8.ofNat_toNat] using words

theorem inverts_readU16 : Inverts readU16 (fun _ => True) fun v => (encodeU16 v).flatten := by
  simpa only [readU16, encodeU16, List.flatten_singleton] using
    LittleEndian.inverts_map_take UInt16.toNat_lt (fun _ => UInt16.ofNat_toNat)
      fun _ bound => UInt16.toNat_ofNat_of_lt' bound

theorem inverts_readU32 : Inverts readU32 (fun _ => True) fun v => (encodeU32 v).flatten := by
  simpa only [readU32, encodeU32, List.flatten_singleton] using
    LittleEndian.inverts_map_take UInt32.toNat_lt (fun _ => UInt32.ofNat_toNat)
      fun _ bound => UInt32.toNat_ofNat_of_lt' bound

theorem inverts_readU64 : Inverts readU64 (fun _ => True) fun v => (encodeU64 v).flatten := by
  simpa only [readU64, encodeU64, List.flatten_singleton] using
    LittleEndian.inverts_map_take UInt64.toNat_lt (fun _ => UInt64.ofNat_toNat)
      fun _ bound => UInt64.toNat_ofNat_of_lt' bound

theorem inverts_take (n : Nat) :
    Inverts (take n : Reader UInt8 _) (fun _ => True) List.Vector.toList := by
  intro v taken
  rw [true_and, reads_take_iff]

/-- What follows each tag of a size. -/
theorem reads_readSize_iff (size : UInt64) (taken : List UInt8) :
    Reads readSize size taken ↔
      (∃ tag : UInt8, tag < 253 ∧ size = tag.toUInt64 ∧ taken = [tag]) ∨
      (∃ x : UInt16, 253 ≤ x ∧ size = x.toUInt64 ∧ taken = 253 :: (encodeU16 x).flatten) ∨
      ∃ x : UInt32, 0x10000 ≤ x ∧ size = x.toUInt64 ∧ taken = 254 :: (encodeU32 x).flatten := by
  rw [readSize, inverts_readU8.reads_bind_iff]
  constructor
  · rintro ⟨tag, back, -, tail, rfl⟩
    by_cases direct : tag < 253
    · rw [if_pos direct, reads_pure_iff] at tail
      obtain ⟨rfl, rfl⟩ := tail
      exact .inl ⟨tag, direct, rfl, rfl⟩
    rw [if_neg direct] at tail
    by_cases short : tag = 253
    · rw [if_pos short, inverts_readU16.reads_guarded_iff] at tail
      obtain ⟨x, -, large, rfl, rfl⟩ := tail
      exact .inr (.inl ⟨x, UInt16.not_lt.mp large, rfl, by rw [short]; rfl⟩)
    rw [if_neg short] at tail
    by_cases medium : tag = 254
    · rw [if_pos medium, inverts_readU32.reads_guarded_iff] at tail
      obtain ⟨x, -, large, rfl, rfl⟩ := tail
      exact .inr (.inr ⟨x, UInt32.not_lt.mp large, rfl, by rw [medium]; rfl⟩)
    -- Every size that needs the longest form exceeds `maxSize`.
    rw [if_neg medium, inverts_readU64.reads_guarded_iff] at tail
    obtain ⟨x, -, refused, -⟩ := tail
    rw [not_or, UInt64.not_lt, UInt64.not_lt, UInt64.le_iff_toNat_le,
      UInt64.le_iff_toNat_le] at refused
    exact absurd (refused.1.trans refused.2) (by decide)
  · rintro (⟨tag, direct, rfl, rfl⟩ | ⟨x, large, rfl, rfl⟩ | ⟨x, large, rfl, rfl⟩)
    · refine ⟨tag, [], trivial, ?_, rfl⟩
      rw [if_pos direct, reads_pure_iff]
      exact ⟨rfl, rfl⟩
    · refine ⟨253, _, trivial, ?_, rfl⟩
      rw [if_neg (by decide), if_pos rfl, inverts_readU16.reads_guarded_iff]
      exact ⟨x, trivial, UInt16.not_lt.mpr large, rfl, rfl⟩
    · refine ⟨254, _, trivial, ?_, rfl⟩
      rw [if_neg (by decide), if_neg (by decide), if_pos rfl, inverts_readU32.reads_guarded_iff]
      exact ⟨x, trivial, UInt32.not_lt.mpr large, rfl, rfl⟩

/-- A size below 253 is one byte. -/
theorem flatten_encodeSize_u8 {tag : UInt8} (direct : tag < 253) :
    (encodeSize tag.toUInt64).flatten = [tag] := by
  have small : tag.toUInt64 < 253 := by
    rw [UInt64.lt_iff_toNat_lt, UInt8.toNat_toUInt64]
    exact direct
  rw [encodeSize, if_pos small, UInt8.toUInt8_toUInt64]
  rfl

/-- A size of 16 bits from 253 on stands behind the byte 253. -/
theorem flatten_encodeSize_u16 {x : UInt16} (large : 253 ≤ x) :
    (encodeSize x.toUInt64).flatten = 253 :: (encodeU16 x).flatten := by
  have bounds : ¬ x.toUInt64 < 253 ∧ x.toUInt64 ≤ 0xFFFF := by
    rw [UInt64.lt_iff_toNat_lt, UInt64.le_iff_toNat_le, UInt16.toNat_toUInt64]
    exact ⟨Nat.not_lt.mpr large, Nat.le_of_lt_succ x.toNat_lt⟩
  rw [encodeSize, if_neg bounds.1, if_pos bounds.2, UInt16.toUInt16_toUInt64]
  rfl

/-- A size of 32 bits that needs more than 16 stands behind the byte 254. -/
theorem flatten_encodeSize_u32 {x : UInt32} (large : 0x10000 ≤ x) :
    (encodeSize x.toUInt64).flatten = 254 :: (encodeU32 x).flatten := by
  have lower : 0x10000 ≤ x.toUInt64.toNat := by
    rw [UInt32.toNat_toUInt64]
    exact large
  have bounds : ¬ x.toUInt64 < 253 ∧ ¬ x.toUInt64 ≤ 0xFFFF ∧ x.toUInt64 ≤ 0xFFFFFFFF := by
    refine ⟨?_, ?_, ?_⟩
    · rw [UInt64.lt_iff_toNat_lt]
      change ¬ _ < 253
      omega
    · rw [UInt64.le_iff_toNat_le]
      change ¬ _ ≤ 65535
      omega
    · rw [UInt64.le_iff_toNat_le, UInt32.toNat_toUInt64]
      exact Nat.le_of_lt_succ x.toNat_lt
  rw [encodeSize, if_neg bounds.1, if_neg bounds.2.1, if_pos bounds.2.2, UInt32.toUInt32_toUInt64]
  rfl

/-- The shortest form of every 32-bit size, and nothing else. -/
theorem inverts_readSize :
    Inverts readSize (fun size => size.toNat < 2 ^ 32) fun size => (encodeSize size).flatten := by
  intro size taken
  rw [reads_readSize_iff]
  constructor
  · rintro (⟨tag, direct, rfl, rfl⟩ | ⟨x, large, rfl, rfl⟩ | ⟨x, large, rfl, rfl⟩)
    · refine ⟨?_, (flatten_encodeSize_u8 direct).symm⟩
      exact (UInt8.toNat_toUInt64 tag).trans_lt (tag.toNat_lt.trans (by decide))
    · refine ⟨?_, (flatten_encodeSize_u16 large).symm⟩
      exact (UInt16.toNat_toUInt64 x).trans_lt (x.toNat_lt.trans (by decide))
    · refine ⟨?_, (flatten_encodeSize_u32 large).symm⟩
      exact (UInt32.toNat_toUInt64 x).trans_lt x.toNat_lt
  · rintro ⟨bound, rfl⟩
    by_cases direct : size.toNat < 253
    · obtain ⟨tag, rfl⟩ : ∃ tag : UInt8, size = tag.toUInt64 :=
        ⟨UInt8.ofNat size.toNat, UInt64.toNat_inj.mp (by simp; omega)⟩
      rw [UInt8.toNat_toUInt64] at direct
      exact .inl ⟨tag, direct, rfl, flatten_encodeSize_u8 direct⟩
    by_cases short : size.toNat < 0x10000
    · obtain ⟨x, rfl⟩ : ∃ x : UInt16, size = x.toUInt64 :=
        ⟨UInt16.ofNat size.toNat, UInt64.toNat_inj.mp (by simp; omega)⟩
      rw [UInt16.toNat_toUInt64] at direct
      have large : 253 ≤ x := Nat.le_of_not_lt direct
      exact .inr (.inl ⟨x, large, rfl, flatten_encodeSize_u16 large⟩)
    · obtain ⟨x, rfl⟩ : ∃ x : UInt32, size = x.toUInt64 :=
        ⟨UInt32.ofNat size.toNat, UInt64.toNat_inj.mp (by simp; omega)⟩
      rw [UInt32.toNat_toUInt64] at short
      have large : 0x10000 ≤ x := Nat.le_of_not_lt short
      exact .inr (.inr ⟨x, large, rfl, flatten_encodeSize_u32 large⟩)

end Wire

/-- The largest size the format can carry. -/
def wireLimit : Nat := 2 ^ 32 - 1

/-- The size stays within a limit. -/
def StdVector.Within {α : Type} (limit : Nat) (xs : StdVector α) : Prop := xs.toList.length ≤ limit

theorem StdVector.within_map_iff {α β : Type} {limit : Nat} (f : α → β) (xs : StdVector α) :
    (xs.map f).Within limit ↔ xs.Within limit := by
  rw [Within, Within, toList_map, List.length_map]

instance {α : Type} (limit : Nat) (xs : StdVector α) : Decidable (xs.Within limit) :=
  inferInstanceAs (Decidable (xs.toList.length ≤ limit))

namespace TxInput

/-- The fields that an input is written with in either layout. -/
def BodyWithin (limit : Nat) (input : TxInput) : Prop :=
  input.prevout.index.toNat < 2 ^ 32 ∧ input.script.bytes.Within limit

/-- The witness stack and its items. -/
def WitnessWithin (limit : Nat) (input : TxInput) : Prop :=
  input.witness.Within limit ∧ ∀ item ∈ input.witness.toList, item.Within limit

instance (limit : Nat) (input : TxInput) : Decidable (input.BodyWithin limit) :=
  inferInstanceAs (Decidable (_ ∧ _))

instance (limit : Nat) (input : TxInput) : Decidable (input.WitnessWithin limit) :=
  inferInstanceAs (Decidable (_ ∧ _))

end TxInput

namespace Wire

instance delimited_readBytes : Delimited readBytes := by
  unfold readBytes
  infer_instance

instance delimited_readRange {α : Type} {elem : Reader UInt8 α} [Delimited elem] :
    Delimited (readRange elem) := by
  unfold readRange
  infer_instance

instance delimited_readTxin : Delimited readTxin := by
  unfold readTxin readOutpoint
  infer_instance

instance delimited_readTxout : Delimited readTxout := by
  unfold readTxout
  infer_instance

/-- A vector of bytes within the limit is read back. -/
theorem inverts_readBytes :
    Inverts readBytes (StdVector.Within wireLimit) fun bytes => (encodeBytes bytes).flatten := by
  intro bytes taken
  rw [readBytes, inverts_readSize.reads_bind_iff]
  constructor
  · rintro ⟨size, back, bound, tail, rfl⟩
    rw [(inverts_take _).reads_bind_iff] at tail
    obtain ⟨buf, back, -, final, rfl⟩ := tail
    obtain ⟨rfl, rfl⟩ := (reads_pure_iff _ _ _).mp final
    refine ⟨?_, by simp [encodeBytes]⟩
    change buf.toList.length ≤ _
    rw [buf.toList_length]
    exact Nat.le_pred_of_lt bound
  · rintro ⟨within, rfl⟩
    have length : bytes.toList.length = bytes.size.toNat := (StdVector.toNat_size bytes).symm
    refine ⟨bytes.size, bytes.toList, ?_, ?_, by simp [encodeBytes]⟩
    · rw [StdVector.toNat_size]
      exact Nat.lt_of_le_pred (by decide) within
    · rw [(inverts_take _).reads_bind_iff]
      exact ⟨⟨bytes.toList, length⟩, [], trivial, (reads_pure_iff _ _ _).mpr ⟨rfl, rfl⟩,
        (List.append_nil _).symm⟩

/-- A range is read back if its elements are. -/
theorem inverts_readRange {α : Type} {elem : Reader UInt8 α} [Delimited elem] {domain : α → Prop}
    {encodeElem : α → Writes} (inverts : Inverts elem domain fun x => (encodeElem x).flatten) :
    Inverts (readRange elem) (fun xs => xs.Within wireLimit ∧ ∀ x ∈ xs.toList, domain x)
      fun xs => (encodeRange xs encodeElem).flatten := by
  intro xs taken
  rw [readRange, inverts_readSize.reads_bind_iff]
  dsimp only
  rw [encodeRange, List.flatten_append, flatten_flatMap]
  constructor
  · rintro ⟨size, back, bound, tail, rfl⟩
    obtain ⟨out, front, back, items, final, rfl⟩ := (reads_bind_iff _ _).mp tail
    obtain ⟨rfl, rfl⟩ := (reads_pure_iff _ _ _).mp final
    obtain ⟨all, rfl⟩ := (inverts.reads_repeated_iff _ _ _).mp items
    have length : out.1.length = size.toNat := out.2.trans List.length_replicate
    refine ⟨⟨?_, all⟩, ?_⟩
    · change out.1.length ≤ _
      rw [length]
      exact Nat.le_pred_of_lt bound
    · have whole : (StdVector.ofBounded (Cursor.atMost out)).size = size := by
        rw [StdVector.size, StdVector.toList_ofBounded, Cursor.atMost, length, UInt64.ofNat_toNat]
      rw [List.append_nil, whole]
      rfl
  · rintro ⟨⟨within, all⟩, rfl⟩
    refine ⟨xs.size, _, ?_, ?_, rfl⟩
    · rw [StdVector.toNat_size]
      exact Nat.lt_of_le_pred (by decide) within
    · rw [reads_bind_iff]
      have length : xs.toList.length = (List.replicate xs.size.toNat ()).length := by
        rw [List.length_replicate, StdVector.toNat_size]
      exact ⟨⟨xs.toList, length⟩, _, [], (inverts.reads_repeated_iff _ _ _).mpr ⟨all, rfl⟩,
        (reads_pure_iff _ _ _).mpr ⟨rfl, rfl⟩, (List.append_nil _).symm⟩

end Wire

end StdBitcoin
