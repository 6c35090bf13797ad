import StdBitcoin.Serdes.Format

/-!
# The limit on declared sizes

A declared size is allocated, or counted up to, before anything behind it is seen, so the
decoder holds sizes against `maxSize`. The form of nine bytes is checked; the form of
five bytes is not.
-/

namespace StdBitcoin

open Codec
open Decoder (good fail read ofSpan)

/-- Successful runs read a 32-bit size in its shortest form. -/
theorem decodeSize_eq_iff (raw rest : List UInt8) (size : UInt64) :
    decodeSize (ofSpan raw) = (size, ofSpan rest) ↔
      raw = (encodeSize size).flatten ++ rest ∧ size.toNat < 2 ^ 32 := by
  have run := spanCursor.strict_run_eq_some_iff decodeSize raw rest size
  rw [strict_decodeSize, run_eq_some_iff] at run
  refine run.symm.trans ⟨?_, ?_⟩
  · intro read
    rcases read with ⟨taken, rfl, reads⟩
    obtain ⟨bound, rfl⟩ := (Wire.inverts_readSize size taken).mp reads
    exact ⟨rfl, bound⟩
  · intro starts
    rcases starts with ⟨rfl, bound⟩
    exact ⟨_, rfl, (Wire.inverts_readSize size _).mpr ⟨bound, rfl⟩⟩

namespace Decoder

theorem bind_apply {α β : Type} (action : Decode α) (next : α → Decode β) (r : Decoder) :
    (action >>= next) r = next (action r).1 (action r).2 := rfl

theorem good_apply (r : Decoder) : good r = (!r.failed, r) := rfl

/-- An action that fails on a reader that has not failed before returns zero. -/
def ZeroOnFailure (action : Decode UInt64) : Prop :=
  ∀ raw, (action (ofSpan raw)).2.failed = true → (action (ofSpan raw)).1 = 0

theorem zeroOnFailure_pure (value : UInt64) : ZeroOnFailure (pure value) := by
  intro raw failed
  cases failed

theorem zeroOnFailure_ite {condition : Prop} [Decidable condition] {left right : Decode UInt64}
    (first : ZeroOnFailure left) (second : ZeroOnFailure right) :
    ZeroOnFailure (if condition then left else right) := by
  split
  · exact first
  · exact second

/-- A value behind a guard is zero wherever the guard, or the read before it, failed. -/
theorem zeroOnFailure_guarded {α : Type} (action : Decode α) (refused : α → Bool)
    (value : α → UInt64) :
    ZeroOnFailure do
      let x ← action
      if !(← good) || refused x then
        fail
        return 0
      return value x := by
  intro raw failed
  simp only [bind_apply, good_apply, Bool.not_not] at failed ⊢
  split
  · rfl
  · rename_i passed
    rw [if_neg passed] at failed
    exact absurd (Bool.or_eq_true_iff.mpr (.inl failed)) passed

end Decoder

/-- A size that could not be decoded counts as zero. -/
theorem decodeSize_of_failed {r : Decoder} (failed : (decodeSize r).2.failed = true) :
    (decodeSize r).1 = 0 := by
  revert failed
  unfold decodeSize
  rw [Decoder.bind_apply, Decoder.bind_apply, Decoder.good_apply]
  rcases decodeU8 r with ⟨tag, ⟨⟨raw⟩, _ | _⟩⟩
  · refine Decoder.zeroOnFailure_ite (Decoder.zeroOnFailure_pure _) ?_ raw
    apply Decoder.zeroOnFailure_ite (Decoder.zeroOnFailure_pure _)
    apply Decoder.zeroOnFailure_ite (Decoder.zeroOnFailure_guarded decodeU16 (· < 253) _)
    apply Decoder.zeroOnFailure_ite (Decoder.zeroOnFailure_guarded decodeU32 (· < 0x10000) _)
    simpa only [Bool.or_assoc] using
      Decoder.zeroOnFailure_guarded decodeU64 (fun x => x < 0x100000000 || x > maxSize) fun x => x
  · exact fun _ => rfl

/-- The reader is left good exactly on the shortest encodings of permitted sizes, and no
size above `maxSize` reaches the decoders that allocate or count. -/
structure LimitsSizes (raw : List UInt8) : Prop where
  accepts : ∀ size rest, decodeSize (ofSpan raw) = (size, ofSpan rest) ↔
    raw = (encodeSize size).flatten ++ rest ∧ size ≤ maxSize
  fails : (∀ size rest, raw = (encodeSize size).flatten ++ rest → ¬ size ≤ maxSize) →
    (decodeSize (ofSpan raw)).2.failed = true
  size : ∀ failed, (decodeSize ⟨⟨raw⟩, failed⟩).1 ≤ maxSize
  buffer : ∀ failed, (decodeBytes ⟨⟨raw⟩, failed⟩).1.toList.length ≤ maxSize.toNat
  count : ∀ failed (α : Type) (decodeElem : Decode α),
    (decodeRange decodeElem ⟨⟨raw⟩, failed⟩).1.toList.length ≤ maxSize.toNat

/-- The form of five bytes with a size above the limit. -/
def StartsOversized (raw : List UInt8) : Prop :=
  ∃ (x : UInt32) (rest : List UInt8), raw = 254 :: (encodeU32 x).flatten ++ rest ∧
    maxSize < x.toUInt64

/-- Unless the form of five bytes is oversized, the limit holds of every size that is read. -/
theorem le_maxSize_iff {raw rest : List UInt8} {size : UInt64} (allowed : ¬ StartsOversized raw)
    (starts : raw = (encodeSize size).flatten ++ rest) : size ≤ maxSize ↔ size.toNat < 2 ^ 32 := by
  rw [UInt64.le_iff_toNat_le, show maxSize.toNat = 4000000 from rfl]
  constructor
  · intro permitted
    omega
  · intro bound
    by_contra large
    obtain ⟨x, rfl⟩ : ∃ x : UInt32, size = x.toUInt64 :=
      ⟨UInt32.ofNat size.toNat, UInt64.toNat_inj.mp (by simp; omega)⟩
    have needed : 0x10000 ≤ x := by
      rw [UInt32.toNat_toUInt64] at large
      change 65536 ≤ x.toNat
      omega
    apply allowed
    refine ⟨x, rest, ?_, ?_⟩
    · rw [starts, Wire.flatten_encodeSize_u32 needed]
    · rw [UInt64.lt_iff_toNat_lt]
      exact Nat.lt_of_not_le large

/-- What a run of the decoder leaves and returns, if it did not fail. -/
theorem exists_rest_of_not_failed {raw : List UInt8}
    (passed : ¬ (decodeSize (ofSpan raw)).2.failed = true) :
    ∃ rest, decodeSize (ofSpan raw) = ((decodeSize (ofSpan raw)).1, ofSpan rest) := by
  revert passed
  rcases decodeSize (ofSpan raw) with ⟨size, ⟨⟨rest⟩, failed⟩⟩
  intro passed
  obtain rfl : failed = false := Bool.eq_false_iff.mpr passed
  exact ⟨rest, rfl⟩

/-- A size that is not one of the oversized ones is at most the limit. -/
theorem decodeSize_le {raw : List UInt8} (allowed : ¬ StartsOversized raw) (failed : Bool) :
    (decodeSize ⟨⟨raw⟩, failed⟩).1 ≤ maxSize := by
  by_cases fails : (decodeSize ⟨⟨raw⟩, failed⟩).2.failed = true
  · rw [decodeSize_of_failed fails]
    exact UInt64.le_iff_toNat_le.mpr (Nat.zero_le _)
  cases failed with
  | false =>
      obtain ⟨rest, run⟩ := exists_rest_of_not_failed fails
      obtain ⟨starts, bound⟩ := (decodeSize_eq_iff raw rest _).mp run
      exact (le_maxSize_iff allowed starts).mpr bound
  | true =>
      have dead : spanCursor.view (decodeSize ⟨⟨raw⟩, true⟩).2 = none :=
        Cursor.view_of_failed decodeSize rfl
      simp [spanCursor, fails] at dead

/-- The vector of bytes has the size that was read. -/
theorem length_decodeBytes (r : Decoder) :
    (decodeBytes r).1.toList.length = (decodeSize r).1.toNat := by
  change (StdVector.ofVector
    (read (zeros (decodeSize r).1.toNat) (decodeSize r).2).1).toList.length = _
  rw [StdVector.toList_ofVector, List.Vector.toList_length]

theorem length_decodeRange_le {α : Type} (decodeElem : Decode α) (r : Decoder) :
    (decodeRange decodeElem r).1.toList.length ≤ (decodeSize r).1.toNat :=
  (collect good decodeElem (decodeSize r).1.toNat (decodeSize r).2).1.2

/-- The limit is kept if and only if the input does not begin with an oversized size. -/
theorem limitsSizes_iff (raw : List UInt8) : LimitsSizes raw ↔ ¬ StartsOversized raw := by
  constructor
  · rintro limits ⟨x, rest, starts, large⟩
    have needed : 0x10000 ≤ x := by
      rw [UInt64.lt_iff_toNat_lt, UInt32.toNat_toUInt64] at large
      change 4000000 < x.toNat at large
      change 65536 ≤ x.toNat
      omega
    have run : decodeSize (ofSpan raw) = (x.toUInt64, ofSpan rest) := by
      rw [decodeSize_eq_iff, Wire.flatten_encodeSize_u32 needed, UInt32.toNat_toUInt64]
      exact ⟨starts, x.toNat_lt⟩
    exact UInt64.not_le.mpr large ((limits.accepts _ _).mp run).2
  · intro allowed
    have exactly (size : UInt64) (rest : List UInt8) :
        decodeSize (ofSpan raw) = (size, ofSpan rest) ↔
          raw = (encodeSize size).flatten ++ rest ∧ size ≤ maxSize := by
      rw [decodeSize_eq_iff]
      exact and_congr_right fun starts => (le_maxSize_iff allowed starts).symm
    constructor
    · exact exactly
    · intro refused
      by_contra passed
      obtain ⟨rest, run⟩ := exists_rest_of_not_failed passed
      obtain ⟨starts, permitted⟩ := (exactly _ rest).mp run
      exact refused _ _ starts permitted
    · exact decodeSize_le allowed
    · intro failed
      rw [length_decodeBytes]
      exact UInt64.le_iff_toNat_le.mp (decodeSize_le allowed failed)
    · intro failed α decodeElem
      exact (length_decodeRange_le decodeElem _).trans
        (UInt64.le_iff_toNat_le.mp (decodeSize_le allowed failed))

/-- Five bytes that declare 4,000,001 elements. -/
theorem not_limitsSizes_oversized : ¬ LimitsSizes [0xFE, 0x01, 0x09, 0x3D, 0x00] := by
  intro limits
  exact absurd (limits.size false) (by decide)

end StdBitcoin
