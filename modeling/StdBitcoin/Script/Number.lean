import StdBitcoin.Codec.LittleEndian

/-!
# Script numbers

A script number is pushed as the little-endian bytes of its magnitude, with the sign
in the highest bit. No operation on the way overflows, and what is written is the
shortest of all byte strings that stand for the number.
-/

namespace StdBitcoin

open Codec

/-- The loop `while (abs_value != 0)`, which a 64-bit value leaves after eight rounds. -/
def magnitudeBytes : Nat → UInt64 → List UInt8
  | 0, _ => []
  | rounds + 1, absValue =>
      if absValue = 0 then []
      else (absValue &&& 0xFF).toUInt8 :: magnitudeBytes rounds (absValue >>> 8)

/-- `serialize_script_number`. -/
def serializeScriptNumber (value : Int64) : List UInt8 :=
  if value = 0 then
    []
  else
    let negative := value < 0
    let absValue := if negative then ~~~value.toUInt64 + 1 else value.toUInt64
    let result := magnitudeBytes 8 absValue
    let back := result.getLastD 0
    if back &&& 0x80 ≠ 0 then
      result ++ [if negative then 0x80 else 0x00]
    else if negative then
      result.dropLast ++ [back ||| 0x80]
    else
      result

/-- The number a byte string stands for, with the sign in the highest bit. -/
def scriptNumberValue (bytes : List UInt8) : Int :=
  let back := bytes.getLastD 0
  let magnitude := LittleEndian.ofBytes (bytes.dropLast ++ [back &&& 0x7F])
  if back &&& 0x80 ≠ 0 then -(magnitude : Int) else magnitude

theorem toNat_and_0xFF (value : UInt64) : (value &&& 0xFF).toNat = value.toNat % 256 := by
  rw [UInt64.toNat_and]
  exact Nat.and_two_pow_sub_one_eq_mod _ 8

theorem toNat_shiftRight_8 (value : UInt64) : (value >>> 8).toNat = value.toNat / 256 := by
  rw [UInt64.toNat_shiftRight]
  exact Nat.shiftRight_eq_div_pow _ 8

/-- The bytes of the magnitude are its value. -/
theorem ofBytes_magnitudeBytes {rounds : Nat} {absValue : UInt64}
    (enough : absValue.toNat < 256 ^ rounds) :
    LittleEndian.ofBytes (magnitudeBytes rounds absValue) = absValue.toNat := by
  induction rounds generalizing absValue with
  | zero =>
      rw [pow_zero, Nat.lt_one_iff] at enough
      rw [enough]
      rfl
  | succ rounds ih =>
      rw [magnitudeBytes]
      split
      · rename_i zero
        rw [zero]
        rfl
      · have fewer : (absValue >>> 8).toNat < 256 ^ rounds := by
          rw [toNat_shiftRight_8, Nat.div_lt_iff_lt_mul (by decide), ← pow_succ]
          exact enough
        rw [LittleEndian.ofBytes_cons, ih fewer, UInt64.toNat_toUInt8, toNat_and_0xFF,
          toNat_shiftRight_8]
        omega

theorem toNat_pos {value : UInt64} (nonzero : value ≠ 0) : 0 < value.toNat :=
  Nat.pos_of_ne_zero fun zero => nonzero (UInt64.toNat_inj.mp zero)

/-- The last magnitude byte is needed. -/
theorem pow_length_magnitudeBytes_le {absValue : UInt64} (nonzero : absValue ≠ 0) (rounds : Nat) :
    256 ^ (magnitudeBytes rounds absValue).length ≤ 256 * absValue.toNat := by
  have positive := toNat_pos nonzero
  induction rounds generalizing absValue with
  | zero =>
      rw [magnitudeBytes, List.length_nil, pow_zero]
      omega
  | succ rounds ih =>
      rw [magnitudeBytes, if_neg nonzero, List.length_cons, pow_succ']
      apply Nat.mul_le_mul_left
      by_cases last : absValue >>> 8 = 0
      · have done : magnitudeBytes rounds (absValue >>> 8) = [] := by
          rw [last]
          cases rounds <;> rfl
        rw [done]
        exact positive
      · have shifted := toNat_shiftRight_8 absValue
        have more := ih last (toNat_pos last)
        omega

/-- A magnitude that is not zero has a byte. -/
theorem magnitudeBytes_ne_nil {absValue : UInt64} (nonzero : absValue ≠ 0) :
    magnitudeBytes 8 absValue ≠ [] := by
  rw [magnitudeBytes, if_neg nonzero]
  exact List.cons_ne_nil _ _

theorem toInt_of_neg {value : Int64} (negative : value < 0) :
    value.toInt = -(value.toInt.natAbs : Int) := by
  have below : value.toInt < 0 := Int64.lt_iff_toInt_lt.mp negative
  omega

theorem toInt_of_not_neg {value : Int64} (nonnegative : ¬ value < 0) :
    value.toInt = value.toInt.natAbs := by
  have above : 0 ≤ value.toInt :=
    Int.not_lt.mp fun below => nonnegative (Int64.lt_iff_toInt_lt.mpr below)
  omega

/-- The magnitude of the sign-magnitude form, also for the least number. -/
theorem toNat_absValue (value : Int64) :
    (if value < 0 then ~~~value.toUInt64 + 1 else value.toUInt64).toNat = value.toInt.natAbs := by
  have sign := BitVec.toInt_eq_toNat_cond value.toBitVec
  change value.toInt = ite (2 * value.toUInt64.toNat < 18446744073709551616)
    (value.toUInt64.toNat : Int) (value.toUInt64.toNat - 18446744073709551616) at sign
  have range := value.toUInt64.toNat_lt
  split
  · rename_i negative
    have below := toInt_of_neg negative
    rw [UInt64.toNat_add, UInt64.toNat_not]
    change (18446744073709551615 - value.toUInt64.toNat + 1) % 18446744073709551616 = _
    split at sign <;> omega
  · rename_i nonnegative
    have above := toInt_of_not_neg nonnegative
    split at sign <;> omega

/-- The sign bit is set and taken away without harm to the other bits. -/
theorem masks (byte : UInt8) :
    (byte &&& 0x80 = 0 → byte &&& 0x7F = byte ∧ (byte ||| 0x80) &&& 0x7F = byte) ∧
      (byte ||| 0x80) &&& 0x80 ≠ 0 := by
  have all : ∀ n < 256, (UInt8.ofNat n &&& 0x80 = 0 → UInt8.ofNat n &&& 0x7F = UInt8.ofNat n ∧
      (UInt8.ofNat n ||| 0x80) &&& 0x7F = UInt8.ofNat n) ∧
      (UInt8.ofNat n ||| 0x80) &&& 0x80 ≠ 0 := by
    decide +kernel
  have fact := all byte.toNat byte.toNat_lt
  rwa [UInt8.ofNat_toNat] at fact

/-- Reading back a number, split at its last byte. -/
theorem scriptNumberValue_append (front : List UInt8) (back : UInt8) :
    scriptNumberValue (front ++ [back]) =
      if back &&& 0x80 ≠ 0 then -(LittleEndian.ofBytes (front ++ [back &&& 0x7F]) : Int)
      else LittleEndian.ofBytes (front ++ [back &&& 0x7F]) := by
  unfold scriptNumberValue
  rw [List.getLastD_concat, List.dropLast_concat]

/-- What is written for a number other than zero: its magnitude, with the sign in the
last byte or in one more. -/
theorem serializeScriptNumber_eq {value : Int64} (nonzero : value ≠ 0) :
    ∃ front back, LittleEndian.ofBytes (front ++ [back]) = value.toInt.natAbs ∧
      256 ^ front.length ≤ value.toInt.natAbs ∧
      serializeScriptNumber value =
        if back &&& 0x80 ≠ 0 then front ++ [back] ++ [if value < 0 then 0x80 else 0x00]
        else if value < 0 then front ++ [back ||| 0x80]
        else front ++ [back] := by
  unfold serializeScriptNumber
  rw [if_neg nonzero]
  dsimp only
  have absolute := toNat_absValue value
  set absValue := if value < 0 then ~~~value.toUInt64 + 1 else value.toUInt64
  have some_bits : absValue ≠ 0 := by
    intro none
    rw [none] at absolute
    exact nonzero (Int64.toInt_inj.mp (Int.natAbs_eq_zero.mp absolute.symm))
  have magnitude : LittleEndian.ofBytes (magnitudeBytes 8 absValue) = absValue.toNat :=
    ofBytes_magnitudeBytes absValue.toNat_lt
  have needed := pow_length_magnitudeBytes_le some_bits 8
  obtain ⟨front, back, split⟩ :=
    (List.eq_nil_or_concat' _).resolve_left (magnitudeBytes_ne_nil some_bits)
  rw [split, absolute] at needed magnitude
  rw [List.length_append, List.length_singleton, pow_succ'] at needed
  refine ⟨front, back, magnitude, Nat.le_of_mul_le_mul_left needed (by decide), ?_⟩
  rw [split, List.getLastD_concat, List.dropLast_concat]

/-- A number is read back. -/
theorem scriptNumberValue_serializeScriptNumber (value : Int64) :
    scriptNumberValue (serializeScriptNumber value) = value.toInt := by
  by_cases zero : value = 0
  · subst zero
    rfl
  obtain ⟨front, back, magnitude, -, written⟩ := serializeScriptNumber_eq zero
  rw [written]
  obtain ⟨plain, signed⟩ := masks back
  by_cases high : back &&& 0x80 = 0
  · obtain ⟨same, restored⟩ := plain high
    rw [if_neg (not_not.mpr high)]
    by_cases negative : value < 0
    · rw [if_pos negative, scriptNumberValue_append, if_pos signed, restored, magnitude]
      exact (toInt_of_neg negative).symm
    · rw [if_neg negative, scriptNumberValue_append, if_neg (not_not.mpr high), same, magnitude]
      exact (toInt_of_not_neg negative).symm
  · rw [if_pos high]
    have padded : LittleEndian.ofBytes (front ++ [back] ++ [0]) = value.toInt.natAbs := by
      rw [LittleEndian.ofBytes_append, magnitude]
      simp
    by_cases negative : value < 0
    · rw [if_pos negative, scriptNumberValue_append, if_pos (by decide)]
      change -((LittleEndian.ofBytes (front ++ [back] ++ [0]) : Nat) : Int) = _
      rw [padded]
      exact (toInt_of_neg negative).symm
    · rw [if_neg negative, scriptNumberValue_append, if_neg (by decide)]
      change ((LittleEndian.ofBytes (front ++ [back] ++ [0]) : Nat) : Int) = _
      rw [padded]
      exact (toInt_of_not_neg negative).symm

/-- There is one byte for each round at most. -/
theorem length_magnitudeBytes_le (rounds : Nat) (absValue : UInt64) :
    (magnitudeBytes rounds absValue).length ≤ rounds := by
  induction rounds generalizing absValue with
  | zero => exact le_rfl
  | succ rounds ih =>
      rw [magnitudeBytes]
      split
      · exact Nat.zero_le _
      · exact Nat.succ_le_succ (ih _)

/-- A number takes at most nine bytes. -/
theorem length_serializeScriptNumber_le (value : Int64) :
    (serializeScriptNumber value).length ≤ 9 := by
  unfold serializeScriptNumber
  dsimp only
  set absValue := if value < 0 then ~~~value.toUInt64 + 1 else value.toUInt64
  have short := length_magnitudeBytes_le 8 absValue
  split_ifs
  · exact Nat.zero_le _
  · rw [List.length_append, List.length_singleton]
    omega
  · rw [List.length_append, List.length_singleton]
    omega
  · rw [List.length_append, List.length_dropLast, List.length_singleton]
    omega
  · omega

section Minimal

/-- The low seven bits and the sign bit make up a byte. -/
theorem eq_of_masks {left right : UInt8} (low : left &&& 0x7F = right &&& 0x7F)
    (sign : left &&& 0x80 ≠ 0 ↔ right &&& 0x80 ≠ 0) : left = right := by
  have restored : ∀ n < 256, UInt8.ofNat n = (UInt8.ofNat n &&& 0x7F) |||
      if UInt8.ofNat n &&& 0x80 ≠ 0 then 0x80 else 0 := by
    decide +kernel
  have first := restored left.toNat left.toNat_lt
  have second := restored right.toNat right.toNat_lt
  rw [UInt8.ofNat_toNat] at first second
  rw [first, second, low]
  simp only [sign]

theorem toNat_and_low (byte : UInt8) : (byte &&& 0x7F).toNat < 128 := by
  rw [UInt8.toNat_and]
  exact Nat.and_lt_two_pow byte.toNat (by decide : 127 < 2 ^ 7)

/-- The magnitude leaves the highest bit of the last byte free. -/
theorem natAbs_scriptNumberValue_append (front : List UInt8) (back : UInt8) :
    (scriptNumberValue (front ++ [back])).natAbs =
      LittleEndian.ofBytes (front ++ [back &&& 0x7F]) := by
  rw [scriptNumberValue_append]
  split
  · rw [Int.natAbs_neg, Int.natAbs_natCast]
  · rw [Int.natAbs_natCast]

/-- The number of bytes bounds the magnitude. -/
theorem natAbs_scriptNumberValue_lt (front : List UInt8) (back : UInt8) :
    (scriptNumberValue (front ++ [back])).natAbs < 128 * 256 ^ front.length := by
  rw [natAbs_scriptNumberValue_append, LittleEndian.ofBytes_append_singleton]
  have low := LittleEndian.ofBytes_lt front
  have high : (back &&& 0x7F).toNat + 1 ≤ 128 := toNat_and_low back
  calc LittleEndian.ofBytes front + 256 ^ front.length * (back &&& 0x7F).toNat
    _ < 256 ^ front.length + 256 ^ front.length * (back &&& 0x7F).toNat := by omega
    _ = 256 ^ front.length * ((back &&& 0x7F).toNat + 1) := by ring
    _ ≤ 256 ^ front.length * 128 := Nat.mul_le_mul_left _ high
    _ = 128 * 256 ^ front.length := Nat.mul_comm ..

/-- The sign of a number other than zero stands in the last byte. -/
theorem scriptNumberValue_neg_iff {front : List UInt8} {back : UInt8}
    (nonzero : scriptNumberValue (front ++ [back]) ≠ 0) :
    back &&& 0x80 ≠ 0 ↔ scriptNumberValue (front ++ [back]) < 0 := by
  rw [scriptNumberValue_append] at nonzero ⊢
  split
  · rename_i signed
    rw [if_pos signed] at nonzero
    exact iff_of_true signed (by omega)
  · rename_i unsigned
    exact iff_of_false unsigned (by omega)

/-- Byte strings of one length stand for different numbers, unless both are zero. -/
theorem eq_of_scriptNumberValue_eq {left right : List UInt8} (length : left.length = right.length)
    (nonzero : scriptNumberValue left ≠ 0)
    (same : scriptNumberValue left = scriptNumberValue right) :
    left = right := by
  rcases List.eq_nil_or_concat' left with rfl | ⟨front, back, rfl⟩
  · exact (List.length_eq_zero_iff.mp length.symm).symm
  rcases List.eq_nil_or_concat' right with rfl | ⟨others, last, rfl⟩
  · exact absurd (List.length_eq_zero_iff.mp length) (List.append_ne_nil_of_right_ne_nil _ nofun)
  have magnitudes : front ++ [back &&& 0x7F] = others ++ [last &&& 0x7F] := by
    apply LittleEndian.eq_of_ofBytes_eq
    · simpa using length
    · rw [← natAbs_scriptNumberValue_append, same, natAbs_scriptNumberValue_append]
  have sign : back &&& 0x80 ≠ 0 ↔ last &&& 0x80 ≠ 0 := by
    rw [scriptNumberValue_neg_iff nonzero, same, scriptNumberValue_neg_iff (same ▸ nonzero)]
  obtain ⟨rfl, low⟩ := List.append_inj' magnitudes rfl
  rw [eq_of_masks (List.singleton_inj.mp low) sign]

theorem le_toNat_of_high {byte : UInt8} (high : byte &&& 0x80 ≠ 0) : 128 ≤ byte.toNat := by
  have all : ∀ n < 256, UInt8.ofNat n &&& 0x80 ≠ 0 → 128 ≤ (UInt8.ofNat n).toNat := by
    decide +kernel
  have fact := all byte.toNat byte.toNat_lt
  rw [UInt8.ofNat_toNat] at fact
  exact fact high

/-- A number that is written in several bytes does not fit fewer. -/
theorem le_natAbs_of_length {value : Int64} (several : 2 ≤ (serializeScriptNumber value).length) :
    128 * 256 ^ ((serializeScriptNumber value).length - 2) ≤ value.toInt.natAbs := by
  by_cases zero : value = 0
  · subst zero
    cases several
  obtain ⟨front, back, magnitude, needed, written⟩ := serializeScriptNumber_eq zero
  rw [written] at several ⊢
  by_cases high : back &&& 0x80 = 0
  · rw [if_neg (not_not.mpr high)] at several ⊢
    -- Both remaining forms have the length of the magnitude.
    have whole {last : UInt8} (two : 2 ≤ (front ++ [last]).length) :
        128 * 256 ^ ((front ++ [last]).length - 2) ≤ value.toInt.natAbs := by
      rw [List.length_append, List.length_singleton] at two ⊢
      obtain ⟨rest, length⟩ : ∃ rest, front.length = rest + 1 := ⟨front.length - 1, by omega⟩
      rw [length, pow_succ'] at needed
      rw [length, show rest + 1 + 1 - 2 = rest from rfl]
      omega
    split at several
    · rw [if_pos ‹_›]
      exact whole several
    · rw [if_neg ‹_›]
      exact whole several
  · rw [if_pos high, ← magnitude, LittleEndian.ofBytes_append_singleton]
    have top := le_toNat_of_high high
    have length (last : UInt8) : (front ++ [back] ++ [last]).length - 2 = front.length := by simp
    rw [length]
    calc 128 * 256 ^ front.length
      _ = 256 ^ front.length * 128 := Nat.mul_comm ..
      _ ≤ 256 ^ front.length * back.toNat := Nat.mul_le_mul_left _ top
      _ ≤ LittleEndian.ofBytes front + 256 ^ front.length * back.toNat := Nat.le_add_left ..

/-- Every other byte string for the number is longer. -/
theorem length_lt_of_scriptNumberValue_eq {value : Int64} {bytes : List UInt8}
    (decodes : scriptNumberValue bytes = value.toInt)
    (other : bytes ≠ serializeScriptNumber value) :
    (serializeScriptNumber value).length < bytes.length := by
  have own := scriptNumberValue_serializeScriptNumber value
  by_cases zero : value = 0
  · subst zero
    exact List.length_pos_iff.mpr other
  have nonzero : value.toInt ≠ 0 := fun none => zero (Int64.toInt_inj.mp none)
  rcases List.eq_nil_or_concat' bytes with rfl | ⟨front, back, rfl⟩
  · exact absurd decodes.symm nonzero
  by_contra shorter
  have same : (front ++ [back]).length = (serializeScriptNumber value).length := by
    by_contra different
    rw [List.length_append, List.length_singleton] at shorter different
    have needed := @le_natAbs_of_length value (by omega)
    have bound := natAbs_scriptNumberValue_lt front back
    rw [decodes] at bound
    have widths : 256 ^ front.length ≤ 256 ^ ((serializeScriptNumber value).length - 2) :=
      Nat.pow_le_pow_right (by decide) (by omega)
    omega
  exact other (eq_of_scriptNumberValue_eq same (decodes ▸ nonzero) (decodes.trans own.symm))

end Minimal

section Checked

/-- An unsigned sum, if it does not wrap around. -/
def checkedAdd (left right : UInt64) : Option UInt64 :=
  if left.toNat + right.toNat < 2 ^ 64 then some (left + right) else none

/-- A cast to `std::uint8_t`, if it keeps the value. -/
def checkedNarrow (value : UInt64) : Option UInt8 :=
  if value.toNat < 2 ^ 8 then some value.toUInt8 else none

/-- The loop with its casts checked; there is no result if it has not ended. -/
def checkedMagnitudeBytes : Nat → UInt64 → Option (List UInt8)
  | 0, absValue => if absValue = 0 then some [] else none
  | rounds + 1, absValue =>
      if absValue = 0 then
        some []
      else do
        let byte ← checkedNarrow (absValue &&& 0xFF)
        let bytes ← checkedMagnitudeBytes rounds (absValue >>> 8)
        return byte :: bytes

/-- The magnitude, if the sum for a negative number does not wrap around. -/
def checkedAbsValue (value : Int64) : Option UInt64 :=
  if value < 0 then checkedAdd (~~~value.toUInt64) 1 else some value.toUInt64

/-- `serialize_script_number` without a result where an operation overflows, a cast
loses bits or `back` is called on an empty vector. -/
def checkedSerializeScriptNumber (value : Int64) : Option (List UInt8) :=
  if value = 0 then
    some []
  else do
    let negative := value < 0
    let absValue ← checkedAbsValue value
    let result ← checkedMagnitudeBytes 8 absValue
    let back ← result.getLast?
    if back &&& 0x80 ≠ 0 then
      return result ++ [if negative then 0x80 else 0x00]
    if negative then
      return result.dropLast ++ [back ||| 0x80]
    return result

/-- The loop over the magnitude never overflows. -/
theorem checkedMagnitudeBytes_eq {rounds : Nat} {absValue : UInt64}
    (enough : absValue.toNat < 256 ^ rounds) :
    checkedMagnitudeBytes rounds absValue = some (magnitudeBytes rounds absValue) := by
  induction rounds generalizing absValue with
  | zero =>
      have zero : absValue = 0 := UInt64.toNat_inj.mp (Nat.lt_one_iff.mp enough)
      rw [checkedMagnitudeBytes, if_pos zero, magnitudeBytes]
  | succ rounds ih =>
      rw [checkedMagnitudeBytes, magnitudeBytes]
      split
      · rfl
      · have fewer : (absValue >>> 8).toNat < 256 ^ rounds := by
          rw [toNat_shiftRight_8, Nat.div_lt_iff_lt_mul (by decide), ← pow_succ]
          exact enough
        have fits : (absValue &&& 0xFF).toNat < 2 ^ 8 := by
          rw [toNat_and_0xFF]
          exact Nat.mod_lt _ (by decide)
        rw [checkedNarrow, if_pos fits, ih fewer]
        rfl

/-- The complement of a negative number leaves room for one more, down to the least
number. -/
theorem checkedAdd_not {value : Int64} (negative : value < 0) :
    checkedAdd (~~~value.toUInt64) 1 = some (~~~value.toUInt64 + 1) := by
  have absolute := toNat_absValue value
  rw [if_pos negative] at absolute
  have below : value.toInt < 0 := Int64.lt_iff_toInt_lt.mp negative
  have nonzero : value.toUInt64.toNat ≠ 0 := by
    intro zero
    have pattern : value.toUInt64 = 0 := UInt64.toNat_inj.mp zero
    rw [pattern] at absolute
    change 0 = value.toInt.natAbs at absolute
    omega
  rw [checkedAdd, if_pos]
  rw [UInt64.toNat_not]
  change 18446744073709551615 - value.toUInt64.toNat + 1 < 18446744073709551616
  omega

/-- `serialize_script_number` never overflows. -/
theorem checkedSerializeScriptNumber_eq (value : Int64) :
    checkedSerializeScriptNumber value = some (serializeScriptNumber value) := by
  unfold checkedSerializeScriptNumber serializeScriptNumber
  by_cases zero : value = 0
  · rw [if_pos zero, if_pos zero]
  rw [if_neg zero, if_neg zero]
  have absolute := toNat_absValue value
  have checked : checkedAbsValue value =
      some (if value < 0 then ~~~value.toUInt64 + 1 else value.toUInt64) := by
    unfold checkedAbsValue
    split
    · exact checkedAdd_not ‹_›
    · rfl
  dsimp only
  rw [checked]
  set absValue := if value < 0 then ~~~value.toUInt64 + 1 else value.toUInt64
  have nonzero : absValue ≠ 0 := by
    intro none
    rw [none] at absolute
    exact zero (Int64.toInt_inj.mp (Int.natAbs_eq_zero.mp absolute.symm))
  obtain ⟨front, back, split⟩ :=
    (List.eq_nil_or_concat' _).resolve_left (magnitudeBytes_ne_nil nonzero)
  have loop : checkedMagnitudeBytes 8 absValue = some (magnitudeBytes 8 absValue) :=
    checkedMagnitudeBytes_eq absValue.toNat_lt
  simp only [Option.bind_eq_bind, Option.bind_some, loop, split, List.getLast?_concat,
    List.getLastD_concat]
  split_ifs <;> rfl

end Checked

/-- Script numbers are written without overflow, and in the only shortest way. -/
theorem serializeScriptNumber_minimal (value : Int64) :
    checkedSerializeScriptNumber value = some (serializeScriptNumber value) ∧
    scriptNumberValue (serializeScriptNumber value) = value.toInt ∧
    (∀ bytes, scriptNumberValue bytes = value.toInt → bytes ≠ serializeScriptNumber value →
      (serializeScriptNumber value).length < bytes.length) ∧
    (serializeScriptNumber value).length ≤ 9 :=
  ⟨checkedSerializeScriptNumber_eq value, scriptNumberValue_serializeScriptNumber value,
    fun _ => length_lt_of_scriptNumberValue_eq, length_serializeScriptNumber_le value⟩

example : serializeScriptNumber Int64.minValue = [0, 0, 0, 0, 0, 0, 0, 0x80, 0x80] := by decide

end StdBitcoin
