import StdBitcoin.Codec.Repetition
import Mathlib.Data.Nat.Digits.Defs

/-!
# Little-endian byte strings

A byte string is read as the base-256 number whose least significant digit comes
first. Writing a number at a fixed width truncates it, and the two directions
are inverse to each other at that width.
-/

namespace Codec.LittleEndian

/-- The number a byte string stands for. -/
def ofBytes (bytes : List UInt8) : Nat :=
  Nat.ofDigits 256 (bytes.map UInt8.toNat)

/-- The low `width` bytes of a number. -/
def toBytes : (width : Nat) → Nat → List UInt8
  | 0, _ => []
  | width + 1, value => UInt8.ofNat value :: toBytes width (value / 256)

@[simp] theorem ofBytes_nil : ofBytes [] = 0 := rfl

@[simp] theorem ofBytes_cons (byte : UInt8) (bytes : List UInt8) :
    ofBytes (byte :: bytes) = byte.toNat + 256 * ofBytes bytes :=
  Nat.ofDigits_cons

/-- Bytes behind others count as many powers more. -/
theorem ofBytes_append (left right : List UInt8) :
    ofBytes (left ++ right) = ofBytes left + 256 ^ left.length * ofBytes right := by
  unfold ofBytes
  rw [List.map_append, Nat.ofDigits_append, List.length_map]

/-- The value fits the width. -/
theorem ofBytes_lt (bytes : List UInt8) : ofBytes bytes < 256 ^ bytes.length := by
  have small : ∀ digit ∈ bytes.map UInt8.toNat, digit < 256 := by
    intro digit member
    obtain ⟨byte, _, rfl⟩ := List.mem_map.mp member
    exact byte.toNat_lt
  have bound := Nat.ofDigits_lt_base_pow_length (by omega : 1 < 256) small
  rwa [List.length_map] at bound

@[simp] theorem length_toBytes (width value : Nat) : (toBytes width value).length = width := by
  induction width generalizing value with
  | zero => rfl
  | succ width ih => rw [toBytes, List.length_cons, ih]

/-- What is read back is the value up to the width. -/
theorem ofBytes_toBytes (width value : Nat) :
    ofBytes (toBytes width value) = value % 256 ^ width := by
  induction width generalizing value with
  | zero => rw [toBytes, ofBytes_nil, pow_zero, Nat.mod_one]
  | succ width ih =>
      rw [toBytes, ofBytes_cons, ih, pow_succ', Nat.mod_mul, UInt8.toNat_ofNat']

/-- A value that fits is read back. -/
theorem ofBytes_toBytes_of_lt {width value : Nat} (fits : value < 256 ^ width) :
    ofBytes (toBytes width value) = value := by
  rw [ofBytes_toBytes, Nat.mod_eq_of_lt fits]

/-- What was read is written back. -/
theorem toBytes_ofBytes (bytes : List UInt8) : toBytes bytes.length (ofBytes bytes) = bytes := by
  induction bytes with
  | nil => rfl
  | cons byte bytes ih =>
      have small : byte.toNat < 256 := byte.toNat_lt
      have low : UInt8.ofNat (byte.toNat + 256 * ofBytes bytes) = byte := by
        apply UInt8.toNat_inj.mp
        rw [UInt8.toNat_ofNat']
        omega
      have high : (byte.toNat + 256 * ofBytes bytes) / 256 = ofBytes bytes := by omega
      rw [ofBytes_cons, List.length_cons, toBytes, low, high, ih]

/-- What was read is written back at its width. -/
theorem toBytes_ofBytes_of_length {width : Nat} {bytes : List UInt8}
    (length : bytes.length = width) :
    toBytes width (ofBytes bytes) = bytes := by
  subst length
  exact toBytes_ofBytes bytes

/-- Byte strings of one length are told apart by their numbers. -/
theorem eq_of_ofBytes_eq {left right : List UInt8} (length : left.length = right.length)
    (same : ofBytes left = ofBytes right) : left = right := by
  rw [← toBytes_ofBytes left, ← toBytes_ofBytes right, length, same]

theorem ofBytes_append_singleton (front : List UInt8) (back : UInt8) :
    ofBytes (front ++ [back]) = ofBytes front + 256 ^ front.length * back.toNat := by
  rw [ofBytes_append, ofBytes_cons, ofBytes_nil, Nat.mul_zero, Nat.add_zero]

/-- Bytes of a known width, decoded by `ofNat`, are read exactly off the
encoding at that width. -/
theorem inverts_map_take {α : Type} {width : Nat} {ofNat : Nat → α} {toNat : α → Nat}
    (fits : ∀ value, toNat value < 256 ^ width)
    (left_inverse : ∀ value, ofNat (toNat value) = value)
    (right_inverse : ∀ number, number < 256 ^ width → toNat (ofNat number) = number) :
    Inverts ((fun bytes : List.Vector UInt8 width => ofNat (ofBytes bytes.toList)) <$> take width)
      (fun _ => True) fun value => toBytes width (toNat value) := by
  intro value taken
  rw [reads_map_iff, true_and]
  constructor
  · rintro ⟨bytes, reads, rfl⟩
    obtain rfl := (reads_take_iff _ _).mp reads
    have bound := ofBytes_lt bytes.toList
    rw [bytes.toList_length] at bound
    dsimp only
    rw [right_inverse _ bound, toBytes_ofBytes_of_length bytes.toList_length]
  · rintro rfl
    refine ⟨⟨toBytes width (toNat value), length_toBytes _ _⟩, (reads_take_iff _ _).mpr rfl, ?_⟩
    change value = ofNat (ofBytes (toBytes width (toNat value)))
    rw [ofBytes_toBytes_of_lt (fits value), left_inverse]

end Codec.LittleEndian
