import Mathlib.Data.List.Basic
import StdBitcoin.Vocabulary

/-!
# The text of a hash identifier

An identifier is written in hexadecimal with its last byte first. The literals of the
tests read such a text back, whatever the case of its letters.
-/

namespace StdBitcoin

/-- `hex`. -/
def hexDigits : List Char :=
  ['0', '1', '2', '3', '4', '5', '6', '7', '8', '9', 'a', 'b', 'c', 'd', 'e', 'f']

/-- `hex[value]`. -/
def hexDigit (value : Nat) (small : value < 16) : Char := hexDigits.get ⟨value, small⟩

theorem toNat_high_lt (byte : UInt8) : (byte >>> 4).toNat < 16 := by
  rw [UInt8.toNat_shiftRight]
  have := byte.toNat_lt
  simp only [UInt8.reduceToNat, Nat.reduceMod, Nat.shiftRight_eq_div_pow]
  omega

theorem toNat_low_lt (byte : UInt8) : (byte &&& 0x0F).toNat < 16 := by
  rw [UInt8.toNat_and]
  exact Nat.lt_of_le_of_lt Nat.and_le_right (by decide)

/-- The two digits of a byte. -/
def formatByte (byte : UInt8) : List Char :=
  [hexDigit (byte >>> 4).toNat (toNat_high_lt byte),
    hexDigit (byte &&& 0x0F).toNat (toNat_low_lt byte)]

/-- `format_hash_id`: the text that is handed to the formatter of strings. -/
def formatHashId {policy : HashPolicy} (hash : BasicHashId policy) : List Char :=
  hash.asBytes.reverse.flatMap formatByte

/-- `hex_value`; any other character is an error. -/
def hexValue (c : Char) : Option Nat :=
  if '0' ≤ c ∧ c ≤ '9' then some (c.toNat - '0'.toNat)
  else if 'a' ≤ c ∧ c ≤ 'f' then some (10 + (c.toNat - 'a'.toNat))
  else if 'A' ≤ c ∧ c ≤ 'F' then some (10 + (c.toNat - 'A'.toNat))
  else none

/-- `hex_data`; a text of odd length is an error. -/
def hexData : List Char → Option (List UInt8)
  | [] => some []
  | [_] => none
  | first :: second :: rest => do
      let hi ← hexValue first
      let lo ← hexValue second
      let bytes ← hexData rest
      return UInt8.ofNat ((hi <<< 4) ||| lo) :: bytes

/-- `make_hash_id`; a text of another size is an error. -/
def makeHashId {policy : HashPolicy} (text : List Char) : Option (BasicHashId policy) := do
  let result ← hexData text
  if size : result.reverse.length = 32 then
    return ⟨⟨result.reverse, size⟩⟩
  else
    none

section Digits

/-- The characters of the digits are those from `0` and from `a`. -/
theorem toNat_hexDigit {value : Nat} (small : value < 16) :
    (hexDigit value small).toNat = if value < 10 then 48 + value else 87 + value := by
  revert value
  decide

/-- Only the capitals are changed, to the letter 32 places on. -/
theorem toNat_toLower (c : Char) :
    c.toLower.toNat = if 65 ≤ c.toNat ∧ c.toNat ≤ 90 then c.toNat + 32 else c.toNat := by
  by_cases upper : c.val ≥ 'A'.val ∧ c.val ≤ 'Z'.val
  · have range : 65 ≤ c.toNat ∧ c.toNat ≤ 90 := upper
    have lowered : c.toLower.val = c.val + 32 := congrArg Char.val (dif_pos upper)
    rw [if_pos range, Char.toNat, lowered, UInt32.toNat_add]
    exact Nat.mod_eq_of_lt (Nat.lt_of_le_of_lt (Nat.add_le_add_right range.2 _) (by decide))
  · have other : ¬ (65 ≤ c.toNat ∧ c.toNat ≤ 90) := upper
    have unchanged : c.toLower = c := dif_neg upper
    rw [if_neg other, unchanged]

/-- A character has the value of a digit exactly if it is that digit, up to its case. -/
theorem hexValue_eq_some_iff (c : Char) (n : Nat) :
    hexValue c = some n ↔ ∃ small : n < 16, c.toLower = hexDigit n small := by
  have same (small : n < 16) : c.toLower = hexDigit n small ↔
      (if 65 ≤ c.toNat ∧ c.toNat ≤ 90 then c.toNat + 32 else c.toNat) =
        if n < 10 then 48 + n else 87 + n := by
    rw [← Char.toNat_inj, toNat_toLower, toNat_hexDigit small]
  have le (a b : Char) : a ≤ b ↔ a.toNat ≤ b.toNat := Iff.rfl
  simp only [hexValue, le, same, exists_prop]
  have digits : '0'.toNat = 48 ∧ '9'.toNat = 57 ∧ 'a'.toNat = 97 ∧ 'f'.toNat = 102 ∧
      'A'.toNat = 65 ∧ 'F'.toNat = 70 := by decide
  obtain ⟨zero, nine, a, f, A, F⟩ := digits
  rw [zero, nine, a, f, A, F]
  grind

theorem hexDigit_congr {m n : Nat} {small : m < 16} (same : m = n) :
    hexDigit m small = hexDigit n (same ▸ small) := by
  subst same
  rfl

/-- Digits are written in lower case. -/
theorem toLower_hexDigit {value : Nat} (small : value < 16) :
    (hexDigit value small).toLower = hexDigit value small := by
  revert value
  decide

end Digits

section Bytes

theorem toNat_high (byte : UInt8) : (byte >>> 4).toNat = byte.toNat / 16 := by
  rw [UInt8.toNat_shiftRight]
  exact Nat.shiftRight_eq_div_pow byte.toNat 4

theorem toNat_low (byte : UInt8) : (byte &&& 0x0F).toNat = byte.toNat % 16 := by
  rw [UInt8.toNat_and]
  exact Nat.and_two_pow_sub_one_eq_mod byte.toNat 4

/-- Two digits make up a byte. -/
theorem toNat_nibbles {hi lo : Nat} (high : hi < 16) (low : lo < 16) :
    (UInt8.ofNat ((hi <<< 4) ||| lo)).toNat = 16 * hi + lo := by
  have sum : (hi <<< 4) ||| lo = 16 * hi + lo := by
    rw [← Nat.shiftLeft_add_eq_or_of_lt low, Nat.shiftLeft_eq, Nat.mul_comm]
  rw [sum, UInt8.toNat_ofNat']
  exact Nat.mod_eq_of_lt (by omega)

/-- Two characters read as a byte exactly if they are its digits, up to their case. -/
theorem nibbles_iff (first second : Char) (byte : UInt8) :
    (∃ hi lo, hexValue first = some hi ∧ hexValue second = some lo ∧
      UInt8.ofNat ((hi <<< 4) ||| lo) = byte) ↔
      [first.toLower, second.toLower] = formatByte byte := by
  simp only [hexValue_eq_some_iff, formatByte, List.cons.injEq, and_true]
  constructor
  · intro read
    obtain ⟨hi, lo, ⟨high, front⟩, ⟨low, back⟩, rfl⟩ := read
    have value := toNat_nibbles high low
    rw [front, back]
    refine ⟨hexDigit_congr ?_, hexDigit_congr ?_⟩
    · rw [toNat_high, value]
      omega
    · rw [toNat_low, value]
      omega
  · intro digits
    refine ⟨_, _, ⟨toNat_high_lt byte, digits.1⟩, ⟨toNat_low_lt byte, digits.2⟩, ?_⟩
    rw [← UInt8.toNat_inj, toNat_nibbles (toNat_high_lt byte) (toNat_low_lt byte), toNat_high,
      toNat_low]
    omega

/-- Every byte is written with two digits. -/
theorem length_flatMap_formatByte (bytes : List UInt8) :
    (bytes.flatMap formatByte).length = 2 * bytes.length := by
  induction bytes with
  | nil => rfl
  | cons byte bytes ih =>
      rw [List.flatMap_cons, List.length_append, ih, List.length_cons, formatByte]
      simp only [List.length_cons, List.length_nil]
      omega

/-- The digits of each byte stand together. -/
theorem drop_flatMap_formatByte (bytes : List UInt8) (count : Nat) :
    (bytes.flatMap formatByte).drop (2 * count) = (bytes.drop count).flatMap formatByte := by
  induction count generalizing bytes with
  | zero => rfl
  | succ count ih =>
      cases bytes with
      | nil => rfl
      | cons byte bytes => exact ih bytes

/-- What is read is what was written, up to the case of the letters. -/
theorem hexData_eq_some_iff (text : List Char) (bytes : List UInt8) :
    hexData text = some bytes ↔ text.map Char.toLower = bytes.flatMap formatByte := by
  induction text using hexData.induct generalizing bytes with
  | case1 =>
      cases bytes with
      | nil => exact iff_of_true rfl rfl
      | cons byte bytes => exact iff_of_false nofun nofun
  | case2 c =>
      refine iff_of_false nofun fun same => ?_
      have lengths := congrArg List.length same
      rw [length_flatMap_formatByte, List.length_map, List.length_singleton] at lengths
      omega
  | case3 first second rest ih =>
      cases bytes with
      | nil =>
          refine iff_of_false (fun read => ?_) nofun
          simp [hexData, Option.bind_eq_some_iff] at read
      | cons byte bytes =>
          have split : first.toLower :: second.toLower :: rest.map Char.toLower =
              formatByte byte ++ bytes.flatMap formatByte ↔
                [first.toLower, second.toLower] = formatByte byte ∧
                  rest.map Char.toLower = bytes.flatMap formatByte := by
            simp only [formatByte, List.cons_append, List.nil_append, List.cons.injEq, and_true,
              and_assoc]
          rw [List.map_cons, List.map_cons, List.flatMap_cons, split, ← nibbles_iff, ← ih]
          simp only [hexData, Option.bind_eq_bind, Option.bind_eq_some_iff, Option.pure_def,
            Option.some.injEq, List.cons.injEq]
          constructor
          · intro read
            obtain ⟨hi, high, lo, low, others, tail, head, rfl⟩ := read
            exact ⟨⟨hi, lo, high, low, head⟩, tail⟩
          · intro read
            obtain ⟨⟨hi, lo, high, low, head⟩, tail⟩ := read
            exact ⟨hi, high, lo, low, bytes, tail, head, rfl⟩

/-- Every even number of digits is read. -/
theorem isSome_hexData (text : List Char) :
    (hexData text).isSome ↔ text.length % 2 = 0 ∧ ∀ c ∈ text, (hexValue c).isSome := by
  induction text using hexData.induct with
  | case1 => exact iff_of_true rfl ⟨rfl, nofun⟩
  | case2 c => exact iff_of_false nofun nofun
  | case3 first second rest ih =>
      have parity : (first :: second :: rest).length % 2 = rest.length % 2 := by
        rw [List.length_cons, List.length_cons]
        omega
      rw [parity, List.forall_mem_cons, List.forall_mem_cons]
      refine Iff.trans ?_ (and_left_comm.trans (and_congr_right' and_left_comm)).symm
      rw [← ih, hexData]
      cases hexValue first <;> cases hexValue second <;> cases hexData rest <;> simp

end Bytes

/-- The text of an identifier is in lower case. -/
theorem map_toLower_formatHashId {policy : HashPolicy} (hash : BasicHashId policy) :
    (formatHashId hash).map Char.toLower = formatHashId hash := by
  rw [formatHashId, List.map_flatMap]
  congr 1
  funext byte
  rw [formatByte, List.map_cons, List.map_cons, toLower_hexDigit, toLower_hexDigit]
  rfl

/-- A text is accepted for an identifier if and only if it is that of the identifier, letter case
apart. -/
theorem makeHashId_eq_some_iff {policy : HashPolicy} (text : List Char)
    (hash : BasicHashId policy) :
    makeHashId text = some hash ↔ text.map Char.toLower = formatHashId hash := by
  rw [formatHashId, ← hexData_eq_some_iff, makeHashId, Option.bind_eq_bind,
    Option.bind_eq_some_iff]
  constructor
  · intro read
    obtain ⟨result, data, made⟩ := read
    split at made
    · obtain rfl := Option.some.inj made
      rw [BasicHashId.asBytes, List.Vector.toList_mk, List.reverse_reverse]
      exact data
    · cases made
  · intro data
    refine ⟨_, data, ?_⟩
    have size : hash.asBytes.reverse.reverse.length = 32 := by
      rw [List.reverse_reverse, hash.length_asBytes]
    rw [dif_pos size]
    refine congrArg some (BasicHashId.ext (Subtype.ext ?_))
    exact List.reverse_reverse _

/-- The digits at each place of the text are those of the byte at the same place from the end. -/
theorem take_drop_formatHashId {policy : HashPolicy} (hash : BasicHashId policy) (i : Fin 32) :
    ((formatHashId hash).drop (2 * i)).take 2 = formatByte (hash.value.get i.rev) := by
  have inside : i.val < hash.asBytes.reverse.length := by
    rw [List.length_reverse, hash.length_asBytes]
    exact i.isLt
  have byte : hash.asBytes.reverse[i.val] = hash.value.get i.rev := by
    rw [List.getElem_reverse, List.Vector.get_eq_get_toList]
    simp only [hash.length_asBytes]
    refine getElem_congr_idx ?_
    rw [Fin.val_rev]
    omega
  rw [formatHashId, drop_flatMap_formatByte, List.drop_eq_getElem_cons inside, List.flatMap_cons,
    byte]
  rfl

/-- A byte is its two digits. -/
theorem toNat_eq_digits (byte : UInt8) :
    byte.toNat = 16 * (byte >>> 4).toNat + (byte &&& 0x0F).toNat := by
  rw [toNat_high, toNat_low]
  omega

/-- An identifier has a text of sixty-four characters, from which it is read back. They are the
lower-case digits of its bytes, the last byte first and the high digit of a byte before the low
one. The texts that are read are those of sixty-four digits in either case, and what is read from
one is the identifier with this text in lower case. -/
theorem hashId_text {policy : HashPolicy} :
    (∀ hash : BasicHashId policy,
      (formatHashId hash).length = 64 ∧
      (∀ i : Fin 32, ∃ hi lo : Fin 16, (hash.value.get i.rev).toNat = 16 * hi + lo ∧
        ((formatHashId hash).drop (2 * i)).take 2 = [hexDigit hi hi.isLt, hexDigit lo lo.isLt]) ∧
      makeHashId (formatHashId hash) = some hash) ∧
    (∀ text, (∃ hash : BasicHashId policy, makeHashId text = some hash) ↔
      text.length = 64 ∧ ∀ c ∈ text, (hexValue c).isSome) ∧
    ∀ text (hash : BasicHashId policy),
      makeHashId text = some hash ↔ text.map Char.toLower = formatHashId hash := by
  have length (hash : BasicHashId policy) : (formatHashId hash).length = 64 := by
    rw [formatHashId, length_flatMap_formatByte, List.length_reverse, hash.length_asBytes]
  refine ⟨fun hash => ⟨length hash, fun i => ?_, ?_⟩, fun text => ?_, makeHashId_eq_some_iff⟩
  · let byte := hash.value.get i.rev
    exact ⟨⟨_, toNat_high_lt byte⟩, ⟨_, toNat_low_lt byte⟩, toNat_eq_digits byte,
      take_drop_formatHashId hash i⟩
  · rw [makeHashId_eq_some_iff, map_toLower_formatHashId]
  · constructor
    · intro read
      obtain ⟨hash, read⟩ := read
      have size := congrArg List.length ((makeHashId_eq_some_iff text hash).mp read)
      rw [List.length_map, length] at size
      obtain ⟨bytes, data, -⟩ := Option.bind_eq_some_iff.mp read
      exact ⟨size, ((isSome_hexData text).mp (Option.isSome_of_eq_some data)).2⟩
    · intro digits
      obtain ⟨bytes, data⟩ := Option.isSome_iff_exists.mp
        ((isSome_hexData text).mpr ⟨by rw [digits.1], digits.2⟩)
      have size := congrArg List.length ((hexData_eq_some_iff text bytes).mp data)
      rw [List.length_map, length_flatMap_formatByte, digits.1] at size
      have count : bytes.reverse.length = 32 := by
        rw [List.length_reverse]
        omega
      refine ⟨⟨⟨bytes.reverse, count⟩⟩, ?_⟩
      rw [makeHashId, data]
      exact dif_pos count

end StdBitcoin
