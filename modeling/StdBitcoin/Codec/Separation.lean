import StdBitcoin.Codec.Repetition

/-!
# Encodings that can be told apart

An encoder separates the values of a domain when an encoding in front of any
bytes determines both the value and the bytes. Every encoder with an exact
inverse separates, and separation composes over fields and over sequences of a
known length, also where no reader accepts the values.
-/

namespace Codec

variable {α β γ : Type}

/-- An encoding determines its value and where it ends, whatever follows. -/
def Separates (encode : α → List β) (domain : α → Prop) : Prop :=
  ∀ ⦃x y⦄, domain x → domain y → ∀ ⦃left right⦄,
    encode x ++ left = encode y ++ right → x = y ∧ left = right

/-- What is read back is told apart. -/
theorem Inverts.separates {reader : Reader β α} {domain : α → Prop} {encode : α → List β}
    (inverts : Inverts reader domain encode) : Separates encode domain := by
  intro x y first second left right same
  have reads_x := (inverts x _).mpr ⟨first, rfl⟩ left
  have reads_y := (inverts y _).mpr ⟨second, rfl⟩ right
  rw [same] at reads_x
  exact Prod.mk.inj (Option.some.inj (reads_x.symm.trans reads_y))

namespace Separates

variable {encode : α → List β} {domain : α → Prop}

/-- Encodings without anything behind them are told apart. -/
theorem inj (separates : Separates encode domain) {x y : α} (first : domain x) (second : domain y)
    (same : encode x = encode y) : x = y := by
  have padded : encode x ++ [] = encode y ++ [] := by rw [same]
  exact (separates first second padded).1

/-- Sequences of one length. -/
theorem flatMap (separates : Separates encode domain) {xs ys : List α}
    (length : xs.length = ys.length) (first : ∀ x ∈ xs, domain x) (second : ∀ y ∈ ys, domain y)
    {left right : List β} (same : xs.flatMap encode ++ left = ys.flatMap encode ++ right) :
    xs = ys ∧ left = right := by
  induction xs generalizing ys with
  | nil =>
      obtain rfl := List.length_eq_zero_iff.mp length.symm
      exact ⟨rfl, same⟩
  | cons x xs ih =>
      cases ys with
      | nil => cases length
      | cons y ys =>
          rw [List.flatMap_cons, List.flatMap_cons, List.append_assoc, List.append_assoc] at same
          obtain ⟨x_first, xs_first⟩ := List.forall_mem_cons.mp first
          obtain ⟨y_second, ys_second⟩ := List.forall_mem_cons.mp second
          obtain ⟨rfl, rest⟩ := separates x_first y_second same
          obtain ⟨rfl, rfl⟩ := ih (Nat.succ.inj length) xs_first ys_second rest
          exact ⟨rfl, rfl⟩

end Separates

end Codec
