import StdBitcoin.Codec.Separation

/-!
# Streams of items

A stream is read item by item from the front until no item can be read. When the
encoder separates its items the result is determined by the stream, and a
fully read stream can be followed by any other.
-/

namespace Codec

variable {α β : Type} (encode : α → List β)

/-- No item can be read at the front. -/
def Stuck (input : List β) : Prop := ∀ item, ¬ encode item <+: input

/-- The items at the front of an input, up to where none can be read. -/
structure Decodes (input : List β) (items : List α) (rest : List β) : Prop where
  split : input = items.flatMap encode ++ rest
  stuck : Stuck encode rest

variable {encode}

theorem stuck_nil (nonempty : ∀ item, encode item ≠ []) : Stuck encode [] :=
  fun item leads => nonempty item (List.prefix_nil.mp leads)

namespace Decodes

variable {input rest : List β} {items : List α}

theorem of_stuck (stuck : Stuck encode input) : Decodes encode input [] input := ⟨rfl, stuck⟩

/-- An item in front of an input comes before its items. -/
theorem cons (decodes : Decodes encode input items rest) (item : α) :
    Decodes encode (encode item ++ input) (item :: items) rest where
  split := by rw [List.flatMap_cons, List.append_assoc, ← decodes.split]
  stuck := decodes.stuck

/-- A fully read stream in front of another one. -/
theorem append {front : List β} {first : List α} (left : Decodes encode front first [])
    (right : Decodes encode input items rest) :
    Decodes encode (front ++ input) (first ++ items) rest where
  split := by
    rw [left.split, List.append_nil, List.flatMap_append, List.append_assoc, ← right.split]
  stuck := right.stuck

/-- The input determines the items, and where they end. -/
theorem unique (separates : Separates encode fun _ => True) {others : List α} {other : List β}
    (left : Decodes encode input items rest) (right : Decodes encode input others other) :
    items = others ∧ rest = other := by
  induction items generalizing input others with
  | nil =>
      have all : input = rest := left.split
      cases others with
      | nil => exact ⟨rfl, all.symm.trans right.split⟩
      | cons item others =>
          have leads : encode item <+: rest := by
            rw [← all, right.split, List.flatMap_cons, List.append_assoc]
            exact List.prefix_append _ _
          exact absurd leads (left.stuck item)
  | cons item items ih =>
      cases others with
      | nil =>
          have leads : encode item <+: other := by
            have all : input = other := right.split
            rw [← all, left.split, List.flatMap_cons, List.append_assoc]
            exact List.prefix_append _ _
          exact absurd leads (right.stuck item)
      | cons second others =>
          have same := left.split.symm.trans right.split
          rw [List.flatMap_cons, List.flatMap_cons, List.append_assoc, List.append_assoc] at same
          obtain ⟨rfl, tail⟩ := separates trivial trivial same
          obtain ⟨rfl, rfl⟩ := ih ⟨rfl, left.stuck⟩ ⟨tail, right.stuck⟩
          exact ⟨rfl, rfl⟩

end Decodes

end Codec
