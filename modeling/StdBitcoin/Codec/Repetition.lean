import StdBitcoin.Codec.Reader

/-!
# Sequences of items and exact inverses

`forEach` reads one item for every element of a list and keeps its length, so a
counted sequence is the special case of a list of units. A reader inverts an
encoder on a domain when it reads the encodings of the domain and nothing else;
sequences of inverted items are inverted by concatenation.
-/

namespace Codec

variable {α β γ : Type}

/-- Run one action for every element, in order. -/
def forEach {m : Type → Type} [Monad m] (item : α → m γ) :
    (xs : List α) → m { ys : List γ // ys.length = xs.length }
  | [] => pure ⟨[], rfl⟩
  | x :: xs => do
      let y ← item x
      let ys ← forEach item xs
      pure ⟨y :: ys.1, congrArg (· + 1) ys.2⟩

/-- Run one action a fixed number of times. -/
abbrev repeated {m : Type → Type} [Monad m] (item : m γ) (count : Nat) :
    m { ys : List γ // ys.length = (List.replicate count ()).length } :=
  forEach (fun _ => item) (List.replicate count ())

/-- One item, and then the others. -/
theorem repeated_succ {m : Type → Type} [Monad m] (item : m γ) (count : Nat) :
    repeated item (count + 1) = (do
      let y ← item
      let ys ← repeated item count
      pure ⟨y :: ys.1, congrArg (· + 1) ys.2⟩) := rfl

instance delimited_forEach {item : α → Reader β γ} [∀ x, Delimited (item x)]
    (xs : List α) : Delimited (forEach item xs) := by
  induction xs with
  | nil => exact delimited_pure _
  | cons x xs ih =>
      rw [forEach]
      infer_instance

/-- A sequence of items reads the concatenation of the encodings of its items. -/
theorem reads_forEach_iff {item : α → Reader β γ} [∀ x, Delimited (item x)]
    {accepts : α → γ → Prop} {encode : γ → List β}
    (reads : ∀ x y taken, Reads (item x) y taken ↔ accepts x y ∧ taken = encode y)
    (xs : List α) (ys : { ys : List γ // ys.length = xs.length }) (taken : List β) :
    Reads (forEach item xs) ys taken ↔
      List.Forall₂ accepts xs ys.1 ∧ taken = ys.1.flatMap encode := by
  induction xs generalizing taken with
  | nil =>
      obtain ⟨ys, length⟩ := ys
      obtain rfl := List.length_eq_zero_iff.mp length
      simp [forEach]
  | cons x xs ih =>
      obtain ⟨ys, length⟩ := ys
      cases ys with
      | nil => cases length
      | cons y ys =>
          rw [forEach, reads_bind_iff]
          constructor
          · rintro ⟨z, front, back, head, rest, rfl⟩
            rw [reads_bind_iff] at rest
            obtain ⟨zs, middle, nothing, tail, final, rfl⟩ := rest
            obtain ⟨same, rfl⟩ := (reads_pure_iff _ _ _).mp final
            obtain ⟨rfl, rfl⟩ := List.cons.inj (congrArg Subtype.val same)
            obtain ⟨accepted, rfl⟩ := (reads _ _ _).mp head
            obtain ⟨all, rfl⟩ := (ih zs middle).mp tail
            exact ⟨.cons accepted all, by simp⟩
          · rintro ⟨accepted, rfl⟩
            obtain ⟨head, all⟩ := List.forall₂_cons.mp accepted
            refine ⟨y, encode y, ys.flatMap encode, (reads _ _ _).mpr ⟨head, rfl⟩, ?_, by simp⟩
            rw [reads_bind_iff]
            exact ⟨⟨ys, Nat.succ.inj length⟩, ys.flatMap encode, [], (ih _ _).mpr ⟨all, rfl⟩,
              (reads_pure_iff _ _ _).mpr ⟨rfl, rfl⟩, by simp⟩

/-- The reader undoes `encode` on the domain, and reads nothing else. -/
def Inverts (reader : Reader β α) (domain : α → Prop) (encode : α → List β) : Prop :=
  ∀ value taken, Reads reader value taken ↔ domain value ∧ taken = encode value

namespace Inverts

variable {reader : Reader β α} [Delimited reader] {domain : α → Prop} {encode : α → List β}

/-- Exactly the encodings of the domain are read to their end. -/
theorem run_eq_nil_iff (inverts : Inverts reader domain encode) {input : List β} {value : α} :
    reader.run input = some (value, []) ↔ domain value ∧ input = encode value := by
  rw [Codec.run_eq_nil_iff, inverts]

/-- An inverted field at the head of a sequence. -/
theorem reads_bind_iff (inverts : Inverts reader domain encode) {next : α → Reader β γ}
    [∀ value, Delimited (next value)] (result : γ) (taken : List β) :
    Reads (reader >>= next) result taken ↔
      ∃ value back, domain value ∧ Reads (next value) result back ∧
        taken = encode value ++ back := by
  rw [Codec.reads_bind_iff]
  constructor
  · rintro ⟨value, front, back, head, tail, rfl⟩
    obtain ⟨accepted, rfl⟩ := (inverts _ _).mp head
    exact ⟨value, back, accepted, tail, rfl⟩
  · rintro ⟨value, back, accepted, tail, rfl⟩
    exact ⟨value, encode value, back, (inverts _ _).mpr ⟨accepted, rfl⟩, tail, rfl⟩

/-- What a second continuation reads beyond the first, it reads behind the head. -/
theorem reads_bind_or_iff (inverts : Inverts reader domain encode) {less more : α → Reader β γ}
    [∀ value, Delimited (less value)] [∀ value, Delimited (more value)]
    {extra : α → γ → List β → Prop}
    (each : ∀ value result back,
      Reads (more value) result back ↔ Reads (less value) result back ∨ extra value result back)
    (result : γ) (taken : List β) :
    Reads (reader >>= more) result taken ↔ Reads (reader >>= less) result taken ∨
      ∃ value back, domain value ∧ extra value result back ∧ taken = encode value ++ back := by
  rw [inverts.reads_bind_iff, inverts.reads_bind_iff]
  constructor
  · rintro ⟨value, back, accepted, tail, rfl⟩
    rcases (each _ _ _).mp tail with usual | beyond
    · exact .inl ⟨value, back, accepted, usual, rfl⟩
    · exact .inr ⟨value, back, accepted, beyond, rfl⟩
  · rintro (⟨value, back, accepted, usual, rfl⟩ | ⟨value, back, accepted, beyond, rfl⟩)
    · exact ⟨value, back, accepted, (each _ _ _).mpr (.inl usual), rfl⟩
    · exact ⟨value, back, accepted, (each _ _ _).mpr (.inr beyond), rfl⟩

/-- A value read and then refused by some test. -/
theorem reads_guarded_iff (inverts : Inverts reader domain encode) {refused : α → Prop}
    [DecidablePred refused] (f : α → γ) (result : γ) (taken : List β) :
    Reads (reader >>= fun value => if refused value then failure else pure (f value)) result taken ↔
      ∃ value, domain value ∧ ¬ refused value ∧ result = f value ∧ taken = encode value := by
  rw [inverts.reads_bind_iff]
  constructor
  · rintro ⟨value, back, accepted, tail, rfl⟩
    by_cases test : refused value
    · rw [if_pos test] at tail
      exact absurd tail (not_reads_failure _ _)
    · rw [if_neg test, reads_pure_iff] at tail
      obtain ⟨rfl, rfl⟩ := tail
      exact ⟨value, accepted, test, rfl, List.append_nil _⟩
  · rintro ⟨value, accepted, test, rfl, rfl⟩
    refine ⟨value, [], accepted, ?_, (List.append_nil _).symm⟩
    rw [if_neg test, reads_pure_iff]
    exact ⟨rfl, rfl⟩

/-- Counted sequences of inverted items. -/
theorem reads_repeated_iff (inverts : Inverts reader domain encode) (count : Nat)
    (ys : { ys : List α // ys.length = (List.replicate count ()).length }) (taken : List β) :
    Reads (repeated reader count) ys taken ↔
      (∀ y ∈ ys.1, domain y) ∧ taken = ys.1.flatMap encode := by
  have each (_ : Unit) (y : α) (taken : List β) :
      Reads reader y taken ↔ domain y ∧ taken = encode y := inverts y taken
  rw [reads_forEach_iff each]
  obtain ⟨ys, length⟩ := ys
  suffices all : List.Forall₂ (fun _ y => domain y) (List.replicate count ()) ys ↔
      ∀ y ∈ ys, domain y by
    rw [all]
  induction ys generalizing count with
  | nil =>
      obtain rfl : count = 0 := by simpa using length.symm
      simp
  | cons y ys ih =>
      cases count with
      | zero => cases length
      | succ count =>
          rw [List.replicate_succ, List.forall₂_cons, ih count (Nat.succ.inj length),
            List.forall_mem_cons]

end Inverts

end Codec
