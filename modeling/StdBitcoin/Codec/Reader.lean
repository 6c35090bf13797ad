import Mathlib.Data.Vector.Basic

/-!
# Readers of self-delimiting encodings

A reader takes a value off the front of its input or fails. The relation `Reads`
records which prefix stands for which value independently of what follows, and a
delimited reader is one whose successful runs are all of that kind. Being delimited
is inferred from the shape of a reader, and for delimited readers the relation
composes along `bind`, so a format is understood from the formats of its fields.
-/

namespace Codec

variable {β α γ : Type}

/-- A reader takes a value off the front of its input, or fails. -/
abbrev Reader (β α : Type) := StateT (List β) Option α

/-- The reader takes `value` off exactly the prefix `taken`, whatever follows it. -/
def Reads (reader : Reader β α) (value : α) (taken : List β) : Prop :=
  ∀ rest, reader.run (taken ++ rest) = some (value, rest)

/-- Every successful run splits its input after a prefix that alone stands for
the value. -/
class Delimited (reader : Reader β α) : Prop where
  split : ∀ ⦃input value rest⦄, reader.run input = some (value, rest) →
    ∃ taken, input = taken ++ rest ∧ Reads reader value taken

/-- What a reader takes whatever follows it takes also at the end of the input. -/
theorem Reads.run {reader : Reader β α} {value : α} {taken : List β}
    (reads : Reads reader value taken) : reader.run taken = some (value, []) := by
  simpa using reads []

/-- The bytes determine what is read. -/
theorem Reads.unique {reader : Reader β α} {first second : α} {taken : List β}
    (left : Reads reader first taken) (right : Reads reader second taken) : first = second := by
  have same := left.run.symm.trans right.run
  exact (Prod.mk.inj (Option.some.inj same)).1

/-- No encoding is a proper prefix of another one. -/
theorem Reads.prefix_free {reader : Reader β α} {first second : α} {taken extra : List β}
    (left : Reads reader first taken) (right : Reads reader second (taken ++ extra)) :
    first = second ∧ extra = [] := by
  have same := (left extra).symm.trans right.run
  exact Prod.mk.inj (Option.some.inj same)

/-- A delimited reader splits the input into what it reads and what it leaves. -/
theorem run_eq_some_iff {reader : Reader β α} [Delimited reader] {input rest : List β} {value : α} :
    reader.run input = some (value, rest) ↔
      ∃ taken, input = taken ++ rest ∧ Reads reader value taken := by
  constructor
  · exact fun run => Delimited.split run
  · rintro ⟨taken, rfl, reads⟩
    exact reads rest

/-- Consuming the whole input is reading it. -/
theorem run_eq_nil_iff {reader : Reader β α} [Delimited reader] {input : List β} {value : α} :
    reader.run input = some (value, []) ↔ Reads reader value input := by
  rw [run_eq_some_iff]
  constructor
  · rintro ⟨taken, rfl, reads⟩
    rwa [List.append_nil]
  · exact fun reads => ⟨input, (List.append_nil input).symm, reads⟩

/-- A delimited reader fails on every proper prefix of what it reads. -/
theorem Reads.run_proper_prefix {reader : Reader β α} [Delimited reader] {value : α}
    {cut extra : List β} (reads : Reads reader value (cut ++ extra)) (proper : extra ≠ []) :
    reader.run cut = none := by
  cases run : reader.run cut with
  | none => rfl
  | some result =>
      obtain ⟨other, rest⟩ := result
      obtain ⟨taken, rfl, shorter⟩ := run_eq_some_iff.mp run
      rw [List.append_assoc] at reads
      exact absurd (List.append_eq_nil_iff.mp (shorter.prefix_free reads).2).2 proper

section Combinators

variable {reader : Reader β α} {next : α → Reader β γ}

instance delimited_pure (value : α) : Delimited (pure value : Reader β α) where
  split := by
    intro input read rest run
    simp only [StateT.run_pure, Option.pure_def, Option.some.injEq, Prod.mk.injEq] at run
    obtain ⟨rfl, rfl⟩ := run
    exact ⟨[], rfl, fun rest => rfl⟩

@[simp] theorem reads_pure_iff (value read : α) (taken : List β) :
    Reads (pure value : Reader β α) read taken ↔ read = value ∧ taken = [] := by
  constructor
  · intro reads
    have run := reads.run
    simp only [StateT.run_pure, Option.pure_def, Option.some.injEq, Prod.mk.injEq] at run
    exact ⟨run.1.symm, run.2⟩
  · rintro ⟨rfl, rfl⟩ rest
    rfl

instance delimited_failure : Delimited (failure : Reader β α) where
  split := by
    intro input value rest run
    cases run

@[simp] theorem not_reads_failure (value : α) (taken : List β) :
    ¬ Reads (failure : Reader β α) value taken := by
  intro reads
  cases reads.run

/-- What the head reads decides where its continuation starts. -/
theorem Reads.run_bind {value : α} {front : List β} (head : Reads reader value front)
    (rest : List β) : (reader >>= next).run (front ++ rest) = (next value).run rest := by
  rw [StateT.run_bind, head rest]
  rfl

/-- Readers in sequence take their bytes one behind the other. -/
theorem Reads.bind {value : α} {result : γ} {front back : List β}
    (first : Reads reader value front) (second : Reads (next value) result back) :
    Reads (reader >>= next) result (front ++ back) := by
  intro rest
  rw [List.append_assoc, first.run_bind]
  exact second rest

/-- A run of a sequence splits into a run of its head and one of its tail. -/
theorem run_bind_eq_some {input rest : List β} {result : γ}
    (run : (reader >>= next).run input = some (result, rest)) :
    ∃ value middle, reader.run input = some (value, middle) ∧
      (next value).run middle = some (result, rest) := by
  rw [StateT.run_bind] at run
  obtain ⟨⟨value, middle⟩, head, tail⟩ := Option.bind_eq_some_iff.mp run
  exact ⟨value, middle, head, tail⟩

instance delimited_bind [Delimited reader] [∀ value, Delimited (next value)] :
    Delimited (reader >>= next) where
  split := by
    intro input result rest run
    obtain ⟨value, middle, head, tail⟩ := run_bind_eq_some run
    obtain ⟨front, rfl, front_reads⟩ := Delimited.split head
    obtain ⟨back, rfl, back_reads⟩ := Delimited.split tail
    exact ⟨front ++ back, (List.append_assoc ..).symm, front_reads.bind back_reads⟩

instance delimited_map (f : α → γ) [Delimited reader] : Delimited (f <$> reader) := by
  rw [map_eq_pure_bind]
  infer_instance

/-- A sequence of delimited readers reads the concatenation of what its parts read. -/
theorem reads_bind_iff [Delimited reader] [∀ value, Delimited (next value)]
    (result : γ) (taken : List β) :
    Reads (reader >>= next) result taken ↔
      ∃ value front back, Reads reader value front ∧ Reads (next value) result back ∧
        taken = front ++ back := by
  constructor
  · intro reads
    obtain ⟨value, middle, head, tail⟩ := run_bind_eq_some reads.run
    obtain ⟨front, rfl, front_reads⟩ := Delimited.split head
    obtain ⟨back, rfl, back_reads⟩ := Delimited.split tail
    exact ⟨value, front, back, front_reads, back_reads, by rw [List.append_nil]⟩
  · rintro ⟨value, front, back, front_reads, back_reads, rfl⟩
    exact front_reads.bind back_reads

theorem reads_map_iff [Delimited reader] (f : α → γ) (result : γ) (taken : List β) :
    Reads (f <$> reader) result taken ↔ ∃ value, Reads reader value taken ∧ result = f value := by
  rw [map_eq_pure_bind, reads_bind_iff]
  constructor
  · rintro ⟨value, front, back, reads, final, rfl⟩
    obtain ⟨rfl, rfl⟩ := (reads_pure_iff _ _ _).mp final
    exact ⟨value, by rwa [List.append_nil], rfl⟩
  · rintro ⟨value, reads, rfl⟩
    exact ⟨value, taken, [], reads, (reads_pure_iff _ _ _).mpr ⟨rfl, rfl⟩, (List.append_nil _).symm⟩

@[simp] theorem failure_bind (next : α → Reader β γ) : (failure : Reader β α) >>= next = failure :=
  rfl

/-- Nothing is read once every continuation fails. -/
@[simp] theorem bind_failure (reader : Reader β α) :
    (reader >>= fun _ => (failure : Reader β γ)) = failure := by
  funext input
  change (reader.run input).bind (fun _ => none) = none
  cases reader.run input <;> rfl

instance delimited_ite {condition : Prop} [Decidable condition] {left right : Reader β α}
    [Delimited left] [Delimited right] : Delimited (if condition then left else right) := by
  split <;> infer_instance

end Combinators

/-- Take a fixed number of symbols. -/
def take (count : Nat) : Reader β (List.Vector β count) := fun input =>
  if enough : count ≤ input.length then
    some (⟨input.take count, List.length_take_of_le enough⟩, input.drop count)
  else none

theorem take_run_append {count : Nat} (value : List.Vector β count) (rest : List β) :
    (take count).run (value.toList ++ rest) = some (value, rest) := by
  have length : value.toList.length = count := value.toList_length
  have enough : count ≤ (value.toList ++ rest).length := by
    rw [List.length_append]
    omega
  change (if h : _ then _ else _) = _
  rw [dif_pos enough]
  congr
  · exact List.take_left' length
  · exact List.drop_left' length

instance delimited_take (count : Nat) : Delimited (take count : Reader β _) where
  split := by
    intro input value rest run
    change (if h : _ then _ else _) = _ at run
    split at run
    · rename_i enough
      obtain ⟨rfl, rfl⟩ := Prod.mk.inj (Option.some.inj run)
      exact ⟨input.take count, (List.take_append_drop count input).symm,
        take_run_append ⟨input.take count, List.length_take_of_le enough⟩⟩
    · cases run

@[simp] theorem reads_take_iff {count : Nat} (value : List.Vector β count) (taken : List β) :
    Reads (take count) value taken ↔ taken = value.toList := by
  constructor
  · intro reads
    have run : (if h : count ≤ taken.length then _ else none) = _ := reads.run
    split at run
    · obtain ⟨rfl, nothing⟩ := Prod.mk.inj (Option.some.inj run)
      have whole := List.take_append_drop count taken
      rw [nothing, List.append_nil] at whole
      exact whole.symm
    · cases run
  · rintro rfl
    exact take_run_append value

/-- The reader takes a fixed number of symbols off every input that has them. -/
def FixedWidth (reader : Reader β α) (width : Nat) : Prop :=
  ∀ input, width ≤ input.length → ∃ value, reader.run input = some (value, input.drop width)

theorem fixedWidth_pure (value : α) : FixedWidth (pure value : Reader β α) 0 :=
  fun _ _ => ⟨value, rfl⟩

theorem fixedWidth_take (count : Nat) : FixedWidth (take count : Reader β _) count := by
  intro input enough
  refine ⟨⟨input.take count, List.length_take_of_le enough⟩, ?_⟩
  change dite _ _ _ = _
  rw [dif_pos enough]

/-- The widths of readers in sequence add up. -/
theorem FixedWidth.bind {reader : Reader β α} {next : α → Reader β γ} {front back : Nat}
    (head : FixedWidth reader front) (tail : ∀ value, FixedWidth (next value) back) :
    FixedWidth (reader >>= next) (front + back) := by
  intro input enough
  obtain ⟨value, first⟩ := head input (by omega)
  obtain ⟨result, second⟩ := tail value (input.drop front) (by rw [List.length_drop]; omega)
  refine ⟨result, ?_⟩
  rw [StateT.run_bind, first, ← List.drop_drop]
  exact second

/-- A function of what is read changes no width. -/
theorem FixedWidth.map {reader : Reader β α} {width : Nat} (fixed : FixedWidth reader width)
    (f : α → γ) : FixedWidth (f <$> reader) width := by
  rw [map_eq_pure_bind]
  exact fixed.bind fun value => fixedWidth_pure (f value)

end Codec
