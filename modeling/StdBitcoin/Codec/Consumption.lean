import StdBitcoin.Codec.Sticky

/-!
# What a decoder consumes

A decoder with a failure flag takes its input from the front. If it takes nothing once it
has failed, and every success of an item takes something, then a counted loop
keeps no more items than it consumes elements, apart from the one item that fails.
-/

namespace Codec

variable {σ α β γ : Type}

/-- The input that a state has left to read, and the mark of failure. -/
structure Tape (σ β : Type) where
  rest : σ → List β
  failed : σ → Bool

namespace Tape

variable (tape : Tape σ β)

/-- The action reads from the front, and nothing happens in a failed state. -/
class Forward (action : StateM σ α) : Prop where
  frozen : ∀ state, tape.failed state = true → (action state).2 = state
  advances : ∀ state, tape.rest (action state).2 <:+ tape.rest state

/-- A run of the action that does not fail consumes something. -/
class Productive (action : StateM σ α) : Prop where
  consumes : ∀ state, tape.failed (action state).2 = false →
    (tape.rest (action state).2).length < (tape.rest state).length

/-- After a failure nothing changes. -/
theorem frozen (action : StateM σ α) [forward : tape.Forward action] {state : σ}
    (failed : tape.failed state = true) : (action state).2 = state :=
  forward.frozen state failed

/-- What is left is an end of what was there. -/
theorem advances (action : StateM σ α) [forward : tape.Forward action] (state : σ) :
    tape.rest (action state).2 <:+ tape.rest state :=
  forward.advances state

/-- A run that does not fail starts in a state that has not failed. -/
theorem good_of_good (action : StateM σ α) [tape.Forward action] {state : σ}
    (good : tape.failed (action state).2 = false) : tape.failed state = false := by
  by_contra failed
  rw [Bool.not_eq_false] at failed
  rw [tape.frozen action failed, failed] at good
  cases good

/-- An action that succeeds has used something up. -/
theorem consumes (action : StateM σ α) [productive : tape.Productive action] {state : σ}
    (good : tape.failed (action state).2 = false) :
    (tape.rest (action state).2).length < (tape.rest state).length :=
  productive.consumes state good

instance forward_pure (value : α) : tape.Forward (pure value) where
  frozen := fun _ _ => rfl
  advances := fun _ => List.suffix_rfl

instance forward_bind {action : StateM σ α} {next : α → StateM σ γ} [tape.Forward action]
    [∀ value, tape.Forward (next value)] : tape.Forward (action >>= next) where
  frozen := by
    intro state failed
    have still : tape.failed (action state).2 = true := by
      rw [tape.frozen action failed]
      exact failed
    exact (tape.frozen (next _) still).trans (tape.frozen action failed)
  advances := fun state => (tape.advances (next _) _).trans (tape.advances action state)

/-- What the head of a sequence consumes is not given back. -/
instance productive_bind {action : StateM σ α} {next : α → StateM σ γ} [tape.Productive action]
    [∀ value, tape.Forward (next value)] : tape.Productive (action >>= next) where
  consumes := by
    intro state good
    have head := tape.consumes action (tape.good_of_good (next (action state).1) good)
    exact Nat.lt_of_le_of_lt (tape.advances (next (action state).1) _).length_le head

instance forward_ite {condition : Prop} [Decidable condition] {left right : StateM σ α}
    [tape.Forward left] [tape.Forward right] :
    tape.Forward (if condition then left else right) := by
  split <;> infer_instance

instance forward_forEach {item : α → StateM σ γ} [∀ x, tape.Forward (item x)] (xs : List α) :
    tape.Forward (forEach item xs) := by
  induction xs with
  | nil => exact tape.forward_pure _
  | cons x xs ih =>
      rw [forEach]
      infer_instance

/-- A query for the mark of failure. -/
class Asks (good : StateM σ Bool) : Prop where
  answer : ∀ state, good state = (!tape.failed state, state)

instance forward_of_asks {good : StateM σ Bool} [asks : tape.Asks good] : tape.Forward good where
  frozen := by
    intro state _
    rw [asks.answer]
  advances := by
    intro state
    simp only [asks.answer, List.suffix_rfl]

section Loops

variable {good : StateM σ Bool} {item : StateM σ α} [asks : tape.Asks good]

instance forward_collect [tape.Forward item] (count : Nat) :
    tape.Forward (collect good item count) := by
  induction count with
  | zero => exact tape.forward_pure _
  | succ count ih =>
      rw [collect]
      infer_instance

/-- A loop that has not failed reads an item and goes on. -/
theorem collect_succ (state : σ) (count : Nat) :
    collect good item (count + 1) state =
      if tape.failed state then (⟨[], Nat.zero_le _⟩, state)
      else
        let rest := collect good item count (item state).2
        (⟨(item state).1 :: rest.1.1, Nat.succ_le_succ rest.1.2⟩, rest.2) := by
  have step : collect good item (count + 1) state = (ite ((good state).1 = true)
      (do let x ← item
          let xs ← collect good item count
          pure ⟨x :: xs.1, Nat.succ_le_succ xs.2⟩)
      (pure ⟨[], Nat.zero_le _⟩) : StateM σ _) (good state).2 := rfl
  rw [step, asks.answer]
  cases tape.failed state <;> rfl

/-- A loop in a failed state keeps nothing. -/
theorem collect_of_failed {state : σ} (failed : tape.failed state = true) (count : Nat) :
    collect good item count state = (⟨[], Nat.zero_le _⟩, state) := by
  cases count with
  | zero => rfl
  | succ count => rw [tape.collect_succ, if_pos failed]

/-- A loop that does not fail keeps as many items as it is asked for. -/
theorem length_collect_of_good {state : σ} {count : Nat}
    (live : tape.failed (collect good item count state).2 = false) :
    (collect good item count state).1.1.length = count := by
  induction count generalizing state with
  | zero => rfl
  | succ count ih =>
      rw [tape.collect_succ] at live ⊢
      split at live
      · rename_i failed
        rw [failed] at live
        cases live
      · rename_i start
        rw [if_neg start, List.length_cons, ih live]

/-- Every item but the one that fails has consumed something. -/
theorem length_collect_le [tape.Forward item] [tape.Productive item] (state : σ) (count : Nat) :
    (collect good item count state).1.1.length +
        (tape.rest (collect good item count state).2).length ≤ (tape.rest state).length + 1 := by
  induction count generalizing state with
  | zero => exact (Nat.zero_add _).trans_le (Nat.le_succ _)
  | succ count ih =>
      rw [tape.collect_succ]
      split
      · exact (Nat.zero_add _).trans_le (Nat.le_succ _)
      · dsimp only
        rw [List.length_cons]
        cases head : tape.failed (item state).2 with
        | true =>
            -- The item that fails is kept, and it is the last one.
            have left := (tape.advances item state).length_le
            rw [tape.collect_of_failed head]
            change 0 + 1 + (tape.rest (item state).2).length ≤ _
            omega
        | false =>
            have taken := tape.consumes item head
            have others := ih (item state).2
            omega

end Loops

end Tape

end Codec
