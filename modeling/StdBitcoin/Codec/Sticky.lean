import StdBitcoin.Codec.Repetition

/-!
# Decoders with a sticky failure state

A stateful decoder that runs out of input does not stop: it marks its state as
failed and goes on with whatever values it has. If no later action revives a
failed state, the successful runs of such a decoder are those of the reader that
stops at once. `Cursor.strict` is that reader, and it commutes with sequencing.
-/

namespace Codec

variable {σ α β γ : Type}

/-- The states of a decoder over an input: live ones hold the input left to
read, all others have failed. -/
structure Cursor (σ β : Type) where
  live : List β → σ
  view : σ → Option (List β)
  view_eq_some_iff : ∀ state input, view state = some input ↔ state = live input

namespace Cursor

variable (cursor : Cursor σ β)

@[simp] theorem view_live (input : List β) : cursor.view (cursor.live input) = some input :=
  (cursor.view_eq_some_iff _ _).mpr rfl

/-- The action never revives a failed state. -/
class Settled (action : StateM σ α) : Prop where
  stays : ∀ state, cursor.view state = none → cursor.view (action state).2 = none

variable {cursor} in
/-- A settled action leaves a failed state failed. -/
theorem view_of_failed (action : StateM σ α) [settled : cursor.Settled action] {state : σ}
    (failed : cursor.view state = none) : cursor.view (action state).2 = none :=
  settled.stays state failed

/-- The successful runs of an action, as a reader that stops at the first failure. -/
def strict (action : StateM σ α) : Reader β α := fun input =>
  (cursor.view (action (cursor.live input)).2).map fun rest =>
    ((action (cursor.live input)).1, rest)

/-- The strict reader reads what the action does without a failure at its end. -/
theorem strict_run_eq_some_iff (action : StateM σ α) (input rest : List β) (value : α) :
    (cursor.strict action).run input = some (value, rest) ↔
      action (cursor.live input) = (value, cursor.live rest) := by
  change Option.map _ _ = _ ↔ _
  simp only [Option.map_eq_some_iff, view_eq_some_iff]
  constructor
  · rintro ⟨left, state, same⟩
    obtain ⟨rfl, rfl⟩ := Prod.mk.inj same
    exact Prod.ext rfl state
  · intro run
    exact ⟨rest, by rw [run], by rw [run]⟩

/-- A run that does not fail is a run of the strict reader. -/
theorem strict_run_of_view {action : StateM σ α} {input rest : List β}
    (state : cursor.view (action (cursor.live input)).2 = some rest) :
    (cursor.strict action).run input = some ((action (cursor.live input)).1, rest) := by
  rw [strict_run_eq_some_iff, ← (cursor.view_eq_some_iff _ _).mp state]
  rfl

instance settled_pure (value : α) : cursor.Settled (pure value) where
  stays := fun _ failed => failed

@[simp] theorem strict_pure (value : α) : cursor.strict (pure value) = pure value := by
  funext input
  change (cursor.view (cursor.live input)).map _ = _
  rw [view_live]
  rfl

instance settled_bind {action : StateM σ α} {next : α → StateM σ γ}
    [cursor.Settled action] [∀ value, cursor.Settled (next value)] :
    cursor.Settled (action >>= next) where
  stays := fun _ failed => view_of_failed (next _) (view_of_failed action failed)

/-- Stopping at the first failure is a morphism: a failure in the head of a
sequence survives its tail. -/
theorem strict_bind {action : StateM σ α} {next : α → StateM σ γ}
    [∀ value, cursor.Settled (next value)] :
    cursor.strict (action >>= next) =
      cursor.strict action >>= fun value => cursor.strict (next value) := by
  funext input
  change (cursor.strict (action >>= next)).run input = _
  rw [show (cursor.strict action >>= fun value => cursor.strict (next value)) input =
    ((cursor.strict action).run input).bind fun result =>
      (cursor.strict (next result.1)).run result.2 from rfl]
  cases state : cursor.view (action (cursor.live input)).2 with
  | none =>
      have head : (cursor.strict action).run input = none := by
        change Option.map _ _ = none
        rw [state, Option.map_none]
      have whole : (cursor.strict (action >>= next)).run input = none := by
        change Option.map _ (cursor.view (next _ _).2) = none
        rw [view_of_failed (next _) state, Option.map_none]
      rw [head, whole, Option.bind_none]
  | some rest =>
      rw [cursor.strict_run_of_view state, Option.bind_some]
      have live := (cursor.view_eq_some_iff _ _).mp state
      change Option.map (fun final => ((next _ (action (cursor.live input)).2).1, final))
        (cursor.view (next _ (action (cursor.live input)).2).2) = _
      rw [live]
      rfl

instance settled_map {action : StateM σ α} (f : α → γ) [cursor.Settled action] :
    cursor.Settled (f <$> action) := by
  rw [map_eq_pure_bind]
  infer_instance

@[simp] theorem strict_map (action : StateM σ α) (f : α → γ) :
    cursor.strict (f <$> action) = f <$> cursor.strict action := by
  rw [map_eq_pure_bind, map_eq_pure_bind, strict_bind]
  congr 1
  funext value
  exact cursor.strict_pure _

instance settled_ite {condition : Prop} [Decidable condition] {left right : StateM σ α}
    [cursor.Settled left] [cursor.Settled right] :
    cursor.Settled (if condition then left else right) := by
  split <;> infer_instance

theorem strict_ite {condition : Prop} [Decidable condition] (left right : StateM σ α) :
    cursor.strict (if condition then left else right) =
      if condition then cursor.strict left else cursor.strict right :=
  apply_ite cursor.strict condition left right

/-- An action that always fails has no successful run. -/
theorem strict_eq_failure {action : StateM σ α}
    (fails : ∀ state, cursor.view (action state).2 = none) : cursor.strict action = failure := by
  funext input
  change Option.map _ _ = none
  rw [fails, Option.map_none]

instance settled_forEach {item : α → StateM σ γ} [∀ x, cursor.Settled (item x)]
    (xs : List α) : cursor.Settled (forEach item xs) := by
  induction xs with
  | nil => exact cursor.settled_pure _
  | cons x xs ih =>
      rw [forEach]
      infer_instance

/-- A loop whose body is settled is a loop of readers. -/
theorem strict_forEach {item : α → StateM σ γ} [∀ x, cursor.Settled (item x)] (xs : List α) :
    cursor.strict (forEach item xs) = forEach (fun x => cursor.strict (item x)) xs := by
  induction xs with
  | nil => exact cursor.strict_pure _
  | cons x xs ih =>
      rw [forEach, forEach, strict_bind]
      congr 1
      funext y
      rw [strict_bind, ih]
      congr 1
      funext ys
      exact cursor.strict_pure _

/-- A query that tells live states from failed ones and leaves them as they are. -/
class Tells (good : StateM σ Bool) : Prop where
  answer : ∀ state, good state = ((cursor.view state).isSome, state)

/-- A test of the state does not change it. -/
theorem settled_of_tells {good : StateM σ Bool} [tells : cursor.Tells good] :
    cursor.Settled good where
  stays := by
    intro state failed
    rw [tells.answer]
    exact failed

/-- Where nothing has failed the test says so. -/
theorem strict_of_tells {good : StateM σ Bool} [tells : cursor.Tells good] :
    cursor.strict good = pure true := by
  funext input
  change Option.map _ _ = some (true, input)
  rw [tells.answer, view_live]
  rfl

end Cursor

/-- The loop that reads up to `count` items and stops as soon as the state has
failed. An item whose decoding failed is still kept. -/
def collect (good : StateM σ Bool) (item : StateM σ α) :
    (count : Nat) → StateM σ { xs : List α // xs.length ≤ count }
  | 0 => pure ⟨[], le_rfl⟩
  | count + 1 => do
      if ← good then
        let x ← item
        let xs ← collect good item count
        pure ⟨x :: xs.1, Nat.succ_le_succ xs.2⟩
      else
        pure ⟨[], Nat.zero_le _⟩

namespace Cursor

variable (cursor : Cursor σ β) {good : StateM σ Bool} {item : StateM σ α}

instance settled_collect [cursor.Tells good] [cursor.Settled item] (count : Nat) :
    cursor.Settled (collect good item count) := by
  induction count with
  | zero => exact cursor.settled_pure _
  | succ count ih =>
      have settled : cursor.Settled good := cursor.settled_of_tells
      rw [collect]
      infer_instance

/-- The items read before a failure. -/
def atMost {count : Nat} (xs : { xs : List α // xs.length = (List.replicate count ()).length }) :
    { xs : List α // xs.length ≤ count } :=
  ⟨xs.1, by rw [xs.2, List.length_replicate]⟩

/-- Without a failure the guarded loop reads exactly the declared number of items. -/
theorem strict_collect [cursor.Tells good] [cursor.Settled item] (count : Nat) :
    cursor.strict (collect good item count) = atMost <$> repeated (cursor.strict item) count := by
  induction count with
  | zero => exact cursor.strict_pure _
  | succ count ih =>
      rw [collect, strict_bind, strict_of_tells, pure_bind, if_pos rfl, strict_bind,
        repeated_succ, map_bind]
      congr 1
      funext x
      rw [strict_bind, ih, bind_map_left, map_bind]
      congr 1
      funext xs
      rw [strict_pure, map_pure]
      rfl

end Cursor

end Codec
