import StdBitcoin.Codec.Consumption

/-!
# Filling a vector batch by batch

A loop whose length is announced by its input must not ask for all of the memory at
once. It asks for the next batch whenever the vector is full, so that what it has asked
for is never more than a batch ahead of the items it holds.
-/

namespace Codec

variable {σ α β : Type}

/-- How a vector chooses its capacity: where one is asked for, and where an item is
appended that does not fit. -/
structure GrowthPolicy where
  reserved : Nat → Nat
  appended : Nat → Nat
  le_reserved : ∀ n, n ≤ reserved n
  lt_appended : ∀ n, n < appended n

/-- An allocation, with the number of items held at the time. -/
inductive Allocation where
  | asked (held requested : Nat)
  | overflowed (held : Nat)

/-- A vector that remembers its allocations. -/
structure Growing (α : Type) where
  items : List α
  capacity : Nat
  allocations : List Allocation
  fits : items.length ≤ capacity

namespace Growing

/-- A vector without elements and without memory. -/
def empty : Growing α := ⟨[], 0, [], Nat.le_refl 0⟩

/-- Asking for no more than there is does nothing. -/
def reserve (policy : GrowthPolicy) (n : Nat) (out : Growing α) : Growing α :=
  if more : out.capacity < n then
    { out with
      capacity := policy.reserved n
      allocations := out.allocations ++ [.asked out.items.length n]
      fits := out.fits.trans (more.le.trans (policy.le_reserved n)) }
  else out

/-- `push_back`: the vector grows unasked if it has no room. -/
def append (policy : GrowthPolicy) (out : Growing α) (x : α) : Growing α :=
  if room : out.items.length < out.capacity then
    { out with
      items := out.items ++ [x]
      fits := by
        rw [List.length_append]
        exact room }
  else
    { items := out.items ++ [x]
      capacity := policy.appended out.capacity
      allocations := out.allocations ++ [.overflowed out.items.length]
      fits := by
        rw [List.length_append]
        exact Nat.lt_of_le_of_lt out.fits (policy.lt_appended _) }

/-- The next batch, if the vector is full. -/
def makeRoom (policy : GrowthPolicy) (size batch : Nat) (out : Growing α) : Growing α :=
  if out.items.length = out.capacity then
    out.reserve policy (min size (out.items.length + batch))
  else out

/-- Nothing was allocated unasked, and what was asked for is within `size` and at most a
batch ahead of the items. -/
def Measured (size batch : Nat) (out : Growing α) : Prop :=
  ∀ allocation ∈ out.allocations, ∃ held requested, allocation = .asked held requested ∧
    held ≤ out.items.length ∧ requested ≤ size ∧ requested ≤ held + batch

section Operations

variable {policy : GrowthPolicy} {size batch n : Nat} {out : Growing α}

@[simp] theorem items_reserve : (out.reserve policy n).items = out.items := by
  unfold reserve
  split <;> rfl

/-- What is asked for is there. -/
theorem le_capacity_reserve : n ≤ (out.reserve policy n).capacity := by
  unfold reserve
  split
  · exact policy.le_reserved n
  · rename_i enough
    exact Nat.le_of_not_lt enough

@[simp] theorem items_append (x : α) : (out.append policy x).items = out.items ++ [x] := by
  unfold append
  split <;> rfl

@[simp] theorem items_makeRoom : (out.makeRoom policy size batch).items = out.items := by
  unfold makeRoom
  split
  · exact items_reserve
  · rfl

/-- There is room for an item while some are missing. -/
theorem room_of_makeRoom (positive : 0 < batch) (missing : out.items.length < size) :
    (out.makeRoom policy size batch).items.length <
      (out.makeRoom policy size batch).capacity := by
  rw [items_makeRoom, makeRoom]
  split
  · have next : out.items.length < min size (out.items.length + batch) := by omega
    exact next.trans_le le_capacity_reserve
  · rename_i free
    exact Nat.lt_of_le_of_ne out.fits free

theorem measured_empty : (empty : Growing α).Measured size batch := nofun

/-- A request within the size and not far ahead of the elements is measured. -/
theorem Measured.reserve (measured : out.Measured size batch) (within : n ≤ size)
    (ahead : n ≤ out.items.length + batch) : (out.reserve policy n).Measured size batch := by
  intro allocation member
  unfold Growing.reserve at member
  split at member
  · rename_i more
    rcases List.mem_append.mp member with before | last
    · obtain ⟨held, requested, same, bounds⟩ := measured allocation before
      rw [items_reserve]
      exact ⟨held, requested, same, bounds⟩
    · rw [List.mem_singleton.mp last, items_reserve]
      exact ⟨_, _, rfl, le_rfl, within, ahead⟩
  · obtain ⟨held, requested, same, bounds⟩ := measured allocation member
    rw [items_reserve]
    exact ⟨held, requested, same, bounds⟩

/-- The requests of the batched loop are measured. -/
theorem Measured.makeRoom (measured : out.Measured size batch) :
    (out.makeRoom policy size batch).Measured size batch := by
  unfold Growing.makeRoom
  split
  · exact measured.reserve (Nat.min_le_left _ _) (Nat.min_le_right _ _)
  · exact measured

/-- Where there is room an element is appended without a request. -/
theorem Measured.append (measured : out.Measured size batch)
    (room : out.items.length < out.capacity) (x : α) :
    (out.append policy x).Measured size batch := by
  intro allocation member
  rw [Growing.append, dif_pos room] at member
  obtain ⟨held, requested, same, holds, bounds⟩ := measured allocation member
  refine ⟨held, requested, same, ?_, bounds⟩
  rw [items_append, List.length_append]
  exact Nat.le_succ_of_le holds

end Operations

/-- `while (out.size() < size && good())`, with as many rounds as items are missing. -/
def fill (policy : GrowthPolicy) (good : StateM σ Bool) (item : StateM σ α) (size batch : Nat) :
    Nat → Growing α → StateM σ (Growing α)
  | 0, out => pure out
  | rounds + 1, out => do
      if out.items.length < size then
        if ← good then
          let out := out.makeRoom policy size batch
          let x ← item
          fill policy good item size batch rounds (out.append policy x)
        else
          pure out
      else
        pure out

section Loops

variable (tape : Tape σ β) {policy : GrowthPolicy} {good : StateM σ Bool} {item : StateM σ α}
  {size batch : Nat} {out : Growing α} [asks : tape.Asks good]

/-- One round of the loop: it stops at a failure, and else makes room and appends an element. -/
theorem fill_succ (missing : out.items.length < size) (rounds : Nat) (state : σ) :
    fill policy good item size batch (rounds + 1) out state =
      if tape.failed state then (out, state)
      else
        fill policy good item size batch rounds
          ((out.makeRoom policy size batch).append policy (item state).1) (item state).2 := by
  rw [fill, if_pos missing]
  change (ite ((good state).1 = true) _ _ : StateM σ (Growing α)) (good state).2 = _
  rw [asks.answer]
  cases tape.failed state <;> rfl

/-- The loop that reserves in batches collects what the plain loop collects, with measured
allocations. -/
theorem fill_eq_collect (tape : Tape σ β) (policy : GrowthPolicy) (good : StateM σ Bool)
    [tape.Asks good] (item : StateM σ α) (positive : 0 < batch) {count : Nat}
    (missing : out.items.length + count = size)
    (measured : out.Measured size batch) (state : σ) :
    (fill policy good item size batch count out state).1.items =
        out.items ++ (collect good item count state).1.1 ∧
      (fill policy good item size batch count out state).2 = (collect good item count state).2 ∧
      (fill policy good item size batch count out state).1.Measured size batch := by
  induction count generalizing out state with
  | zero => exact ⟨(List.append_nil _).symm, rfl, measured⟩
  | succ count ih =>
      have short : out.items.length < size := by omega
      rw [fill_succ tape short, tape.collect_succ]
      split
      · exact ⟨(List.append_nil _).symm, rfl, measured⟩
      · let filled := (out.makeRoom policy size batch).append policy (item state).1
        have held : filled.items = out.items ++ [(item state).1] := by
          rw [items_append, items_makeRoom]
        have left : filled.items.length + count = size := by
          rw [held, List.length_append, List.length_singleton]
          omega
        have kept : filled.Measured size batch :=
          measured.makeRoom.append (room_of_makeRoom positive short) _
        obtain ⟨rest, last, all⟩ := ih left kept (item state).2
        refine ⟨?_, last, all⟩
        rw [held, List.append_assoc] at rest
        exact rest

end Loops

end Growing

end Codec
