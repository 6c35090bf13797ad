import StdBitcoin.CopyOnWrite.Constructors
import StdBitcoin.Effects.Demand

/-!
# Parts of a state

What an agent holds of a state: its own handles, and of each model its share of the count.
Other agents may hold further references, so an agent reads a count that is at least its
share. The commands ask of a part what they need, whatever the other agents do; the value
of a model is not known from a part.
-/

namespace StdBitcoin.CopyOnWrite

open Effects Prog

variable {ι T A : Type}

/-- The handles of an agent, and what a share of a count says about the count. -/
structure Setting (ι : Type) where
  own : ι → Prop
  sees : (share count : Nat) → Prop
  le_of_sees : ∀ {share count}, sees share count → share ≤ count
  /-- The case is left out in which a decrement takes away the last reference. -/
  exempt : Prop

namespace Setting

/-- One agent that holds the whole state. -/
def alone : Setting ι where
  own := fun _ => True
  sees := fun share count => count = share
  le_of_sees := fun same => same.ge
  exempt := False

end Setting

/-- A constructed model with a reference. -/
def Model.Complete (m : Model T A) : Prop := 0 < m.count ∧ m.value ≠ none

/-- In a consistent state every model has an owner and a value. -/
theorem Consistent.complete {traits : AllocatorTraits A} {loose : List Loc} {s : State ι T A}
    {p : Loc} {m : Model T A} (inv : Consistent traits loose s) (live : s.models p = some m) :
    m.Complete := by
  obtain ⟨-, positive, v, constructed⟩ := inv.accounted live
  exact ⟨positive, constructed ▸ Option.some_ne_none v⟩

/-- The references to a model are given up, or it was never constructed. At most the handle
that gave up the last one still has its address. -/
structure Abandoned (s : State ι T A) (p : Loc) (m : Model T A) : Prop where
  spent : m.count = 0 ∨ m.value = none
  sole : ∀ {h k}, s.self h = some p → s.self k = some p → h = k

/-- A model that is abandoned is not a complete one. -/
theorem Abandoned.unfinished {s : State ι T A} {p : Loc} {m : Model T A}
    (abandoned : Abandoned s p m) :
    ¬ m.Complete := by
  intro complete
  rcases abandoned.spent with exhausted | unconstructed
  · exact complete.1.ne' exhausted
  · exact complete.2 unconstructed

/-- Apart from memory that waits for its value the state is consistent, with the handles
as they were. -/
def Allocated (traits : AllocatorTraits A) (loose : List Loc) (s : State ι T A) (alloc : A)
    (q : Loc) (t : State ι T A) : Prop :=
  ∃ rest : State ι T A, t = rest.raw alloc ∧ rest.next = q ∧ Consistent traits loose rest ∧
    rest.handles = s.handles

/-- A loose reference to a new model. -/
structure Made (traits : AllocatorTraits A) (loose : List Loc) (s : State ι T A) (alloc : A)
    (q : Loc) (t : State ι T A) : Prop where
  consistent : Consistent traits (q :: loose) t
  live : Live traits t ⟨alloc, some q⟩
  handles : t.handles = s.handles
  later : s.next ≤ q

/-- An allocation takes a new address in a consistent state. -/
theorem Consistent.allocated {traits : AllocatorTraits A} {loose : List Loc} {s : State ι T A}
    {alloc : A} {q : Loc} (inv : Consistent traits loose s) (later : s.next ≤ q) :
    Allocated traits loose s alloc q ((s.reserve q).raw alloc) :=
  ⟨s.reserve q, rfl, rfl, inv.reserve later, rfl⟩

theorem exists_found {α : Type} {found? : Option α} {a : α} (found : found? = some a)
    {holds : α → Prop} : (∃ b, found? = some b ∧ holds b) ↔ holds a := by
  simp [found]

section Demands

variable [DecidableEq ι] (traits : AllocatorTraits A) (setting : Setting ι)

/-- What a command asks of the part that its agent holds. -/
def demand : Demand (@Answer ι T A) (State ι T A)
  | .handle h, s, condition => ∃ o, s.handles h = some o ∧ condition o s
  | .setSelf h self, s, condition =>
      ∃ o, s.handles h = some o ∧ condition () (s.setHandle h (some { o with self }))
  | .setAlloc h alloc, s, condition =>
      ∃ o, s.handles h = some o ∧ condition () (s.setHandle h (some { o with alloc }))
  | .emplace h o, s, condition =>
      setting.own h ∧ s.handles h = none ∧ condition () (s.setHandle h (some o))
  | .remove h, s, condition => ∃ o, s.handles h = some o ∧ condition () (s.setHandle h none)
  | .load p, s, condition =>
      ∃ m, s.models p = some m ∧ m.Complete ∧
        ∀ count, setting.sees m.count count → condition count s
  | .fetchAdd p, s, condition =>
      ∃ m, s.models p = some m ∧ m.Complete ∧ ∀ count, setting.sees m.count count →
        condition count (s.setModel p (some { m with count := m.count + 1 }))
  | .fetchSub p, s, condition =>
      ∃ m, s.models p = some m ∧ m.Complete ∧ ∀ count, setting.sees m.count count →
        if count = 1 then
          -- the agent that takes the last reference is left with a model to destroy
          ¬ setting.exempt → condition count (s.setModel p (some { m with count := 0 }))
        else
          condition count (s.release (some p))
  | .value p, s, condition => ∃ m, s.models p = some m ∧ m.Complete ∧ ∀ v, condition v s
  | .setValue p v, s, condition =>
      ∃ m, s.models p = some m ∧ 0 < m.count ∧
        condition () (s.setModel p (some { m with value := some v }))
  | .allocate alloc, s, condition => ∀ p, s.next ≤ p → condition p ((s.reserve p).raw alloc)
  | .deallocate alloc p, s, condition =>
      ∃ m, s.models p = some m ∧ Abandoned s p m ∧ traits.eq alloc m.alloc ∧
        condition () (s.setModel p none)
  | .assert holds, s, condition => holds = true ∧ condition () s

/-- Weaker conditions ask for less. -/
theorem demand_monotone : (demand traits setting : Demand (@Answer ι T A) _).Monotone := by
  intro c s condition condition' weaker asked
  cases c with
  | handle h | setSelf h self | setAlloc h alloc | remove h =>
      obtain ⟨o, found, holds⟩ := asked
      exact ⟨o, found, weaker _ _ holds⟩
  | emplace h o => exact ⟨asked.1, asked.2.1, weaker _ _ asked.2.2⟩
  | load p | fetchAdd p =>
      obtain ⟨m, live, complete, holds⟩ := asked
      exact ⟨m, live, complete, fun count sees => weaker _ _ (holds count sees)⟩
  | fetchSub p =>
      obtain ⟨m, live, complete, holds⟩ := asked
      refine ⟨m, live, complete, fun count sees => ?_⟩
      have kept := holds count sees
      split
      · rename_i last
        rw [if_pos last] at kept
        exact fun bound => weaker _ _ (kept bound)
      · rename_i several
        rw [if_neg several] at kept
        exact weaker _ _ kept
  | value p =>
      obtain ⟨m, live, complete, holds⟩ := asked
      exact ⟨m, live, complete, fun v => weaker _ _ (holds v)⟩
  | setValue p v =>
      obtain ⟨m, live, positive, holds⟩ := asked
      exact ⟨m, live, positive, weaker _ _ holds⟩
  | allocate alloc => exact fun p later => weaker _ _ (asked p later)
  | deallocate alloc p =>
      obtain ⟨m, live, abandoned, agrees, holds⟩ := asked
      exact ⟨m, live, abandoned, agrees, weaker _ _ holds⟩
  | assert holds => exact ⟨asked.1, weaker _ _ asked.2⟩

end Demands

variable [DecidableEq ι] {traits : AllocatorTraits A} {setting : Setting ι} {s : State ι T A}
  {thrown : State ι T A → Prop}

section Commands

variable {h : ι} {o : Handle A} {p : Loc} {m : Model T A}

theorem ensures_handle {normal : Handle A → State ι T A → Prop} (found : s.handles h = some o) :
    ensures (demand traits setting) (handle h) normal thrown s ↔ normal o s :=
  exists_found found

/-- Reading a count, which may be higher than the share. -/
theorem ensures_load {normal : Nat → State ι T A → Prop} (live : s.models p = some m)
    (complete : m.Complete) :
    ensures (demand traits setting) (load p) normal thrown s ↔
      ∀ count, setting.sees m.count count → normal count s :=
  (exists_found live).trans (and_iff_right complete)

theorem ensures_fetchAdd {normal : Nat → State ι T A → Prop} (live : s.models p = some m)
    (complete : m.Complete) :
    ensures (demand traits setting) (fetchAdd p) normal thrown s ↔
      ∀ count, setting.sees m.count count →
        normal count (s.setModel p (some { m with count := m.count + 1 })) :=
  (exists_found live).trans (and_iff_right complete)

/-- Giving up a share: who sees the count fall to zero has the model for itself. -/
theorem ensures_fetchSub {normal : Nat → State ι T A → Prop} (live : s.models p = some m)
    (complete : m.Complete) :
    ensures (demand traits setting) (fetchSub p) normal thrown s ↔
      ∀ count, setting.sees m.count count →
        if count = 1 then
          ¬ setting.exempt → normal count (s.setModel p (some { m with count := 0 }))
        else
          normal count (s.release (some p)) :=
  (exists_found live).trans (and_iff_right complete)

/-- Reading the value of a model, which may be any as far as the counts go. -/
theorem ensures_value {normal : T → State ι T A → Prop} (live : s.models p = some m)
    (complete : m.Complete) :
    ensures (demand traits setting) (value p) normal thrown s ↔ ∀ v, normal v s :=
  (exists_found live).trans (and_iff_right complete)

/-- Any address that was not in use may be allocated. -/
theorem ensures_allocate {normal : Loc → State ι T A → Prop} (alloc : A) :
    ensures (demand traits setting) (allocate alloc) normal thrown s ↔
      ∀ p, s.next ≤ p → normal p ((s.reserve p).raw alloc) :=
  ensures_perform

variable {normal : Unit → State ι T A → Prop}

theorem ensures_setSelf (found : s.handles h = some o) (self : Option Loc) :
    ensures (demand traits setting) (setSelf h self) normal thrown s ↔
      normal () (s.setHandle h (some { o with self })) :=
  exists_found found

theorem ensures_setAlloc (found : s.handles h = some o) (alloc : A) :
    ensures (demand traits setting) (setAlloc h alloc) normal thrown s ↔
      normal () (s.setHandle h (some { o with alloc })) :=
  exists_found found

theorem ensures_emplace (own : setting.own h) (vacant : s.handles h = none) (o : Handle A) :
    ensures (demand traits setting) (emplace h o) normal thrown s ↔
      normal () (s.setHandle h (some o)) :=
  (and_iff_right own).trans (and_iff_right vacant)

theorem ensures_remove (found : s.handles h = some o) :
    ensures (demand traits setting) (remove h) normal thrown s ↔
      normal () (s.setHandle h none) :=
  exists_found found

theorem ensures_setValue (live : s.models p = some m) (positive : 0 < m.count) (v : T) :
    ensures (demand traits setting) (setValue p v) normal thrown s ↔
      normal () (s.setModel p (some { m with value := some v })) :=
  (exists_found live).trans (and_iff_right positive)

/-- An abandoned model is deallocated with an equal allocator. -/
theorem ensures_deallocate {alloc : A} (live : s.models p = some m) (abandoned : Abandoned s p m)
    (agrees : traits.eq alloc m.alloc) :
    ensures (demand traits setting) (deallocate alloc p) normal thrown s ↔
      normal () (s.setModel p none) :=
  (exists_found live).trans ((and_iff_right abandoned).trans (and_iff_right agrees))

theorem ensures_assert {holds : Bool} (established : holds) :
    ensures (demand traits setting) (assert holds) normal thrown s ↔ normal () s :=
  and_iff_right established

theorem ensures_pointee {normal : Loc → State ι T A → Prop} (points : o.self = some p) :
    ensures (demand traits setting) (pointee o) normal thrown s ↔ normal p s := by
  rw [pointee, points]
  rfl

end Commands

section Construction

variable {loose : List Loc} {alloc : A}

/-- The construction of a value leaves the memory for it. -/
def Builds (traits : AllocatorTraits A) (setting : Setting ι) (loose : List Loc) (s : State ι T A)
    (alloc : A) (build : Code ι T A T) : Prop :=
  ∀ q, s.next ≤ q → ensures (demand traits setting) build
    (fun _ => Allocated traits loose s alloc q) (Allocated traits loose s alloc q)
    ((s.reserve q).raw alloc)

theorem builds_construct (inv : Consistent traits loose s) (u : T) :
    Builds traits setting loose s alloc (construct u) := by
  intro q later
  rw [construct, ensures_bind, ensures_mayThrow, ensures_pure]
  exact ⟨inv.allocated later, inv.allocated later⟩

variable {p : Loc} {m : Model T A}

theorem builds_constructCopy (inv : Consistent traits loose s) (live : s.models p = some m) :
    Builds traits setting loose s alloc (constructCopy p) := by
  intro q later
  have still : ((s.reserve q).raw alloc).models p = some m :=
    (State.models_setModel_of_ne ((inv.lt_next live).trans_le later).ne _).trans live
  rw [constructCopy, ensures_bind, ensures_value still (inv.complete live)]
  intro v
  rw [ensures_bind, ensures_mayThrow, ensures_pure]
  exact ⟨inv.allocated later, inv.allocated later⟩

/-- A value is built by moving that of a model. -/
theorem builds_constructMove (values : ValueTraits T) (inv : Consistent traits loose s)
    (live : s.models p = some m) :
    Builds traits setting loose s alloc (constructMove values p) := by
  intro q later
  have different : p ≠ (s.reserve q).next := ((inv.lt_next live).trans_le later).ne
  have still : ((s.reserve q).raw alloc).models p = some m :=
    (State.models_setModel_of_ne different _).trans live
  have written (w : T) : Allocated traits loose s alloc q
      (((s.reserve q).raw alloc).setModel p (some { m with value := some w })) := by
    rw [State.raw_setModel different]
    exact ⟨_, rfl, rfl, (inv.reserve later).setValue live w, rfl⟩
  have complete := inv.complete live
  rw [constructMove, ensures_bind, ensures_value still complete]
  intro v
  refine ⟨?_, ?_⟩
  · rw [ensures_bind, ensures_setValue still complete.1, ensures_throw]
    exact written _
  · rw [ensures_bind, ensures_setValue still complete.1, ensures_pure]
    exact written _

/-- A model is made, or what was allocated for it is given back. -/
theorem ensures_makeModel {build : Code ι T A T} {normal : Loc → State ι T A → Prop}
    (inv : Consistent traits loose s) (builds : Builds traits setting loose s alloc build)
    (onThrow : ∀ t, Consistent traits loose t → t.handles = s.handles → thrown t)
    (onNormal : ∀ q t, Made traits loose s alloc q t → normal q t) :
    ensures (demand traits setting) (makeModel alloc build) normal thrown s := by
  rw [makeModel, ensures_bind, ensures_mayThrow]
  refine ⟨onThrow s inv rfl, ?_⟩
  rw [ensures_bind, ensures_allocate]
  intro q later
  rw [ensures_bind, ensures_onThrow]
  refine ensures_mono (demand_monotone traits setting) ?_ ?_ (builds q later)
  · intro v _ allocated
    rcases allocated with ⟨rest, rfl, rfl, consistent, same⟩
    rw [ensures_bind, ensures_setValue (State.models_raw_self ..) Nat.one_pos, ensures_pure,
      State.raw_constructed]
    exact onNormal _ _ ⟨consistent.new alloc v, Consistent.live_new alloc v, same, later⟩
  · intro _ allocated
    rcases allocated with ⟨rest, rfl, rfl, consistent, same⟩
    have unowned (h : ι) : rest.self h ≠ some rest.next := by
      intro points
      obtain ⟨m, live⟩ := consistent.pointed_self points
      exact consistent.used live rfl
    have abandoned : Abandoned (rest.raw alloc) rest.next ⟨1, none, alloc⟩ :=
      ⟨.inr rfl, fun points _ => absurd points (unowned _)⟩
    rw [ensures_bind,
      ensures_deallocate (State.models_raw_self ..) abandoned (traits.eq_refl alloc),
      ensures_throw, State.raw_givenBack consistent.unused]
    exact onThrow _ consistent.skip same

end Construction

section Release

variable {normal : Unit → State ι T A → Prop} {loose : List Loc} {h : ι} {o : Handle A}

/-- A reference is given up; the agent that gives up the last one destroys the model. -/
theorem ensures_drop (inv : Consistent traits loose s) (live : Live traits s o)
    (next : normal () (s.release o.self)) :
    ensures (demand traits setting) (drop o) normal thrown s := by
  rw [drop]
  split
  · rename_i null
    rw [null] at next
    exact next
  · rename_i p points
    obtain ⟨m, found, agrees⟩ := live p points
    have complete := inv.complete found
    rw [points, State.release_some found] at next
    rw [ensures_bind, ensures_fetchSub found complete, State.release_some found]
    intro count sees
    by_cases last : count = 1
    · have one : m.count = 1 := by
        have bound := setting.le_of_sees sees
        have positive := complete.1
        omega
      have abandoned : Abandoned (s.setModel p (some { m with count := 0 })) p
          { m with count := 0 } :=
        ⟨.inl rfl, fun points also => inv.sole found one also points⟩
      rw [if_pos one] at next
      rw [if_pos last, if_pos last, destroyModel,
        ensures_deallocate (State.models_setModel_self ..) abandoned agrees]
      intro _
      simp only [State.setModel, Function.update_idem]
      exact next
    · rw [if_neg last, if_neg last]
      exact next

/-- The reference is given up before the pointer is overwritten. -/
theorem ensures_reset (inv : Consistent traits loose s) (found : s.handles h = some o)
    {v : Option Loc} (next : normal () (s.replace h (some { o with self := v }))) :
    ensures (demand traits setting) (reset h v) normal thrown s := by
  have still : (s.release o.self).handles h = some o := by
    rw [State.handles_release]
    exact found
  rw [State.replace, State.self_of_handles found, ← State.setHandle_release] at next
  rw [reset, ensures_bind, ensures_handle found, ensures_bind]
  apply ensures_drop inv (inv.live found)
  rw [ensures_setSelf still]
  exact next

/-- The reference is given up before the object is gone. -/
theorem ensures_destroy (inv : Consistent traits loose s) (found : s.handles h = some o)
    (next : normal () (s.replace h none)) :
    ensures (demand traits setting) (destroy h) normal thrown s := by
  have still : (s.release o.self).handles h = some o := by
    rw [State.handles_release]
    exact found
  rw [State.replace, State.self_of_handles found, ← State.setHandle_release] at next
  have dropped : ensures (demand traits setting) (do drop o; remove h) normal thrown s := by
    rw [ensures_bind]
    apply ensures_drop inv (inv.live found)
    rw [ensures_remove still]
    exact next
  rw [destroy, ensures_bind, ensures_handle found, ensures_bind]
  split
  · exact dropped
  · rename_i p points
    obtain ⟨m, live, -⟩ := inv.pointed found points
    have complete := inv.complete live
    rw [ensures_bind, ensures_load live complete]
    intro count sees
    rw [ensures_assert (decide_eq_true (complete.1.trans_le (setting.le_of_sees sees)))]
    exact dropped

end Release

end StdBitcoin.CopyOnWrite
