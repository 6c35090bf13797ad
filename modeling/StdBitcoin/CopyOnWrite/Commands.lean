import StdBitcoin.CopyOnWrite.Observation
import StdBitcoin.CopyOnWrite.Operations

/-!
# Preconditions of the building blocks

The weakest preconditions of the accesses, and of the helpers that the member
functions share: the construction of a model, and the release of a reference.
-/

namespace StdBitcoin.CopyOnWrite

open Effects Prog

variable {ι T A : Type}

namespace State

/-- The next address is skipped. -/
def skip (s : State ι T A) : State ι T A := { s with next := s.next + 1 }

/-- The addresses below are skipped. -/
def reserve (s : State ι T A) (p : Loc) : State ι T A := { s with next := p }

/-- Memory for a model whose value is not yet constructed. -/
def raw (s : State ι T A) (alloc : A) : State ι T A :=
  { s.setModel s.next (some ⟨1, none, alloc⟩) with next := s.next + 1 }

/-- Memory whose construction succeeds is a new model. -/
theorem raw_constructed (s : State ι T A) (alloc : A) (v : T) :
    (s.raw alloc).setModel s.next (some ⟨1, some v, alloc⟩) = s.new alloc v := by
  simp only [raw, new, setModel, Function.update_idem]

/-- Memory whose construction throws is given back, and its address is used up. -/
theorem raw_givenBack {s : State ι T A} (unused : s.models s.next = none) (alloc : A) :
    (s.raw alloc).setModel s.next none = s.skip := by
  simp only [raw, skip, setModel, Function.update_idem, ← unused, Function.update_eq_self]

/-- The allocation commutes with a write to another model. -/
theorem raw_setModel {s : State ι T A} {p : Loc} (different : p ≠ s.next) (alloc : A)
    (m : Option (Model T A)) : (s.raw alloc).setModel p m = (s.setModel p m).raw alloc := by
  simp only [raw, setModel, Function.update_comm different]

theorem models_raw_self (s : State ι T A) (alloc : A) :
    (s.raw alloc).models s.next = some ⟨1, none, alloc⟩ :=
  models_setModel_self ..

end State

variable [DecidableEq ι] {traits : AllocatorTraits A} {values : ValueTraits T}
  {s : State ι T A} {thrown : State ι T A → Prop}

section Commands

variable {h : ι} {o : Handle A} {p : Loc} {m : Model T A} {v : T}

theorem wp_handle {normal : Handle A → State ι T A → Prop} (found : s.handles h = some o) :
    wp (exec traits) (handle h) normal thrown s ↔ normal o s :=
  wp_perform (by rw [exec, found]; rfl)

theorem wp_load {normal : Nat → State ι T A → Prop} (found : s.models p = some m) :
    wp (exec traits) (load p) normal thrown s ↔ normal m.count s :=
  wp_perform (by rw [exec, found]; rfl)

theorem wp_fetchAdd {normal : Nat → State ι T A → Prop} (found : s.models p = some m) :
    wp (exec traits) (fetchAdd p) normal thrown s ↔
      normal m.count (s.setModel p (some { m with count := m.count + 1 })) :=
  wp_perform (by rw [exec, found]; rfl)

theorem wp_fetchSub {normal : Nat → State ι T A → Prop} (found : s.models p = some m) :
    wp (exec traits) (fetchSub p) normal thrown s ↔
      normal m.count (s.setModel p (some { m with count := m.count - 1 })) :=
  wp_perform (by rw [exec, found]; rfl)

theorem wp_value {normal : T → State ι T A → Prop} (found : s.valueAt p = some v) :
    wp (exec traits) (value p) normal thrown s ↔ normal v s :=
  wp_perform (by rw [exec, found]; rfl)

theorem wp_allocate {normal : Loc → State ι T A → Prop} (alloc : A) :
    wp (exec traits) (allocate alloc) normal thrown s ↔
      normal s.next { s.setModel s.next (some ⟨1, none, alloc⟩) with next := s.next + 1 } :=
  wp_perform rfl

variable {normal : Unit → State ι T A → Prop}

theorem wp_setSelf (found : s.handles h = some o) (self : Option Loc) :
    wp (exec traits) (setSelf h self) normal thrown s ↔
      normal () (s.setHandle h (some { o with self })) :=
  wp_perform (by rw [exec, found]; rfl)

theorem wp_setAlloc (found : s.handles h = some o) (alloc : A) :
    wp (exec traits) (setAlloc h alloc) normal thrown s ↔
      normal () (s.setHandle h (some { o with alloc })) :=
  wp_perform (by rw [exec, found]; rfl)

theorem wp_emplace (vacant : s.handles h = none) (o : Handle A) :
    wp (exec traits) (emplace h o) normal thrown s ↔ normal () (s.setHandle h (some o)) :=
  wp_perform (by simp only [exec, vacant])

theorem wp_remove (found : s.handles h = some o) :
    wp (exec traits) (remove h) normal thrown s ↔ normal () (s.setHandle h none) :=
  wp_perform (by rw [exec, found]; rfl)

theorem wp_setValue (found : s.models p = some m) (v : T) :
    wp (exec traits) (setValue p v) normal thrown s ↔
      normal () (s.setModel p (some { m with value := some v })) :=
  wp_perform (by rw [exec, found]; rfl)

/-- Memory goes back to an allocator that is equal to the one it came from. -/
theorem wp_deallocate (found : s.models p = some m) {alloc : A} (agrees : traits.eq alloc m.alloc) :
    wp (exec traits) (deallocate alloc p) normal thrown s ↔ normal () (s.setModel p none) :=
  wp_perform (by simp only [exec, found, agrees, if_true])

theorem wp_assert {holds : Bool} (established : holds) :
    wp (exec traits) (assert holds) normal thrown s ↔ normal () s :=
  wp_perform (by simp only [exec, established, if_true])

end Commands

theorem wp_pointee {normal : Loc → State ι T A → Prop} {o : Handle A} {p : Loc}
    (points : o.self = some p) :
    wp (exec traits) (pointee o) normal thrown s ↔ normal p s := by
  rw [pointee, points]
  rfl

section Construction

variable {normal : Loc → State ι T A → Prop} {p : Loc} {m : Model T A} {v : T} (alloc : A)

/-- A model is built by the construction of its value in new memory. -/
theorem wp_makeModel {build : Code ι T A T} :
    wp (exec traits) (makeModel alloc build) normal thrown s ↔
      thrown s ∧ wp (exec traits) build
        (fun v => wp (exec traits) (do setValue s.next v; return s.next) normal thrown)
        (wp (exec traits) (do deallocate alloc s.next; Prog.throw : Code ι T A T)
          (fun v => wp (exec traits) (do setValue s.next v; return s.next) normal thrown) thrown)
        (s.raw alloc) := by
  rw [makeModel, wp_bind, wp_mayThrow, wp_bind, wp_allocate, wp_bind, wp_onThrow]
  rfl

/-- The value is constructed where the memory is. -/
theorem wp_constructed (found : s.models p = some m) :
    wp (exec traits) (do setValue p v; return p) normal thrown s ↔
      normal p (s.setModel p (some { m with value := some v })) := by
  rw [wp_bind, wp_setValue found, wp_pure]

/-- The memory is given back when the construction throws. -/
theorem wp_giveBack {normal : T → State ι T A → Prop} (found : s.models p = some m)
    (agrees : traits.eq alloc m.alloc) :
    wp (exec traits) (do deallocate alloc p; Prog.throw : Code ι T A T) normal thrown s ↔
      thrown (s.setModel p none) := by
  rw [wp_bind, wp_deallocate found agrees, wp_throw]

/-- A model for a value whose construction throws or succeeds, and writes nothing. -/
theorem wp_makeModel_of_build {build : Code ι T A T} (unused : s.models s.next = none)
    (builds : ∀ {normal : T → State ι T A → Prop} {thrown : State ι T A → Prop},
      thrown (s.raw alloc) → normal v (s.raw alloc) →
        wp (exec traits) build normal thrown (s.raw alloc))
    (onThrow : thrown s) (onSkip : thrown s.skip) (onNormal : normal s.next (s.new alloc v)) :
    wp (exec traits) (makeModel alloc build) normal thrown s := by
  rw [wp_makeModel]
  refine ⟨onThrow, builds ?_ ?_⟩
  · rw [wp_giveBack alloc (State.models_raw_self ..) (traits.eq_refl alloc),
      State.raw_givenBack unused]
    exact onSkip
  · rw [wp_constructed (State.models_raw_self ..), State.raw_constructed]
    exact onNormal

/-- A model for a given value. -/
theorem wp_makeModel_construct (unused : s.models s.next = none) (onThrow : thrown s)
    (onSkip : thrown s.skip) (onNormal : normal s.next (s.new alloc v)) :
    wp (exec traits) (makeModel alloc (construct v)) normal thrown s := by
  refine wp_makeModel_of_build alloc unused (fun interrupted built => ?_) onThrow onSkip onNormal
  rw [construct, wp_bind, wp_mayThrow]
  exact ⟨interrupted, built⟩

/-- A model for a copy of another model's value. -/
theorem wp_makeModel_constructCopy (unused : s.models s.next = none) (found : s.valueAt p = some v)
    (onThrow : thrown s) (onSkip : thrown s.skip) (onNormal : normal s.next (s.new alloc v)) :
    wp (exec traits) (makeModel alloc (constructCopy p)) normal thrown s := by
  have different : p ≠ s.next := by
    rintro rfl
    rw [State.valueAt, unused] at found
    cases found
  have still : (s.raw alloc).valueAt p = some v :=
    (State.valueAt_setModel_of_ne different _).trans found
  refine wp_makeModel_of_build alloc unused (fun interrupted built => ?_) onThrow onSkip onNormal
  rw [constructCopy, wp_bind, wp_value still, wp_bind, wp_mayThrow]
  exact ⟨interrupted, built⟩

/-- A model for a value moved out of another model. -/
theorem wp_makeModel_constructMove (unused : s.models s.next = none) (found : s.models p = some m)
    (constructed : m.value = some v) (onThrow : thrown s)
    (onInterrupt : thrown
      (s.setModel p (some { m with value := some (values.interrupted v) })).skip)
    (onNormal : normal s.next
      ((s.setModel p (some { m with value := some (values.moved v) })).new alloc v)) :
    wp (exec traits) (makeModel alloc (constructMove values p)) normal thrown s := by
  have different : p ≠ s.next := by
    rintro rfl
    rw [unused] at found
    cases found
  have still : (s.raw alloc).models p = some m :=
    (State.models_setModel_of_ne different _).trans found
  have vacant (w : T) :
      (s.setModel p (some { m with value := some w })).models s.next = none :=
    (State.models_setModel_of_ne different.symm _).trans unused
  have unbuilt (w : T) :
    ((s.setModel p (some { m with value := some w })).raw alloc).models s.next =
      some ⟨1, none, alloc⟩ :=
    State.models_raw_self ..
  rw [wp_makeModel, constructMove, wp_bind,
    wp_value ((State.valueAt_of_models still).trans constructed)]
  refine ⟨onThrow, ?_, ?_⟩
  · rw [wp_bind, wp_setValue still, wp_throw, State.raw_setModel different,
      wp_giveBack alloc (unbuilt _) (traits.eq_refl alloc)]
    exact State.raw_givenBack (vacant _) alloc ▸ onInterrupt
  · rw [wp_bind, wp_setValue still, wp_pure, State.raw_setModel different,
      wp_constructed (unbuilt _)]
    exact State.raw_constructed (s.setModel p _) alloc v ▸ onNormal

end Construction

section Release

variable {normal : Unit → State ι T A → Prop} {h : ι} {o : Handle A} {loose : List Loc}

/-- A handle whose pointer agrees with its model gives up the reference. -/
theorem wp_drop
    (live : ∀ p, o.self = some p → ∃ m, s.models p = some m ∧ traits.eq o.alloc m.alloc) :
    wp (exec traits) (drop o) normal thrown s ↔ normal () (s.release o.self) := by
  rw [drop]
  split
  · rename_i null
    rw [null]
    rfl
  · rename_i p points
    obtain ⟨m, found, agrees⟩ := live p points
    have counted : (s.setModel p (some { m with count := m.count - 1 })).models p =
        some { m with count := m.count - 1 } :=
      State.models_setModel_self ..
    rw [points, State.release_some found, wp_bind, wp_fetchSub found]
    split
    · rw [destroyModel, wp_deallocate counted agrees]
      simp only [State.setModel, Function.update_idem]
    · rfl

/-- The reference is given up before the pointer is overwritten. -/
theorem wp_reset (found : s.handles h = some o)
    (live : ∀ p, o.self = some p → ∃ m, s.models p = some m ∧ traits.eq o.alloc m.alloc)
    (v : Option Loc) :
    wp (exec traits) (reset h v) normal thrown s ↔
      normal () (s.replace h (some { o with self := v })) := by
  have still : (s.release o.self).handles h = some o := by
    rw [State.handles_release]
    exact found
  rw [reset, wp_bind, wp_handle found, wp_bind, wp_drop live, wp_setSelf still, State.replace,
    State.self_of_handles found, State.setHandle_release]

end Release

end StdBitcoin.CopyOnWrite
