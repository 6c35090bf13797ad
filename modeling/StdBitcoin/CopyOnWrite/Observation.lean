import StdBitcoin.CopyOnWrite.Consistency

/-!
# Observations

What the state changes do to the values seen through the handles. In a consistent
state only two of them are visible: new members for one handle, and a value written
into a model, which every handle that points to the model sees.
-/

namespace StdBitcoin.CopyOnWrite

variable {ι T A : Type}

namespace State

theorem observe_of_handles {s : State ι T A} {h : ι} {o : Handle A} (found : s.handles h = some o) :
    s.observe h = some (o.self.bind s.valueAt) := by
  rw [observe, found]
  rfl

theorem observe_of_self {s : State ι T A} {h : ι} {p : Loc} (points : s.self h = some p) :
    s.observe h = some (s.valueAt p) := by
  obtain ⟨o, found, points⟩ := Option.bind_eq_some_iff.mp points
  rw [observe_of_handles found, points]
  rfl

theorem valueAt_of_models {s : State ι T A} {p : Loc} {m : Model T A}
    (found : s.models p = some m) :
    s.valueAt p = m.value := by
  rw [valueAt, found]
  rfl

theorem valueAt_setModel_of_ne {s : State ι T A} {p q : Loc} (different : q ≠ p)
    (m : Option (Model T A)) : (s.setModel p m).valueAt q = s.valueAt q := by
  rw [valueAt, models_setModel_of_ne different, valueAt]

@[simp] theorem valueAt_setModel_self (s : State ι T A) (p : Loc) (m : Option (Model T A)) :
    (s.setModel p m).valueAt p = m.bind Model.value := by
  rw [valueAt, models_setModel_self]

@[simp] theorem valueAt_new_self (s : State ι T A) (alloc : A) (v : T) :
    (s.new alloc v).valueAt s.next = some v :=
  valueAt_setModel_self ..

/-- Nobody sees a write to a model that nobody points to, nor one of the same value. -/
theorem observe_setModel {s : State ι T A} {p : Loc} {m : Option (Model T A)}
    (same : ∀ k, s.self k = some p → m.bind Model.value = s.valueAt p) :
    (s.setModel p m).observe = s.observe := by
  funext k
  cases alive : s.handles k with
  | none =>
      have gone : (s.setModel p m).handles k = none := alive
      rw [observe, observe, alive, gone]
      rfl
  | some o =>
      have still : (s.setModel p m).handles k = some o := alive
      rw [observe_of_handles alive, observe_of_handles still]
      cases points : o.self with
      | none => rfl
      | some q =>
          change some ((s.setModel p m).valueAt q) = some (s.valueAt q)
          by_cases written : q = p
          · subst written
            rw [valueAt_setModel_self, same k ((self_of_handles alive).trans points)]
          · rw [valueAt_setModel_of_ne written]

/-- Another owner changes nothing that is seen. -/
theorem observe_acquire {s : State ι T A} {p : Loc} {m : Model T A} (found : s.models p = some m) :
    (s.setModel p (some { m with count := m.count + 1 })).observe = s.observe :=
  observe_setModel fun _ _ => (valueAt_of_models found).symm

/-- A written value is seen through the handles that point to its model. -/
theorem observe_setValue {s : State ι T A} {p : Loc} (m : Model T A) (v : T) (k : ι) :
    (s.setModel p (some { m with value := some v })).observe k =
      if s.self k = some p then some (some v) else s.observe k := by
  cases alive : s.handles k with
  | none =>
      have gone : s.self k = none := by
        rw [self, alive]
        rfl
      rw [gone, if_neg (Option.some_ne_none p).symm]
      simp only [observe, setModel, alive]
      rfl
  | some o =>
      have still : (s.setModel p (some { m with value := some v })).handles k = some o := alive
      rw [observe_of_handles alive, observe_of_handles still, self_of_handles alive]
      cases o.self with
      | none => rfl
      | some q =>
          by_cases written : q = p
          · subst written
            rw [if_pos rfl, Option.bind_some, valueAt_setModel_self]
            rfl
          · rw [if_neg fun same => written (Option.some.inj same), Option.bind_some,
              Option.bind_some, valueAt_setModel_of_ne written]

/-- A change of an object is seen there and nowhere else. -/
theorem observe_setHandle [DecidableEq ι] (s : State ι T A) (h : ι) (o : Option (Handle A)) :
    (s.setHandle h o).observe =
      Function.update s.observe h (o.map fun o => o.self.bind s.valueAt) := by
  funext k
  by_cases same : k = h
  · subst same
    rw [Function.update_self, observe, handles_setHandle_self]
    rfl
  · rw [Function.update_of_ne same, observe, handles_setHandle_of_ne same]
    rfl

end State

namespace Consistent

variable {traits : AllocatorTraits A} {loose : List Loc} {s : State ι T A} {p : Loc} {m : Model T A}

/-- A reference that is counted has a value. -/
theorem valueAt (inv : Consistent traits loose s) (found : s.models p = some m) :
    ∃ v, m.value = some v ∧ s.valueAt p = some v := by
  obtain ⟨v, constructed⟩ := (inv.accounted found).constructed
  exact ⟨v, constructed, (State.valueAt_of_models found).trans constructed⟩

/-- What an object that is not valueless points to, and what it shows. -/
theorem shown (inv : Consistent traits loose s) {this : ι} (points : s.self this = some p) :
    ∃ target m v, s.handles this = some target ∧ target.self = some p ∧ s.models p = some m ∧
      m.value = some v ∧ s.observe this = some (some v) := by
  obtain ⟨target, place, points'⟩ := Option.bind_eq_some_iff.mp points
  obtain ⟨m, live⟩ := inv.pointed_self points
  obtain ⟨v, constructed, value⟩ := inv.valueAt live
  have seen := (State.observe_of_self points).trans (congrArg some value)
  exact ⟨target, m, v, place, points', live, constructed, seen⟩

/-- A new model is not seen before an object points to it. -/
theorem observe_new (inv : Consistent traits loose s) (alloc : A) (v : T) :
    (s.new alloc v).observe = s.observe := by
  refine State.observe_setModel fun k points => ?_
  obtain ⟨m, found⟩ := inv.pointed_self points
  exact absurd rfl (inv.used found)

/-- Nobody sees that a loose reference is given up. -/
theorem observe_release {v : Option Loc} (inv : Consistent traits (v.toList ++ loose) s) :
    (s.release v).observe = s.observe := by
  cases v with
  | none => rfl
  | some p =>
      obtain ⟨m, found⟩ := inv.held List.mem_cons_self
      rw [State.release_some found]
      refine State.observe_setModel fun k points => ?_
      split
      · exact absurd points ((inv.unowned found ‹_›).2 k)
      · exact (State.valueAt_of_models found).symm

variable [DecidableEq ι] {h : ι} {o : Option (Handle A)}

/-- New members for a handle show their value there, and change nothing elsewhere. -/
theorem observe_replace (inv : Consistent traits ((o.bind Handle.self).toList ++ loose) s)
    (live : ∀ o' p, o = some o' → o'.self = some p →
      ∃ m, s.models p = some m ∧ traits.eq o'.alloc m.alloc) :
    (s.replace h o).observe =
      Function.update s.observe h (o.map fun o => o.self.bind s.valueAt) := by
  rw [State.replace, (inv.exchange live).observe_release, State.observe_setHandle]

end Consistent

end StdBitcoin.CopyOnWrite
