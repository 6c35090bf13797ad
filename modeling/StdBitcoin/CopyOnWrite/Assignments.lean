import StdBitcoin.CopyOnWrite.Constructors

/-!
# Assignments

Copy and value assignment change what is seen through their target only, on every
path. A move assignment is seen as a move, unless it moves the value out of a model
that a third handle shares.
-/

namespace StdBitcoin.CopyOnWrite

open Effects Prog

variable {ι T A : Type} {traits : AllocatorTraits A} {values : ValueTraits T} {s : State ι T A}
  {this x : ι} {target source : Handle A}

/-- The value is moved out of a model that a third handle shares, and the move shows. -/
def Clobbers (traits : AllocatorTraits A) (values : ValueTraits T) (this x : ι) (s : State ι T A) :
    Prop :=
  ∃ target source p v,
    s.handles this = some target ∧ s.handles x = some source ∧
    traits.propagateOnContainerMoveAssignment = false ∧
    traits.eq target.alloc source.alloc = false ∧
    source.self = some p ∧ s.valueAt p = some v ∧ values.moved v ≠ v ∧
    ∃ k, k ≠ this ∧ k ≠ x ∧ s.self k = some p

/-- Only a transfer between unequal allocators that do not propagate clobbers. -/
theorem clobbers_iff (place : s.handles this = some target) (found : s.handles x = some source) :
    Clobbers traits values this x s ↔
      (traits.propagateOnContainerMoveAssignment || traits.eq target.alloc source.alloc) = false ∧
      ∃ p v, source.self = some p ∧ s.valueAt p = some v ∧ values.moved v ≠ v ∧
        ∃ k, k ≠ this ∧ k ≠ x ∧ s.self k = some p := by
  rw [Bool.or_eq_false_iff]
  constructor
  · rintro ⟨target', source', p, v, place', found', stays, unequal, rest⟩
    obtain rfl := Option.some.inj (place.symm.trans place')
    obtain rfl := Option.some.inj (found.symm.trans found')
    exact ⟨⟨stays, unequal⟩, p, v, rest⟩
  · rintro ⟨⟨stays, unequal⟩, p, v, rest⟩
    exact ⟨target, source, p, v, place, found, stays, unequal, rest⟩

/-- A source that shares its model with nobody is not clobbered. -/
theorem not_clobbers_of_unshared (values : ValueTraits T) (found : s.handles x = some source)
    (unshared : ∀ k, k ≠ x → s.self k ≠ source.self) : ¬ Clobbers traits values this x s := by
  rintro ⟨-, source', p, -, -, found', -, -, points, -, -, k, -, other, shares⟩
  obtain rfl := Option.some.inj (found.symm.trans found')
  exact unshared k other (shares.trans points.symm)

variable [DecidableEq ι]

/-- The tail that the assignments share: a loose reference goes into the pointer, then
the allocator follows if it propagates. -/
theorem wp_reset_propagate {v : Option Loc} {propagate : Bool} {alloc : A}
    {seen : ι → Option (Option T)} (inv : Consistent traits v.toList s)
    (place : s.handles this = some target)
    (live : Live traits s ⟨if propagate then alloc else target.alloc, v⟩)
    (shown : Function.update s.observe this (some (v.bind s.valueAt)) = seen)
    (thrown : State ι T A → Prop) :
    wp (exec traits) (reset this v)
      (fun _ => wp (exec traits) (if propagate then setAlloc this alloc else return ())
        (fun _ => Shows traits seen) thrown) thrown s := by
  have shows_replace := inv.shows_replace (h := this) live
  rw [shown] at shows_replace
  rw [wp_reset place (inv.live place)]
  split
  · rename_i propagates
    rw [if_pos propagates] at shows_replace
    have replaced : (s.replace this (some { target with self := v })).handles this =
        some { target with self := v } := by
      rw [State.handles_replace, Function.update_self]
    rw [wp_setAlloc replaced, State.replace, State.setHandle_release]
    simp only [State.setHandle, Function.update_idem]
    exact shows_replace
  · rename_i stays
    rw [if_neg stays] at shows_replace
    exact shows_replace

/-- Copy assignment shows the value of the source in both objects. -/
theorem wp_copyAssign (inv : Consistent traits [] s) (place : s.handles this = some target)
    (found : s.handles x = some source) :
    wp (exec traits) (copyAssign traits this x)
      (fun _ => Shows traits (Function.update s.observe this (s.observe x)))
      (Consistent traits []) s := by
  unfold copyAssign
  split
  · rename_i same
    subst same
    exact ⟨inv, (Function.update_eq_self ..).symm⟩
  · rw [wp_bind, wp_handle found, wp_bind, wp_handle place, wp_bind, State.observe_of_handles found]
    split
    · rename_i null
      rw [null]
      exact wp_reset_propagate inv place (Consistent.live_null _) rfl _
    · rename_i p points
      obtain ⟨m, live, matching⟩ := inv.pointed found points
      obtain ⟨v, constructed, value⟩ := inv.valueAt live
      rw [points, Option.bind_some, value]
      split
      · rename_i shared
        rw [wp_bind, wp_fetchAdd live]
        refine wp_reset_propagate (inv.acquire live) (by exact place)
          (Consistent.live_acquire ?_) ?_ _
        · rw [Bool.or_assoc, Bool.or_eq_true_iff] at shared
          exact eq_of_taken (shared.imp_right eq_of_always_or) matching
        · rw [State.observe_acquire live, Option.bind_some, State.valueAt_setModel_self]
          exact congrArg _ (congrArg some constructed)
      · rename_i unshared
        rw [wp_bind]
        apply wp_makeModel_constructCopy _ inv.unused value inv inv.skip
        refine wp_reset_propagate (inv.new _ v) (by exact place) ?_ ?_ _
        · split
          · rename_i propagates
            simp [propagates] at unshared
          · exact Consistent.live_new _ _
        · rw [inv.observe_new, Option.bind_some, State.valueAt_new_self]

/-- What a move assignment between two handles shows. -/
def moveSeen (this x : ι) (seen : ι → Option (Option T)) : ι → Option (Option T) :=
  if x = this then seen else Function.update (Function.update seen x (some none)) this (seen x)

/-- Moving from another object leaves it valueless. -/
theorem moveSeen_of_ne (distinct : x ≠ this) (seen : ι → Option (Option T)) :
    moveSeen this x seen =
      Function.update (Function.update seen x (some none)) this (seen x) :=
  if_neg distinct

/-- The value that is moved to a new model is seen through the handle that gets it; the
source is seen to be valueless, and what the move leaves is seen through the others. -/
theorem wp_transfer (inv : Consistent traits [] s) (place : s.handles this = some target)
    (found : s.handles x = some source) (distinct : x ≠ this) {p : Loc} {m : Model T A} {v : T}
    (live : s.models p = some m) (constructed : m.value = some v) :
    wp (exec traits)
      (do let q ← makeModel target.alloc (constructMove values p)
          reset this (some q)
          reset x none)
      (fun _ => Shows traits (Function.update (Function.update
        (s.setModel p (some { m with value := some (values.moved v) })).observe
        this (some (some v))) x (some none)))
      (fun s' => Consistent traits [] s' ∧ s'.handles = s.handles) s := by
  have written := inv.setValue live (values.moved v)
  have built := written.new target.alloc v
  have assigned := built.shows_replace (h := this) (Consistent.live_new target.alloc v)
  have cleared := assigned.consistent.shows_clear (h := x) source.alloc
  rw [assigned.observe, written.observe_new, Option.bind_some, State.valueAt_new_self] at cleared
  rw [wp_bind]
  refine wp_makeModel_constructMove target.alloc inv.unused live constructed ⟨inv, rfl⟩ ?_ ?_
  · exact ⟨(inv.setValue live _).skip, rfl⟩
  · rw [wp_bind, wp_reset (by exact place) (built.live (by exact place))]
    have untouched (o : Option (Handle A)) :
        (((s.setModel p (some { m with value := some (values.moved v) })).new
          target.alloc v).replace this o).handles x = some source :=
      (State.handles_replace_of_ne distinct o).trans found
    exact (wp_reset (untouched _) (assigned.consistent.live (untouched _)) none).mpr cleared

/-- The transfer is seen as a move exactly if the move leaves the value as it is for all
that share it. -/
theorem transfer_seen_iff (distinct : x ≠ this) {p : Loc} {m : Model T A} {v : T}
    (value : s.valueAt p = some v) (w : T) :
    Function.update (Function.update (s.setModel p (some { m with value := some w })).observe
        this (some (some v))) x (some none) =
      Function.update (Function.update s.observe x (some none)) this (some (some v)) ↔
    ∀ k, k ≠ this → k ≠ x → s.self k = some p → w = v := by
  rw [Function.update_comm distinct]
  constructor
  · intro same k here there shares
    have seen := congrFun same k
    rw [Function.update_of_ne there, Function.update_of_ne here, Function.update_of_ne there,
      Function.update_of_ne here, State.observe_setValue, if_pos shares,
      State.observe_of_self shares, value] at seen
    exact Option.some.inj (Option.some.inj seen)
  · intro kept
    funext k
    by_cases there : k = x
    · rw [there, Function.update_self, Function.update_self]
    rw [Function.update_of_ne there, Function.update_of_ne there]
    by_cases here : k = this
    · rw [here, Function.update_self, Function.update_self]
    rw [Function.update_of_ne here, Function.update_of_ne here, State.observe_setValue]
    split
    · rename_i shares
      rw [kept k here there shares, State.observe_of_self shares, value]
    · rfl

/-- A stolen pointer is seen as a move. -/
theorem wp_steal (inv : Consistent traits [] s) (place : s.handles this = some target)
    (found : s.handles x = some source) (distinct : x ≠ this) {p : Loc}
    (points : source.self = some p)
    (steals : (traits.propagateOnContainerMoveAssignment ||
      traits.eq target.alloc source.alloc) = true) (thrown : State ι T A → Prop) :
    wp (exec traits) (do setSelf x none; reset this (some p))
      (fun _ => wp (exec traits) (if traits.propagateOnContainerMoveAssignment then
          setAlloc this source.alloc else return ())
        (fun _ => Shows traits (Function.update (Function.update s.observe x (some none)) this
          (s.observe x))) thrown) thrown s := by
  obtain ⟨m, live, matching⟩ := inv.pointed found points
  have taken := inv.take found
  rw [points] at taken
  have placed : (s.setHandle x (some { source with self := none })).handles this =
      some target := by
    rw [State.handles_setHandle_of_ne distinct.symm]
    exact place
  rw [wp_bind, wp_setSelf found]
  refine wp_reset_propagate taken placed ?_ ?_ _
  · rintro _ ⟨⟩
    exact ⟨m, live, eq_of_taken (Bool.or_eq_true_iff.mp steals) matching⟩
  · rw [State.observe_setHandle, State.observe_of_handles found, points]
    rfl

/-- A move assignment is seen as a move unless it clobbers, and its source stays alive. -/
theorem wp_moveAssign (values : ValueTraits T) (inv : Consistent traits [] s)
    (place : s.handles this = some target) (found : s.handles x = some source) :
    ∃ seen, seen x ≠ none ∧
      (seen = moveSeen this x s.observe ↔ ¬ Clobbers traits values this x s) ∧
      wp (exec traits) (moveAssign traits values this x) (fun _ => Shows traits seen)
        (fun s' => Consistent traits [] s' ∧ s'.handles = s.handles) s := by
  have sourceSeen := State.observe_of_handles found
  rw [clobbers_iff place found]
  unfold moveAssign
  by_cases same : x = this
  · subst same
    obtain rfl := Option.some.inj (place.symm.trans found)
    refine ⟨s.observe, ?_, ?_, ?_⟩
    · rw [sourceSeen]
      exact Option.some_ne_none _
    · simp [moveSeen, traits.eq_refl]
    · rw [if_pos rfl]
      exact ⟨inv, rfl⟩
  simp only [if_neg same, moveSeen_of_ne same, wp_bind, wp_handle found, wp_handle place]
  cases points : source.self with
  | none =>
      rw [points, Option.bind_none] at sourceSeen
      refine ⟨_, ?_, ?_, wp_reset_propagate inv place (Consistent.live_null _) rfl _⟩
      · rw [Function.update_of_ne same, sourceSeen]
        exact Option.some_ne_none _
      · have unchanged : Function.update s.observe x (some none) = s.observe :=
          Function.update_eq_self_iff.mpr sourceSeen.symm
        rw [sourceSeen, unchanged]
        simp
  | some p =>
      obtain ⟨m, live, -⟩ := inv.pointed found points
      obtain ⟨v, constructed, value⟩ := inv.valueAt live
      rw [points, Option.bind_some, value] at sourceSeen
      cases steals : traits.propagateOnContainerMoveAssignment ||
          traits.eq target.alloc source.alloc with
      | true =>
          refine ⟨_, ?_, ?_, wp_steal inv place found same points steals _⟩
          · rw [Function.update_of_ne same, Function.update_self]
            exact Option.some_ne_none _
          · simp
      | false =>
          have stays := (Bool.or_eq_false_iff.mp steals).1
          simp only [stays, Bool.false_eq_true, if_false]
          refine ⟨_, ?_, ?_, wp_transfer inv place found same live constructed⟩
          · rw [Function.update_self]
            exact Option.some_ne_none _
          · rw [sourceSeen, transfer_seen_iff same value]
            constructor
            · rintro kept ⟨-, _, _, ⟨⟩, read, changed, k, here, there, shares⟩
              obtain rfl := Option.some.inj (value.symm.trans read)
              exact changed (kept k here there shares)
            · intro harmless k here there shares
              by_contra changed
              exact harmless ⟨trivial, p, v, rfl, value, changed, k, here, there, shares⟩

/-- The source of a move assignment is destroyed afterwards, also when it throws. -/
theorem wp_moveAssign_destroy (inv : Consistent traits [] s) (place : s.handles this = some target)
    (found : s.handles x = some source) (harmless : ¬ Clobbers traits values this x s) :
    wp (exec traits)
      (do (moveAssign traits values this x).onThrow (do destroy x; Prog.throw)
          destroy x)
      (fun _ => Shows traits (Function.update (moveSeen this x s.observe) x none))
      (Consistent traits []) s := by
  obtain ⟨seen, alive, follows, moved⟩ := wp_moveAssign values inv place found
  rw [wp_bind, wp_onThrow]
  refine wp_mono ?_ ?_ moved
  · intro _ s' shown
    obtain ⟨o, found'⟩ := exists_handle (shown.observe ▸ alive)
    rw [← follows.mpr harmless, ← shown.observe]
    exact wp_destroy shown.consistent found' _
  · intro s' ⟨consistent, same⟩
    rw [wp_bind]
    exact wp_mono (fun _ _ final => final.consistent) (fun _ => id)
      (wp_destroy consistent (same ▸ found) _)

/-- A temporary that is moved from and destroyed leaves its value behind. -/
theorem temporary_seen (distinct : x ≠ this) {seen : ι → Option (Option T)} (unseen : seen x = none)
    (v : Option T) :
    Function.update (moveSeen this x (Function.update seen x (some v))) x none =
      Function.update seen this (some v) := by
  have gone : Function.update seen this (some v) x = none := by
    rw [Function.update_of_ne distinct]
    exact unseen
  rw [moveSeen_of_ne distinct, Function.update_idem, Function.update_self,
    Function.update_comm distinct, Function.update_idem, Function.update_eq_self_iff.mpr gone.symm]

/-- The temporary takes the place of the value and is gone again. -/
theorem wp_replaceValue (inv : Consistent traits [] s) (place : s.handles this = some target)
    {temporary : ι} (vacant : s.handles temporary = none) (u : T) :
    wp (exec traits) (replaceValue traits values this u temporary)
      (fun _ => Shows traits (Function.update s.observe this (some (some u))))
      (Consistent traits []) s := by
  have unseen : s.observe temporary = none := (observe_eq_none_iff s temporary).mpr vacant
  have distinct : temporary ≠ this := State.ne_of_vacant vacant place
  rw [replaceValue, ofValue, wp_bind]
  refine wp_mono ?_ (fun _ => id) (wp_ofValueWith inv traits.default u)
  intro o s' ⟨constructed, fresh⟩
  have vacant' := constructed.vacant unseen
  have emplaced := constructed.shows vacant'
  have found : (s'.setHandle temporary (some o)).handles temporary = some o :=
    State.handles_setHandle_self ..
  obtain ⟨target', place'⟩ : ∃ target', (s'.setHandle temporary (some o)).handles this =
      some target' := by
    apply exists_handle
    rw [emplaced.observe, Function.update_of_ne distinct.symm, State.observe_of_handles place]
    exact Option.some_ne_none _
  have unshared : ∀ k, k ≠ temporary → (s'.setHandle temporary (some o)).self k ≠ o.self := by
    intro k other
    rw [State.self_setHandle_of_ne other]
    exact fresh k
  have moved := wp_moveAssign_destroy emplaced.consistent place' found
    (not_clobbers_of_unshared values found unshared)
  rw [emplaced.observe, temporary_seen distinct unseen] at moved
  rw [wp_bind, wp_emplace vacant']
  exact moved

section InPlace

variable {p : Loc} {m : Model T A}

/-- A write to the model of a sole owner is seen through this owner only. -/
theorem shows_setValue (inv : Consistent traits [] s) (points : s.self this = some p)
    (live : s.models p = some m) (one : m.count = 1) (w : T) :
    Shows traits (Function.update s.observe this (some (some w)))
      (s.setModel p (some { m with value := some w })) := by
  refine ⟨inv.setValue live w, ?_⟩
  funext k
  rw [State.observe_setValue]
  by_cases same : k = this
  · rw [same, if_pos points, Function.update_self]
  · rw [if_neg fun also => same (inv.sole live one points also), Function.update_of_ne same]

/-- Assigning to the value of a sole owner shows the new value there. -/
theorem wp_assign (inv : Consistent traits [] s) (points : s.self this = some p)
    (live : s.models p = some m) (one : m.count = 1) (u : T) :
    wp (exec traits) (assign values p u)
      (fun _ => Shows traits (Function.update s.observe this (some (some u))))
      (Consistent traits []) s := by
  obtain ⟨v, -, value⟩ := inv.valueAt live
  rw [assign, wp_bind, wp_value value]
  refine ⟨?_, ?_⟩
  · rw [wp_bind, wp_setValue live]
    exact inv.setValue live _
  · rw [wp_setValue live]
    exact shows_setValue inv points live one u

end InPlace

/-- Value assignment is seen through the handle only, in place or not. -/
theorem wp_assignValue (inv : Consistent traits [] s) (place : s.handles this = some target)
    {temporary : ι} (vacant : s.handles temporary = none) (u : T) :
    wp (exec traits) (assignValue traits values this u temporary)
      (fun _ => Shows traits (Function.update s.observe this (some (some u))))
      (Consistent traits []) s := by
  rw [assignValue, wp_bind, wp_handle place]
  split
  · exact wp_replaceValue inv place vacant u
  · rename_i p points
    obtain ⟨m, live, -⟩ := inv.pointed place points
    rw [wp_bind, wp_load live]
    split
    · rename_i one
      exact wp_assign inv ((State.self_of_handles place).trans points) live one u
    · exact wp_replaceValue inv place vacant u

end StdBitcoin.CopyOnWrite
