import StdBitcoin.CopyOnWrite.Assignments

/-!
# Modifiers

Both forms of `modify` change what is seen through their handle only, whether it has
to leave a shared model first or is the sole owner. A swap exchanges what is seen
through two handles.
-/

namespace StdBitcoin.CopyOnWrite

open Effects Prog

variable {ι T A : Type} {traits : AllocatorTraits A} {s : State ι T A} [DecidableEq ι]
  {this x : ι} {target source : Handle A} {p : Loc} {m : Model T A} {v : T}

/-- The action of a sole owner is seen through this owner only. -/
theorem wp_invoke (inv : Consistent traits [] s) (points : s.self this = some p)
    (live : s.models p = some m) (one : m.count = 1) (constructed : m.value = some v)
    (action : T → Except T T) :
    wp (exec traits) (invoke action p)
      (fun _ s' => ∃ w, action v = .ok w ∧
        Shows traits (Function.update s.observe this (some (some w))) s')
      (Consistent traits []) s := by
  rw [invoke, wp_bind, wp_value ((State.valueAt_of_models live).trans constructed)]
  split
  · rename_i w returned
    rw [wp_setValue live]
    exact ⟨w, returned, shows_setValue inv points live one w⟩
  · rw [wp_bind, wp_setValue live]
    exact inv.setValue live _

/-- A handle that leaves its model for a new one shows the value of that one. -/
theorem shows_detached (inv : Consistent traits [] s) (alloc : A) (w : T) :
    Shows traits (Function.update s.observe this (some (some w)))
      ((s.new alloc w).replace this (some ⟨alloc, some s.next⟩)) := by
  have replaced := (inv.new alloc w).shows_replace (h := this) (Consistent.live_new alloc w)
  rw [inv.observe_new, Option.bind_some, State.valueAt_new_self] at replaced
  exact replaced

/-- The model of a detached object has one owner. -/
theorem models_detached (inv : Consistent traits [] s) (alloc : A) (w : T)
    (o : Option (Handle A)) :
    ((s.new alloc w).replace this o).models s.next = some ⟨1, some w, alloc⟩ := by
  rw [State.replace, State.models_release_of_ne]
  · exact State.models_setModel_self ..
  · intro points
    obtain ⟨m, found⟩ := inv.pointed_self points
    exact inv.used found rfl

/-- A shared model loses the reference of a handle that leaves it, and stays. -/
theorem wp_leave (inv : Consistent traits [] s) (place : s.handles this = some target)
    (points : target.self = some p) (live : s.models p = some m) (shared : 1 < m.count) (w : T)
    {normal : Unit → State ι T A → Prop} {thrown : State ι T A → Prop}
    (next : normal () ((s.new target.alloc w).replace this (some ⟨target.alloc, some s.next⟩))) :
    wp (exec traits) (do let _ ← fetchSub p; setSelf this (some s.next)) normal thrown
      (s.new target.alloc w) := by
  have still : (s.new target.alloc w).models p = some m :=
    (State.models_setModel_of_ne (inv.used live) _).trans live
  have placed : ((s.new target.alloc w).setModel p
      (some { m with count := m.count - 1 })).handles this = some target := place
  rw [wp_bind, wp_fetchSub still, wp_setSelf placed]
  rw [State.replace, State.self_new, State.self_of_handles place, points,
    State.release_some (by exact still), if_neg (by omega)] at next
  exact next

/-- The action changes what is seen through the handle only, shared or not. -/
theorem wp_modify (inv : Consistent traits [] s) (place : s.handles this = some target)
    (points : target.self = some p) (live : s.models p = some m) (constructed : m.value = some v)
    (action : T → Except T T) :
    wp (exec traits) (modify this action)
      (fun _ s' => ∃ w, action v = .ok w ∧
        Shows traits (Function.update s.observe this (some (some w))) s')
      (Consistent traits []) s := by
  have value := (State.valueAt_of_models live).trans constructed
  rw [modify, wp_bind, wp_handle place, wp_bind, wp_pointee points, wp_bind, wp_bind, wp_load live]
  split
  · rename_i shared
    have detached : Shows traits _ ((s.new target.alloc v).replace this _) :=
      shows_detached inv target.alloc v
    have placed : ((s.new target.alloc v).replace this
        (some ⟨target.alloc, some s.next⟩)).handles this = some ⟨target.alloc, some s.next⟩ := by
      rw [State.handles_replace, Function.update_self]
    rw [detach, wp_bind]
    apply wp_makeModel_constructCopy _ inv.unused value inv inv.skip
    apply wp_leave inv place points live shared v
    rw [wp_bind, wp_handle placed, wp_bind, wp_pointee rfl]
    have invoked := wp_invoke detached.consistent (State.self_of_handles placed)
      (models_detached inv _ v _) rfl rfl action
    simp only [detached.observe, Function.update_idem] at invoked
    exact invoked
  · rename_i unshared
    have one : m.count = 1 := by
      have positive := (inv.accounted live).positive
      omega
    rw [wp_pure, wp_bind, wp_handle place, wp_bind, wp_pointee points]
    exact wp_invoke inv ((State.self_of_handles place).trans points) live one constructed action

/-- A shared model is left for the transformed value, a sole one is acted on. -/
theorem wp_modifyTransform (inv : Consistent traits [] s) (place : s.handles this = some target)
    (points : target.self = some p) (live : s.models p = some m) (constructed : m.value = some v)
    (action : T → Except T T) (transform : T → Option T) :
    wp (exec traits) (modifyTransform this action transform)
      (fun _ s' => ∃ w, (action v = .ok w ∨ transform v = some w) ∧
        Shows traits (Function.update s.observe this (some (some w))) s')
      (Consistent traits []) s := by
  have value := (State.valueAt_of_models live).trans constructed
  rw [modifyTransform, wp_bind, wp_handle place, wp_bind, wp_pointee points, wp_bind, wp_load live]
  split
  · rename_i shared
    rw [wp_bind, wp_value value]
    split
    · exact inv
    · rename_i w transformed
      rw [detach, wp_bind]
      apply wp_makeModel_construct _ inv.unused inv inv.skip
      apply wp_leave inv place points live shared w
      exact ⟨w, .inr transformed, shows_detached inv target.alloc w⟩
  · rename_i unshared
    have one : m.count = 1 := by
      have positive := (inv.accounted live).positive
      omega
    refine wp_mono ?_ (fun _ => id) (wp_invoke inv ((State.self_of_handles place).trans points)
      live one constructed action)
    rintro _ s' ⟨w, returned, shown⟩
    exact ⟨w, .inl returned, shown⟩

/-- Two handles exchange their references, whatever happens to their allocators. -/
theorem shows_exchange (inv : Consistent traits [] s) (place : s.handles this = some target)
    (found : s.handles x = some source) (distinct : x ≠ this) {a b : A}
    (left : traits.eq a source.alloc) (right : traits.eq b target.alloc) :
    Shows traits
      (Function.update (Function.update s.observe this (s.observe x)) x (s.observe this))
      ((s.setHandle this (some ⟨a, source.self⟩)).setHandle x (some ⟨b, target.self⟩)) := by
  let emptied := s.setHandle this (some { target with self := none })
  have taken : Consistent traits target.self.toList emptied := inv.take place
  have there : emptied.self x = source.self := by
    rw [State.self_setHandle_of_ne distinct, State.self_of_handles found]
  have given : Consistent traits source.self.toList
      (emptied.setHandle x (some ⟨b, target.self⟩)) := by
    refine taken.setHandle ?_ fun p => ?_
    · rintro _ p ⟨⟩ points
      obtain ⟨m, live, matching⟩ := inv.pointed place points
      exact ⟨m, live, traits.eq_trans right matching⟩
    · rw [there, List.count_append, List.count_append]
      exact Nat.add_comm ..
  have here : (emptied.setHandle x (some ⟨b, target.self⟩)).self this = none := by
    rw [State.self_setHandle_of_ne distinct.symm, State.self_setHandle_self]
    rfl
  have done : Consistent traits []
      ((emptied.setHandle x (some ⟨b, target.self⟩)).setHandle this (some ⟨a, source.self⟩)) := by
    refine given.setHandle ?_ fun p => ?_
    · rintro _ p ⟨⟩ points
      obtain ⟨m, live, matching⟩ := inv.pointed found points
      exact ⟨m, live, traits.eq_trans left matching⟩
    · rw [here, List.append_nil]
      rfl
  refine ⟨?_, ?_⟩
  · rw [State.setHandle_comm distinct, State.setHandle_idem] at done
    exact done
  · rw [State.observe_setHandle, State.observe_setHandle, State.observe_of_handles place,
      State.observe_of_handles found]
    rfl

/-- Two handles exchange what is seen through them. -/
theorem wp_swap (inv : Consistent traits [] s) (place : s.handles this = some target)
    (found : s.handles x = some source)
    (swappable : traits.propagateOnContainerSwap ∨ traits.eq target.alloc source.alloc)
    (thrown : State ι T A → Prop) :
    wp (exec traits) (swap traits this x)
      (fun _ => Shows traits
        (Function.update (Function.update s.observe this (s.observe x)) x (s.observe this)))
      thrown s := by
  rw [swap, wp_bind, wp_handle place, wp_bind, wp_handle found, wp_bind,
    wp_assert (Bool.or_eq_true_iff.mpr swappable), wp_bind, wp_setSelf place, wp_bind]
  by_cases same : x = this
  · subst same
    obtain rfl := Option.some.inj (place.symm.trans found)
    have unchanged : Shows traits (Function.update (Function.update s.observe x (s.observe x)) x
        (s.observe x)) s := by
      rw [Function.update_eq_self, Function.update_eq_self]
      exact ⟨inv, rfl⟩
    rw [State.setHandle_eq_self place, wp_setSelf place, State.setHandle_eq_self place]
    split
    · rw [wp_bind, wp_setAlloc place, State.setHandle_eq_self place, wp_setAlloc place,
        State.setHandle_eq_self place]
      exact unchanged
    · exact unchanged
  · have other : (s.setHandle this (some { target with self := source.self })).handles x =
        some source := by
      rw [State.handles_setHandle_of_ne same]
      exact found
    rw [wp_setSelf other]
    split
    · have mine : ((s.setHandle this (some { target with self := source.self })).setHandle x
          (some { source with self := target.self })).handles this =
          some { target with self := source.self } := by
        rw [State.handles_setHandle_of_ne (Ne.symm same), State.handles_setHandle_self]
      have theirs : (State.setHandle (State.setHandle (State.setHandle s this
          (some { target with self := source.self })) x (some { source with self := target.self }))
          this (some ⟨source.alloc, source.self⟩)).handles x =
          some { source with self := target.self } := by
        rw [State.handles_setHandle_of_ne same, State.handles_setHandle_self]
      rw [wp_bind, wp_setAlloc mine, wp_setAlloc theirs, State.setHandle_comm same,
        State.setHandle_idem, State.setHandle_idem]
      exact shows_exchange inv place found same (traits.eq_refl _) (traits.eq_refl _)
    · rename_i stays
      have equal := swappable.resolve_left stays
      exact shows_exchange inv place found same equal (traits.eq_symm equal)

end StdBitcoin.CopyOnWrite
