import StdBitcoin.CopyOnWrite.Parts
import StdBitcoin.CopyOnWrite.ValueSemantics

/-!
# Contracts

Every operation of an agent keeps the part that the agent holds consistent, whatever the
other agents do and whatever throws. Only the modifiers leave a model without checking
what their decrement returns: they need to know that other references remain.
-/

namespace StdBitcoin.CopyOnWrite

open Effects Prog

variable {ι T A : Type} {traits : AllocatorTraits A} {values : ValueTraits T} {setting : Setting ι}
  {s t : State ι T A} {this x : ι} {target source o : Handle A}

/-- The same objects are alive. -/
def SameObjects (s t : State ι T A) : Prop := ∀ h, t.handles h = none ↔ s.handles h = none

namespace SameObjects

theorem of_handles (same : t.handles = s.handles) : SameObjects s t := fun h => by rw [same]

theorem trans {r : State ι T A} (first : SameObjects r s) (second : SameObjects s t) :
    SameObjects r t :=
  fun h => (second h).trans (first h)

theorem exists_handle (same : SameObjects s t) (found : s.handles x = some source) :
    ∃ o, t.handles x = some o := by
  apply Option.ne_none_iff_exists'.mp
  rw [Ne, same x, found]
  exact Option.some_ne_none source

/-- Changing an object that lives makes none and removes none. -/
theorem of_update [DecidableEq ι] (found : s.handles x = some source)
    (changed : t.handles = Function.update s.handles x (some o)) : SameObjects s t := by
  intro h
  rw [changed]
  by_cases same : h = x
  · subst same
    rw [Function.update_self, found]
    exact iff_of_false (Option.some_ne_none o) (Option.some_ne_none source)
  · rw [Function.update_of_ne same]

end SameObjects

/-- The members of an object that is about to come into being, beside the others. -/
structure Built (traits : AllocatorTraits A) (s : State ι T A) (o : Handle A) (t : State ι T A) :
    Prop where
  consistent : Consistent traits o.self.toList t
  live : Live traits t o
  objects : SameObjects s t

/-- A consistent state with the same objects. -/
structure Settled (traits : AllocatorTraits A) (s t : State ι T A) : Prop where
  consistent : Consistent traits [] t
  objects : SameObjects s t

/-- The new model is that of the object under construction. -/
theorem Made.built {alloc : A} {q : Loc} (made : Made traits [] s alloc q t) :
    Built traits s ⟨alloc, some q⟩ t :=
  ⟨made.consistent, made.live, .of_handles made.handles⟩

namespace Op

/-- The places of the objects that an operation uses. -/
def places : Op ι T A → List ι
  | ofValue this _ | ofValueWith this _ _ | modify this _ | modifyTransform this _ _
  | destroy this => [this]
  | copy this x | copyWith this _ x | move this x | moveWith this _ x | copyAssign this x
  | moveAssign this x | swap this x => [this, x]
  | assignValue this _ temporary => [this, temporary]

/-- The operations that leave a model without a look at what their decrement returns. -/
def leaves : Op ι T A → Bool
  | modify _ _ | modifyTransform _ _ _ => true
  | _ => false

/-- Whether an operation is allowed depends on its own objects. -/
theorem Ready.congr {op : Op ι T A} (ready : op.Ready traits s)
    (same : ∀ h ∈ op.places, t.handles h = s.handles h) : op.Ready traits t := by
  cases op with
  | ofValue this u | ofValueWith this alloc u | destroy this =>
      have here := same this List.mem_cons_self
      rw [Ready, here]
      exact ready
  | copy this x | copyWith this alloc x | move this x | moveWith this alloc x | copyAssign this x
  | moveAssign this x | swap this x | assignValue this u x =>
      have here := same this List.mem_cons_self
      have there := same x (List.mem_cons_of_mem this List.mem_cons_self)
      rw [Ready, here, there]
      exact ready
  | modify this action | modifyTransform this action transform =>
      have here := same this List.mem_cons_self
      rw [Ready, State.self, here]
      exact ready

end Op

variable [DecidableEq ι]

/-- An object that is replaced by another one settles the state. -/
theorem Settled.replace (inv : Consistent traits o.self.toList t) (objects : SameObjects s t)
    (live : Live traits t o) (found : t.handles x = some source) :
    Settled traits s (t.replace x (some o)) :=
  ⟨(inv.shows_replace live).consistent, objects.trans (.of_update found (State.handles_replace ..))⟩

/-- A handle with a null pointer gives up its reference, beside the one that is held. -/
theorem Built.clear {alloc : A} {q : Loc} (built : Built traits s ⟨alloc, some q⟩ t)
    (found : t.handles x = some source) (a : A) :
    Built traits s ⟨alloc, some q⟩ (t.replace x (some ⟨a, none⟩)) := by
  have balanced : Consistent traits (((some (⟨a, none⟩ : Handle A)).bind Handle.self).toList ++ [q])
      t := built.consistent
  have unpointed : ∀ o' p, some (⟨a, none⟩ : Handle A) = some o' → o'.self = some p →
      ∃ m, t.models p = some m ∧ traits.eq o'.alloc m.alloc := by
    rintro _ _ ⟨⟩ ⟨⟩
  obtain ⟨m, live, agrees⟩ := built.live q rfl
  obtain ⟨m', kept, same, -⟩ :=
    (balanced.exchange (h := x) unpointed).kept List.mem_cons_self (by exact live)
  refine ⟨balanced.replace unpointed, ?_,
    built.objects.trans (.of_update found (State.handles_replace ..))⟩
  rintro _ ⟨⟩
  exact ⟨m', kept, same ▸ agrees⟩

/-- The object comes into being where there is none. -/
theorem Built.emplace (built : Built traits s o t) (vacant : t.handles this = none) :
    Consistent traits [] (t.setHandle this (some o)) := by
  have absent : t.self this = none := by
    rw [State.self, vacant]
    rfl
  have replaced := (built.consistent.shows_replace (h := this) built.live).consistent
  rw [State.replace, absent, State.release_none] at replaced
  exact replaced

/-- Removing an object with its reference keeps the state consistent. -/
theorem Consistent.remove (inv : Consistent traits [] s) (h : ι) :
    Consistent traits [] (s.replace h none) :=
  inv.replace nofun

section Constructors

/-- A value is wrapped in an object, or nothing is left of the attempt. -/
theorem ensures_ofValueWith (inv : Consistent traits [] s) (alloc : A) (u : T) :
    ensures (demand traits setting) (ofValueWith alloc u) (Built traits s)
      (Consistent traits []) s := by
  rw [ofValueWith, ensures_bind]
  apply ensures_makeModel inv (builds_construct inv u)
  · exact fun _ consistent _ => consistent
  · exact fun _ _ made => made.built

/-- Sharing or copying, the new object has a reference. -/
theorem ensures_share (inv : Consistent traits [] s) (found : s.handles x = some source) (alloc : A)
    {same : Bool} (agrees : same → traits.eq alloc source.alloc) :
    ensures (demand traits setting) (share alloc same source) (Built traits s)
      (Consistent traits []) s := by
  unfold share
  split
  · exact ⟨inv, Consistent.live_null alloc, .of_handles rfl⟩
  · rename_i p points
    obtain ⟨m, live, matching⟩ := inv.pointed found points
    split
    · rename_i shared
      rw [ensures_bind, ensures_fetchAdd live (inv.complete live)]
      intro _ _
      exact ⟨inv.acquire live, Consistent.live_acquire (traits.eq_trans (agrees shared) matching),
        .of_handles rfl⟩
    · rw [ensures_bind]
      apply ensures_makeModel inv (builds_constructCopy inv live)
      · exact fun _ consistent _ => consistent
      · exact fun _ _ made => made.built

/-- The allocator-extended copy makes an object, or nothing is left of the attempt. -/
theorem ensures_copyWith (inv : Consistent traits [] s) (found : s.handles x = some source)
    (alloc : A) :
    ensures (demand traits setting) (copyWith traits alloc x) (Built traits s)
      (Consistent traits []) s := by
  rw [copyWith, ensures_bind, ensures_handle found]
  exact ensures_share inv found alloc id

theorem ensures_copy (inv : Consistent traits [] s) (found : s.handles x = some source) :
    ensures (demand traits setting) (copy traits x) (Built traits s) (Consistent traits []) s := by
  rw [copy, ensures_bind, ensures_handle found]
  exact ensures_share inv found _ eq_of_always_or

/-- A stolen pointer is a loose reference. -/
theorem built_take (inv : Consistent traits [] s) (found : s.handles x = some source) {alloc : A}
    (agrees : traits.eq alloc source.alloc) :
    Built traits s ⟨alloc, source.self⟩ (s.setHandle x (some { source with self := none })) := by
  refine ⟨inv.take found, fun p points => ?_, .of_update found rfl⟩
  obtain ⟨m, live, matching⟩ := inv.pointed found points
  exact ⟨m, live, traits.eq_trans agrees matching⟩

theorem ensures_move (inv : Consistent traits [] s) (found : s.handles x = some source) :
    ensures (demand traits setting) (move x) (Built traits s) (Consistent traits []) s := by
  rw [move, ensures_bind, ensures_handle found, ensures_bind, ensures_setSelf found, ensures_pure]
  exact built_take inv found (traits.eq_refl _)

/-- The allocator-extended move makes an object, or nothing is left of the attempt. -/
theorem ensures_moveWith (inv : Consistent traits [] s) (found : s.handles x = some source)
    (alloc : A) :
    ensures (demand traits setting) (moveWith traits alloc x) (Built traits s)
      (Consistent traits []) s := by
  rw [moveWith, ensures_bind, ensures_handle found]
  split
  · exact ⟨inv, Consistent.live_null alloc, .of_handles rfl⟩
  · rename_i p points
    obtain ⟨m, live, matching⟩ := inv.pointed found points
    split
    · rename_i same
      rw [ensures_bind, ensures_setSelf found, ensures_pure, ← points]
      exact built_take inv found (eq_of_always_or same)
    · rw [ensures_bind]
      apply ensures_makeModel inv (builds_constructCopy inv live)
      · exact fun _ consistent _ => consistent
      intro q t made
      have alive : t.handles x = some source := made.handles ▸ found
      rw [ensures_bind]
      apply ensures_reset made.consistent alive
      exact made.built.clear alive source.alloc

end Constructors

section Assignments

/-- The tail that the assignments share: a loose reference goes into the pointer, then
the allocator follows if it propagates. -/
theorem ensures_reset_propagate {v : Option Loc} {propagate : Bool} {alloc : A}
    (inv : Consistent traits v.toList t) (objects : SameObjects s t)
    (place : t.handles this = some target)
    (live : Live traits t ⟨if propagate then alloc else target.alloc, v⟩)
    (thrown : State ι T A → Prop) :
    ensures (demand traits setting) (reset this v)
      (fun _ => ensures (demand traits setting)
        (if propagate then setAlloc this alloc else return ())
        (fun _ => Settled traits s) thrown) thrown t := by
  have settled := Settled.replace inv objects live place
  apply ensures_reset inv place
  split
  · rename_i propagates
    rw [if_pos propagates] at settled
    have replaced : (t.replace this (some { target with self := v })).handles this =
        some { target with self := v } := by
      rw [State.handles_replace, Function.update_self]
    rw [ensures_setAlloc replaced, State.replace, State.setHandle_release]
    simp only [State.setHandle, Function.update_idem]
    exact settled
  · rename_i stays
    rw [if_neg stays] at settled
    exact settled

/-- Copy assignment keeps the objects and the counts, also where it throws. -/
theorem ensures_copyAssign (inv : Consistent traits [] s) (place : s.handles this = some target)
    (found : s.handles x = some source) :
    ensures (demand traits setting) (copyAssign traits this x) (fun _ => Settled traits s)
      (Settled traits s) s := by
  unfold copyAssign
  split
  · exact ⟨inv, .of_handles rfl⟩
  · rw [ensures_bind, ensures_handle found, ensures_bind, ensures_handle place, ensures_bind]
    split
    · exact ensures_reset_propagate inv (.of_handles rfl) place (Consistent.live_null _) _
    · rename_i p points
      obtain ⟨m, live, matching⟩ := inv.pointed found points
      split
      · rename_i shared
        rw [ensures_bind, ensures_fetchAdd live (inv.complete live)]
        intro _ _
        have acquired := inv.acquire live
        have objects : SameObjects s (s.setModel p (some { m with count := m.count + 1 })) :=
          .of_handles rfl
        refine ensures_reset_propagate acquired objects place ?_ _
        apply Consistent.live_acquire
        rw [Bool.or_assoc, Bool.or_eq_true_iff] at shared
        exact eq_of_taken (shared.imp_right eq_of_always_or) matching
      · rename_i unshared
        rw [ensures_bind]
        apply ensures_makeModel inv (builds_constructCopy inv live)
        · exact fun _ consistent same => ⟨consistent, .of_handles same⟩
        intro q t made
        refine ensures_reset_propagate made.consistent (.of_handles made.handles)
          (made.handles ▸ place) ?_ _
        split
        · rename_i propagates
          simp [propagates] at unshared
        · exact made.live

/-- The value that is moved to a new model is referred to by the target, and the source by
nothing. -/
theorem ensures_transfer (values : ValueTraits T) (inv : Consistent traits [] s)
    (place : s.handles this = some target) (found : s.handles x = some source) (distinct : x ≠ this)
    {p : Loc} {m : Model T A} (live : s.models p = some m) :
    ensures (demand traits setting)
      (do let q ← makeModel target.alloc (constructMove values p)
          reset this (some q)
          reset x none)
      (fun _ => Settled traits s) (Settled traits s) s := by
  rw [ensures_bind]
  apply ensures_makeModel inv (builds_constructMove values inv live)
  · exact fun _ consistent same => ⟨consistent, .of_handles same⟩
  intro q t made
  have placed : t.handles this = some target := made.handles ▸ place
  have assigned := Settled.replace made.consistent (.of_handles made.handles) made.live placed
  have untouched : (t.replace this (some ⟨target.alloc, some q⟩)).handles x = some source := by
    rw [State.handles_replace_of_ne distinct, made.handles]
    exact found
  rw [ensures_bind]
  apply ensures_reset made.consistent placed
  apply ensures_reset assigned.consistent untouched
  exact Settled.replace assigned.consistent assigned.objects (Consistent.live_null _) untouched

/-- Move assignment keeps the objects and the counts, also where it throws. -/
theorem ensures_moveAssign (values : ValueTraits T) (inv : Consistent traits [] s)
    (place : s.handles this = some target) (found : s.handles x = some source) :
    ensures (demand traits setting) (moveAssign traits values this x) (fun _ => Settled traits s)
      (Settled traits s) s := by
  unfold moveAssign
  split
  · exact ⟨inv, .of_handles rfl⟩
  · rename_i distinct
    rw [ensures_bind, ensures_handle found, ensures_bind, ensures_handle place, ensures_bind]
    split
    · exact ensures_reset_propagate inv (.of_handles rfl) place (Consistent.live_null _) _
    · rename_i p points
      obtain ⟨m, live, matching⟩ := inv.pointed found points
      split
      · rename_i steals
        have taken := built_take inv found (traits.eq_refl source.alloc)
        rw [points] at taken
        have placed : (s.setHandle x (some { source with self := none })).handles this =
            some target := by
          rw [State.handles_setHandle_of_ne (Ne.symm distinct)]
          exact place
        rw [ensures_bind, ensures_setSelf found]
        refine ensures_reset_propagate taken.consistent taken.objects placed ?_ _
        rintro _ ⟨⟩
        exact ⟨m, live, eq_of_taken (Bool.or_eq_true_iff.mp steals) matching⟩
      · rename_i unequal
        have stays : ¬ traits.propagateOnContainerMoveAssignment = true :=
          fun propagates => unequal (Bool.or_eq_true_iff.mpr (.inl propagates))
        simp only [if_neg stays]
        exact ensures_transfer values inv place found distinct live

/-- The temporary is destroyed afterwards, also when the assignment throws. -/
theorem ensures_replaceValue (inv : Consistent traits [] s) (place : s.handles this = some target)
    {temporary : ι} (own : setting.own temporary) (vacant : s.handles temporary = none) (u : T) :
    ensures (demand traits setting) (replaceValue traits values this u temporary)
      (fun _ => Consistent traits []) (Consistent traits []) s := by
  rw [replaceValue, ofValue, ensures_bind]
  refine ensures_mono (demand_monotone traits setting) ?_ (fun _ => id)
    (ensures_ofValueWith inv traits.default u)
  intro o t built
  have vacant' : t.handles temporary = none := (built.objects temporary).mpr vacant
  have emplaced := built.emplace vacant'
  have found : (t.setHandle temporary (some o)).handles temporary = some o :=
    State.handles_setHandle_self ..
  have distinct : this ≠ temporary := (State.ne_of_vacant vacant place).symm
  obtain ⟨target', place'⟩ := built.objects.exists_handle place
  rw [← State.handles_setHandle_of_ne distinct (some o)] at place'
  rw [ensures_bind, ensures_emplace own vacant', ensures_bind, ensures_onThrow]
  refine ensures_mono (demand_monotone traits setting) ?_ ?_
    (ensures_moveAssign values emplaced place' found)
  · intro _ r settled
    obtain ⟨o', found'⟩ := settled.objects.exists_handle found
    exact ensures_destroy settled.consistent found' (settled.consistent.remove temporary)
  · intro r settled
    obtain ⟨o', found'⟩ := settled.objects.exists_handle found
    rw [ensures_bind]
    exact ensures_destroy settled.consistent found' (settled.consistent.remove temporary)

section InPlace

variable {p : Loc} {m : Model T A}

theorem ensures_assign (inv : Consistent traits [] s) (live : s.models p = some m) (u : T) :
    ensures (demand traits setting) (assign values p u) (fun _ => Consistent traits [])
      (Consistent traits []) s := by
  have complete := inv.complete live
  rw [assign, ensures_bind, ensures_value live complete]
  intro v
  refine ⟨?_, ?_⟩
  · rw [ensures_bind, ensures_setValue live complete.1, ensures_throw]
    exact inv.setValue live _
  · rw [ensures_setValue live complete.1]
    exact inv.setValue live u

/-- A modification of a value keeps the counts. -/
theorem ensures_invoke (inv : Consistent traits [] s) (live : s.models p = some m)
    (action : T → Except T T) :
    ensures (demand traits setting) (invoke action p) (fun _ => Consistent traits [])
      (Consistent traits []) s := by
  have complete := inv.complete live
  rw [invoke, ensures_bind, ensures_value live complete]
  intro v
  split
  · rw [ensures_setValue live complete.1]
    exact inv.setValue live _
  · rw [ensures_bind, ensures_setValue live complete.1, ensures_throw]
    exact inv.setValue live _

end InPlace

/-- The assignment of a value keeps the counts. -/
theorem ensures_assignValue (inv : Consistent traits [] s) (place : s.handles this = some target)
    {temporary : ι} (own : setting.own temporary) (vacant : s.handles temporary = none) (u : T) :
    ensures (demand traits setting) (assignValue traits values this u temporary)
      (fun _ => Consistent traits []) (Consistent traits []) s := by
  rw [assignValue, ensures_bind, ensures_handle place]
  split
  · exact ensures_replaceValue inv place own vacant u
  · rename_i p points
    obtain ⟨m, live, -⟩ := inv.pointed place points
    rw [ensures_bind, ensures_load live (inv.complete live)]
    intro count sees
    split
    · exact ensures_assign inv live u
    · exact ensures_replaceValue inv place own vacant u

end Assignments

section Modifiers

variable {p : Loc} {m : Model T A} {count : Nat}

/-- The handle leaves a model that others refer to; if the decrement takes away the last
reference it must not be this one. -/
theorem ensures_detach (inv : Consistent traits [] s) (place : s.handles this = some target)
    (points : target.self = some p) (live : s.models p = some m) (sees : setting.sees m.count count)
    (shared : 1 < count)
    (counts : setting.exempt ∨ ∀ share count, setting.sees share count → count = share)
    {build : Code ι T A T} (builds : Builds traits setting [] s target.alloc build)
    {normal : Unit → State ι T A → Prop}
    (next : ∀ t q, Consistent traits [] t → t.handles this = some ⟨target.alloc, some q⟩ →
      normal () t) :
    ensures (demand traits setting) (detach this target p build) normal
      (Consistent traits []) s := by
  rw [detach, ensures_bind]
  apply ensures_makeModel inv builds
  · exact fun _ consistent _ => consistent
  intro q t made
  have placed : t.handles this = some target := made.handles ▸ place
  obtain ⟨m', live', -⟩ := made.consistent.pointed placed points
  rw [ensures_bind, ensures_fetchSub live' (made.consistent.complete live')]
  intro remaining sees'
  by_cases last : remaining = 1
  · rw [if_pos last]
    intro bound
    have exact := counts.resolve_left bound
    have unchanged : m'.count = m.count := by
      apply inv.count_eq made.consistent live live'
      · funext h
        rw [State.self, made.handles, State.self]
      · exact List.count_cons_of_ne ((inv.lt_next live).trans_le made.later).ne'
    rw [exact _ _ sees] at shared
    rw [← exact _ _ sees', last] at unchanged
    exact absurd unchanged shared.ne
  · have still : (t.release (some p)).handles this = some target := by
      rw [State.handles_release]
      exact placed
    have replaced := (made.consistent.shows_replace (h := this) made.live).consistent
    rw [State.replace, State.self_of_handles placed, points, ← State.setHandle_release] at replaced
    rw [if_neg last, ensures_setSelf still]
    exact next _ q replaced (State.handles_setHandle_self ..)

/-- The action runs on the model of the sole owner, or on the new one. -/
theorem ensures_modify (inv : Consistent traits [] s) (place : s.handles this = some target)
    (points : target.self = some p)
    (counts : setting.exempt ∨ ∀ share count, setting.sees share count → count = share)
    (action : T → Except T T) :
    ensures (demand traits setting) (modify this action) (fun _ => Consistent traits [])
      (Consistent traits []) s := by
  obtain ⟨m, live, -⟩ := inv.pointed place points
  rw [modify, ensures_bind, ensures_handle place, ensures_bind, ensures_pointee points,
    ensures_bind, ensures_bind, ensures_load live (inv.complete live)]
  intro count sees
  split
  · rename_i shared
    apply ensures_detach inv place points live sees shared counts (builds_constructCopy inv live)
    intro t q consistent placed
    obtain ⟨n, fresh, -⟩ := consistent.pointed placed rfl
    rw [ensures_bind, ensures_handle placed, ensures_bind, ensures_pointee rfl]
    exact ensures_invoke consistent fresh action
  · rw [ensures_pure, ensures_bind, ensures_handle place, ensures_bind, ensures_pointee points]
    exact ensures_invoke inv live action

/-- The modifier with a transformation keeps the counts, unless another owner lets go meanwhile. -/
theorem ensures_modifyTransform (inv : Consistent traits [] s)
    (place : s.handles this = some target) (points : target.self = some p)
    (counts : setting.exempt ∨ ∀ share count, setting.sees share count → count = share)
    (action : T → Except T T) (transform : T → Option T) :
    ensures (demand traits setting) (modifyTransform this action transform)
      (fun _ => Consistent traits []) (Consistent traits []) s := by
  obtain ⟨m, live, -⟩ := inv.pointed place points
  have complete := inv.complete live
  rw [modifyTransform, ensures_bind, ensures_handle place, ensures_bind, ensures_pointee points,
    ensures_bind, ensures_load live complete]
  intro count sees
  split
  · rename_i shared
    rw [ensures_bind, ensures_value live complete]
    intro v
    split
    · exact inv
    · rename_i w transformed
      apply ensures_detach inv place points live sees shared counts (builds_construct inv w)
      exact fun _ _ consistent _ => consistent
  · exact ensures_invoke inv live action

/-- Only handles are read and written. -/
def Cmd.Inert : Cmd ι T A → Prop
  | .handle _ | .setSelf _ _ | .setAlloc _ _ | .assert _ => True
  | _ => False

/-- Swapping keeps the counts. -/
theorem ensures_swap (inv : Consistent traits [] s) (place : s.handles this = some target)
    (found : s.handles x = some source)
    (swappable : traits.propagateOnContainerSwap ∨ traits.eq target.alloc source.alloc) :
    ensures (demand traits setting) (swap traits this x) (fun _ => Consistent traits [])
      (Consistent traits []) s := by
  have inert : (swap traits this x : Code ι T A Unit).All Cmd.Inert := by
    refine ⟨trivial, fun left => ⟨trivial, fun right => ⟨trivial, fun _ => ⟨trivial, fun _ =>
      ⟨trivial, fun _ => ?_⟩⟩⟩⟩⟩
    split
    · exact ⟨trivial, fun _ => ⟨trivial, fun _ => trivial⟩⟩
    · exact trivial
  apply ensures_of_wp ?_ inert
    (wp_mono (fun _ _ shown => shown.consistent) (fun _ => id)
      (wp_swap inv place found swappable _))
  intro c s answer s' condition kind outcome holds
  cases c with
  | handle h | setSelf h self | setAlloc h alloc =>
      obtain ⟨o, found, same⟩ := Option.map_eq_some_iff.mp outcome
      obtain ⟨rfl, rfl⟩ := Prod.mk.inj same
      exact ⟨o, found, holds⟩
  | assert established =>
      obtain ⟨established, same⟩ := Option.ite_none_right_eq_some.mp outcome
      obtain ⟨rfl, rfl⟩ := Prod.mk.inj (Option.some.inj same)
      exact ⟨established, holds⟩
  | _ => exact kind.elim

end Modifiers

/-- An object that is constructed finds its place. -/
theorem ensures_constructAt {constructor : Code ι T A (Handle A)} (own : setting.own this)
    (vacant : s.handles this = none)
    (constructs : ensures (demand traits setting) constructor (Built traits s)
      (Consistent traits []) s) :
    ensures (demand traits setting) (constructAt this constructor) (fun _ => Consistent traits [])
      (Consistent traits []) s := by
  rw [constructAt, ensures_bind]
  refine ensures_mono (demand_monotone traits setting) (fun o t built => ?_)
    (fun _ => id) constructs
  have vacant' := (built.objects this).mpr vacant
  rw [ensures_emplace own vacant']
  exact built.emplace vacant'

/-- Every allowed operation keeps the part of its agent consistent, whatever throws. -/
theorem ensures_code (values : ValueTraits T) (inv : Consistent traits [] s) {op : Op ι T A}
    (ready : op.Ready traits s) (own : ∀ h ∈ op.places, setting.own h)
    (counts : op.leaves → setting.exempt ∨ ∀ share count, setting.sees share count →
      count = share) :
    ensures (demand traits setting) (op.code traits values) (fun _ => Consistent traits [])
      (Consistent traits []) s := by
  have settles {p : Code ι T A Unit} (holds : ensures (demand traits setting) p
      (fun _ => Settled traits s) (Settled traits s) s) :
      ensures (demand traits setting) p (fun _ => Consistent traits []) (Consistent traits []) s :=
    ensures_mono (demand_monotone traits setting) (fun _ _ settled => settled.consistent)
      (fun _ settled => settled.consistent) holds
  cases op with
  | ofValue this u =>
      have own := own this List.mem_cons_self
      exact ensures_constructAt own ready (ensures_ofValueWith inv traits.default u)
  | ofValueWith this alloc u =>
      have own := own this List.mem_cons_self
      exact ensures_constructAt own ready (ensures_ofValueWith inv alloc u)
  | copy this x =>
      obtain ⟨vacant, source, found⟩ := ready
      have own := own this List.mem_cons_self
      exact ensures_constructAt own vacant (ensures_copy inv found)
  | copyWith this alloc x =>
      obtain ⟨vacant, source, found⟩ := ready
      have own := own this List.mem_cons_self
      exact ensures_constructAt own vacant (ensures_copyWith inv found alloc)
  | move this x =>
      obtain ⟨vacant, source, found⟩ := ready
      have own := own this List.mem_cons_self
      exact ensures_constructAt own vacant (ensures_move inv found)
  | moveWith this alloc x =>
      obtain ⟨vacant, source, found⟩ := ready
      have own := own this List.mem_cons_self
      exact ensures_constructAt own vacant (ensures_moveWith inv found alloc)
  | copyAssign this x =>
      obtain ⟨⟨target, place⟩, source, found⟩ := ready
      exact settles (ensures_copyAssign inv place found)
  | moveAssign this x =>
      obtain ⟨⟨target, place⟩, source, found⟩ := ready
      exact settles (ensures_moveAssign values inv place found)
  | assignValue this u temporary =>
      obtain ⟨⟨target, place⟩, vacant⟩ := ready
      have own := own temporary (List.mem_cons_of_mem this List.mem_cons_self)
      exact ensures_assignValue inv place own vacant u
  | swap this x =>
      obtain ⟨target, source, place, found, swappable⟩ := ready
      exact ensures_swap inv place found swappable
  | modify this action =>
      obtain ⟨p, points⟩ := ready
      obtain ⟨target, place, points⟩ := Option.bind_eq_some_iff.mp points
      exact ensures_modify inv place points (counts rfl) action
  | modifyTransform this action transform =>
      obtain ⟨p, points⟩ := ready
      obtain ⟨target, place, points⟩ := Option.bind_eq_some_iff.mp points
      exact ensures_modifyTransform inv place points (counts rfl) action transform
  | destroy this =>
      obtain ⟨target, place⟩ := ready
      exact ensures_destroy inv place (inv.remove this)

end StdBitcoin.CopyOnWrite
