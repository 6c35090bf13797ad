import StdBitcoin.CopyOnWrite.Commands

/-!
# Constructors and destructor

What a constructor promises of the object that is about to come into being, whether
its model is new, shared or taken from another object, and what the destructor leaves.
Consistent states stay consistent, also when a constructor throws.
-/

namespace StdBitcoin.CopyOnWrite

open Effects Prog

variable {ι T A : Type} {traits : AllocatorTraits A} {values : ValueTraits T} {s : State ι T A}

/-- A consistent state between operations, with what it shows. -/
structure Shows (traits : AllocatorTraits A) (seen : ι → Option (Option T)) (s : State ι T A) :
    Prop where
  consistent : Consistent traits [] s
  observe : s.observe = seen

/-- The pointer of a handle agrees with its model. -/
def Live (traits : AllocatorTraits A) (s : State ι T A) (o : Handle A) : Prop :=
  ∀ p, o.self = some p → ∃ m, s.models p = some m ∧ traits.eq o.alloc m.alloc

/-- The members of an object that is about to come into being, with its value. -/
structure Constructed (traits : AllocatorTraits A) (seen : ι → Option (Option T)) (v : Option T)
    (o : Handle A) (s : State ι T A) : Prop where
  consistent : Consistent traits o.self.toList s
  live : Live traits s o
  value : o.self.bind s.valueAt = v
  observe : s.observe = seen

theorem observe_eq_none_iff (s : State ι T A) (h : ι) : s.observe h = none ↔ s.handles h = none :=
  Option.map_eq_none_iff

theorem exists_handle {h : ι} (seen : s.observe h ≠ none) : ∃ o, s.handles h = some o :=
  Option.ne_none_iff_exists'.mp (mt (observe_eq_none_iff s h).mpr seen)

/-- The place of the new object is still free. -/
theorem Constructed.vacant {h : ι} {seen : ι → Option (Option T)} {v : Option T} {o : Handle A}
    (constructed : Constructed traits seen v o s) (unseen : seen h = none) :
    s.handles h = none := by
  rw [← constructed.observe] at unseen
  exact (observe_eq_none_iff s h).mp unseen

namespace Consistent

variable {loose : List Loc} {h : ι} {o : Handle A}

/-- An object of a consistent state points to a live model. -/
theorem live (inv : Consistent traits loose s) (found : s.handles h = some o) : Live traits s o :=
  fun _ points => inv.pointed found points

theorem unused (inv : Consistent traits loose s) : s.models s.next = none := inv.fresh le_rfl

/-- Skipping addresses keeps the state consistent. -/
theorem reserve {p : Loc} (inv : Consistent traits loose s) (later : s.next ≤ p) :
    Consistent traits loose (s.reserve p) where
  accounted := fun live => by
    obtain ⟨counted, positive, constructed⟩ := inv.accounted live
    exact ⟨counted, positive, constructed⟩
  pointed := inv.pointed
  held := inv.held
  fresh := fun unused => inv.fresh (later.trans unused)

/-- An allocation that was given back keeps the state consistent. -/
theorem skip (inv : Consistent traits loose s) : Consistent traits loose s.skip :=
  inv.reserve (Nat.le_succ _)

theorem live_null (alloc : A) : Live traits s ⟨alloc, none⟩ := by
  rintro _ ⟨⟩

/-- A new owner points to a live model. -/
theorem live_acquire {p : Loc} {m : Model T A} {alloc : A} (agrees : traits.eq alloc m.alloc) :
    Live traits (s.setModel p (some { m with count := m.count + 1 })) ⟨alloc, some p⟩ := by
  rintro _ ⟨⟩
  exact ⟨_, State.models_setModel_self .., agrees⟩

/-- The owner of a new model points to a live one. -/
theorem live_new (alloc : A) (v : T) : Live traits (s.new alloc v) ⟨alloc, some s.next⟩ := by
  rintro _ ⟨⟩
  exact ⟨_, State.models_setModel_self .., traits.eq_refl alloc⟩

variable [DecidableEq ι]

/-- A handle takes over a loose reference. -/
theorem shows_replace (inv : Consistent traits o.self.toList s) (live : Live traits s o) :
    Shows traits (Function.update s.observe h (some (o.self.bind s.valueAt)))
      (s.replace h (some o)) := by
  have balanced : Consistent traits (((some o).bind Handle.self).toList ++ []) s := by
    rw [List.append_nil]
    exact inv
  have agrees : ∀ o' p, some o = some o' → o'.self = some p →
      ∃ m, s.models p = some m ∧ traits.eq o'.alloc m.alloc := by
    rintro _ p ⟨⟩
    exact live p
  exact ⟨balanced.replace agrees, balanced.observe_replace agrees⟩

/-- A handle with a null pointer gives up its reference. -/
theorem shows_clear (inv : Consistent traits [] s) (alloc : A) :
    Shows traits (Function.update s.observe h (some none)) (s.replace h (some ⟨alloc, none⟩)) :=
  shows_replace inv (live_null alloc)

/-- The pointer of a handle becomes a loose reference. -/
theorem take (inv : Consistent traits [] s) (found : s.handles h = some o) :
    Consistent traits o.self.toList (s.setHandle h (some { o with self := none })) := by
  refine inv.setHandle ?_ fun p => ?_
  · rintro _ p ⟨⟩ ⟨⟩
  · rw [State.self_of_handles found, List.append_nil]
    rfl

end Consistent

variable [DecidableEq ι] {this x : ι} {target source : Handle A}

/-- The object comes into being where there is none. -/
theorem Constructed.shows {seen : ι → Option (Option T)} {v : Option T} {o : Handle A}
    (constructed : Constructed traits seen v o s) (vacant : s.handles this = none) :
    Shows traits (Function.update seen this (some v)) (s.setHandle this (some o)) := by
  have absent : s.self this = none := by
    rw [State.self, vacant]
    rfl
  have shown := constructed.consistent.shows_replace (h := this) constructed.live
  rw [State.replace, absent, State.release_none, constructed.value, constructed.observe] at shown
  exact shown

section Constructors

/-- A new value has a model that no other handle points to. -/
theorem wp_ofValueWith (inv : Consistent traits [] s) (alloc : A) (u : T) :
    wp (exec traits) (ofValueWith alloc u)
      (fun o s' => Constructed traits s.observe (some u) o s' ∧ ∀ k, s'.self k ≠ o.self)
      (Consistent traits []) s := by
  rw [ofValueWith, wp_bind]
  refine wp_makeModel_construct alloc inv.unused inv inv.skip ⟨?_, fun k points => ?_⟩
  · exact ⟨inv.new alloc u, Consistent.live_new alloc u, State.valueAt_new_self ..,
      inv.observe_new alloc u⟩
  · obtain ⟨m, found⟩ := inv.pointed_self points
    exact inv.used found rfl

/-- Equal allocators, known from the traits or compared. -/
theorem eq_of_always_or {a b : A} (same : (traits.isAlwaysEqual || traits.eq a b) = true) :
    traits.eq a b := by
  rcases Bool.or_eq_true_iff.mp same with always | equal
  · exact traits.eq_of_isAlwaysEqual always ..
  · exact equal

/-- The allocator of an assignment's target, which takes over that of the source or equals
it, is as good as that of the source. -/
theorem eq_of_taken {propagate : Bool} {a b c : A} (taken : propagate = true ∨ traits.eq a b)
    (matching : traits.eq b c) : traits.eq (if propagate then b else a) c := by
  split
  · exact matching
  · rename_i stays
    exact traits.eq_trans (taken.resolve_left stays) matching

/-- Sharing or copying, the new object shows the value of the other. -/
theorem wp_share (inv : Consistent traits [] s) (found : s.handles x = some source) (alloc : A)
    {same : Bool} (agrees : same → traits.eq alloc source.alloc) :
    wp (exec traits) (share alloc same source)
      (Constructed traits s.observe (source.self.bind s.valueAt)) (Consistent traits []) s := by
  unfold share
  split
  · rename_i null
    rw [null]
    exact ⟨inv, nofun, rfl, rfl⟩
  · rename_i p points
    obtain ⟨m, live, matching⟩ := inv.pointed found points
    obtain ⟨v, constructed, value⟩ := inv.valueAt live
    rw [points, Option.bind_some, value]
    split
    · rename_i shared
      rw [wp_bind, wp_fetchAdd live, wp_pure]
      refine ⟨inv.acquire live, ?_, ?_, State.observe_acquire live⟩
      · exact Consistent.live_acquire (traits.eq_trans (agrees shared) matching)
      · exact (State.valueAt_setModel_self ..).trans constructed
    · rw [wp_bind]
      apply wp_makeModel_constructCopy alloc inv.unused value inv inv.skip
      exact ⟨inv.new alloc v, Consistent.live_new alloc v, State.valueAt_new_self ..,
        inv.observe_new alloc v⟩

/-- The allocator-extended copy shows the value of the source, with or without a model of its own.
-/
theorem wp_copyWith (inv : Consistent traits [] s) (found : s.handles x = some source) (alloc : A) :
    wp (exec traits) (copyWith traits alloc x)
      (Constructed traits s.observe (source.self.bind s.valueAt)) (Consistent traits []) s := by
  rw [copyWith, wp_bind, wp_handle found]
  exact wp_share inv found alloc id

theorem wp_copy (inv : Consistent traits [] s) (found : s.handles x = some source) :
    wp (exec traits) (copy traits x)
      (Constructed traits s.observe (source.self.bind s.valueAt)) (Consistent traits []) s := by
  rw [copy, wp_bind, wp_handle found]
  exact wp_share inv found _ eq_of_always_or

/-- A stolen pointer leaves its handle valueless. -/
theorem constructed_take (inv : Consistent traits [] s) (found : s.handles x = some source)
    {alloc : A} (agrees : traits.eq alloc source.alloc) :
    Constructed traits (Function.update s.observe x (some none)) (source.self.bind s.valueAt)
      ⟨alloc, source.self⟩ (s.setHandle x (some { source with self := none })) := by
  refine ⟨inv.take found, fun p points => ?_, rfl, State.observe_setHandle ..⟩
  obtain ⟨m, live, matching⟩ := inv.pointed found points
  exact ⟨m, live, traits.eq_trans agrees matching⟩

/-- A move takes the value and leaves the source valueless. -/
theorem wp_move (inv : Consistent traits [] s) (found : s.handles x = some source) :
    wp (exec traits) (move x)
      (Constructed traits (Function.update s.observe x (some none)) (source.self.bind s.valueAt))
      (Consistent traits []) s := by
  rw [move, wp_bind, wp_handle found, wp_bind, wp_setSelf found, wp_pure]
  exact constructed_take inv found (traits.eq_refl _)

/-- The allocator-extended move takes the value, or copies it, and leaves the source valueless. -/
theorem wp_moveWith (inv : Consistent traits [] s) (found : s.handles x = some source) (alloc : A) :
    wp (exec traits) (moveWith traits alloc x)
      (Constructed traits (Function.update s.observe x (some none)) (source.self.bind s.valueAt))
      (Consistent traits []) s := by
  have shown := State.observe_of_handles found
  rw [moveWith, wp_bind, wp_handle found]
  split
  · rename_i null
    rw [null] at shown ⊢
    refine ⟨inv, nofun, rfl, ?_⟩
    exact (Function.update_eq_self_iff.mpr shown.symm).symm
  · rename_i p points
    obtain ⟨m, live, matching⟩ := inv.pointed found points
    obtain ⟨v, constructed, value⟩ := inv.valueAt live
    split
    · rename_i same
      rw [wp_bind, wp_setSelf found, wp_pure, ← points]
      exact constructed_take inv found (eq_of_always_or same)
    · rw [wp_bind, points, Option.bind_some, value]
      apply wp_makeModel_constructCopy alloc inv.unused value inv inv.skip
      have built := inv.new alloc v
      have left : Consistent traits (((some { source with self := none }).bind
          Handle.self).toList ++ [s.next]) (s.new alloc v) := built
      have unpointed : ∀ o' p, some { source with self := none } = some o' → o'.self = some p →
          ∃ m, (s.new alloc v).models p = some m ∧ traits.eq o'.alloc m.alloc := by
        rintro _ _ ⟨⟩ ⟨⟩
      have alive : (s.new alloc v).handles x = some source := found
      obtain ⟨m', fresh, agrees, value'⟩ :=
        (left.exchange unpointed).kept List.mem_cons_self (State.models_setModel_self ..)
      rw [wp_bind, wp_reset alive (built.live alive), wp_pure]
      refine ⟨left.replace unpointed, ?_, ?_, ?_⟩
      · rintro _ ⟨⟩
        exact ⟨m', fresh, agrees ▸ traits.eq_refl _⟩
      · exact (State.valueAt_of_models fresh).trans value'
      · rw [left.observe_replace unpointed, inv.observe_new]
        rfl

end Constructors

/-- Only the handle itself sees its end. -/
theorem wp_destroy (inv : Consistent traits [] s) (place : s.handles this = some target)
    (thrown : State ι T A → Prop) :
    wp (exec traits) (destroy this) (fun _ => Shows traits (Function.update s.observe this none))
      thrown s := by
  have still : (s.release target.self).handles this = some target := by
    rw [State.handles_release]
    exact place
  have gone : ∀ (o' : Handle A) (p : Loc), none = some o' → o'.self = some p →
      ∃ m, s.models p = some m ∧ traits.eq o'.alloc m.alloc := nofun
  have dropped : wp (exec traits) (do drop target; remove this)
      (fun _ => Shows traits (Function.update s.observe this none)) thrown s := by
    rw [wp_bind, wp_drop (inv.live place), wp_remove still, State.setHandle_release,
      ← State.self_of_handles place]
    exact ⟨inv.replace gone, inv.observe_replace gone⟩
  rw [destroy, wp_bind, wp_handle place, wp_bind]
  split
  · exact dropped
  · rename_i p points
    obtain ⟨m, live, _⟩ := inv.pointed place points
    rw [wp_bind, wp_load live, wp_assert (decide_eq_true (inv.accounted live).positive)]
    exact dropped

end StdBitcoin.CopyOnWrite
