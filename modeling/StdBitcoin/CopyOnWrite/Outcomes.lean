import StdBitcoin.CopyOnWrite.Views

/-!
# Outcomes of the operations

What an agent sees of its objects after an operation, whether it returns or throws. The
counts that the operation reads decide on its path and not on its outcome, so that nothing
needs to be known of what other agents do to them.
-/

namespace StdBitcoin.CopyOnWrite

open Effects Prog

variable {ι T A : Type}

namespace Op

/-- The operations that write to a model without having it for themselves. -/
def moves : Op ι T A → Bool
  | moveAssign _ _ => true
  | _ => false

variable [DecidableEq ι] (values : ValueTraits T) (seen seen' : ι → Option (Option T))

/-- What is seen after an operation that throws: what was seen before it, or what the action,
the assignment or the move of a value leaves there. A swap and a destructor never throw. -/
def Aborts : Op ι T A → Prop
  | ofValue _ _ | ofValueWith _ _ _ | copy _ _ | copyWith _ _ _ | move _ _ | moveWith _ _ _
  | copyAssign _ _ => seen' = seen
  | moveAssign _ x => seen' = seen ∨ ∃ v, seen x = some (some v) ∧
      seen' = Function.update seen x (some (some (values.interrupted v)))
  | assignValue this u _ => seen' = seen ∨ ∃ v, seen this = some (some v) ∧
      seen' = Function.update seen this (some (some (values.halfAssigned v u)))
  | modify this action | modifyTransform this action _ => seen' = seen ∨
      ∃ v w, seen this = some (some v) ∧ action v = .error w ∧
        seen' = Function.update seen this (some (some w))
  | swap _ _ | destroy _ => False

/-- What is seen after an operation that returns or throws. -/
def Outcome (op : Op ι T A) : Prop :=
  op.Reference seen seen' ∨ op.Aborts values seen seen'

end Op

variable [DecidableEq ι] {traits : AllocatorTraits A} {values : ValueTraits T} {moving : Bool}
  {view : View ι T A} {thrown : View ι T A → Prop} {this x : ι} {target source : Handle A}

namespace View

variable {p : Loc}

/-- The value of a model is seen through the only handle that points to it. -/
theorem observe_write_of_sole (points : view.self this = some p) (sole : view.Sole p) (w : T) :
    (view.write p w).observe = Function.update view.observe this (some (some w)) := by
  funext h
  rw [observe_write]
  by_cases same : h = this
  · rw [same, if_pos points, Function.update_self]
  · rw [if_neg fun also => same (sole h this also points), Function.update_of_ne same]

end View

section Release

variable {normal : Unit → View ι T A → Prop} {v : Option Loc}

/-- Dropping a reference is not seen. -/
theorem sight_drop {o : Handle A} (kept : normal () view) (unsettled : normal () view.unsettle) :
    ensures (sight moving) (drop o) normal thrown view := by
  rw [drop]
  split
  · exact kept
  · rw [ensures_bind, sight_fetchSub]
    intro count
    split
    · exact unsettled
    · exact unsettled

/-- A handle gets another pointer, whatever happens to the model that it had. -/
theorem sight_reset (used : ∀ p, v = some p → p < view.next)
    (next : ∀ o, view.handles this = some o →
      normal () (view.setHandle this (some ⟨o.alloc, v⟩) (View.fits_of_lt used o.alloc))) :
    ensures (sight moving) (reset this v) normal thrown view := by
  rw [reset, ensures_bind, sight_handle]
  intro o found
  rw [ensures_bind]
  apply sight_drop
  · rw [sight_setSelf found (View.fits_of_lt used o.alloc)]
    exact next o found
  · have still : view.unsettle.handles this = some o := found
    rw [sight_setSelf still (View.fits_of_lt used o.alloc)]
    exact next o found

/-- The tail that the assignments share. -/
theorem sight_reset_propagate {propagate : Bool} {alloc : A}
    (used : ∀ p, v = some p → p < view.next)
    (next : ∀ view' : View ι T A, view'.observe =
      Function.update view.observe this (some (v.bind view.value)) → normal () view') :
    ensures (sight moving) (reset this v)
      (fun _ => ensures (sight moving) (if propagate then setAlloc this alloc else return ())
        normal thrown) thrown view := by
  apply sight_reset used
  intro o _
  have shown := view.observe_setHandle this _ (View.fits_of_lt used o.alloc)
  have found := view.handles_setHandle_self this _ (View.fits_of_lt used o.alloc)
  split
  · rw [sight_setAlloc found]
    apply next
    rw [View.observe_setAlloc found, shown]
    rfl
  · exact next _ shown

/-- Only the object itself is seen to end. -/
theorem sight_destroy
    (next : ∀ view' : View ι T A, view'.observe = Function.update view.observe this none →
      normal () view') :
    ensures (sight moving) (destroy this) normal thrown view := by
  have dropped (o : Handle A) (view' : View ι T A) (same : view'.observe = view.observe) :
      ensures (sight moving) (do drop o; remove this) normal thrown view' := by
    have removed : normal () (view'.setHandle this none view'.fits_none) := by
      apply next
      rw [View.observe_setHandle, same]
      rfl
    rw [ensures_bind]
    apply sight_drop
    · exact removed
    · exact removed
  rw [destroy, ensures_bind, sight_handle]
  intro o _
  rw [ensures_bind]
  split
  · exact dropped o view rfl
  · rw [ensures_bind, sight_load]
    intro count _ _ _
    refine dropped o _ ?_
    split
    · rfl
    · rfl

end Release

section Constructors

/-- The members of an object that is about to come into being, with what it will show. -/
structure Yields (seen : ι → Option (Option T)) (shown : Option (Option T)) (o : Handle A)
    (view : View ι T A) : Prop where
  fits : view.Fits (some o)
  observe : view.observe = seen
  value : some (o.self.bind view.value) = shown

/-- An object that is constructed shows what the constructor yields. -/
theorem sight_constructAt {constructor : Code ι T A (Handle A)} {seen : ι → Option (Option T)}
    {shown : Option (Option T)}
    (constructs : ensures (sight moving) constructor (Yields seen shown) thrown view) :
    ensures (sight moving) (constructAt this constructor)
      (fun _ view' => view'.observe = Function.update seen this shown) thrown view := by
  rw [constructAt, ensures_bind]
  refine ensures_mono (sight_monotone moving) (fun o view' built => ?_) (fun _ => id) constructs
  rw [sight_emplace built.fits, View.observe_setHandle, built.observe, ← built.value]
  rfl

/-- A new object has its model for itself. -/
theorem sight_ofValueWith (alloc : A) (u : T) :
    ensures (sight moving) (ofValueWith alloc u)
      (fun o view' => Yields view.observe (some (some u)) o view' ∧
        ∃ p, o.self = some p ∧ view'.exclusive p ∧ ∀ k, view'.self k ≠ some p)
      (fun view' => view'.observe = view.observe) view := by
  rw [ofValueWith, ensures_bind]
  refine sight_makeModel_construct alloc u rfl (fun p later => View.observe_allocate later) ?_
  intro p later
  have unseen : ∀ k, view.self k ≠ some p := View.self_ne_of_later later
  refine ⟨⟨View.fits_made later u alloc, View.observe_made later u, ?_⟩, p, rfl,
    View.exclusive_allocate later, unseen⟩
  rw [Option.bind_some, View.value_made]

/-- Sharing or copying, the new object shows the value of the other. -/
theorem sight_share (found : view.handles x = some source) (alloc : A) (same : Bool) :
    ensures (sight moving) (share alloc same source) (Yields view.observe (view.observe x))
      (fun view' => view'.observe = view.observe) view := by
  rw [View.observe_of_handles found]
  unfold share
  split
  · rename_i null
    rw [null]
    exact ⟨view.fits_null alloc, rfl, rfl⟩
  · rename_i p points
    have used := view.below found points
    rw [points, Option.bind_some]
    split
    · rw [ensures_bind, sight_fetchAdd]
      intro _
      refine ⟨?_, rfl, rfl⟩
      rw [← points]
      exact View.fits_of_handles found alloc
    · rw [ensures_bind]
      refine sight_makeModel_constructCopy alloc used rfl
        (fun q later => View.observe_allocate later) fun q later v seen => ?_
      refine ⟨View.fits_made later v alloc, View.observe_made later v, ?_⟩
      rw [Option.bind_some, View.value_made, seen]

/-- The allocator-extended copy shows the value of the source. -/
theorem sight_copyWith (alloc : A) :
    ensures (sight moving) (copyWith traits alloc x) (Yields view.observe (view.observe x))
      (fun view' => view'.observe = view.observe) view := by
  rw [copyWith, ensures_bind, sight_handle]
  exact fun o found => sight_share found alloc _

theorem sight_copy :
    ensures (sight moving) (copy traits x) (Yields view.observe (view.observe x))
      (fun view' => view'.observe = view.observe) view := by
  rw [copy, ensures_bind, sight_handle]
  exact fun o found => sight_share found _ _

/-- A stolen pointer leaves its handle valueless. -/
theorem yields_take (found : view.handles x = some source) (alloc : A) :
    Yields (Function.update view.observe x (some none)) (view.observe x) ⟨alloc, source.self⟩
      (view.setHandle x (some { source with self := none }) (view.fits_null source.alloc)) where
  fits := View.fits_of_handles found alloc
  observe := View.observe_setHandle ..
  value := (View.observe_of_handles found).symm

theorem sight_move :
    ensures (sight moving) (move x)
      (Yields (Function.update view.observe x (some none)) (view.observe x))
      (fun view' => view'.observe = view.observe) view := by
  rw [move, ensures_bind, sight_handle]
  intro o found
  rw [ensures_bind, sight_setSelf found (view.fits_null o.alloc)]
  exact yields_take found o.alloc

/-- The allocator-extended move takes the value and leaves the source valueless. -/
theorem sight_moveWith (alloc : A) :
    ensures (sight moving) (moveWith traits alloc x)
      (Yields (Function.update view.observe x (some none)) (view.observe x))
      (fun view' => view'.observe = view.observe) view := by
  rw [moveWith, ensures_bind, sight_handle]
  intro o found
  have shown := View.observe_of_handles found
  split
  · rename_i null
    rw [null] at shown
    refine ⟨view.fits_null alloc, ?_, shown.symm⟩
    exact (Function.update_eq_self_iff.mpr shown.symm).symm
  · rename_i p points
    split
    · rw [ensures_bind, sight_setSelf found (view.fits_null o.alloc), ← points]
      exact yields_take found alloc
    · rw [ensures_bind]
      refine sight_makeModel_constructCopy alloc (view.below found points) rfl
        (fun q later => View.observe_allocate later) fun q later v seen => ?_
      rw [ensures_bind]
      apply sight_reset (View.none_below _)
      intro o' _
      refine ⟨View.fits_made later v alloc, ?_, ?_⟩
      · rw [View.observe_setHandle, View.observe_made]
        rfl
      · rw [shown, points, Option.bind_some, Option.bind_some, seen]
        exact congrArg some (View.value_made later v)

end Constructors

section Assignments

/-- Copy assignment shows the value of the source, or nothing changes. -/
theorem sight_copyAssign :
    ensures (sight moving) (copyAssign traits this x)
      (fun _ view' => view'.observe = Function.update view.observe this (view.observe x))
      (fun view' => view'.observe = view.observe) view := by
  unfold copyAssign
  split
  · rename_i same
    subst same
    exact (Function.update_eq_self ..).symm
  · rw [ensures_bind, sight_handle]
    intro source found
    rw [ensures_bind, sight_handle]
    intro target _
    rw [ensures_bind, View.observe_of_handles found]
    split
    · rename_i null
      rw [null]
      exact sight_reset_propagate (View.none_below _) fun _ => id
    · rename_i p points
      have used := view.below found points
      rw [points, Option.bind_some]
      split
      · rw [ensures_bind, sight_fetchAdd]
        intro _
        refine sight_reset_propagate ?_ fun _ => id
        rintro _ ⟨⟩
        exact used
      · rw [ensures_bind]
        refine sight_makeModel_constructCopy _ used rfl
          (fun q later => View.observe_allocate later) fun q later v seen => ?_
        refine sight_reset_propagate ?_ fun view' shown => ?_
        · rintro _ ⟨⟩
          exact Nat.lt_succ_self q
        · rw [shown, View.observe_made, Option.bind_some, View.value_made, seen]

/-- The agent has the model of a handle for itself, or may write to it as its only owner. -/
def Free (moving : Bool) (view : View ι T A) (h : ι) : Prop :=
  ∀ p, view.self h = some p →
    view.exclusive p ∧ view.Sole p ∨ moving = true ∧ view.settled

/-- A write to a model that a handle is free to write to is seen through this handle. -/
theorem sight_setValue_of_free {p : Loc} {normal : Unit → View ι T A → Prop}
    (free : view.exclusive p ∧ view.Sole p ∨ moving = true ∧ view.settled) (v : T)
    (holds : view.Sole p → normal () (view.write p v)) :
    ensures (sight moving) (setValue p v) normal thrown view := by
  rcases free with ⟨exclusive, sole⟩ | ⟨moves, settled⟩
  · exact ⟨.inl exclusive, fun _ => holds sole⟩
  · exact ⟨.inr moves, fun sole => holds (sole moves settled)⟩

/-- A new model for a value that is moved out of the model of a handle. -/
theorem sight_makeModel_constructMove (values : ValueTraits T) {normal : Loc → View ι T A → Prop}
    (alloc : A) {p : Loc} (points : view.self x = some p) (free : Free moving view x)
    (onThrow : thrown view)
    (onInterrupt : ∀ view' v, view.value p = some v →
      view'.observe = Function.update view.observe x (some (some (values.interrupted v))) →
      thrown view')
    (onNormal : ∀ view' q v, view.value p = some v → q < view'.next → view'.value q = some v →
      view'.observe = Function.update view.observe x (some (some (values.moved v))) →
      normal q view') :
    ensures (sight moving) (makeModel alloc (constructMove values p)) normal thrown view := by
  apply sight_makeModel alloc onThrow
  intro q later
  have different : p ≠ q := ((View.self_lt points).trans_le later).ne
  have writable : (view.allocate q later).exclusive p ∧ (view.allocate q later).Sole p ∨
      moving = true ∧ (view.allocate q later).settled :=
    (free p points).imp_left fun mine => ⟨.inr mine.1, mine.2⟩
  have points' : (view.allocate q later).self x = some p := points
  rw [constructMove, ensures_bind, sight_value]
  intro v found
  have value : view.value p = some v := (Function.update_of_ne different ..).symm.trans found
  refine ⟨?_, ?_⟩
  · rw [ensures_bind]
    refine sight_setValue_of_free writable _ fun sole => ?_
    rw [ensures_throw]
    apply onInterrupt _ v value
    rw [View.observe_write_of_sole points' sole, View.observe_allocate]
  · rw [ensures_bind]
    refine sight_setValue_of_free writable _ fun sole => ?_
    rw [ensures_pure]
    refine ⟨View.exclusive_allocate later, onNormal _ q v value (Nat.lt_succ_self q) ?_ ?_⟩
    · exact Function.update_self ..
    · have unseen (h : ι) :
          ((view.allocate q later).write p (values.moved v)).self h ≠ some q :=
        View.self_ne_of_later later h
      rw [View.observe_write_of_unseen unseen, View.observe_write_of_sole points' sole,
        View.observe_allocate]

/-- A move assignment is seen as a move, if the agent is free to write to the model of a source
whose allocator is not as good as that of the target. An interrupted move leaves its value in
the source. -/
theorem sight_moveAssign (values : ValueTraits T)
    (free : ∀ target source, view.handles this = some target → view.handles x = some source →
      (traits.propagateOnContainerMoveAssignment || traits.eq target.alloc source.alloc) = false →
      Free moving view x) :
    ensures (sight moving) (moveAssign traits values this x)
      (fun _ view' => view'.observe = moveSeen this x view.observe)
      (fun view' => (Op.moveAssign this x : Op ι T A).Aborts values view.observe view'.observe)
      view := by
  unfold moveAssign
  split
  · rename_i same
    exact (if_pos same).symm
  · rename_i distinct
    rw [moveSeen_of_ne distinct, ensures_bind, sight_handle]
    intro source found
    rw [ensures_bind, sight_handle]
    intro target place
    have shown := View.observe_of_handles found
    rw [ensures_bind]
    split
    · rename_i null
      rw [null] at shown
      have unchanged : Function.update view.observe x (some none) = view.observe :=
        Function.update_eq_self_iff.mpr shown.symm
      rw [unchanged, shown]
      exact sight_reset_propagate (View.none_below _) fun _ => id
    · rename_i p points
      have points' : view.self x = some p := (View.self_of_handles found).trans points
      split
      · rw [ensures_bind, sight_setSelf found (view.fits_null source.alloc)]
        refine sight_reset_propagate ?_ fun view' seen => ?_
        · rintro _ ⟨⟩
          exact view.below found points
        · rw [seen, View.observe_setHandle, shown, points]
          rfl
      · rename_i steals
        have stays := Bool.eq_false_of_not_eq_true steals
        have free := free target source place found stays
        have keeps : traits.propagateOnContainerMoveAssignment = false :=
          (Bool.or_eq_false_iff.mp stays).1
        simp only [keeps, Bool.false_eq_true, if_false]
        rw [ensures_bind]
        refine sight_makeModel_constructMove values target.alloc points' free (.inl rfl) ?_ ?_
        · intro view' v value seen
          exact .inr ⟨v, View.observe_of_self points' value, seen⟩
        · intro view' q v value used value' seen
          have bound : ∀ p, some q = some p → p < view'.next := by
            rintro _ ⟨⟩
            exact used
          rw [ensures_bind]
          apply sight_reset bound
          intro o _
          apply sight_reset (View.none_below _)
          intro o' _
          rw [ensures_pure, View.observe_setHandle, View.observe_setHandle, seen,
            View.observe_of_self points' value, Option.map_some, Option.map_some,
            Option.bind_some, Option.bind_none, value', Function.update_comm (Ne.symm distinct),
            Function.update_idem]

/-- The temporary has its value for itself, and is gone again. -/
theorem sight_replaceValue {temporary : ι} (unseen : view.observe temporary = none) (u : T)
    (distinct : temporary ≠ this) :
    ensures (sight moving) (replaceValue traits values this u temporary)
      (fun _ view' => view'.observe = Function.update view.observe this (some (some u)))
      (fun view' => view'.observe = view.observe) view := by
  rw [replaceValue, ofValue, ensures_bind]
  refine ensures_mono (sight_monotone moving) (fun o view' built => ?_) (fun _ => id)
    (sight_ofValueWith traits.default u)
  obtain ⟨⟨fits, seen, value⟩, p, points, exclusive, alone⟩ := built
  have free : Free moving (view'.setHandle temporary (some o) fits) temporary := by
    intro q points'
    rw [View.self_setHandle_self, Option.bind_some, points] at points'
    obtain rfl := Option.some.inj points'
    have only (h : ι) (also : (view'.setHandle temporary (some o) fits).self h = some p) :
        h = temporary := by
      by_contra other
      rw [View.self_setHandle_of_ne other] at also
      exact alone h also
    exact .inl ⟨exclusive, fun h k first second => (only h first).trans (only k second).symm⟩
  have emplaced : (view'.setHandle temporary (some o) fits).observe =
      Function.update view.observe temporary (some (some u)) := by
    rw [View.observe_setHandle, seen, ← value]
    rfl
  have forgotten (w : Option (Option T)) :
      Function.update (Function.update view.observe temporary w) temporary none =
        view.observe := by
    rw [Function.update_idem]
    exact Function.update_eq_self_iff.mpr unseen.symm
  rw [ensures_bind, sight_emplace fits, ensures_bind, ensures_onThrow]
  refine ensures_mono (sight_monotone moving) (fun _ moved shown => ?_)
    (fun interrupted shown => ?_) (sight_moveAssign values fun _ _ _ _ _ => free)
  · apply sight_destroy
    intro final last
    rw [last, shown, emplaced, temporary_seen distinct unseen]
  · rw [emplaced] at shown
    rw [ensures_bind]
    apply sight_destroy
    intro final last
    rw [ensures_throw, last]
    rcases shown with same | ⟨v, -, same⟩
    · rw [same, forgotten]
    · rw [same, Function.update_idem, forgotten]

/-- Value assignment is seen through the handle only, in place or not. -/
theorem sight_assignValue {temporary : ι} (settled : view.settled)
    (unseen : view.observe temporary = none) (u : T) :
    ensures (sight moving) (assignValue traits values this u temporary)
      (fun _ view' => view'.observe = Function.update view.observe this (some (some u)))
      (fun view' => (Op.assignValue this u temporary : Op ι T A).Aborts values view.observe
        view'.observe) view := by
  rw [assignValue, ensures_bind, sight_handle]
  intro o found
  have distinct : temporary ≠ this := by
    rintro rfl
    rw [View.observe_of_handles found] at unseen
    cases unseen
  have replaced : ensures (sight moving) (replaceValue traits values this u temporary)
      (fun _ view' => view'.observe = Function.update view.observe this (some (some u)))
      (fun view' => (Op.assignValue this u temporary : Op ι T A).Aborts values view.observe
        view'.observe) view :=
    ensures_mono (sight_monotone moving) (fun _ _ => id) (fun _ => .inl)
      (sight_replaceValue unseen u distinct)
  split
  · exact replaced
  · rename_i p points
    have points' : view.self this = some p := (View.self_of_handles found).trans points
    rw [ensures_bind, sight_load]
    intro count _ sole
    split
    · rename_i one
      have mine : (view.claim p).exclusive p := .inl rfl
      have claimed : (view.claim p).self this = some p := points'
      have only : (view.claim p).Sole p := sole one settled
      have written (w : T) : ((view.claim p).write p w).observe =
          Function.update view.observe this (some (some w)) :=
        View.observe_write_of_sole claimed only w
      rw [assign, ensures_bind, sight_value]
      intro v value
      refine ⟨?_, ?_⟩
      · rw [ensures_bind]
        apply sight_setValue mine
        exact .inr ⟨v, View.observe_of_self points' value, written _⟩
      · exact sight_setValue mine u (written u)
    · exact replaced

end Assignments

section Modifiers

variable {p : Loc}

/-- The action sees the value of the object, and its object alone shows what it leaves. -/
def Acts (this : ι) (action : T → Except T T) (leaves : T → Except T T)
    (seen seen' : ι → Option (Option T)) : Prop :=
  ∃ v w, seen this = some (some v) ∧ action v = leaves w ∧
    seen' = Function.update seen this (some (some w))

/-- A modification shows its result, or what it has left where it throws. -/
theorem sight_invoke (points : view.self this = some p) (exclusive : view.exclusive p)
    (sole : view.Sole p) (action : T → Except T T) :
    ensures (sight moving) (invoke action p)
      (fun _ view' => Acts this action .ok view.observe view'.observe)
      (fun view' => Acts this action .error view.observe view'.observe) view := by
  rw [invoke, ensures_bind, sight_value]
  intro v value
  have seen := View.observe_of_self points value
  split
  · rename_i w returned
    exact sight_setValue exclusive w
      ⟨v, w, seen, returned, View.observe_write_of_sole points sole w⟩
  · rename_i w threw
    rw [ensures_bind]
    exact sight_setValue exclusive w ⟨v, w, seen, threw, View.observe_write_of_sole points sole w⟩

/-- A handle leaves its model for a new one. -/
theorem sight_leave {o : Handle A} {q : Loc} {normal : Unit → View ι T A → Prop}
    (found : view.handles this = some o) (fits : view.Fits (some ⟨o.alloc, some q⟩))
    (next : normal () (view.setHandle this (some ⟨o.alloc, some q⟩) fits)) :
    ensures (sight moving) (do let _ ← fetchSub p; setSelf this (some q)) normal thrown view := by
  rw [ensures_bind, sight_fetchSub]
  intro _
  have still : view.unsettle.handles this = some o := found
  rw [sight_setSelf still fits]
  exact next

/-- The new model of a handle is its own. -/
theorem View.sole_made {q : Loc} (later : view.next ≤ q) (v : T) (alloc : A) :
    ((view.made q later v).setHandle this (some ⟨alloc, some q⟩)
      (View.fits_made later v alloc)).Sole q := by
  have only (h : ι) (points : ((view.made q later v).setHandle this (some ⟨alloc, some q⟩)
      (View.fits_made later v alloc)).self h = some q) : h = this := by
    by_contra other
    rw [View.self_setHandle_of_ne other] at points
    exact View.self_ne_of_later later h points
  exact fun h k first second => (only h first).trans (only k second).symm

/-- A detached object shows the copy. -/
theorem View.observe_detached {q : Loc} (later : view.next ≤ q) (v : T) (alloc : A) :
    ((view.made q later v).setHandle this (some ⟨alloc, some q⟩)
      (View.fits_made later v alloc)).observe =
      Function.update view.observe this (some (some v)) := by
  rw [View.observe_setHandle, View.observe_made, Option.map_some, Option.bind_some,
    View.value_made]

/-- The modifier shows its result; where it throws nothing has changed, or the action has left its
mark. -/
theorem sight_modify (settled : view.settled) (action : T → Except T T) :
    ensures (sight moving) (modify this action)
      (fun _ view' => Acts this action .ok view.observe view'.observe)
      (fun view' => view'.observe = view.observe ∨
        Acts this action .error view.observe view'.observe) view := by
  rw [modify, ensures_bind, sight_handle]
  intro o found
  rw [ensures_bind, sight_pointee]
  intro p points
  have points' : view.self this = some p := (View.self_of_handles found).trans points
  rw [ensures_bind, ensures_bind, sight_load]
  intro count positive sole
  split
  · rename_i shared
    rw [if_neg (by omega : ¬ count = 1), detach, ensures_bind]
    refine sight_makeModel_constructCopy o.alloc (View.self_lt points') (.inl rfl)
      (fun q later => .inl (View.observe_allocate later)) fun q later v value => ?_
    apply sight_leave (by exact found) (View.fits_made later v o.alloc)
    have same : ((view.made q later v).setHandle this (some ⟨o.alloc, some q⟩)
        (View.fits_made later v o.alloc)).observe = view.observe := by
      rw [View.observe_detached,
        Function.update_eq_self_iff.mpr (View.observe_of_self points' value).symm]
    have placed := (view.made q later v).handles_setHandle_self this
      (some ⟨o.alloc, some q⟩) (View.fits_made later v o.alloc)
    rw [ensures_bind, sight_handle_found placed, ensures_bind, sight_pointee]
    rintro _ ⟨⟩
    refine ensures_mono (sight_monotone moving) (fun _ _ => id) (fun _ => .inr) ?_
    rw [← same]
    exact sight_invoke ((View.self_of_handles placed).trans rfl)
      (View.exclusive_allocate later) (View.sole_made later v o.alloc) action
  · rename_i unshared
    obtain ⟨one, only⟩ := View.sole_of_load settled positive sole unshared
    have mine : (view.claim p).handles this = some o := found
    rw [if_pos one, ensures_pure, ensures_bind, sight_handle_found mine, ensures_bind,
      sight_pointee]
    intro p' points''
    obtain rfl := Option.some.inj (points.symm.trans points'')
    have claimed : (view.claim p).self this = some p := points'
    exact ensures_mono (sight_monotone moving) (fun _ _ => id) (fun _ => .inr)
      (sight_invoke claimed (.inl rfl) only action)

/-- A shared model is left for the transformed value, a sole one is acted on. -/
theorem sight_modifyTransform (settled : view.settled) (action : T → Except T T)
    (transform : T → Option T) :
    ensures (sight moving) (modifyTransform this action transform)
      (fun _ view' => (Op.modifyTransform this action transform : Op ι T A).Reference view.observe
        view'.observe)
      (fun view' => view'.observe = view.observe ∨
        Acts this action .error view.observe view'.observe) view := by
  rw [modifyTransform, ensures_bind, sight_handle]
  intro o found
  rw [ensures_bind, sight_pointee]
  intro p points
  have points' : view.self this = some p := (View.self_of_handles found).trans points
  rw [ensures_bind, sight_load]
  intro count positive sole
  split
  · rename_i shared
    rw [if_neg (by omega : ¬ count = 1), ensures_bind, sight_value]
    intro v value
    split
    · exact .inl rfl
    · rename_i w transformed
      rw [detach, ensures_bind]
      refine sight_makeModel_construct o.alloc w (.inl rfl)
        (fun q later => .inl (View.observe_allocate later)) fun q later => ?_
      apply sight_leave (by exact found) (View.fits_made later w o.alloc)
      exact ⟨v, w, View.observe_of_self points' value, .inr transformed,
        View.observe_detached later w o.alloc⟩
  · rename_i unshared
    obtain ⟨one, only⟩ := View.sole_of_load settled positive sole unshared
    have claimed : (view.claim p).self this = some p := points'
    rw [if_pos one]
    refine ensures_mono (sight_monotone moving) (fun _ view' acted => ?_) (fun _ => .inr)
      (sight_invoke claimed (.inl rfl) only action)
    obtain ⟨v, w, seen, returned, shown⟩ := acted
    exact ⟨v, w, seen, .inl returned, shown⟩

/-- Two handles exchange what is seen through them. -/
theorem sight_swap :
    ensures (sight moving) (swap traits this x)
      (fun _ view' => view'.observe =
        Function.update (Function.update view.observe this (view.observe x)) x (view.observe this))
      (fun _ => False) view := by
  rw [swap, ensures_bind, sight_handle]
  intro left here
  rw [ensures_bind, sight_handle]
  intro right there
  rw [ensures_bind, sight_assert]
  intro _
  have taken := View.fits_of_handles there left.alloc
  have first := view.observe_setHandle this (some ⟨left.alloc, right.self⟩) taken
  rw [ensures_bind, sight_setSelf here taken, ensures_bind, sight_setSelf_iff]
  intro o found
  have given : (view.setHandle this (some ⟨left.alloc, right.self⟩) taken).Fits
      (some ⟨o.alloc, left.self⟩) := View.fits_of_handles here o.alloc
  have second := (view.setHandle this (some ⟨left.alloc, right.self⟩) taken).observe_setHandle x
    (some ⟨o.alloc, left.self⟩) given
  have exchanged : ((view.setHandle this (some ⟨left.alloc, right.self⟩) taken).setHandle x
      (some ⟨o.alloc, left.self⟩) given).observe =
      Function.update (Function.update view.observe this (view.observe x)) x
        (view.observe this) := by
    rw [second, first, View.observe_of_handles here, View.observe_of_handles there]
    rfl
  refine ⟨given, ?_⟩
  split
  · rw [ensures_bind, sight_setAlloc_iff]
    intro o' found'
    rw [sight_setAlloc_iff]
    intro o'' found''
    rw [View.observe_setAlloc found'', View.observe_setAlloc found']
    exact exchanged
  · exact exchanged

end Modifiers

/-- What the agent of an operation has to know: which references are its own, that a temporary
is not there yet, and that it may write to a model whose value it moves out. -/
structure Foreseen (traits : AllocatorTraits A) (moving : Bool) (view : View ι T A)
    (op : Op ι T A) : Prop where
  settled : view.settled
  vacant : ∀ {this u temporary}, op = .assignValue this u temporary →
    view.observe temporary = none
  free : ∀ {this x target source}, op = .moveAssign this x → view.handles this = some target →
    view.handles x = some source →
    (traits.propagateOnContainerMoveAssignment || traits.eq target.alloc source.alloc) = false →
    Free moving view x

/-- Every operation is seen to do what the reference does, or to abort. -/
theorem sight_code (values : ValueTraits T) {op : Op ι T A}
    (foreseen : Foreseen traits moving view op) :
    ensures (sight moving) (op.code traits values)
      (fun _ view' => op.Reference view.observe view'.observe)
      (fun view' => op.Aborts values view.observe view'.observe) view := by
  have settled := foreseen.settled
  cases op with
  | ofValue this u =>
      exact sight_constructAt (ensures_mono (sight_monotone _) (fun _ _ => And.left) (fun _ => id)
        (sight_ofValueWith traits.default u))
  | ofValueWith this alloc u =>
      exact sight_constructAt (ensures_mono (sight_monotone _) (fun _ _ => And.left) (fun _ => id)
        (sight_ofValueWith alloc u))
  | copy this x => exact sight_constructAt sight_copy
  | copyWith this alloc x => exact sight_constructAt (sight_copyWith alloc)
  | move this x => exact sight_constructAt sight_move
  | moveWith this alloc x => exact sight_constructAt (sight_moveWith alloc)
  | copyAssign this x => exact sight_copyAssign
  | moveAssign this x =>
      exact sight_moveAssign values fun _ _ place found => foreseen.free rfl place found
  | assignValue this u temporary => exact sight_assignValue settled (foreseen.vacant rfl) u
  | swap this x => exact sight_swap
  | modify this action => exact sight_modify settled action
  | modifyTransform this action transform => exact sight_modifyTransform settled action transform
  | destroy this => exact sight_destroy fun _ => id

end StdBitcoin.CopyOnWrite
