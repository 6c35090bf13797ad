import StdBitcoin.CopyOnWrite.ValueSemantics
import StdBitcoin.Effects.Product

/-!
# What an agent sees

An agent knows its own handles and the values behind them, and the models that nobody else
refers to: those it allocated, and those whose count it read as one. It writes to these only,
so that no other agent can tell. How many references there are it does not know.
-/

namespace StdBitcoin.CopyOnWrite

open Effects Prog

variable {ι T A : Type}

/-- The handles of an agent and the values behind them. -/
structure View (ι T A : Type) where
  handles : ι → Option (Handle A)
  value : Loc → Option T
  next : Loc
  /-- The handles point to addresses that are in use. -/
  below : ∀ {h o p}, handles h = some o → o.self = some p → p < next
  /-- No other agent refers to the model. -/
  exclusive : Loc → Prop
  /-- No reference was given up yet, and no handle has changed. -/
  settled : Prop

namespace View

/-- The pointer of an object. -/
def self (view : View ι T A) (h : ι) : Option Loc := (view.handles h).bind Handle.self

/-- What is seen of the object at a place, as in a whole state. -/
def observe (view : View ι T A) (h : ι) : Option (Option T) :=
  (view.handles h).map fun o => o.self.bind view.value

/-- At most one handle points to the model. -/
def Sole (view : View ι T A) (p : Loc) : Prop :=
  ∀ h k, view.self h = some p → view.self k = some p → h = k

/-- An object may have these members. -/
def Fits (view : View ι T A) (o : Option (Handle A)) : Prop :=
  ∀ o' p, o = some o' → o'.self = some p → p < view.next

/-- The view with another object at a place, which points to an address in use. -/
def setHandle [DecidableEq ι] (view : View ι T A) (h : ι) (o : Option (Handle A))
    (fits : view.Fits o) : View ι T A :=
  { view with
    handles := Function.update view.handles h o
    below := by
      intro k o' p found points
      by_cases same : k = h
      · rw [same, Function.update_self] at found
        exact fits o' p found points
      · rw [Function.update_of_ne same] at found
        exact view.below found points
    settled := False }

/-- The view with another value at an address. -/
def write (view : View ι T A) (p : Loc) (v : T) : View ι T A :=
  { view with value := Function.update view.value p (some v) }

/-- The agent learns that nobody else refers to a model. -/
def claim (view : View ι T A) (p : Loc) : View ι T A :=
  { view with exclusive := fun q => q = p ∨ view.exclusive q }

/-- The view once a reference was given up: from now on a count of one does not say that a single
handle points to the model. -/
def unsettle (view : View ι T A) : View ι T A := { view with settled := False }

/-- Memory that waits for a value, at an address that was not in use. -/
def allocate (view : View ι T A) (p : Loc) (later : view.next ≤ p) : View ι T A :=
  { view.claim p with
    value := Function.update view.value p none
    next := p + 1
    below := fun found points => Nat.lt_succ_of_lt ((view.below found points).trans_le later) }

section Observe

variable {view : View ι T A} {h : ι} {o : Handle A} {p : Loc}

theorem observe_of_handles (found : view.handles h = some o) :
    view.observe h = some (o.self.bind view.value) := by
  rw [observe, found]
  rfl

theorem self_of_handles (found : view.handles h = some o) : view.self h = o.self := by
  rw [self, found]
  rfl

theorem self_lt (points : view.self h = some p) : p < view.next := by
  obtain ⟨o, found, points⟩ := Option.bind_eq_some_iff.mp points
  exact view.below found points

/-- The members of a handle may be given to another one. -/
theorem fits_of_handles (found : view.handles h = some o) (alloc : A) :
    view.Fits (some ⟨alloc, o.self⟩) := by
  rintro _ p ⟨⟩ points
  exact view.below found points

theorem fits_null (view : View ι T A) (alloc : A) : view.Fits (some ⟨alloc, none⟩) := by
  rintro _ _ ⟨⟩ ⟨⟩

theorem fits_of_lt {v : Option Loc} (used : ∀ p, v = some p → p < view.next) (alloc : A) :
    view.Fits (some ⟨alloc, v⟩) := by
  rintro _ p ⟨⟩ points
  exact used p points

theorem fits_none (view : View ι T A) : view.Fits none := nofun

/-- A null pointer needs nothing that is allocated. -/
theorem none_below (view : View ι T A) : ∀ p : Loc, none = some p → p < view.next := nofun

/-- Nobody points to new memory, and nobody sees it. -/
theorem self_ne_of_later (later : view.next ≤ p) (h : ι) : view.self h ≠ some p := by
  intro points
  exact absurd (self_lt points) (Nat.not_lt.mpr later)

/-- What an object with a value shows. -/
theorem observe_of_self {w : T} (points : view.self h = some p) (value : view.value p = some w) :
    view.observe h = some (some w) := by
  obtain ⟨o, found, points⟩ := Option.bind_eq_some_iff.mp points
  rw [observe_of_handles found, points, Option.bind_some, value]

/-- A written value is seen through the handles that point to its model. -/
theorem observe_write (view : View ι T A) (p : Loc) (v : T) (h : ι) :
    (view.write p v).observe h =
      if view.self h = some p then some (some v) else view.observe h := by
  cases found : view.handles h with
  | none =>
      have absent : view.self h = none := by
        rw [self, found]
        rfl
      rw [absent, if_neg (Option.some_ne_none p).symm, observe, observe]
      change (view.handles h).map _ = _
      rw [found]
      rfl
  | some o =>
      have still : (view.write p v).handles h = some o := found
      rw [observe_of_handles found, observe_of_handles still, self_of_handles found]
      cases o.self with
      | none => rfl
      | some q =>
          by_cases same : q = p
          · subst same
            rw [if_pos rfl]
            exact congrArg some (Function.update_self ..)
          · rw [if_neg fun equal => same (Option.some.inj equal)]
            exact congrArg some (Function.update_of_ne same ..)

/-- A write to a model that nobody points to is not seen. -/
theorem observe_write_of_unseen (unseen : ∀ h, view.self h ≠ some p) (v : T) :
    (view.write p v).observe = view.observe := by
  funext h
  rw [observe_write, if_neg (unseen h)]

/-- New memory is not seen. -/
theorem observe_allocate (later : view.next ≤ p) :
    (view.allocate p later).observe = view.observe := by
  funext h
  cases found : view.handles h with
  | none =>
      have still : (view.allocate p later).handles h = none := found
      rw [observe, observe, found, still]
      rfl
  | some o =>
      have still : (view.allocate p later).handles h = some o := found
      rw [observe_of_handles found, observe_of_handles still]
      cases points : o.self with
      | none => rfl
      | some q =>
          have different : q ≠ p := ((view.below found points).trans_le later).ne
          exact congrArg some (Function.update_of_ne different ..)

/-- A new address is known to nobody else. -/
theorem exclusive_allocate (later : view.next ≤ p) :
    (view.allocate p later).exclusive p := .inl rfl

/-- The count that was read was one, so that the model is the object's own. -/
theorem sole_of_load {count : Nat} (settled : view.settled) (positive : 0 < count)
    (sole : count = 1 → view.settled → view.Sole p) (unshared : ¬ 1 < count) :
    count = 1 ∧ view.Sole p := by
  have one : count = 1 := by omega
  exact ⟨one, sole one settled⟩

/-- A new model with a value that the agent has. -/
def made (view : View ι T A) (p : Loc) (later : view.next ≤ p) (v : T) : View ι T A :=
  (view.allocate p later).write p v

/-- A new model is not seen before an object points to it. -/
theorem observe_made (later : view.next ≤ p) (v : T) :
    (view.made p later v).observe = view.observe := by
  have unseen (h : ι) : (view.allocate p later).self h ≠ some p := self_ne_of_later later h
  rw [made, observe_write_of_unseen unseen, observe_allocate]

@[simp] theorem value_made (later : view.next ≤ p) (v : T) :
    (view.made p later v).value p = some v :=
  Function.update_self ..

theorem fits_made (later : view.next ≤ p) (v : T) (alloc : A) :
    (view.made p later v).Fits (some ⟨alloc, some p⟩) := by
  rintro _ _ ⟨⟩ ⟨⟩
  exact Nat.lt_succ_self p

variable [DecidableEq ι]

/-- A change of an object is seen there and nowhere else. -/
theorem observe_setHandle (view : View ι T A) (h : ι) (o : Option (Handle A))
    (fits : view.Fits o) :
    (view.setHandle h o fits).observe =
      Function.update view.observe h (o.map fun o => o.self.bind view.value) := by
  funext k
  by_cases same : k = h
  · subst same
    rw [Function.update_self, observe]
    change (Function.update view.handles k o k).map _ = _
    rw [Function.update_self]
    rfl
  · rw [Function.update_of_ne same, observe]
    change (Function.update view.handles h o k).map _ = _
    rw [Function.update_of_ne same]
    rfl

/-- Another allocator is not seen. -/
theorem observe_setAlloc (found : view.handles h = some o) (alloc : A) :
    (view.setHandle h (some { o with alloc }) (fits_of_handles found alloc)).observe =
      view.observe := by
  rw [observe_setHandle]
  exact Function.update_eq_self_iff.mpr (observe_of_handles found).symm

@[simp] theorem handles_setHandle_self (view : View ι T A) (h : ι) (o : Option (Handle A))
    (fits : view.Fits o) : (view.setHandle h o fits).handles h = o :=
  Function.update_self ..

theorem handles_setHandle_of_ne {k : ι} (different : k ≠ h) (view : View ι T A)
    (o : Option (Handle A)) (fits : view.Fits o) :
    (view.setHandle h o fits).handles k = view.handles k :=
  Function.update_of_ne different ..

theorem self_setHandle_of_ne {k : ι} (different : k ≠ h) (view : View ι T A)
    (o : Option (Handle A)) (fits : view.Fits o) :
    (view.setHandle h o fits).self k = view.self k := by
  rw [self, handles_setHandle_of_ne different, self]

@[simp] theorem self_setHandle_self (view : View ι T A) (h : ι) (o : Option (Handle A))
    (fits : view.Fits o) : (view.setHandle h o fits).self h = o.bind Handle.self := by
  rw [self, handles_setHandle_self]

end Observe

end View

section Demands

variable [DecidableEq ι]

/-- What a command shows to its agent. Only a move assignment writes to a model that may not
be exclusive; it is known that the model has no other reference then. -/
def sight (moving : Bool) : Demand (@Answer ι T A) (View ι T A)
  | .handle h, view, condition => ∀ o, view.handles h = some o → condition o view
  | .setSelf h self, view, condition => ∀ o, view.handles h = some o →
      ∃ fits, condition () (view.setHandle h (some { o with self }) fits)
  | .setAlloc h alloc, view, condition => ∀ o, ∀ found : view.handles h = some o,
      condition () (view.setHandle h (some { o with alloc }) (View.fits_of_handles found alloc))
  | .emplace h o, view, condition => ∃ fits, condition () (view.setHandle h (some o) fits)
  | .remove h, view, condition => condition () (view.setHandle h none view.fits_none)
  | .load p, view, condition =>
      ∀ count : Nat, 0 < count → (count = 1 → view.settled → view.Sole p) →
        condition count (if count = 1 then view.claim p else view)
  | .fetchAdd _, view, condition => ∀ count : Nat, condition count view
  | .fetchSub _, view, condition => ∀ count : Nat, condition count view.unsettle
  | .value p, view, condition => ∀ v, view.value p = some v → condition v view
  | .setValue p v, view, condition => (view.exclusive p ∨ moving) ∧
      ((moving → view.settled → view.Sole p) → condition () (view.write p v))
  | .allocate _, view, condition => ∀ p, ∀ later : view.next ≤ p,
      condition p (view.allocate p later)
  | .deallocate _ _, view, condition => condition () view
  | .assert holds, view, condition => holds = true → condition () view

/-- Weaker conditions ask for less. -/
theorem sight_monotone (moving : Bool) : (sight moving : Demand (@Answer ι T A) _).Monotone := by
  intro c view condition condition' weaker asked
  cases c with
  | handle h => exact fun o found => weaker _ _ (asked o found)
  | setSelf h self =>
      intro o found
      obtain ⟨fits, holds⟩ := asked o found
      exact ⟨fits, weaker _ _ holds⟩
  | setAlloc h alloc => exact fun o found => weaker _ _ (asked o found)
  | emplace h o =>
      obtain ⟨fits, holds⟩ := asked
      exact ⟨fits, weaker _ _ holds⟩
  | remove h => exact weaker _ _ asked
  | load p => exact fun count positive sole => weaker _ _ (asked count positive sole)
  | fetchAdd p | fetchSub p => exact fun count => weaker _ _ (asked count)
  | value p => exact fun v found => weaker _ _ (asked v found)
  | setValue p v => exact ⟨asked.1, fun sole => weaker _ _ (asked.2 sole)⟩
  | allocate alloc => exact fun p later => weaker _ _ (asked p later)
  | deallocate alloc p => exact weaker _ _ asked
  | assert holds => exact fun established => weaker _ _ (asked established)

end Demands

variable [DecidableEq ι] {moving : Bool} {view : View ι T A} {thrown : View ι T A → Prop}

section Commands

variable {h : ι} {o : Handle A} {p : Loc} {v : T}

theorem sight_handle {normal : Handle A → View ι T A → Prop} :
    ensures (sight moving) (handle h) normal thrown view ↔
      ∀ o, view.handles h = some o → normal o view := Iff.rfl

theorem sight_handle_found {normal : Handle A → View ι T A → Prop}
    (found : view.handles h = some o) :
    ensures (sight moving) (handle h) normal thrown view ↔ normal o view := by
  rw [sight_handle, found]
  exact ⟨fun holds => holds o rfl, fun holds _ same => Option.some.inj same ▸ holds⟩

/-- A count of one shows that no other agent refers to the model. -/
theorem sight_load {normal : Nat → View ι T A → Prop} :
    ensures (sight moving) (load p) normal thrown view ↔
      ∀ count, 0 < count → (count = 1 → view.settled → view.Sole p) →
        normal count (if count = 1 then view.claim p else view) := Iff.rfl

theorem sight_fetchAdd {normal : Nat → View ι T A → Prop} :
    ensures (sight moving) (fetchAdd p) normal thrown view ↔ ∀ count, normal count view := Iff.rfl

/-- A reference is dropped. -/
theorem sight_fetchSub {normal : Nat → View ι T A → Prop} :
    ensures (sight moving) (fetchSub p) normal thrown view ↔
      ∀ count, normal count view.unsettle := Iff.rfl

theorem sight_value {normal : T → View ι T A → Prop} :
    ensures (sight moving) (value p) normal thrown view ↔
      ∀ v, view.value p = some v → normal v view := Iff.rfl

theorem sight_allocate {normal : Loc → View ι T A → Prop} (alloc : A) :
    ensures (sight moving) (allocate alloc) normal thrown view ↔
      ∀ p, ∀ later : view.next ≤ p, normal p (view.allocate p later) := Iff.rfl

theorem sight_pointee {normal : Loc → View ι T A → Prop} :
    ensures (sight moving) (pointee o) normal thrown view ↔
      ∀ p, o.self = some p → normal p view := by
  rw [pointee]
  split
  · rename_i p points
    rw [points]
    exact ⟨fun holds _ same => Option.some.inj same ▸ holds, fun holds => holds p rfl⟩
  · rename_i null
    rw [null]
    exact iff_of_true (fun impossible => by cases impossible) fun _ impossible => by cases impossible

variable {normal : Unit → View ι T A → Prop}

theorem sight_assert {holds : Bool} :
    ensures (sight moving) (assert holds) normal thrown view ↔ (holds = true → normal () view) :=
  Iff.rfl

theorem sight_setSelf_iff {self : Option Loc} :
    ensures (sight moving) (setSelf h self) normal thrown view ↔
      ∀ o, view.handles h = some o →
        ∃ fits, normal () (view.setHandle h (some { o with self }) fits) := Iff.rfl

theorem sight_setAlloc_iff {alloc : A} :
    ensures (sight moving) (setAlloc h alloc) normal thrown view ↔
      ∀ o, ∀ found : view.handles h = some o, normal ()
        (view.setHandle h (some { o with alloc }) (View.fits_of_handles found alloc)) := Iff.rfl

theorem sight_setSelf (found : view.handles h = some o) {self : Option Loc}
    (fits : view.Fits (some { o with self })) :
    ensures (sight moving) (setSelf h self) normal thrown view ↔
      normal () (view.setHandle h (some { o with self }) fits) := by
  rw [sight_setSelf_iff]
  constructor
  · intro asked
    obtain ⟨_, reached⟩ := asked o found
    exact reached
  · intro holds o' found'
    obtain rfl := Option.some.inj (found.symm.trans found')
    exact ⟨fits, holds⟩

theorem sight_setAlloc (found : view.handles h = some o) (alloc : A) :
    ensures (sight moving) (setAlloc h alloc) normal thrown view ↔
      normal ()
        (view.setHandle h (some { o with alloc }) (View.fits_of_handles found alloc)) := by
  rw [sight_setAlloc_iff]
  constructor
  · exact fun holds => holds o found
  · intro holds o' found'
    obtain rfl := Option.some.inj (found.symm.trans found')
    exact holds

theorem sight_emplace (fits : view.Fits (some o)) :
    ensures (sight moving) (emplace h o) normal thrown view ↔
      normal () (view.setHandle h (some o) fits) :=
  exists_prop_of_true fits

/-- The agent writes to a model that nobody else refers to. -/
theorem sight_setValue (exclusive : view.exclusive p) (v : T)
    (holds : normal () (view.write p v)) :
    ensures (sight moving) (setValue p v) normal thrown view :=
  ⟨.inl exclusive, fun _ => holds⟩

end Commands

section Construction

/-- A model is built in new memory, or the memory is given back. -/
theorem sight_makeModel {build : Code ι T A T} {normal : Loc → View ι T A → Prop} (alloc : A)
    (onThrow : thrown view)
    (builds : ∀ p, ∀ later : view.next ≤ p, ensures (sight moving) build
      (fun v view' => view'.exclusive p ∧ normal p (view'.write p v)) thrown
      (view.allocate p later)) :
    ensures (sight moving) (makeModel alloc build) normal thrown view := by
  rw [makeModel, ensures_bind, ensures_mayThrow]
  refine ⟨onThrow, ?_⟩
  rw [ensures_bind, sight_allocate]
  intro p later
  rw [ensures_bind, ensures_onThrow]
  refine ensures_mono (sight_monotone moving) (fun v view' built => ?_)
    (fun view' interrupted => ?_) (builds p later)
  · rw [ensures_bind]
    exact sight_setValue built.1 v built.2
  · exact interrupted

/-- A model is made from a value, or an address is used up. -/
theorem sight_makeModel_construct {normal : Loc → View ι T A → Prop} (alloc : A) (u : T)
    (onThrow : thrown view) (onSkip : ∀ p later, thrown (view.allocate p later))
    (onNormal : ∀ p later, normal p (view.made p later u)) :
    ensures (sight moving) (makeModel alloc (construct u)) normal thrown view := by
  apply sight_makeModel alloc onThrow
  intro p later
  rw [construct, ensures_bind, ensures_mayThrow, ensures_pure]
  exact ⟨onSkip p later, View.exclusive_allocate later, onNormal p later⟩

/-- A new model with a copy of a value that is seen. -/
theorem sight_makeModel_constructCopy {normal : Loc → View ι T A → Prop} (alloc : A) {q : Loc}
    (used : q < view.next) (onThrow : thrown view)
    (onSkip : ∀ p later, thrown (view.allocate p later))
    (onNormal : ∀ p later v, view.value q = some v → normal p (view.made p later v)) :
    ensures (sight moving) (makeModel alloc (constructCopy q)) normal thrown view := by
  apply sight_makeModel alloc onThrow
  intro p later
  rw [constructCopy, ensures_bind, sight_value]
  intro v found
  have different : q ≠ p := (used.trans_le later).ne
  have seen : view.value q = some v := (Function.update_of_ne different ..).symm.trans found
  rw [ensures_bind, ensures_mayThrow, ensures_pure]
  exact ⟨onSkip p later, View.exclusive_allocate later, onNormal p later v seen⟩

end Construction

end StdBitcoin.CopyOnWrite
