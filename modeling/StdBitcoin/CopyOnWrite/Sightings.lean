import StdBitcoin.CopyOnWrite.Counting
import StdBitcoin.CopyOnWrite.Views

/-!
# Commands and what is seen of them

What a command does to the part of the state that its agent holds is what the agent sees of
it. The values of the other models stay as they are, unless the command touches them.
-/

namespace StdBitcoin.CopyOnWrite

open Effects Prog

variable {ι T A : Type}

/-- Where the count is one, the references are those of one handle. -/
def Backed (g : State ι T A) : Prop :=
  ∀ p k, g.models p = some k → k.count = 1 →
    ∀ h h', g.self h = some p → g.self h' = some p → h = h'

/-- In a consistent state every pointer is backed by a model. -/
theorem Consistent.backed {traits : AllocatorTraits A} {g : State ι T A}
    (inv : Consistent traits [] g) : Backed g :=
  fun _ _ live one _ _ points also => inv.sole live one also points

/-- What an agent sees is what its part of the state stands for. -/
structure Sighted (g : State ι T A) (view : View ι T A) (s : State ι T A) : Prop where
  handles : view.handles = g.handles
  next : view.next ≤ s.next
  value : ∀ {p k}, g.models p = some k → view.value p = s.valueAt p
  settled : view.settled → Backed g

namespace Sighted

variable {g : State ι T A} {view : View ι T A} {s s' : State ι T A}

/-- The view has the pointers of the state. -/
theorem self (sighted : Sighted g view s) (h : ι) : view.self h = g.self h := by
  rw [View.self, sighted.handles, State.self]

/-- Nothing changes for an agent whose models keep their values. -/
theorem frame (sighted : Sighted g view s) (later : s.next ≤ s'.next)
    (same : ∀ p k, g.models p = some k → s'.valueAt p = s.valueAt p) : Sighted g view s' where
  handles := sighted.handles
  next := sighted.next.trans later
  value := fun found => (sighted.value found).trans (same _ _ found).symm
  settled := sighted.settled

/-- The models that are left have kept their values, and their references if the agent counts on
them. -/
theorem change {g' : State ι T A} (sighted : Sighted g view s) (handles : g'.handles = g.handles)
    (later : s.next ≤ s'.next)
    (kept : ∀ p k', g'.models p = some k' → ∃ k, g.models p = some k ∧
      s'.valueAt p = s.valueAt p ∧ (view.settled → k'.count = 1 → k.count = 1)) :
    Sighted g' view s' where
  handles := sighted.handles.trans handles.symm
  next := sighted.next.trans later
  value := by
    intro p k' found
    obtain ⟨k, held, same, -⟩ := kept p k' found
    rw [same, sighted.value held]
  settled := by
    intro settled p k' found one h h' points points'
    obtain ⟨k, held, -, single⟩ := kept p k' found
    rw [State.self, handles] at points points'
    exact sighted.settled settled p k held (single settled one) h h' points points'

/-- A written value is seen. -/
theorem write {p : Loc} {k m : Model T A} (sighted : Sighted g view s)
    (held : g.models p = some k) (v : T) :
    Sighted (g.setModel p (some { k with value := some v })) (view.write p v)
      (s.setModel p (some { m with value := some v })) where
  handles := sighted.handles
  next := sighted.next
  value := by
    intro q j found
    by_cases here : q = p
    · subst here
      rw [State.valueAt_setModel_self]
      exact Function.update_self ..
    · rw [State.models_setModel_of_ne here] at found
      rw [State.valueAt_setModel_of_ne here, ← sighted.value found]
      exact Function.update_of_ne here ..
  settled := by
    intro settled q j found one
    by_cases here : q = p
    · subst here
      rw [State.models_setModel_self] at found
      obtain rfl := Option.some.inj found
      exact sighted.settled settled q k held one
    · rw [State.models_setModel_of_ne here] at found
      exact sighted.settled settled q j found one

/-- New memory is seen to have no value. -/
theorem allocate (sighted : Sighted g view s) (alloc : A) :
    Sighted ((g.reserve s.next).raw alloc) (view.allocate s.next sighted.next) (s.raw alloc) where
  handles := sighted.handles
  next := le_rfl
  value := by
    intro q j found
    by_cases here : q = s.next
    · subst here
      rw [State.valueAt_of_models (State.models_raw_self s alloc)]
      exact Function.update_self ..
    · have found' : g.models q = some j := (State.models_setModel_of_ne here _).symm.trans found
      have same : (s.raw alloc).valueAt q = s.valueAt q := State.valueAt_setModel_of_ne here _
      rw [same, ← sighted.value found']
      exact Function.update_of_ne here ..
  settled := by
    intro settled q j found one h h' points points'
    by_cases here : q = s.next
    · subst here
      have used := View.self_lt ((sighted.self h).trans points)
      exact absurd sighted.next (Nat.not_le.mpr used)
    · have found' : g.models q = some j := (State.models_setModel_of_ne here _).symm.trans found
      exact sighted.settled settled q j found' one h h' points points'

end Sighted

section Rest

variable {traits : AllocatorTraits A} {g s : State ι T A}

/-- The view of an agent at rest that knows of no model to be its own. -/
def State.view (inv : Consistent traits [] g) (s : State ι T A) : View ι T A where
  handles := g.handles
  value := s.valueAt
  next := g.next
  below := by
    intro h o p found points
    obtain ⟨m, live, -⟩ := inv.pointed found points
    exact inv.lt_next live
  exclusive := fun _ => False
  settled := True

/-- A consistent state is seen as its view. -/
theorem Sighted.view (inv : Consistent traits [] g) (later : g.next ≤ s.next) :
    Sighted g (State.view inv s) s where
  handles := rfl
  next := later
  value := fun _ => rfl
  settled := fun _ => inv.backed

/-- Between operations the objects are seen to show what they do. -/
theorem Sighted.observe_eq {view : View ι T A} (sighted : Sighted g view s)
    (inv : Consistent traits [] g) (h : ι) :
    view.observe h = (g.handles h).map fun o => o.self.bind s.valueAt := by
  rw [View.observe, sighted.handles]
  cases found : g.handles h with
  | none => rfl
  | some o =>
      rw [Option.map_some, Option.map_some]
      cases points : o.self with
      | none => rfl
      | some p =>
          obtain ⟨k, held, -⟩ := inv.pointed found points
          rw [Option.bind_some, Option.bind_some, sighted.value held]

end Rest

section Frames

variable [DecidableEq ι]

/-- What a command does to the part of its agent. -/
def Framed : (c : Cmd ι T A) → State ι T A → Answer c → State ι T A → Prop
  | .handle h, g, o, g' => g' = g ∧ g.handles h = some o
  | .setSelf h self, g, _, g' =>
      ∃ o, g.handles h = some o ∧ g' = g.setHandle h (some { o with self })
  | .setAlloc h alloc, g, _, g' =>
      ∃ o, g.handles h = some o ∧ g' = g.setHandle h (some { o with alloc })
  | .emplace h o, g, _, g' => g' = g.setHandle h (some o)
  | .remove h, g, _, g' => g' = g.setHandle h none
  | .load p, g, count, g' => g' = g ∧ ∃ k, g.models p = some k ∧ k.Complete ∧
      k.count ≤ (count : Nat)
  | .fetchAdd p, g, _, g' => ∃ k, g.models p = some k ∧ k.Complete ∧
      g' = g.setModel p (some { k with count := k.count + 1 })
  | .fetchSub _, g, _, g' => g'.handles = g.handles ∧ ∀ q, g.models q = none → g'.models q = none
  | .value p, g, _, g' => g' = g ∧ ∃ k, g.models p = some k
  | .setValue p v, g, _, g' => ∃ k, g.models p = some k ∧ 0 < k.count ∧
      g' = g.setModel p (some { k with value := some v })
  | .allocate alloc, g, p, g' => g' = (g.reserve p).raw alloc
  | .deallocate _ p, g, _, g' => ∃ k, g.models p = some k ∧ ¬ k.Complete ∧ g' = g.setModel p none
  | .assert _, g, _, g' => g' = g

/-- The demands say what their commands do. -/
theorem demand_framed {traits : AllocatorTraits A} {setting : Setting ι} {c : Cmd ι T A}
    {g : State ι T A} {condition : Answer c → State ι T A → Prop}
    (asked : demand traits setting c g condition) :
    demand traits setting c g fun answer g' => condition answer g' ∧ Framed c g answer g' := by
  cases c with
  | handle h =>
      obtain ⟨o, found, holds⟩ := asked
      exact ⟨o, found, holds, rfl, found⟩
  | setSelf h self | setAlloc h alloc =>
      obtain ⟨o, found, holds⟩ := asked
      exact ⟨o, found, holds, o, found, rfl⟩
  | emplace h o => exact ⟨asked.1, asked.2.1, asked.2.2, rfl⟩
  | remove h =>
      obtain ⟨o, found, holds⟩ := asked
      exact ⟨o, found, holds, rfl⟩
  | load p =>
      obtain ⟨k, live, complete, holds⟩ := asked
      exact ⟨k, live, complete, fun count sees =>
        ⟨holds count sees, rfl, k, live, complete, setting.le_of_sees sees⟩⟩
  | fetchAdd p =>
      obtain ⟨k, live, complete, holds⟩ := asked
      exact ⟨k, live, complete, fun count sees => ⟨holds count sees, k, live, complete, rfl⟩⟩
  | fetchSub p =>
      obtain ⟨k, live, complete, holds⟩ := asked
      have absent {q : Loc} (vacant : g.models q = none) : q ≠ p := by
        rintro rfl
        rw [live] at vacant
        cases vacant
      refine ⟨k, live, complete, fun count sees => ?_⟩
      have kept := holds count sees
      split
      · rename_i last
        rw [if_pos last] at kept
        exact fun bound => ⟨kept bound, rfl, fun q vacant =>
          (State.models_setModel_of_ne (absent vacant) _).trans vacant⟩
      · rename_i several
        rw [if_neg several] at kept
        refine ⟨kept, State.handles_release .., fun q vacant => ?_⟩
        have different : some p ≠ some q := fun same => absent vacant (Option.some.inj same).symm
        exact (State.models_release_of_ne different).trans vacant
  | value p =>
      obtain ⟨k, live, complete, holds⟩ := asked
      exact ⟨k, live, complete, fun v => ⟨holds v, rfl, k, live⟩⟩
  | setValue p v =>
      obtain ⟨k, live, positive, holds⟩ := asked
      exact ⟨k, live, positive, holds, k, live, positive, rfl⟩
  | allocate alloc => exact fun p later => ⟨asked p later, rfl⟩
  | deallocate alloc p =>
      obtain ⟨k, live, abandoned, agrees, holds⟩ := asked
      exact ⟨k, live, abandoned, agrees, holds, k, live, abandoned.unfinished, rfl⟩
  | assert holds => exact ⟨asked.1, asked.2, rfl⟩

/-- The command writes to a model, or has it come or go. -/
def Cmd.Touches (s : State ι T A) (p : Loc) : Cmd ι T A → Prop
  | .setValue q _ | .deallocate _ q => q = p
  | .allocate _ => s.next = p
  | _ => False

variable {traits : AllocatorTraits A} {c : Cmd ι T A} {s s' : State ι T A} {answer : Answer c}

theorem exec_emplace {h : ι} {o : Handle A} {answer : Answer (.emplace h o : Cmd ι T A)}
    (outcome : exec traits (.emplace h o) s = some (answer, s')) :
    s' = s.setHandle h (some o) := by
  rw [exec] at outcome
  split at outcome
  · exact (Prod.mk.inj (Option.some.inj outcome)).2.symm
  · cases outcome

theorem exec_deallocate {alloc : A} {p : Loc} {answer : Answer (.deallocate alloc p : Cmd ι T A)}
    (outcome : exec traits (.deallocate alloc p) s = some (answer, s')) :
    s' = s.setModel p none := by
  rw [exec] at outcome
  split at outcome
  · cases outcome
  · obtain ⟨-, same⟩ := Option.ite_none_right_eq_some.mp outcome
    exact (Prod.mk.inj (Option.some.inj same)).2.symm

/-- A command that does not touch a model leaves its value. -/
theorem valueAt_exec {p : Loc} (outcome : exec traits c s = some (answer, s'))
    (untouched : ¬ c.Touches s p) : s'.valueAt p = s.valueAt p := by
  cases c with
  | handle h | setSelf h self | setAlloc h alloc | remove h | load q | value q =>
      obtain ⟨_, -, same⟩ := Option.map_eq_some_iff.mp outcome
      obtain ⟨-, rfl⟩ := Prod.mk.inj same
      rfl
  | emplace h o =>
      obtain rfl := exec_emplace outcome
      rfl
  | fetchAdd q | fetchSub q =>
      obtain ⟨m, live, same⟩ := Option.map_eq_some_iff.mp outcome
      obtain ⟨-, rfl⟩ := Prod.mk.inj same
      by_cases here : p = q
      · subst here
        rw [State.valueAt_setModel_self, State.valueAt_of_models live]
        rfl
      · exact State.valueAt_setModel_of_ne here _
  | setValue q v =>
      obtain ⟨m, -, same⟩ := Option.map_eq_some_iff.mp outcome
      obtain ⟨-, rfl⟩ := Prod.mk.inj same
      exact State.valueAt_setModel_of_ne (Ne.symm untouched) _
  | allocate alloc =>
      obtain ⟨-, rfl⟩ := Prod.mk.inj (Option.some.inj outcome)
      exact State.valueAt_setModel_of_ne (Ne.symm untouched) _
  | deallocate alloc q =>
      obtain rfl := exec_deallocate outcome
      exact State.valueAt_setModel_of_ne (Ne.symm untouched) _
  | assert holds =>
      obtain ⟨-, same⟩ := Option.ite_none_right_eq_some.mp outcome
      obtain ⟨-, rfl⟩ := Prod.mk.inj (Option.some.inj same)
      rfl

/-- Addresses are used in order. -/
theorem next_le_of_exec (outcome : exec traits c s = some (answer, s')) : s.next ≤ s'.next := by
  cases c with
  | handle h | setSelf h self | setAlloc h alloc | remove h | load q | value q | fetchAdd q
  | fetchSub q | setValue q v =>
      obtain ⟨_, -, same⟩ := Option.map_eq_some_iff.mp outcome
      obtain ⟨-, rfl⟩ := Prod.mk.inj same
      exact le_rfl
  | emplace h o =>
      obtain rfl := exec_emplace outcome
      exact le_rfl
  | allocate alloc =>
      obtain ⟨-, rfl⟩ := Prod.mk.inj (Option.some.inj outcome)
      exact Nat.le_succ _
  | deallocate alloc q =>
      obtain rfl := exec_deallocate outcome
      exact le_rfl
  | assert holds =>
      obtain ⟨-, same⟩ := Option.ite_none_right_eq_some.mp outcome
      obtain ⟨-, rfl⟩ := Prod.mk.inj (Option.some.inj same)
      exact le_rfl

/-- The models that an agent learns to have for itself. -/
def Cmd.Claims (p : Loc) : (c : Cmd ι T A) → Answer c → Prop
  | .load q, count => q = p ∧ @Eq Nat count 1
  | .allocate _, q => q = p
  | _, _ => False

variable {g g' : State ι T A} {view : View ι T A}

/-- Other members of a handle are seen as they are. -/
theorem Sighted.setHandle (sighted : Sighted g view s) (h : ι) (o o' : Option (Handle A))
    (fits : view.Fits o) :
    Sighted (g.setHandle h o) (view.setHandle h o fits) (s.setHandle h o') where
  handles := by
    change Function.update view.handles h o = Function.update g.handles h o
    rw [sighted.handles]
  next := sighted.next
  value := sighted.value
  settled := False.elim

omit [DecidableEq ι] in
/-- An agent that has settled and whose part counts one handle sees no second one. -/
theorem Sighted.sole (sighted : Sighted g view s) (settled : view.settled) {p : Loc}
    {k : Model T A} (held : g.models p = some k) (single : k.count = 1) : view.Sole p := by
  intro h h' points points'
  rw [sighted.self] at points points'
  exact sighted.settled settled p k held single h h' points points'

/-- What a command does to the part of its agent is what the agent sees. -/
theorem Sighted.exec {moving : Bool} {r : Answer c → View ι T A → Prop}
    (sighted : Sighted g view s)
    (shares : ∀ p k, g.models p = some k → ∃ m, s.models p = some m ∧ k.count ≤ m.count)
    (outcome : CopyOnWrite.exec traits c s = some (answer, s')) (framed : Framed c g answer g')
    (alone : ∀ p v, c = .setValue p v → moving → (s.models p).map Model.count = some 1)
    (asked : sight moving c view r) :
    ∃ view', r answer view' ∧ Sighted g' view' s' ∧
      ∀ p, view'.exclusive p → view.exclusive p ∨ c.Claims p answer := by
  have keeps : ∀ p, view.exclusive p → view.exclusive p ∨ c.Claims p answer := fun _ => .inl
  have later := next_le_of_exec outcome
  cases c with
  | handle h =>
      obtain ⟨rfl, found⟩ := framed
      obtain ⟨o, -, same⟩ := Option.map_eq_some_iff.mp outcome
      obtain ⟨rfl, rfl⟩ := Prod.mk.inj same
      exact ⟨view, asked o (sighted.handles ▸ found), sighted, keeps⟩
  | setSelf h self =>
      obtain ⟨o, found, rfl⟩ := framed
      obtain ⟨o', -, same⟩ := Option.map_eq_some_iff.mp outcome
      obtain ⟨-, rfl⟩ := Prod.mk.inj same
      obtain ⟨fits, holds⟩ := asked o (sighted.handles ▸ found)
      exact ⟨_, holds, sighted.setHandle h _ _ fits, keeps⟩
  | setAlloc h alloc =>
      obtain ⟨o, found, rfl⟩ := framed
      obtain ⟨o', -, same⟩ := Option.map_eq_some_iff.mp outcome
      obtain ⟨-, rfl⟩ := Prod.mk.inj same
      exact ⟨_, asked o (sighted.handles ▸ found), sighted.setHandle h _ _ _, keeps⟩
  | emplace h o =>
      obtain rfl := framed
      obtain ⟨fits, holds⟩ := asked
      obtain rfl := exec_emplace outcome
      exact ⟨_, holds, sighted.setHandle h _ _ fits, keeps⟩
  | remove h =>
      obtain rfl := framed
      obtain ⟨o', -, same⟩ := Option.map_eq_some_iff.mp outcome
      obtain ⟨-, rfl⟩ := Prod.mk.inj same
      exact ⟨_, asked, sighted.setHandle h _ _ _, keeps⟩
  | load p =>
      obtain ⟨rfl, k, held, complete, bound⟩ := framed
      obtain ⟨m, live, same⟩ := Option.map_eq_some_iff.mp outcome
      obtain ⟨rfl, rfl⟩ := Prod.mk.inj same
      have positive : 0 < m.count := complete.1.trans_le bound
      have sole : m.count = 1 → view.settled → view.Sole p := by
        intro one settled
        have single : k.count = 1 := le_antisymm (one ▸ bound) complete.1
        exact sighted.sole settled held single
      refine ⟨_, asked m.count positive sole, ?_, fun q mine => ?_⟩
      · split
        · exact ⟨sighted.handles, sighted.next, sighted.value, sighted.settled⟩
        · exact sighted
      · split at mine
        · rename_i one
          exact mine.symm.imp_right fun same => ⟨same.symm, one⟩
        · exact .inl mine
  | fetchAdd p =>
      obtain ⟨k, held, complete, rfl⟩ := framed
      have same (q : Loc) : s'.valueAt q = s.valueAt q := valueAt_exec outcome id
      refine ⟨view, asked _, sighted.change rfl later fun q j found => ?_, keeps⟩
      by_cases here : q = p
      · subst here
        rw [State.models_setModel_self] at found
        obtain rfl := Option.some.inj found
        have several : ¬ k.count + 1 = 1 := Nat.succ_ne_succ_iff.mpr complete.1.ne'
        exact ⟨k, held, same q, fun _ one => absurd one several⟩
      · rw [State.models_setModel_of_ne here] at found
        exact ⟨j, found, same q, fun _ => id⟩
  | fetchSub p =>
      obtain ⟨handles, absent⟩ := framed
      have same (q : Loc) : s'.valueAt q = s.valueAt q := valueAt_exec outcome id
      have unsettled : Sighted g view.unsettle s :=
        ⟨sighted.handles, sighted.next, sighted.value, False.elim⟩
      refine ⟨_, asked _, unsettled.change handles later fun q j found => ?_, keeps⟩
      obtain ⟨k, held⟩ : ∃ k, g.models q = some k := by
        apply Option.ne_none_iff_exists'.mp
        intro vacant
        rw [absent q vacant] at found
        cases found
      exact ⟨k, held, same q, False.elim⟩
  | value p =>
      obtain ⟨rfl, k, held⟩ := framed
      obtain ⟨v, found, same⟩ := Option.map_eq_some_iff.mp outcome
      obtain ⟨rfl, rfl⟩ := Prod.mk.inj same
      exact ⟨view, asked v ((sighted.value held).trans found), sighted, keeps⟩
  | setValue p v =>
      obtain ⟨k, held, positive, rfl⟩ := framed
      obtain ⟨m, live, same⟩ := Option.map_eq_some_iff.mp outcome
      obtain ⟨-, rfl⟩ := Prod.mk.inj same
      refine ⟨_, asked.2 fun moves settled => ?_, sighted.write held v, keeps⟩
      obtain ⟨m', live', bound⟩ := shares p k held
      obtain rfl := Option.some.inj (live.symm.trans live')
      have one := alone p v rfl moves
      rw [live] at one
      have single : k.count = 1 := le_antisymm (Option.some.inj one ▸ bound) positive
      exact sighted.sole settled held single
  | allocate alloc =>
      obtain rfl := framed
      obtain ⟨rfl, rfl⟩ := Prod.mk.inj (Option.some.inj outcome)
      refine ⟨_, asked s.next sighted.next, sighted.allocate alloc, fun q mine => ?_⟩
      exact mine.symm.imp_right Eq.symm
  | deallocate alloc p =>
      obtain ⟨k, held, -, rfl⟩ := framed
      refine ⟨view, asked, sighted.change rfl later fun q j found => ?_, keeps⟩
      have other : p ≠ q := by
        rintro rfl
        rw [State.models_setModel_self] at found
        cases found
      rw [State.models_setModel_of_ne other.symm] at found
      exact ⟨j, found, valueAt_exec outcome other, fun _ => id⟩
  | assert holds =>
      obtain rfl := framed
      obtain ⟨established, same⟩ := Option.ite_none_right_eq_some.mp outcome
      obtain ⟨-, rfl⟩ := Prod.mk.inj (Option.some.inj same)
      exact ⟨view, asked established, sighted, keeps⟩

end Frames

end StdBitcoin.CopyOnWrite
