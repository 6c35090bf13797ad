import StdBitcoin.CopyOnWrite.Contracts

/-!
# Reference counts over runs

A record is kept of the models whose memory is given back. After any run of operations,
whether they return or throw, the counts are those of the handles, and the record has
every model once that is no longer alive.
-/

namespace StdBitcoin.CopyOnWrite

open Effects Prog

variable {ι T A : Type}

/-- The addresses that were given back, each with the state at that moment. -/
abbrev Record (ι T A : Type) := List (Loc × State ι T A)

/-- A command adds to the record what it gives back. -/
def Cmd.record : Cmd ι T A → State ι T A → Record ι T A → Record ι T A
  | .deallocate _ p, s, record => (p, s) :: record
  | _, _, record => record

/-- The outcome of a command, with the record of what was given back. -/
def execRecorded [DecidableEq ι] (traits : AllocatorTraits A) (c : Cmd ι T A)
    (x : State ι T A × Record ι T A) : Option (Answer c × State ι T A × Record ι T A) :=
  (exec traits c x.1).map fun outcome => (outcome.1, outcome.2, c.record x.1 x.2)

/-- The record has exactly the addresses that were used and have no model, each once. -/
structure Recorded (s : State ι T A) (record : Record ι T A) : Prop where
  once : (record.map Prod.fst).Nodup
  mem_iff : ∀ p, p ∈ record.map Prod.fst ↔ p < s.next ∧ s.models p = none
  fresh : ∀ p, s.next ≤ p → s.models p = none

namespace Recorded

variable {s s' : State ι T A} {record : Record ι T A} {p : Loc} {m : Model T A}

theorem empty : Recorded (State.empty : State ι T A) [] where
  once := List.nodup_nil
  mem_iff := fun p => iff_of_false List.not_mem_nil fun used => Nat.not_lt_zero p used.1
  fresh := fun _ _ => rfl

/-- The models at the same addresses, with other contents. -/
theorem congr (recorded : Recorded s record) (next : s'.next = s.next)
    (models : ∀ p, s'.models p = none ↔ s.models p = none) : Recorded s' record where
  once := recorded.once
  mem_iff := fun p => by rw [recorded.mem_iff, next, models]
  fresh := fun p unused => (models p).mpr (recorded.fresh p (next ▸ unused))

/-- A change of a live model leaves the record true. -/
theorem setModel (recorded : Recorded s record) (live : s.models p = some m) (m' : Model T A) :
    Recorded (s.setModel p (some m')) record := by
  have next : (s.setModel p (some m')).next = s.next := rfl
  apply recorded.congr next
  intro q
  by_cases same : q = p
  · subst same
    rw [State.models_setModel_self, live]
    exact iff_of_false (Option.some_ne_none m') (Option.some_ne_none m)
  · rw [State.models_setModel_of_ne same]

theorem raw (recorded : Recorded s record) (alloc : A) : Recorded (s.raw alloc) record where
  once := recorded.once
  mem_iff := by
    intro p
    rw [recorded.mem_iff]
    by_cases same : p = s.next
    · subst same
      rw [State.models_raw_self]
      exact iff_of_false (fun used => Nat.lt_irrefl _ used.1) fun used => by cases used.2
    · have models : (s.raw alloc).models p = s.models p := State.models_setModel_of_ne same _
      rw [models]
      apply and_congr_left
      intro _
      exact ⟨Nat.lt_succ_of_lt, fun less => lt_of_le_of_ne (Nat.le_of_lt_succ less) same⟩
  fresh := by
    intro p unused
    have models : (s.raw alloc).models p = s.models p :=
      State.models_setModel_of_ne (Nat.lt_of_succ_le unused).ne' _
    rw [models]
    exact recorded.fresh p (Nat.le_of_succ_le unused)

/-- Memory that is given back was live and enters the record once. -/
theorem giveBack (recorded : Recorded s record) (live : s.models p = some m) :
    Recorded (s.setModel p none) ((p, s) :: record) where
  once := by
    rw [List.map_cons, List.nodup_cons, recorded.mem_iff, live]
    exact ⟨fun dead => Option.some_ne_none m dead.2, recorded.once⟩
  mem_iff := by
    intro q
    rw [List.map_cons, List.mem_cons, recorded.mem_iff]
    by_cases same : q = p
    · subst same
      have used : q < s.next := by
        by_contra unused
        rw [recorded.fresh q (Nat.le_of_not_lt unused)] at live
        cases live
      exact iff_of_true (.inl rfl) ⟨used, State.models_setModel_self ..⟩
    · rw [State.models_setModel_of_ne same, or_iff_right same]
      rfl
  fresh := by
    intro q unused
    by_cases same : q = p
    · exact same ▸ State.models_setModel_self ..
    · rw [State.models_setModel_of_ne same]
      exact recorded.fresh q unused

/-- Every command keeps the record. -/
theorem exec [DecidableEq ι] {traits : AllocatorTraits A} {c : Cmd ι T A} {answer : Answer c}
    (recorded : Recorded s record) (outcome : CopyOnWrite.exec traits c s = some (answer, s')) :
    Recorded s' (c.record s record) := by
  cases c with
  | handle h | setSelf h self | setAlloc h alloc | remove h =>
      obtain ⟨o, found, same⟩ := Option.map_eq_some_iff.mp outcome
      obtain ⟨-, rfl⟩ := Prod.mk.inj same
      exact recorded.congr rfl fun _ => Iff.rfl
  | emplace h o =>
      rw [CopyOnWrite.exec] at outcome
      split at outcome
      · obtain ⟨-, rfl⟩ := Prod.mk.inj (Option.some.inj outcome)
        exact recorded.congr rfl fun _ => Iff.rfl
      · cases outcome
  | load p | value p =>
      obtain ⟨_, found, same⟩ := Option.map_eq_some_iff.mp outcome
      obtain ⟨-, rfl⟩ := Prod.mk.inj same
      exact recorded
  | fetchAdd p | fetchSub p | setValue p v =>
      obtain ⟨m, live, same⟩ := Option.map_eq_some_iff.mp outcome
      obtain ⟨-, rfl⟩ := Prod.mk.inj same
      exact recorded.setModel live _
  | allocate alloc =>
      obtain ⟨-, rfl⟩ := Prod.mk.inj (Option.some.inj outcome)
      exact recorded.raw alloc
  | deallocate alloc p =>
      rw [CopyOnWrite.exec] at outcome
      split at outcome
      · cases outcome
      · rename_i m live
        obtain ⟨-, same⟩ := Option.ite_none_right_eq_some.mp outcome
        obtain ⟨-, rfl⟩ := Prod.mk.inj (Option.some.inj same)
        exact recorded.giveBack live
  | assert holds =>
      obtain ⟨-, same⟩ := Option.ite_none_right_eq_some.mp outcome
      obtain ⟨-, rfl⟩ := Prod.mk.inj (Option.some.inj same)
      exact recorded

end Recorded

/-- What was given back had no references left. -/
def Spent (record : Record ι T A) : Prop :=
  ∀ p s, (p, s) ∈ record → ∃ m, s.models p = some m ∧ Abandoned s p m

/-- What holds between operations. -/
structure Tidy (traits : AllocatorTraits A) (x : State ι T A × Record ι T A) : Prop where
  consistent : Consistent traits [] x.1
  recorded : Recorded x.1 x.2
  spent : Spent x.2

theorem Tidy.empty {traits : AllocatorTraits A} :
    Tidy traits ((State.empty, []) : State ι T A × Record ι T A) :=
  ⟨.empty, .empty, nofun⟩

/-- The counts are those of the handles, and what no handle refers to is gone. -/
structure Counted (traits : AllocatorTraits A) (x : State ι T A × Record ι T A) : Prop where
  counted : ∀ p m, x.1.models p = some m → 1 ≤ m.count ∧
    ∃ owners : Finset ι, (∀ h, h ∈ owners ↔ x.1.self h = some p) ∧ m.count = owners.card
  pointed : ∀ h o p, x.1.handles h = some o → o.self = some p →
    ∃ m, x.1.models p = some m ∧ traits.eq o.alloc m.alloc
  /-- No model is destroyed twice. -/
  once : (x.2.map Prod.fst).Nodup
  destroyed : ∀ p, p ∈ x.2.map Prod.fst ↔ p < x.1.next ∧ x.1.models p = none
  /-- No reference was left to a model when it was destroyed. -/
  spent : Spent x.2
  empty : (∀ h, x.1.handles h = none) → ∀ p, x.1.models p = none

/-- In a tidy state every count is the number of owners. -/
theorem Tidy.counted {traits : AllocatorTraits A} {x : State ι T A × Record ι T A}
    (tidy : Tidy traits x) : Counted traits x where
  counted := by
    intro p m live
    obtain ⟨⟨owners, owns, count⟩, positive, -⟩ := tidy.consistent.accounted live
    exact ⟨positive, owners, owns, count⟩
  pointed := fun _ _ _ found points => tidy.consistent.pointed found points
  once := tidy.recorded.once
  destroyed := tidy.recorded.mem_iff
  spent := tidy.spent
  empty := by
    intro none p
    cases live : x.1.models p with
    | none => rfl
    | some m =>
        obtain ⟨h, points⟩ := tidy.consistent.owned live
        rw [State.self, none h] at points
        cases points

section Alone

variable [DecidableEq ι] {traits : AllocatorTraits A} {values : ValueTraits T}

/-- An agent that holds the whole state gets what it demands. -/
theorem exec_of_demand {c : Cmd ι T A} {s : State ι T A} {condition : Answer c → State ι T A → Prop}
    (asked : demand traits .alone c s condition) :
    ∃ answer s', exec traits c s = some (answer, s') ∧ condition answer s' := by
  cases c with
  | handle h | setSelf h self | setAlloc h alloc | remove h =>
      obtain ⟨o, found, holds⟩ := asked
      exact ⟨_, _, by rw [exec, found]; rfl, holds⟩
  | emplace h o =>
      obtain ⟨-, vacant, holds⟩ := asked
      exact ⟨_, _, by simp only [exec, vacant], holds⟩
  | load p | fetchAdd p =>
      obtain ⟨m, live, -, holds⟩ := asked
      exact ⟨_, _, by rw [exec, live]; rfl, holds _ rfl⟩
  | fetchSub p =>
      obtain ⟨m, live, -, holds⟩ := asked
      have kept := holds _ rfl
      refine ⟨_, _, by rw [exec, live]; rfl, ?_⟩
      split at kept
      · rename_i last
        rw [last] at kept ⊢
        exact kept not_false
      · rename_i several
        rw [State.release_some live, if_neg several] at kept
        exact kept
  | value p =>
      obtain ⟨m, live, complete, holds⟩ := asked
      obtain ⟨v, constructed⟩ := Option.ne_none_iff_exists'.mp complete.2
      exact ⟨_, _, by rw [exec, State.valueAt_of_models live, constructed]; rfl, holds v⟩
  | setValue p v =>
      obtain ⟨m, live, -, holds⟩ := asked
      exact ⟨_, _, by rw [exec, live]; rfl, holds⟩
  | allocate alloc => exact ⟨_, _, rfl, asked s.next le_rfl⟩
  | deallocate alloc p =>
      obtain ⟨m, live, -, agrees, holds⟩ := asked
      exact ⟨_, _, by simp only [exec, live, agrees, if_true], holds⟩
  | assert holds => exact ⟨_, _, by simp only [exec, asked.1, if_true], asked.2⟩

/-- The state that an agent alone holds, with its record. -/
def Tracked (s : State ι T A) (x : State ι T A × Record ι T A) : Prop :=
  x.1 = s ∧ Recorded x.1 x.2 ∧ Spent x.2

/-- The commands meet what the contracts demand of them. -/
theorem realises_alone :
    Realises (execRecorded traits) (demand traits .alone : Demand (@Answer ι T A) _) Tracked := by
  intro c _ x condition tracked asked
  obtain ⟨rfl, recorded, spent⟩ := tracked
  obtain ⟨answer, s', outcome, holds⟩ := exec_of_demand asked
  have reached : execRecorded traits c x = some (answer, s', c.record x.1 x.2) := by
    rw [execRecorded, outcome, Option.map_some]
  refine ⟨answer, _, reached, s', ⟨rfl, recorded.exec outcome, ?_⟩, holds⟩
  cases c with
  | deallocate alloc p =>
      obtain ⟨m, live, abandoned, -⟩ := asked
      intro q s member
      rcases List.mem_cons.mp member with same | earlier
      · obtain ⟨rfl, rfl⟩ := Prod.mk.inj same
        exact ⟨m, live, abandoned⟩
      · exact spent q s earlier
  | _ => exact spent

/-- The operation is allowed, and returns or throws. -/
def Op.Happens (traits : AllocatorTraits A) (values : ValueTraits T) (op : Op ι T A)
    (x x' : State ι T A × Record ι T A) : Prop :=
  op.Ready traits x.1 ∧
    ∃ faults result, run (execRecorded traits) faults (op.code traits values) x = some (result, x')

variable {x x' : State ι T A × Record ι T A} {op : Op ι T A}

/-- Every operation leaves a tidy state, whether it returns or throws. -/
theorem Tidy.wp_code (values : ValueTraits T) (tidy : Tidy traits x) (ready : op.Ready traits x.1) :
    wp (execRecorded traits) (op.code traits values) (fun _ => Tidy traits) (Tidy traits) x := by
  have contract : ensures (demand traits .alone) (op.code traits values)
      (fun _ => Consistent traits []) (Consistent traits []) x.1 :=
    ensures_code values tidy.consistent ready (fun _ _ => trivial)
      fun _ => .inr fun _ _ same => same
  have tidies {y : State ι T A × Record ι T A}
      (reached : ∃ s, Tracked s y ∧ Consistent traits [] s) : Tidy traits y := by
    obtain ⟨_, ⟨rfl, recorded, spent⟩, consistent⟩ := reached
    exact ⟨consistent, recorded, spent⟩
  exact wp_mono (fun _ _ => tidies) (fun _ => tidies)
    (wp_of_ensures realises_alone ⟨rfl, tidy.recorded, tidy.spent⟩ contract)

/-- A step of a run leaves a tidy state. -/
theorem Op.Happens.tidy (tidy : Tidy traits x) (happens : op.Happens traits values x x') :
    Tidy traits x' := by
  obtain ⟨ready, faults, result, outcome⟩ := happens
  obtain ⟨value, y, same, post⟩ := run_of_wp (tidy.wp_code values ready) faults
  obtain ⟨rfl, rfl⟩ := Prod.mk.inj (Option.some.inj (outcome.symm.trans same))
  cases result with
  | none => exact post
  | some value => exact post

end Alone

/-- After any run of operations that return or throw, the counts are those of the handles,
and every allowed operation has an outcome, whatever throws. -/
theorem counted_of_run [DecidableEq ι] (traits : AllocatorTraits A) (values : ValueTraits T)
    {ops : List (Op ι T A)} {x : State ι T A × Record ι T A}
    (run : Runs (Op.Happens traits values) ops (.empty, []) x) :
    Counted traits x ∧ ∀ op : Op ι T A, op.Ready traits x.1 →
      ∀ faults, (Prog.run (execRecorded traits) faults (op.code traits values) x).isSome := by
  have tidy : Tidy traits x :=
    run.preserves (fun _ _ _ tidy happens => happens.tidy tidy) .empty
  refine ⟨tidy.counted, fun op ready faults => ?_⟩
  obtain ⟨result, y, outcome, -⟩ := run_of_wp (tidy.wp_code values ready) faults
  rw [outcome]
  rfl

namespace Sample

/-- The objects are modified and destroyed. -/
def finished : List (Op Nat (List Nat) Nat) := modified ++ [.destroy 0, .destroy 2, .destroy 1]

end Sample

/-- At the end of the sample run all three models have been given back. -/
theorem counted_of_run_finished :
    ∃ x, Runs (Op.Happens Sample.resourceTraits Sample.sequenceTraits) Sample.finished
      (.empty, []) x ∧
      Counted Sample.resourceTraits x ∧
      (∀ op : Op Nat (List Nat) Nat, op.Ready Sample.resourceTraits x.1 → ∀ faults,
        (Prog.run (execRecorded Sample.resourceTraits) faults
          (op.code Sample.resourceTraits Sample.sequenceTraits) x).isSome) ∧
      x.2.map Prod.fst = [2, 1, 0] := by
  have run : ∃ x, Runs (Op.Happens Sample.resourceTraits Sample.sequenceTraits) Sample.finished
      (.empty, []) x ∧ x.2.map Prod.fst = [2, 1, 0] := by
    refine ⟨_, .cons ⟨rfl, [], _, rfl⟩ (.cons ⟨⟨rfl, _, rfl⟩, [], _, rfl⟩
      (.cons ⟨rfl, [], _, rfl⟩ (.cons ⟨⟨_, rfl⟩, [], _, rfl⟩ (.cons ⟨⟨_, rfl⟩, [], _, rfl⟩
        (.cons ⟨⟨_, rfl⟩, [], _, rfl⟩ (.cons ⟨⟨_, rfl⟩, [], _, rfl⟩ (.nil _))))))), rfl⟩
  obtain ⟨x, run, given⟩ := run
  obtain ⟨counted, outcomes⟩ := counted_of_run Sample.resourceTraits Sample.sequenceTraits run
  exact ⟨x, run, counted, outcomes, given⟩

end StdBitcoin.CopyOnWrite
