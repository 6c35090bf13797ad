import StdBitcoin.CopyOnWrite.Shares
import StdBitcoin.Effects.Histories

/-!
# Interleaved operations

Agents run operations on objects of their own, access by access and in any order. The
counts are those of the handles once all operations have returned or thrown, and every
other model was destroyed once, as long as no modifier takes the last reference to the
model that it leaves: it never looks at what its decrement returns.
-/

namespace StdBitcoin.CopyOnWrite

open Effects Prog

variable {Agent ι T A : Type}

/-- A modifier is about to take the last reference to a model, which it will not destroy. -/
def Op.Orphans (op : Op ι T A) : Cmd ι T A → State ι T A × Record ι T A → Prop
  | .fetchSub p, x => op.leaves ∧ (x.1.models p).map Model.count = some 1
  | _, _ => False

instance (op : Op ι T A) (c : Cmd ι T A) (x : State ι T A × Record ι T A) :
    Decidable (op.Orphans c x) :=
  match c with
  | .fetchSub p => inferInstanceAs (Decidable (op.leaves ∧ (x.1.models p).map Model.count = some 1))
  | .handle _ | .setSelf _ _ | .setAlloc _ _ | .emplace _ _ | .remove _ | .load _ | .fetchAdd _
  | .value _ | .setValue _ _ | .allocate _ | .deallocate _ _ | .assert _ => isFalse id

section Agents

variable (owner : ι → Agent)

/-- An agent uses its own objects, and a count may be larger than its share. -/
def concurrent (agent : Agent) (op : Op ι T A) : Setting ι where
  own := fun h => owner h = agent
  sees := fun share count => share ≤ count
  le_of_sees := id
  exempt := op.leaves

/-- The operation is allowed, and all its objects belong to the agent. -/
def Op.Allowed (traits : AllocatorTraits A) (agent : Agent) (op : Op ι T A)
    (x : State ι T A × Record ι T A) : Prop :=
  op.Ready traits x.1 ∧ ∀ h ∈ op.places, owner h = agent

end Agents

variable [Fintype Agent] [DecidableEq ι] {owner : ι → Agent} {traits : AllocatorTraits A}
  {values : ValueTraits T}

/-- An operation on its own objects is judged by the part of its agent. -/
theorem ensures_allowed (values : ValueTraits T) {agent : Agent} {op : Op ι T A}
    {known : Agent → State ι T A} {x : State ι T A × Record ι T A}
    (coherent : Coherent owner known x)
    (rest : Consistent traits [] (known agent)) (allowed : op.Allowed owner traits agent x) :
    ensures (demand traits (concurrent owner agent op)) (op.code traits values)
      (fun _ => Consistent traits []) (Consistent traits []) (known agent) := by
  have ready : op.Ready traits (known agent) := by
    apply allowed.1.congr
    intro h place
    rw [coherent.handles h, allowed.2 h place]
  exact ensures_code values rest ready allowed.2 .inl

variable [DecidableEq Agent]

/-- What an agent demands of its part happens to the whole. -/
theorem exec_of_part {agent : Agent} {op : Op ι T A} {known : Agent → State ι T A} {s : State ι T A}
    {record : Record ι T A} {c : Cmd ι T A} {condition : Answer c → State ι T A → Prop}
    (coherent : Coherent owner known (s, record))
    (asked : demand traits (concurrent owner agent op) c (known agent) condition) :
    ∃ answer s', exec traits c s = some (answer, s') ∧
      (¬ op.Orphans c (s, record) → ∃ g, condition answer g ∧ ∀ record', Recorded s' record' →
        Coherent owner (Function.update known agent g) (s', record')) := by
  cases c with
  | handle h =>
      obtain ⟨o, found, holds⟩ := asked
      refine ⟨o, s, by rw [exec, coherent.found found]; rfl, fun _ => ⟨_, holds, ?_⟩⟩
      exact fun _ recorded => coherent.stay agent recorded
  | setSelf h self | setAlloc h alloc | remove h =>
      obtain ⟨o, found, holds⟩ := asked
      refine ⟨_, _, by rw [exec, coherent.found found]; rfl, fun _ => ⟨_, holds, ?_⟩⟩
      exact fun _ recorded => coherent.setHandle (coherent.own found) _ recorded
  | emplace h o =>
      obtain ⟨own, vacant, holds⟩ := asked
      have vacant : s.handles h = none := by
        rw [coherent.handles h, own]
        exact vacant
      refine ⟨(), s.setHandle h (some o), by simp only [exec, vacant], fun _ => ⟨_, holds, ?_⟩⟩
      exact fun _ recorded => coherent.setHandle own _ recorded
  | load p =>
      obtain ⟨k, live, complete, holds⟩ := asked
      obtain ⟨m, found, divided⟩ := coherent.live live
      refine ⟨_, _, by rw [exec, found]; rfl, fun _ => ⟨_, holds _ (divided.count_le live), ?_⟩⟩
      exact fun _ recorded => coherent.stay agent recorded
  | fetchAdd p =>
      obtain ⟨k, live, complete, holds⟩ := asked
      obtain ⟨m, found, divided⟩ := coherent.live live
      refine ⟨_, _, by rw [exec, found]; rfl, fun _ => ⟨_, holds _ (divided.count_le live), ?_⟩⟩
      exact fun _ recorded => coherent.setModel (divided.acquire live complete) recorded
  | fetchSub p =>
      obtain ⟨k, live, complete, holds⟩ := asked
      obtain ⟨m, found, divided⟩ := coherent.live live
      have kept := holds _ (divided.count_le live)
      refine ⟨_, _, by rw [exec, found]; rfl, fun remains => ?_⟩
      by_cases last : m.count = 1
      · have bound : ¬ op.leaves := by
          intro leaves
          exact remains ⟨leaves, by rw [found, Option.map_some, last]⟩
        have exhausted := divided.exhaust live complete last
        rw [if_pos last] at kept
        rw [last]
        exact ⟨_, last ▸ kept bound, fun _ recorded => coherent.setModel exhausted recorded⟩
      · rw [if_neg last, State.release_some live] at kept
        have released := divided.release live complete last
        exact ⟨_, kept, fun _ recorded => coherent.setModel released recorded⟩
  | value p =>
      obtain ⟨k, live, complete, holds⟩ := asked
      obtain ⟨m, found, divided⟩ := coherent.live live
      obtain ⟨v, constructed⟩ :=
        Option.ne_none_iff_exists'.mp (divided.constructed live complete.2)
      refine ⟨v, s, by rw [exec, State.valueAt_of_models found, constructed]; rfl, fun _ => ?_⟩
      exact ⟨_, holds v, fun _ recorded => coherent.stay agent recorded⟩
  | setValue p v =>
      obtain ⟨k, live, positive, holds⟩ := asked
      obtain ⟨m, found, divided⟩ := coherent.live live
      refine ⟨_, _, by rw [exec, found]; rfl, fun _ => ⟨_, holds, ?_⟩⟩
      exact fun _ recorded => coherent.setModel (divided.write live positive v) recorded
  | allocate alloc =>
      refine ⟨_, _, rfl, fun _ => ⟨_, asked s.next (coherent.next agent), ?_⟩⟩
      exact fun _ recorded => coherent.allocate agent alloc recorded
  | deallocate alloc p =>
      obtain ⟨k, live, abandoned, agrees, holds⟩ := asked
      obtain ⟨m, found, divided⟩ := coherent.live live
      rw [divided.alloc live] at agrees
      refine ⟨(), s.setModel p none, by simp only [exec, found, agrees, if_true],
        fun _ => ⟨_, holds, ?_⟩⟩
      exact fun _ recorded => coherent.setModel (divided.destroy live abandoned.unfinished) recorded
  | assert holds =>
      refine ⟨(), s, by simp only [exec, asked.1, if_true], fun _ => ⟨_, asked.2, ?_⟩⟩
      exact fun _ recorded => coherent.stay agent recorded

/-- The commands of one program keep to the shares of all. -/
theorem realises_interleaved :
    Pool.Realises (fun agent (op : Op ι T A) => demand traits (concurrent owner agent op))
      (Coherent owner) (execRecorded traits) Op.Orphans := by
  intro agent op c known x condition coherent asked
  obtain ⟨s, record⟩ := x
  obtain ⟨answer, s', outcome, rest⟩ := exec_of_part coherent asked
  refine ⟨answer, (s', c.record s record), ?_, fun remains => ?_⟩
  · rw [execRecorded, outcome, Option.map_some]
  · obtain ⟨g, holds, reached⟩ := rest remains
    exact ⟨g, reached _ (coherent.recorded.exec outcome), holds⟩

section Runs

variable (owner : ι → Agent) (traits : AllocatorTraits A) (values : ValueTraits T)

/-- The agents' operations, access by access. -/
def Interleaved : Event Agent (Op ι T A) →
    Pool Agent (Op ι T A) (@Answer ι T A) (State ι T A × Record ι T A) →
    Pool Agent (Op ι T A) (@Answer ι T A) (State ι T A × Record ι T A) → Prop :=
  Pool.Step (execRecorded traits) (Op.code traits values) (Op.Allowed owner traits)

/-- A step by which no modifier takes the last reference to the model that it leaves. -/
def Retaining (event : Event Agent (Op ι T A))
    (pool pool' : Pool Agent (Op ι T A) (@Answer ι T A) (State ι T A × Record ι T A)) : Prop :=
  Interleaved owner traits values event pool pool' ∧ ¬ pool.Excluded Op.Orphans event

/-- From any state that operations reach, the steps of agents on their own objects lose no
model, as long as no modifier takes the last reference to the model that it leaves. Every
running agent has a next step. -/
theorem noneLost_of_retaining {ops : List (Op ι T A)} {x : State ι T A × Record ι T A}
    (initial : Runs (Op.Happens traits values) ops (.empty, []) x)
    {events : List (Event Agent (Op ι T A))}
    {pool : Pool Agent (Op ι T A) (@Answer ι T A) (State ι T A × Record ι T A)}
    (run : Runs (Retaining owner traits values) events ⟨fun _ => none, x⟩ pool) :
    (∀ agent, pool.running agent ≠ none → ∀ faulty,
      (pool.advance (execRecorded traits) agent faulty).isSome) ∧
    (pool.Idle → NoneLost pool.state) := by
  have tidy : Tidy traits x :=
    initial.preserves (fun _ _ _ tidy happens => happens.tidy tidy) .empty
  have start : Pool.Judged (fun agent (op : Op ι T A) => demand traits (concurrent owner agent op))
      (Coherent owner) (fun _ _ => Consistent traits []) (fun _ => []) ⟨fun _ => none, x⟩ :=
    ⟨x.1.part owner, .part tidy.consistent tidy.recorded, fun agent => tidy.consistent.part agent⟩
  have judged := Pool.Judged.run
    (Pool.starts_of_known fun _ _ _ _ _ => ensures_allowed values) realises_interleaved run start
  refine ⟨fun agent runs faulty => judged.isSome_advance realises_interleaved runs faulty, ?_⟩
  intro idle
  obtain ⟨known, coherent, meets⟩ := judged
  apply coherent.noneLost
  intro agent
  have rest := meets agent
  rw [idle agent] at rest
  exact rest

end Runs

namespace Sample

/-- Two objects share a model. -/
def pair : List (Op Bool (List Nat) Nat) := [.ofValueWith false 1 [5], .copyWith true 1 false]

/-- Each object is changed by an agent of its own. -/
def prepend (this : Bool) : Op Bool (List Nat) Nat := .modify this fun v => .ok (8 :: v)

/-- Both agents read the count before either leaves the model. -/
def bothLeave : List (Bool × Bool) :=
  [(false, false), (false, false), (true, false), (true, false)] ++
    List.replicate 11 (false, false) ++ List.replicate 11 (true, false)

/-- One agent leaves the model while the other one is about to destroy its object. -/
def oneLeaves : List (Bool × Bool) :=
  [(false, false), (false, false), (true, false), (true, false), (true, false)] ++
    List.replicate 8 (false, false) ++ List.replicate 4 (true, false) ++
    List.replicate 3 (false, false)

end Sample

/-- One agent leaves the model in time, and the other one destroys it. -/
theorem noneLost_of_retaining_oneLeaves :
    ∃ x pool,
      Runs (Op.Happens Sample.resourceTraits Sample.sequenceTraits) Sample.pair (.empty, []) x ∧
      Runs (Retaining id Sample.resourceTraits Sample.sequenceTraits)
        (.start false (Sample.prepend false) :: .start true (.destroy true) ::
          Sample.oneLeaves.map fun turn => .advance turn.1 turn.2) ⟨fun _ => none, x⟩ pool ∧
      NoneLost pool.state ∧ pool.state.2.map Prod.fst = [0] := by
  have run : ∃ x pool,
      Runs (Op.Happens Sample.resourceTraits Sample.sequenceTraits) Sample.pair (.empty, []) x ∧
      Runs (Retaining id Sample.resourceTraits Sample.sequenceTraits)
        (.start false (Sample.prepend false) :: .start true (.destroy true) ::
          Sample.oneLeaves.map fun turn => .advance turn.1 turn.2) ⟨fun _ => none, x⟩ pool ∧
      pool.Idle ∧ pool.state.2.map Prod.fst = [0] := by
    refine ⟨_, _, .cons ⟨rfl, [], _, rfl⟩ (.cons ⟨⟨rfl, _, rfl⟩, [], _, rfl⟩ (.nil _)),
      .cons ⟨⟨rfl, ⟨⟨0, rfl⟩, by decide⟩, rfl⟩, id⟩ (.cons ⟨⟨rfl, ⟨⟨_, rfl⟩, by decide⟩, rfl⟩, id⟩
        (Pool.runs_of_play Op.Orphans rfl)), ?_, rfl⟩
    intro agent
    cases agent
    · rfl
    · rfl
  obtain ⟨x, pool, initial, run, idle, given⟩ := run
  obtain ⟨-, noneLost⟩ :=
    noneLost_of_retaining id Sample.resourceTraits Sample.sequenceTraits initial run
  exact ⟨x, pool, initial, run, noneLost idle, given⟩

/-- Both modifiers leave the model, and nobody destroys it. -/
theorem modify_loses_model :
    ∃ x pool,
      Runs (Op.Happens Sample.resourceTraits Sample.sequenceTraits) Sample.pair (.empty, []) x ∧
      Runs (Interleaved id Sample.resourceTraits Sample.sequenceTraits)
        (.start false (Sample.prepend false) :: .start true (Sample.prepend true) ::
          Sample.bothLeave.map fun turn => .advance turn.1 turn.2) ⟨fun _ => none, x⟩ pool ∧
      pool.Idle ∧ pool.state.1.models 0 = some ⟨0, some [5], 1⟩ ∧ pool.state.2 = [] ∧
      ¬ NoneLost pool.state := by
  have run : ∃ x pool,
      Runs (Op.Happens Sample.resourceTraits Sample.sequenceTraits) Sample.pair (.empty, []) x ∧
      Runs (Interleaved id Sample.resourceTraits Sample.sequenceTraits)
        (.start false (Sample.prepend false) :: .start true (Sample.prepend true) ::
          Sample.bothLeave.map fun turn => .advance turn.1 turn.2) ⟨fun _ => none, x⟩ pool ∧
      pool.Idle ∧ (∀ h, pool.state.1.self h ≠ some 0) ∧ pool.state.1.next = 3 ∧
      pool.state.1.models 0 = some ⟨0, some [5], 1⟩ ∧ pool.state.2 = [] := by
    refine ⟨_, _, .cons ⟨rfl, [], _, rfl⟩ (.cons ⟨⟨rfl, _, rfl⟩, [], _, rfl⟩ (.nil _)),
      .cons ⟨rfl, ⟨⟨0, rfl⟩, by decide⟩, rfl⟩ (.cons ⟨rfl, ⟨⟨0, rfl⟩, by decide⟩, rfl⟩
        ((Pool.runs_of_play (fun _ _ _ => False) rfl).mono fun _ _ _ => And.left)),
      ?_, ?_, rfl, rfl, rfl⟩
    · intro agent
      cases agent
      · rfl
      · rfl
    · decide
  obtain ⟨x, pool, initial, run, idle, unowned, next, live, untouched⟩ := run
  refine ⟨x, pool, initial, run, idle, live, untouched, fun noneLost => ?_⟩
  have used : 0 < pool.state.1.next := next ▸ Nat.succ_pos 2
  rw [(noneLost.destroyed 0 used unowned).1] at live
  cases live

end StdBitcoin.CopyOnWrite
