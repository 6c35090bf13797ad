import StdBitcoin.CopyOnWrite.Interleaving
import StdBitcoin.CopyOnWrite.Outcomes
import StdBitcoin.CopyOnWrite.Sightings

/-!
# Isolation

Agents interleave their operations, access by access, on objects of their own that share
models with those of others. What each agent sees of its objects is what it would see without
the other agents: every one of its operations that returned has done what the reference does,
every one that threw has left what it may leave, and nothing else changes.
Excluded are the modifiers that take a last reference, and move assignments that move the
value out of a model which somebody else refers to.
-/

namespace StdBitcoin.CopyOnWrite

open Effects Prog

variable {Agent ι T A : Type}

/-- A move assignment is about to write to a model that has another reference. -/
def Op.Disturbs (op : Op ι T A) : Cmd ι T A → State ι T A × Record ι T A → Prop
  | .setValue p _, x => op.moves ∧ (x.1.models p).map Model.count ≠ some 1
  | _, _ => False

instance (op : Op ι T A) (c : Cmd ι T A) (x : State ι T A × Record ι T A) :
    Decidable (op.Disturbs c x) :=
  match c with
  | .setValue p _ => inferInstanceAs
      (Decidable (op.moves ∧ (x.1.models p).map Model.count ≠ some 1))
  | .handle _ | .setSelf _ _ | .setAlloc _ _ | .emplace _ _ | .remove _ | .load _ | .fetchAdd _
  | .fetchSub _ | .value _ | .allocate _ | .deallocate _ _ | .assert _ => isFalse id

/-- A modifier is about to take the last reference to a model, or a move assignment to write to
one that has another reference. -/
def Op.Intrudes (op : Op ι T A) (c : Cmd ι T A) (x : State ι T A × Record ι T A) : Prop :=
  op.Orphans c x ∨ op.Disturbs c x

instance (op : Op ι T A) (c : Cmd ι T A) (x : State ι T A × Record ι T A) :
    Decidable (op.Intrudes c x) :=
  inferInstanceAs (Decidable (op.Orphans c x ∨ op.Disturbs c x))

/-- What an operation does to what is seen: where it has returned, as the reference model has it,
and where it has thrown, as an exception may leave it. -/
def Ended [DecidableEq ι] (values : ValueTraits T) (entry : Op ι T A × Ending)
    (seen seen' : ι → Option (Option T)) : Prop :=
  match entry.2 with
  | .returned => entry.1.Reference seen seen'
  | .threw => entry.1.Aborts values seen seen'

section Watched

variable [Fintype Agent] {owner : ι → Agent}

/-- The agents divide the state, see what is theirs, and have some models for themselves. -/
structure Watched (owner : ι → Agent) (known : Agent → State ι T A × View ι T A)
    (x : State ι T A × Record ι T A) : Prop where
  coherent : Coherent owner (fun agent => (known agent).1) x
  sighted : ∀ agent, Sighted (known agent).1 (known agent).2 x.1
  exclusive : ∀ {agent p}, (known agent).2.exclusive p → p < x.1.next ∧
    ∀ other, other ≠ agent → (known other).1.models p = none

variable {known : Agent → State ι T A} {s s' : State ι T A} {record : Record ι T A} {agent : Agent}
  {p : Loc} {k m : Model T A}

/-- A program holds no more of a model than there is. -/
theorem Coherent.shares (coherent : Coherent owner known (s, record)) (agent : Agent) (p : Loc)
    (k : Model T A) (held : (known agent).models p = some k) :
    ∃ m, s.models p = some m ∧ k.count ≤ m.count := by
  obtain ⟨m, live, divided⟩ := coherent.live held
  exact ⟨m, live, divided.count_le held⟩

/-- The only reference to a model is held by one agent. -/
theorem Coherent.lone [DecidableEq Agent] (coherent : Coherent owner known (s, record))
    (held : (known agent).models p = some k) (live : s.models p = some m) (one : m.count = 1)
    (other : Agent) (distinct : other ≠ agent) : (known other).models p = none := by
  obtain ⟨m', live', divided⟩ := coherent.live held
  obtain rfl := Option.some.inj (live.symm.trans live')
  by_cases complete : k.Complete
  · exact divided.lone held complete one other distinct
  · exact divided.alone held complete other distinct

variable [DecidableEq ι] [DecidableEq Agent] {traits : AllocatorTraits A}
  {known : Agent → State ι T A × View ι T A} {x : State ι T A × Record ι T A} {op : Op ι T A}
  {c : Cmd ι T A} {answer : Answer c} {g' : State ι T A} {r : Answer c → View ι T A → Prop}

/-- Nobody else has a part of a model that an agent writes to, destroys or creates. -/
theorem Watched.untouched (watched : Watched owner known x)
    (framed : Framed c (known agent).1 answer g') (asked : sight op.moves c (known agent).2 r)
    (remains : ¬ op.Disturbs c x) (touches : c.Touches x.1 p) (other : Agent)
    (distinct : other ≠ agent) : (known other).1.models p = none := by
  cases c with
  | setValue q v =>
      obtain rfl := touches
      obtain ⟨k, held, -, -⟩ := framed
      rcases asked.1 with exclusive | moves
      · exact (watched.exclusive exclusive).2 other distinct
      · obtain ⟨m, live, -⟩ := watched.coherent.shares agent q k held
        apply watched.coherent.lone held live ?_ other distinct
        by_contra several
        refine remains ⟨moves, fun one => several ?_⟩
        rw [live] at one
        exact Option.some.inj one
  | deallocate alloc q =>
      obtain rfl := touches
      obtain ⟨k, held, unfinished, -⟩ := framed
      obtain ⟨m, -, divided⟩ := watched.coherent.live held
      exact divided.alone held unfinished other distinct
  | allocate alloc =>
      obtain rfl := touches
      have vacant := watched.coherent.split x.1.next
      rw [watched.coherent.recorded.fresh x.1.next le_rfl] at vacant
      exact vacant other
  | _ => exact touches.elim

/-- Nobody else has a part of a model that an agent claims. -/
theorem Watched.claimed (watched : Watched owner known x)
    (outcome : exec traits c x.1 = some (answer, s')) (framed : Framed c (known agent).1 answer g')
    (claims : c.Claims p answer) :
    p < s'.next ∧ ∀ other, other ≠ agent → (known other).1.models p = none := by
  cases c with
  | load q =>
      obtain ⟨rfl, one⟩ := claims
      obtain ⟨-, k, held, -⟩ := framed
      obtain ⟨m, live, same⟩ := Option.map_eq_some_iff.mp outcome
      obtain ⟨rfl, rfl⟩ := Prod.mk.inj same
      refine ⟨?_, watched.coherent.lone held live one⟩
      by_contra beyond
      rw [watched.coherent.recorded.fresh q (Nat.le_of_not_lt beyond)] at live
      cases live
  | allocate alloc =>
      obtain rfl := claims
      obtain ⟨rfl, rfl⟩ := Prod.mk.inj (Option.some.inj outcome)
      refine ⟨Nat.lt_succ_self _, fun other _ => ?_⟩
      have vacant := watched.coherent.split x.1.next
      rw [watched.coherent.recorded.fresh x.1.next le_rfl] at vacant
      exact vacant other
  | _ => exact claims.elim

/-- An agent gets no part of a model that another agent has for itself. -/
theorem models_of_framed {g : State ι T A} (outcome : exec traits c s = some (answer, s'))
    (framed : Framed c g answer g') (used : p < s.next) (absent : g.models p = none) :
    g'.models p = none := by
  cases c with
  | handle h | load q | value q =>
      obtain ⟨rfl, -⟩ := framed
      exact absent
  | setSelf h self | setAlloc h alloc =>
      obtain ⟨o, -, rfl⟩ := framed
      exact absent
  | emplace h o | remove h | assert holds =>
      obtain rfl := framed
      exact absent
  | fetchAdd q | setValue q v | deallocate alloc q =>
      obtain ⟨k, held, -, rfl⟩ := framed
      have other : p ≠ q := by
        rintro rfl
        rw [held] at absent
        cases absent
      exact (State.models_setModel_of_ne other _).trans absent
  | fetchSub q => exact framed.2 p absent
  | allocate alloc =>
      obtain rfl := framed
      obtain ⟨rfl, -⟩ := Prod.mk.inj (Option.some.inj outcome)
      exact (State.models_setModel_of_ne used.ne _).trans absent

/-- The commands of one agent leave what the others see and have for themselves. -/
theorem realises_isolated :
    Pool.Realises (fun agent (op : Op ι T A) =>
        (demand traits (concurrent owner agent op)).both (sight op.moves))
      (Watched owner) (execRecorded traits) Op.Intrudes := by
  intro agent op c known x condition watched asked
  obtain ⟨l, r, asksPart, asksSight, both⟩ := asked
  obtain ⟨answer, s', outcome, rest⟩ := exec_of_part watched.coherent (demand_framed asksPart)
  refine ⟨answer, (s', c.record x.1 x.2), ?_, fun remains => ?_⟩
  · rw [execRecorded, outcome, Option.map_some]
  obtain ⟨orphans, disturbs⟩ := not_or.mp remains
  obtain ⟨g, ⟨holds, framed⟩, reached⟩ := rest orphans
  have alone (p : Loc) (v : T) (same : c = .setValue p v) (moves : op.moves) :
      (x.1.models p).map Model.count = some 1 := by
    subst same
    by_contra several
    exact disturbs ⟨moves, several⟩
  obtain ⟨view, holds', sighted, gained⟩ := (watched.sighted agent).exec
    (watched.coherent.shares agent) outcome framed alone asksSight
  have later := next_le_of_exec outcome
  refine ⟨(g, view), ⟨?_, fun other => ?_, ?_⟩, both _ _ holds holds'⟩
  · have parts : (fun other => (Function.update known agent (g, view) other).1) =
        Function.update (fun other => (known other).1) agent g :=
      Function.comp_update Prod.fst known agent (g, view)
    rw [parts]
    exact reached _ (watched.coherent.recorded.exec outcome)
  · by_cases same : other = agent
    · rw [same, Function.update_self]
      exact sighted
    · rw [Function.update_of_ne same]
      refine (watched.sighted other).frame later fun p k held => ?_
      apply valueAt_exec outcome
      intro touches
      rw [watched.untouched framed asksSight disturbs touches other same] at held
      cases held
  · intro owning p mine
    by_cases same : owning = agent
    · subst same
      rw [Function.update_self] at mine
      have others : p < s'.next ∧ ∀ other, other ≠ owning → (known other).1.models p = none := by
        rcases gained p mine with before | claims
        · exact ⟨(watched.exclusive before).1.trans_le later, (watched.exclusive before).2⟩
        · exact watched.claimed outcome framed claims
      refine ⟨others.1, fun other distinct => ?_⟩
      rw [Function.update_of_ne distinct]
      exact others.2 other distinct
    · rw [Function.update_of_ne same] at mine
      obtain ⟨used, absent⟩ := watched.exclusive mine
      refine ⟨used.trans_le later, fun other distinct => ?_⟩
      by_cases acts : other = agent
      · subst acts
        rw [Function.update_self]
        exact models_of_framed outcome framed used (absent other distinct)
      · rw [Function.update_of_ne acts]
        exact absent other distinct

end Watched

section Rest

variable {traits : AllocatorTraits A} {values : ValueTraits T} {owner : ι → Agent}

/-- An agent at rest that looks again at its references finds them settled. -/
theorem Sighted.settle {g s : State ι T A} {view : View ι T A} (sighted : Sighted g view s)
    (inv : Consistent traits [] g) : Sighted g { view with settled := True } s :=
  ⟨sighted.handles, sighted.next, sighted.value, fun _ => inv.backed⟩

variable [DecidableEq Agent]

/-- What the objects of an agent show. -/
def State.seenBy (owner : ι → Agent) (s : State ι T A) (agent : Agent) (h : ι) :
    Option (Option T) :=
  if owner h = agent then s.observe h else none

/-- An agent at rest sees what its objects show. -/
theorem Watched.observe_eq [Fintype Agent] {known : Agent → State ι T A × View ι T A}
    {x : State ι T A × Record ι T A} (watched : Watched owner known x) {agent : Agent}
    (rest : Consistent traits [] (known agent).1) :
    (known agent).2.observe = x.1.seenBy owner agent := by
  funext h
  rw [(watched.sighted agent).observe_eq rest, State.seenBy]
  split
  · rename_i mine
    rw [State.observe, watched.coherent.handles h, mine]
  · rename_i other
    cases found : (known agent).1.handles h with
    | none => rfl
    | some o => exact absurd (watched.coherent.own found) other

variable [DecidableEq ι]

/-- A consistent part, and operations that have ended so as to lead to what is seen. -/
def AtRest (traits : AllocatorTraits A) (values : ValueTraits T)
    (before : Agent → ι → Option (Option T)) (agent : Agent) (log : List (Op ι T A × Ending))
    (g : State ι T A × View ι T A) : Prop :=
  Consistent traits [] g.1 ∧
    Runs (Ended values) log (before agent) g.2.observe

/-- An allowed operation adds to what an agent at rest sees what it does by its ending. -/
theorem starts_isolated [Fintype Agent] (values : ValueTraits T)
    (before : Agent → ι → Option (Option T)) :
    Pool.Starts (fun agent (op : Op ι T A) =>
        (demand traits (concurrent owner agent op)).both (sight op.moves))
      (Watched owner) (AtRest traits values before) (Op.code traits values)
      (Op.Allowed owner traits) := by
  intro agent op log known x watched rest allowed
  obtain ⟨inv, history⟩ := rest
  refine ⟨((known agent).1, { (known agent).2 with settled := True }),
    ⟨?_, fun other => ?_, ?_⟩, ?_⟩
  · have parts : (fun other => (Function.update known agent
        ((known agent).1, { (known agent).2 with settled := True }) other).1) =
        fun other => (known other).1 := by
      funext other
      by_cases same : other = agent
      · rw [same, Function.update_self]
      · rw [Function.update_of_ne same]
    rw [parts]
    exact watched.coherent
  · by_cases same : other = agent
    · rw [same, Function.update_self]
      exact (watched.sighted agent).settle inv
    · rw [Function.update_of_ne same]
      exact watched.sighted other
  · intro owning p mine
    have before : (known owning).2.exclusive p := by
      by_cases same : owning = agent
      · rw [same, Function.update_self] at mine
        exact same ▸ mine
      · rw [Function.update_of_ne same] at mine
        exact mine
    obtain ⟨used, absent⟩ := watched.exclusive before
    refine ⟨used, fun other distinct => ?_⟩
    by_cases same : other = agent
    · rw [same, Function.update_self]
      exact absent agent (same ▸ distinct)
    · rw [Function.update_of_ne same]
      exact absent other distinct
  · have ready : op.Ready traits (known agent).1 := by
      apply allowed.1.congr
      intro h place
      rw [watched.coherent.handles h, allowed.2 h place]
    have foreseen : Foreseen traits op.moves { (known agent).2 with settled := True } op := by
      refine ⟨trivial, ?_, ?_⟩
      · rintro this u temporary rfl
        rw [View.observe, (watched.sighted agent).handles, ready.2]
        rfl
      · rintro this x target source rfl _ _ _ p _
        exact .inr ⟨rfl, trivial⟩
    exact ensures_mono (Demand.both_monotone _ _)
      (fun _ _ post => ⟨post.1, history.snoc post.2⟩)
      (fun _ post => ⟨post.1, history.snoc post.2⟩)
      (ensures_both (ensures_allowed values watched.coherent inv allowed)
        (sight_code values foreseen))

end Rest

section Runs

variable [Fintype Agent] [DecidableEq Agent] [DecidableEq ι] (owner : ι → Agent)
  (traits : AllocatorTraits A) (values : ValueTraits T)

/-- A step by which no modifier takes the last reference to a model, and no move assignment
moves the value out of a model that has another reference. -/
def Isolated (event : Event Agent (Op ι T A))
    (pool pool' : Pool Agent (Op ι T A) (@Answer ι T A) (State ι T A × Record ι T A)) : Prop :=
  Interleaved owner traits values event pool pool' ∧
    ¬ pool.Excluded Op.Intrudes event

/-- What an agent has ended by the events, from idle agents on. -/
abbrev endings (agent : Agent) (events : List (Event Agent (Op ι T A)))
    (x : State ι T A × Record ι T A) : List (Op ι T A × Ending) :=
  Pool.endings (execRecorded traits) (Op.code traits values) agent events ⟨fun _ => none, x⟩

/-- The agents that run meet their demands, and those at rest see what they did. -/
theorem judged_of_isolated {ops : List (Op ι T A)} {x : State ι T A × Record ι T A}
    (initial : Runs (Op.Happens traits values) ops (.empty, []) x)
    {events : List (Event Agent (Op ι T A))}
    {pool : Pool Agent (Op ι T A) (@Answer ι T A) (State ι T A × Record ι T A)}
    (run : Runs (Isolated owner traits values) events ⟨fun _ => none, x⟩ pool) :
    pool.Judged (fun agent (op : Op ι T A) =>
        (demand traits (concurrent owner agent op)).both (sight op.moves))
      (Watched owner) (AtRest traits values (x.1.seenBy owner))
      fun agent => endings traits values agent events x := by
  have tidy : Tidy traits x :=
    initial.preserves (fun _ _ _ tidy happens => happens.tidy tidy) .empty
  have start : Watched owner
      (fun agent => (x.1.part owner agent, State.view (tidy.consistent.part agent) x.1)) x :=
    ⟨.part tidy.consistent tidy.recorded,
      fun agent => .view (tidy.consistent.part agent) le_rfl, False.elim⟩
  have judged : Pool.Judged
      (fun agent (op : Op ι T A) =>
        (demand traits (concurrent owner agent op)).both (sight op.moves))
      (Watched owner) (AtRest traits values (x.1.seenBy owner)) (fun _ => [])
      ⟨fun _ => none, x⟩ := by
    refine ⟨_, start, fun agent => ⟨tidy.consistent.part agent, ?_⟩⟩
    rw [start.observe_eq (tidy.consistent.part agent)]
    exact .nil _
  exact Pool.Judged.run (starts_isolated values (x.1.seenBy owner)) realises_isolated run judged

/-- An idle agent sees what the operations of its log did. -/
theorem seenBy_of_judged {before : Agent → ι → Option (Option T)}
    {log : Agent → List (Op ι T A × Ending)}
    {pool : Pool Agent (Op ι T A) (@Answer ι T A) (State ι T A × Record ι T A)}
    (judged : pool.Judged (fun agent (op : Op ι T A) =>
        (demand traits (concurrent owner agent op)).both (sight op.moves))
      (Watched owner) (AtRest traits values before) log) {agent : Agent}
    (idle : pool.running agent = none) :
    Runs (Ended values) (log agent) (before agent) (pool.state.1.seenBy owner agent) := by
  obtain ⟨known, watched, meets⟩ := judged
  have rest := meets agent
  rw [idle] at rest
  obtain ⟨inv, history⟩ := rest
  rw [← watched.observe_eq inv]
  exact history

/-- However the operations of agents on their own objects are interleaved, each idle agent has
ended the operations that it was started for, in their order. What it sees is what it saw at
first, changed by each of them in turn: by one that returned as the reference model has it, and by
one that threw as an exception may leave it. Nothing comes from what the others did. -/
theorem seenBy_of_isolated {ops : List (Op ι T A)} {x : State ι T A × Record ι T A}
    (initial : Runs (Op.Happens traits values) ops (.empty, []) x)
    {events : List (Event Agent (Op ι T A))}
    {pool : Pool Agent (Op ι T A) (@Answer ι T A) (State ι T A × Record ι T A)}
    (run : Runs (Isolated owner traits values) events ⟨fun _ => none, x⟩ pool) {agent : Agent}
    (idle : pool.running agent = none) :
    (endings traits values agent events x).map Prod.fst = Event.jobs agent events ∧
      Runs (Ended values) (endings traits values agent events x) (x.1.seenBy owner agent)
        (pool.state.1.seenBy owner agent) := by
  have happened := run.mono fun _ _ _ => And.left
  have judged := judged_of_isolated owner traits values initial run
  exact ⟨Pool.map_endings happened rfl idle, seenBy_of_judged owner traits values judged idle⟩

end Runs

namespace Sample

/-- One agent destroys its object while the other one prepends to its own. -/
def leaving : List (Event Bool (Op Bool (List Nat) Nat)) :=
  .start false (prepend false) :: .start true (.destroy true) ::
    oneLeaves.map fun turn => .advance turn.1 turn.2

end Sample

/-- The action of one agent returns and is seen by this agent, while the other one destroys its
object. -/
theorem seenBy_of_isolated_leaving :
    ∃ x pool,
      Runs (Op.Happens Sample.resourceTraits Sample.sequenceTraits) Sample.pair (.empty, []) x ∧
      Runs (Isolated id Sample.resourceTraits Sample.sequenceTraits) Sample.leaving
        ⟨fun _ => none, x⟩ pool ∧
      Runs (Ended Sample.sequenceTraits) [(Sample.prepend false, .returned)]
        (x.1.seenBy id false) (pool.state.1.seenBy id false) ∧
      Runs (Ended Sample.sequenceTraits)
        [((.destroy true : Op Bool (List Nat) Nat), .returned)]
        (x.1.seenBy id true) (pool.state.1.seenBy id true) ∧
      pool.state.1.observe false = some (some [8, 5]) := by
  have run : ∃ x pool,
      Runs (Op.Happens Sample.resourceTraits Sample.sequenceTraits) Sample.pair (.empty, []) x ∧
      Runs (Isolated id Sample.resourceTraits Sample.sequenceTraits) Sample.leaving
        ⟨fun _ => none, x⟩ pool ∧
      pool.Idle ∧
      endings Sample.resourceTraits Sample.sequenceTraits false Sample.leaving x =
        [(Sample.prepend false, .returned)] ∧
      endings Sample.resourceTraits Sample.sequenceTraits true Sample.leaving x =
        [(.destroy true, .returned)] ∧
      pool.state.1.observe false = some (some [8, 5]) := by
    refine ⟨_, _, .cons ⟨rfl, [], _, rfl⟩ (.cons ⟨⟨rfl, _, rfl⟩, [], _, rfl⟩ (.nil _)),
      .cons ⟨⟨rfl, ⟨⟨0, rfl⟩, by decide⟩, rfl⟩, id⟩ (.cons ⟨⟨rfl, ⟨⟨_, rfl⟩, by decide⟩, rfl⟩, id⟩
        (Pool.runs_of_play Op.Intrudes rfl)), ?_, rfl, rfl, rfl⟩
    intro agent
    cases agent
    · rfl
    · rfl
  obtain ⟨x, pool, initial, run, idle, first, second, seen⟩ := run
  refine ⟨x, pool, initial, run, ?_, ?_, seen⟩
  · have sees :=
      seenBy_of_isolated id Sample.resourceTraits Sample.sequenceTraits initial run (idle false)
    rw [first] at sees
    exact sees.2
  · have sees :=
      seenBy_of_isolated id Sample.resourceTraits Sample.sequenceTraits initial run (idle true)
    rw [second] at sees
    exact sees.2

end StdBitcoin.CopyOnWrite
