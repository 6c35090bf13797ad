import Mathlib.Logic.Function.Basic
import StdBitcoin.Effects.Demand
import StdBitcoin.Effects.Runs

/-!
# Pools of agents

Agents run programs on one state, command by command and in any order. Each agent is
given what it may know of the state, and its program is judged by the demands on that
alone. If a command that meets its demand changes only what its own agent knows, all
programs run on, and idle agents are at rest. What holds of an agent at rest may depend on the
jobs that it has ended, and on which of them returned.
-/

namespace Effects

variable {Agent Job Cmd σ γ : Type} {Answer : Cmd → Type}

/-- The programs that are running, each with the job it was started for. -/
structure Pool (Agent Job : Type) {Cmd : Type} (Answer : Cmd → Type) (σ : Type) where
  running : Agent → Option (Job × Prog Answer Unit)
  state : σ

/-- An idle agent starts a job, or a running one takes its next step. -/
inductive Event (Agent Job : Type) where
  | start (agent : Agent) (job : Job)
  | advance (agent : Agent) (faulty : Bool)

/-- How a job comes to an end. -/
inductive Ending where
  | returned
  | threw
deriving DecidableEq

namespace Pool

/-- No agent is running. -/
def Idle (pool : Pool Agent Job Answer σ) : Prop := ∀ agent, pool.running agent = none

/-- The next command of an agent, with its job. -/
def command (pool : Pool Agent Job Answer σ) (agent : Agent) : Option (Job × Cmd) :=
  match pool.running agent with
  | some (job, .step c _) => some (job, c)
  | _ => none

/-- A program in front of a command has it as its next one. -/
theorem command_of_running {pool : Pool Agent Job Answer σ} {agent : Agent} {job : Job} {c : Cmd}
    {next : Answer c → Prog Answer Unit} (found : pool.running agent = some (job, .step c next)) :
    pool.command agent = some (job, c) := by
  rw [command, found]

/-- The job of an agent whose program has come to its end, and how it ends. -/
def ending (pool : Pool Agent Job Answer σ) (agent : Agent) : Option (Job × Ending) :=
  match pool.running agent with
  | some (job, .pure _) => some (job, .returned)
  | some (job, .throw) => some (job, .threw)
  | _ => none

/-- Only a job that is running can end. -/
theorem running_of_ending {pool : Pool Agent Job Answer σ} {agent : Agent} {entry : Job × Ending}
    (ends : pool.ending agent = some entry) : ∃ p, pool.running agent = some (entry.1, p) := by
  rw [ending] at ends
  split at ends <;> rename_i found
  · obtain rfl := Option.some.inj ends
    exact ⟨_, found⟩
  · obtain rfl := Option.some.inj ends
    exact ⟨_, found⟩
  · cases ends

/-- The next command of the event is excluded. -/
def Excluded (excluded : Job → Cmd → σ → Prop) (pool : Pool Agent Job Answer σ) :
    Event Agent Job → Prop
  | .start _ _ => False
  | .advance agent _ => ∃ job c, pool.command agent = some (job, c) ∧ excluded job c pool.state

instance (excluded : Job → Cmd → σ → Prop) [∀ job c s, Decidable (excluded job c s)]
    (pool : Pool Agent Job Answer σ) (event : Event Agent Job) :
    Decidable (pool.Excluded excluded event) :=
  match event with
  | .start _ _ => isFalse id
  | .advance agent _ =>
      match found : pool.command agent with
      | none => isFalse fun excludes => by
          obtain ⟨job, c, next, -⟩ := excludes
          rw [found] at next
          cases next
      | some (job, c) => decidable_of_iff (excluded job c pool.state) ⟨fun excludes =>
          ⟨job, c, found, excludes⟩, fun excludes => by
          obtain ⟨job', c', next, excludes⟩ := excludes
          rw [found] at next
          obtain ⟨rfl, rfl⟩ := Prod.mk.inj (Option.some.inj next)
          exact excludes⟩

variable [DecidableEq Agent]

/-- What an agent has ended by an event. -/
def ended (pool : Pool Agent Job Answer σ) (agent : Agent) :
    Event Agent Job → List (Job × Ending)
  | .start _ _ => []
  | .advance other _ => if other = agent then (pool.ending agent).toList else []

/-- What an agent ends by its own step. -/
theorem ended_self (pool : Pool Agent Job Answer σ) (agent : Agent) (faulty : Bool) :
    pool.ended agent (.advance agent faulty) = (pool.ending agent).toList := if_pos rfl

/-- By the step of another agent nothing is ended. -/
theorem ended_of_ne (pool : Pool Agent Job Answer σ) {agent other : Agent}
    (distinct : other ≠ agent) (faulty : Bool) : pool.ended other (.advance agent faulty) = [] :=
  if_neg (Ne.symm distinct)

/-- An agent gets another program, or none. -/
def setRunning (pool : Pool Agent Job Answer σ) (agent : Agent)
    (program : Option (Job × Prog Answer Unit)) : Pool Agent Job Answer σ :=
  { pool with running := Function.update pool.running agent program }

theorem setRunning_self (pool : Pool Agent Job Answer σ) (agent : Agent)
    (program : Option (Job × Prog Answer Unit)) :
    (pool.setRunning agent program).running agent = program := Function.update_self _ _ _

theorem setRunning_of_ne (pool : Pool Agent Job Answer σ) {agent other : Agent}
    (program : Option (Job × Prog Answer Unit)) (distinct : other ≠ agent) :
    (pool.setRunning agent program).running other = pool.running other :=
  Function.update_of_ne distinct _ _

section Semantics

variable (exec : (c : Cmd) → σ → Option (Answer c × σ))

/-- The next step of an agent, on the path that the flag chooses at a fault point. An
agent whose program has ended is idle again. -/
def advance (agent : Agent) (faulty : Bool) (pool : Pool Agent Job Answer σ) :
    Option (Pool Agent Job Answer σ) :=
  match pool.running agent with
  | none => none
  | some (_, .pure _) => some (pool.setRunning agent none)
  | some (_, .throw) => some (pool.setRunning agent none)
  | some (job, .fault thrown next) =>
      some (pool.setRunning agent (some (job, if faulty then thrown else next)))
  | some (job, .step c next) =>
      (exec c pool.state).map fun result =>
        { pool.setRunning agent (some (job, next result.1)) with state := result.2 }

variable {exec} in
/-- A step of an agent ends its job, takes a path at a fault point, or performs a command. -/
theorem advance_cases {pool pool' : Pool Agent Job Answer σ} {agent : Agent} {faulty : Bool}
    (step : pool.advance exec agent faulty = some pool') :
    (∃ entry, pool.ending agent = some entry ∧ pool' = pool.setRunning agent none) ∨
    (∃ job thrown next, pool.running agent = some (job, .fault thrown next) ∧
      pool' = pool.setRunning agent (some (job, if faulty then thrown else next))) ∨
    ∃ job c next answer s, pool.running agent = some (job, .step c next) ∧
      exec c pool.state = some (answer, s) ∧
      pool' = { pool.setRunning agent (some (job, next answer)) with state := s } := by
  rw [advance] at step
  split at step
  · cases step
  · rename_i job _ found
    have ends : pool.ending agent = some (job, .returned) := by rw [ending, found]
    exact .inl ⟨_, ends, (Option.some.inj step).symm⟩
  · rename_i job found
    have ends : pool.ending agent = some (job, .threw) := by rw [ending, found]
    exact .inl ⟨_, ends, (Option.some.inj step).symm⟩
  · rename_i found
    exact .inr (.inl ⟨_, _, _, found, (Option.some.inj step).symm⟩)
  · rename_i found
    obtain ⟨⟨answer, s⟩, outcome, rfl⟩ := Option.map_eq_some_iff.mp step
    exact .inr (.inr ⟨_, _, _, answer, s, found, outcome, rfl⟩)

variable (code : Job → Prog Answer Unit) (allowed : Agent → Job → σ → Prop)

/-- The steps of a pool whose agents start allowed jobs. -/
def Step : Event Agent Job → Pool Agent Job Answer σ → Pool Agent Job Answer σ → Prop
  | .start agent job, pool, pool' => pool.running agent = none ∧ allowed agent job pool.state ∧
      pool' = pool.setRunning agent (some (job, code job))
  | .advance agent faulty, pool, pool' => pool.advance exec agent faulty = some pool'

/-- Running agents take turns, as long as no command is excluded. -/
def play (excluded : Job → Cmd → σ → Prop) [∀ job c s, Decidable (excluded job c s)] :
    List (Agent × Bool) → Pool Agent Job Answer σ → Option (Pool Agent Job Answer σ)
  | [], pool => some pool
  | (agent, faulty) :: turns, pool =>
      if pool.Excluded excluded (.advance agent faulty : Event Agent Job) then none
      else (pool.advance exec agent faulty).bind (play excluded turns)

variable {exec code allowed}

/-- Turns without an excluded command are a run. -/
theorem runs_of_play (excluded : Job → Cmd → σ → Prop) [∀ job c s, Decidable (excluded job c s)]
    {turns : List (Agent × Bool)} {pool pool' : Pool Agent Job Answer σ}
    (played : play exec excluded turns pool = some pool') :
    Runs (fun event pool pool' => Step exec code allowed event pool pool' ∧
        ¬ pool.Excluded excluded event)
      (turns.map fun turn => .advance turn.1 turn.2) pool pool' := by
  induction turns generalizing pool with
  | nil =>
      obtain rfl := Option.some.inj played
      exact .nil pool
  | cons turn turns ih =>
      rw [play] at played
      split at played
      · cases played
      · rename_i included
        obtain ⟨middle, first, rest⟩ := Option.bind_eq_some_iff.mp played
        exact .cons ⟨first, included⟩ (ih rest)

end Semantics

section Judgement

/-- A program meets its demands from what its agent knows, and leads to rest with its job added
to the log; without a program the agent is at rest. -/
def Meets (demand : Job → Demand Answer γ) (rest : List (Job × Ending) → γ → Prop)
    (log : List (Job × Ending)) : Option (Job × Prog Answer Unit) → γ → Prop
  | none, g => rest log g
  | some (job, program), g => program.ensures (demand job)
      (fun _ => rest (log ++ [(job, .returned)])) (rest (log ++ [(job, .threw)])) g

variable (demand : Agent → Job → Demand Answer γ) (coherent : (Agent → γ) → σ → Prop)
  (rest : Agent → List (Job × Ending) → γ → Prop) (log : Agent → List (Job × Ending))

/-- What the agents know fits the state, and is enough for their programs. -/
def Judged (pool : Pool Agent Job Answer σ) : Prop :=
  ∃ known : Agent → γ, coherent known pool.state ∧
    ∀ agent, Meets (demand agent) (rest agent) (log agent) (pool.running agent) (known agent)

/-- What an execution must do to give every agent what it demands. Excluded commands have
an outcome, whatever it is. -/
def Realises (exec : (c : Cmd) → σ → Option (Answer c × σ)) (excluded : Job → Cmd → σ → Prop) :
    Prop :=
  ∀ ⦃agent job c known s condition⦄, coherent known s → demand agent job c (known agent) condition →
    ∃ answer s', exec c s = some (answer, s') ∧
      (¬ excluded job c s → ∃ g, coherent (Function.update known agent g) s' ∧ condition answer g)

/-- An allowed job leads an agent at rest to rest, with the job in its log. The agent may look
again at what it knows before it starts. -/
def Starts (code : Job → Prog Answer Unit) (allowed : Agent → Job → σ → Prop) : Prop :=
  ∀ ⦃agent job jobs known s⦄, coherent known s → rest agent jobs (known agent) →
    allowed agent job s → ∃ g, coherent (Function.update known agent g) s ∧
      (code job).ensures (demand agent job) (fun _ => rest agent (jobs ++ [(job, .returned)]))
        (rest agent (jobs ++ [(job, .threw)])) g

variable {demand coherent rest log} {exec : (c : Cmd) → σ → Option (Answer c × σ)}
  {excluded : Job → Cmd → σ → Prop} {code : Job → Prog Answer Unit}
  {allowed : Agent → Job → σ → Prop} {pool pool' : Pool Agent Job Answer σ}

/-- Agents that need not look again start from what they know. -/
theorem starts_of_known
    (starts : ∀ ⦃agent job jobs known s⦄, coherent known s → rest agent jobs (known agent) →
      allowed agent job s → (code job).ensures (demand agent job)
        (fun _ => rest agent (jobs ++ [(job, .returned)])) (rest agent (jobs ++ [(job, .threw)]))
        (known agent)) :
    Starts demand coherent rest code allowed := by
  intro agent job jobs known s fits resting ready
  refine ⟨known agent, ?_, starts fits resting ready⟩
  rw [Function.update_eq_self]
  exact fits

omit [DecidableEq Agent] in
/-- Where a job ends its agent is at rest, with the job in its log. -/
theorem rest_of_ending {log : List (Job × Ending)} {agent : Agent} {entry : Job × Ending} {g : γ}
    (meet : Meets (demand agent) (rest agent) log (pool.running agent) g)
    (ends : pool.ending agent = some entry) : rest agent (log ++ [entry]) g := by
  rw [ending] at ends
  split at ends <;> rename_i found
  · obtain rfl := Option.some.inj ends
    rw [found] at meet
    exact meet
  · obtain rfl := Option.some.inj ends
    rw [found] at meet
    exact meet
  · cases ends

/-- One agent goes on with another program, and with other knowledge of another state. -/
theorem judged_update {known : Agent → γ} {log' : Agent → List (Job × Ending)}
    (meet : ∀ agent,
      Meets (demand agent) (rest agent) (log agent) (pool.running agent) (known agent))
    {agent : Agent} {program : Option (Job × Prog Answer Unit)} {g : γ} {s : σ}
    (others : ∀ other, other ≠ agent → log' other = log other)
    (fits : coherent (Function.update known agent g) s)
    (own : Meets (demand agent) (rest agent) (log' agent) program g) :
    Judged demand coherent rest log' { pool.setRunning agent program with state := s } := by
  refine ⟨Function.update known agent g, fits, fun other => ?_⟩
  change Meets _ _ _ ((pool.setRunning agent program).running other) _
  by_cases same : other = agent
  · subst same
    rw [setRunning_self, Function.update_self]
    exact own
  · rw [pool.setRunning_of_ne program same, Function.update_of_ne same, others other same]
    exact meet other

/-- An agent at rest starts a job. -/
theorem Judged.start (starts : Starts demand coherent rest code allowed)
    (judged : pool.Judged demand coherent rest log) {agent : Agent} {job : Job}
    (idle : pool.running agent = none) (ready : allowed agent job pool.state) :
    (pool.setRunning agent (some (job, code job))).Judged demand coherent rest log := by
  obtain ⟨known, fits, meet⟩ := judged
  have resting := meet agent
  rw [idle] at resting
  obtain ⟨g, again, ensured⟩ := starts fits resting ready
  exact judged_update meet (fun _ _ => rfl) again ensured

/-- A running agent has a next step. -/
theorem Judged.isSome_advance (realises : Realises demand coherent exec excluded)
    (judged : pool.Judged demand coherent rest log) {agent : Agent}
    (runs : pool.running agent ≠ none)
    (faulty : Bool) : (pool.advance exec agent faulty).isSome := by
  obtain ⟨known, fits, meet⟩ := judged
  have own := meet agent
  rw [advance]
  split
  · exact absurd ‹_› runs
  · rfl
  · rfl
  · rfl
  · rename_i found
    rw [found] at own
    obtain ⟨answer, s', outcome, -⟩ := realises fits own
    rw [outcome]
    rfl

/-- A running agent keeps the judgement, with what it has ended, unless its command is
excluded. -/
theorem Judged.advance (realises : Realises demand coherent exec excluded)
    (judged : pool.Judged demand coherent rest log) {agent : Agent} {faulty : Bool}
    (included : ∀ job c, pool.command agent = some (job, c) → ¬ excluded job c pool.state)
    (step : pool.advance exec agent faulty = some pool') :
    pool'.Judged demand coherent rest
      fun other => log other ++ pool.ended other (.advance agent faulty) := by
  obtain ⟨known, fits, meet⟩ := judged
  have own := meet agent
  have others (other : Agent) (distinct : other ≠ agent) :
      log other ++ pool.ended other (.advance agent faulty) = log other := by
    rw [pool.ended_of_ne distinct, List.append_nil]
  have unchanged : coherent (Function.update known agent (known agent)) pool.state := by
    rw [Function.update_eq_self]
    exact fits
  rcases advance_cases step with ⟨entry, ends, rfl⟩ | ⟨job, thrown, next, found, rfl⟩ |
    ⟨job, c, next, answer, s, found, outcome, rfl⟩
  · apply judged_update meet others unchanged
    rw [pool.ended_self, ends]
    exact rest_of_ending own ends
  · apply judged_update meet others unchanged
    rw [pool.ended_self, ending, found]
    rw [found] at own
    simp only [Option.toList_none, List.append_nil]
    split
    · exact own.1
    · exact own.2
  · rw [found] at own
    obtain ⟨answer', s', outcome', continues⟩ := realises fits own
    obtain ⟨rfl, rfl⟩ := Prod.mk.inj (Option.some.inj (outcome'.symm.trans outcome))
    obtain ⟨g, reached, continues⟩ := continues (included _ _ (command_of_running found))
    apply judged_update meet others reached
    rw [pool.ended_self, ending, found]
    simp only [Option.toList_none, List.append_nil]
    exact continues

/-- A step keeps the judgement, with what it ends. -/
theorem Judged.step (starts : Starts demand coherent rest code allowed)
    (realises : Realises demand coherent exec excluded)
    (judged : pool.Judged demand coherent rest log)
    {event : Event Agent Job} (step : Step exec code allowed event pool pool')
    (included : ¬ pool.Excluded excluded event) :
    pool'.Judged demand coherent rest fun agent => log agent ++ pool.ended agent event := by
  cases event with
  | start agent job =>
      obtain ⟨idle, ready, rfl⟩ := step
      simp only [ended, List.append_nil]
      exact judged.start starts idle ready
  | advance agent faulty =>
      refine judged.advance realises (fun job c next excludes => ?_) step
      exact included ⟨job, c, next, excludes⟩

end Judgement

end Pool

end Effects
