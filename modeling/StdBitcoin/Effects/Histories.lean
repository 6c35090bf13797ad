import StdBitcoin.Effects.Pool

/-!
# What the agents of a pool have done

Each start adds a job to those of one agent, and each end of a program tells of its job
whether it returned or threw. The endings of an agent in a run can be read off the events and the
pool that they start from. They are its jobs, in their order, and what holds of an agent at rest
may depend on them.
-/

namespace Effects

variable {Agent Job Cmd σ γ : Type} {Answer : Cmd → Type}

/-- One more step at the end of a run. -/
theorem Runs.snoc {Label : Type} {step : Label → σ → σ → Prop} {labels : List Label}
    {label : Label} {s middle s' : σ} (run : Runs step labels s middle)
    (last : step label middle s') : Runs step (labels ++ [label]) s s' := by
  induction run with
  | nil s => exact .cons last (.nil s')
  | cons first _ ih => exact .cons first (ih last)

namespace Event

variable [DecidableEq Agent]

/-- The job that an event starts an agent for. -/
def job? (agent : Agent) : Event Agent Job → Option Job
  | start other job => if other = agent then some job else none
  | advance _ _ => none

/-- The jobs that an agent was started for, in their order. -/
def jobs (agent : Agent) (events : List (Event Agent Job)) : List Job :=
  events.filterMap (job? agent)

@[simp] theorem jobs_nil (agent : Agent) : jobs agent ([] : List (Event Agent Job)) = [] := rfl

theorem jobs_cons (event : Event Agent Job) (events : List (Event Agent Job)) (agent : Agent) :
    jobs agent (event :: events) = jobs agent [event] ++ jobs agent events :=
  List.filterMap_append (l := [event])

/-- A start gives its agent a job. -/
theorem jobs_start_self (agent : Agent) (job : Job) : jobs agent [start agent job] = [job] := by
  simp [jobs, job?]

/-- A start gives the other agents nothing. -/
theorem jobs_start_of_ne {agent other : Agent} (distinct : other ≠ agent) (job : Job) :
    jobs other [start agent job] = [] := by
  simp [jobs, job?, Ne.symm distinct]

/-- A step of a program starts no job. -/
@[simp] theorem jobs_advance (agent other : Agent) (faulty : Bool) :
    jobs agent [(advance other faulty : Event Agent Job)] = [] := rfl

end Event

namespace Pool

variable [DecidableEq Agent]

section Endings

variable (exec : (c : Cmd) → σ → Option (Answer c × σ)) (code : Job → Prog Answer Unit)

/-- The pool after an event; what cannot happen changes nothing. -/
def after (event : Event Agent Job) (pool : Pool Agent Job Answer σ) : Pool Agent Job Answer σ :=
  match event with
  | .start agent job => pool.setRunning agent (some (job, code job))
  | .advance agent faulty => (pool.advance exec agent faulty).getD pool

/-- The jobs that an agent has ended by the events, in their order, and how they ended. -/
def endings (agent : Agent) :
    List (Event Agent Job) → Pool Agent Job Answer σ → List (Job × Ending)
  | [], _ => []
  | event :: events, pool =>
      pool.ended agent event ++ endings agent events (pool.after exec code event)

variable {exec code} {allowed : Agent → Job → σ → Prop} {pool pool' : Pool Agent Job Answer σ}

/-- What comes after an event is what its step leads to. -/
theorem Step.after_eq {event : Event Agent Job} (step : Step exec code allowed event pool pool') :
    pool.after exec code event = pool' := by
  cases event with
  | start agent job => exact step.2.2.symm
  | advance agent faulty =>
      change (pool.advance exec agent faulty).getD pool = pool'
      rw [show pool.advance exec agent faulty = some pool' from step]
      rfl

/-- A running agent ends its job or keeps it, and the others keep theirs. -/
theorem exists_of_advance {agent : Agent} {faulty : Bool}
    (step : pool.advance exec agent faulty = some pool') :
    ∃ program s, pool' = { pool.setRunning agent program with state := s } ∧
      (pool.running agent).toList.map Prod.fst =
        (pool.ending agent).toList.map Prod.fst ++ program.toList.map Prod.fst := by
  rcases advance_cases step with ⟨entry, ends, rfl⟩ | ⟨job, thrown, next, found, rfl⟩ |
    ⟨job, c, next, answer, s, found, -, rfl⟩
  · refine ⟨none, pool.state, rfl, ?_⟩
    obtain ⟨p, found⟩ := running_of_ending ends
    rw [ends, found]
    rfl
  · refine ⟨_, pool.state, rfl, ?_⟩
    rw [ending, found]
    rfl
  · refine ⟨_, s, rfl, ?_⟩
    rw [ending, found]
    rfl

/-- A step starts a job, ends one, or leaves the agent at what it does. -/
theorem jobs_of_step {event : Event Agent Job} (step : Step exec code allowed event pool pool')
    (agent : Agent) :
    (pool.running agent).toList.map Prod.fst ++ Event.jobs agent [event] =
      (pool.ended agent event).map Prod.fst ++ (pool'.running agent).toList.map Prod.fst := by
  cases event with
  | start other job =>
      obtain ⟨idle, -, rfl⟩ := step
      by_cases same : agent = other
      · subst same
        rw [idle, Event.jobs_start_self, setRunning_self]
        rfl
      · rw [Event.jobs_start_of_ne same, List.append_nil, pool.setRunning_of_ne _ same]
        rfl
  | advance other faulty =>
      obtain ⟨program, s, rfl, kept⟩ := exists_of_advance step
      rw [Event.jobs_advance, List.append_nil]
      change _ = _ ++ ((pool.setRunning other program).running agent).toList.map Prod.fst
      by_cases same : agent = other
      · subst same
        rw [pool.ended_self, setRunning_self]
        exact kept
      · rw [pool.ended_of_ne same, pool.setRunning_of_ne program same]
        rfl

/-- Every job that an agent was started for has ended, except for the one that is running. -/
theorem jobs_of_run {events : List (Event Agent Job)}
    (run : Runs (Step exec code allowed) events pool pool') (agent : Agent) :
    (pool.running agent).toList.map Prod.fst ++ Event.jobs agent events =
      (endings exec code agent events pool).map Prod.fst ++
        (pool'.running agent).toList.map Prod.fst := by
  induction run with
  | nil pool =>
      rw [Event.jobs_nil, List.append_nil]
      rfl
  | @cons event events pool _ _ first _ ih =>
      rw [Event.jobs_cons, ← List.append_assoc, jobs_of_step first, List.append_assoc, ih, endings,
        first.after_eq, List.map_append, List.append_assoc]

/-- An agent that was idle, and is so again, has ended all its jobs. -/
theorem map_endings {events : List (Event Agent Job)}
    (run : Runs (Step exec code allowed) events pool pool') {agent : Agent}
    (before : pool.running agent = none) (idle : pool'.running agent = none) :
    (endings exec code agent events pool).map Prod.fst = Event.jobs agent events := by
  have jobs := jobs_of_run run agent
  rw [before, idle] at jobs
  simpa using jobs.symm

end Endings

section Judged

variable {demand : Agent → Job → Demand Answer γ} {coherent : (Agent → γ) → σ → Prop}
  {rest : Agent → List (Job × Ending) → γ → Prop} {log : Agent → List (Job × Ending)}
  {exec : (c : Cmd) → σ → Option (Answer c × σ)} {excluded : Job → Cmd → σ → Prop}
  {code : Job → Prog Answer Unit} {allowed : Agent → Job → σ → Prop}
  {pool pool' : Pool Agent Job Answer σ}

/-- After a run every idle agent is at rest with the jobs that it has ended. -/
theorem Judged.run (starts : Starts demand coherent rest code allowed)
    (realises : Realises demand coherent exec excluded) {events : List (Event Agent Job)}
    (run : Runs (fun event pool pool' => Step exec code allowed event pool pool' ∧
      ¬ pool.Excluded excluded event) events pool pool')
    (judged : pool.Judged demand coherent rest log) :
    pool'.Judged demand coherent rest
      fun agent => log agent ++ endings exec code agent events pool := by
  induction run generalizing log with
  | nil pool =>
      simp only [endings, List.append_nil]
      exact judged
  | @cons event events pool _ _ first _ ih =>
      have reached := ih (judged.step starts realises first.1 first.2)
      simp only [endings, first.1.after_eq, ← List.append_assoc]
      exact reached

end Judged

end Pool

end Effects
