import StdBitcoin.Effects.Histories

/-!
# Programs that are vouched for

A demand that looks at no state vouches for a program by its commands alone. What every
command that meets the demand keeps is kept by all interleavings of such programs, whoever
owns what, and a program that is vouched not to throw has returned where it has ended.
-/

namespace Effects

variable {Agent Job Cmd α β σ : Type} {Answer : Cmd → Type}

namespace Prog

variable {demand : Demand Answer Unit} {thrown : Prop}

/-- The commands meet the demands, the results are as they should be, and the program throws only
where it may. -/
def Vouched (demand : Demand Answer Unit) (thrown : Prop) (p : Prog Answer α)
    (results : α → Prop) : Prop :=
  p.ensures demand (fun result _ => results result) (fun _ => thrown) ()

section Rules

variable {results : α → Prop} {p handler : Prog Answer α}

/-- Programs that may throw do so at any point. -/
theorem vouched_throw (may : thrown) : (throw : Prog Answer α).Vouched demand thrown results := may

/-- The second program is vouched for from every result of the first. -/
theorem vouched_bind {results : β → Prop} {f : α → Prog Answer β}
    (first : p.Vouched demand thrown fun result => (f result).Vouched demand thrown results) :
    (p >>= f).Vouched demand thrown results :=
  (ensures_bind p f).mpr first

/-- The results of the first program are used for what is known of them. -/
theorem Vouched.bind {results' : β → Prop} {f : α → Prog Answer β} (monotone : demand.Monotone)
    (first : p.Vouched demand thrown results)
    (rest : ∀ result, results result → (f result).Vouched demand thrown results') :
    (p >>= f).Vouched demand thrown results' :=
  vouched_bind (ensures_mono monotone (fun result _ => rest result) (fun _ => id) first)

/-- What a handler catches need not be allowed. -/
theorem Vouched.onThrow {caught : Prop} (monotone : demand.Monotone)
    (first : p.Vouched demand caught results) (handles : handler.Vouched demand thrown results) :
    (p.onThrow handler).Vouched demand thrown results :=
  (ensures_onThrow p handler).mpr (ensures_mono monotone (fun _ _ => id) (fun _ _ => handles) first)

end Rules

/-- A command that meets its demand and has an outcome keeps the invariant, and answers as the
demand supposes. -/
def Keeps (exec : (c : Cmd) → σ → Option (Answer c × σ)) (demand : Demand Answer Unit)
    (holds : σ → Prop) : Prop :=
  ∀ ⦃c s answer s' condition⦄, holds s → demand c () condition →
    exec c s = some (answer, s') → holds s' ∧ condition answer ()

/-- A run of a program that is vouched for keeps the invariant. -/
theorem Vouched.run {exec : (c : Cmd) → σ → Option (Answer c × σ)} {holds : σ → Prop}
    (keeps : Keeps exec demand holds) {p : Prog Answer α} {results : α → Prop}
    (vouched : p.Vouched demand thrown results) {s s' : σ} (start : holds s) {faults : List Bool}
    {result : Option α} (outcome : run exec faults p s = some (result, s')) : holds s' := by
  induction p generalizing s faults with
  | pure value =>
      obtain ⟨-, rfl⟩ := Prod.mk.inj (Option.some.inj outcome)
      exact start
  | throw =>
      obtain ⟨-, rfl⟩ := Prod.mk.inj (Option.some.inj outcome)
      exact start
  | fault left next leftIh nextIh =>
      match faults with
      | true :: faults => exact leftIh vouched.1 start outcome
      | false :: faults => exact nextIh vouched.2 start outcome
      | [] => exact nextIh vouched.2 start outcome
  | step c next ih =>
      rw [Prog.run] at outcome
      split at outcome
      · cases outcome
      · rename_i answer t reached
        obtain ⟨kept, continues⟩ := keeps start vouched reached
        exact ih answer continues kept outcome

end Prog

namespace Pool

open Prog (Keeps)

variable {admitted thrown : Job → Prop} {demand : Job → Demand Answer Unit} {holds : σ → Prop}
  {exec : (c : Cmd) → σ → Option (Answer c × σ)} {code : Job → Prog Answer Unit}
  {allowed : Agent → Job → σ → Prop} {excluded : Job → Cmd → σ → Prop}
  {pool pool' : Pool Agent Job Answer σ}

/-- The invariant holds, and all that is running is admitted and vouched for. -/
structure Vouched (admitted : Job → Prop) (demand : Job → Demand Answer Unit)
    (thrown : Job → Prop) (holds : σ → Prop) (pool : Pool Agent Job Answer σ) : Prop where
  state : holds pool.state
  running : ∀ agent job p, pool.running agent = some (job, p) →
    admitted job ∧ p.Vouched (demand job) (thrown job) fun _ => True

/-- The demands on admitted jobs leave no room for what is excluded. -/
def Clears (admitted : Job → Prop) (demand : Job → Demand Answer Unit)
    (excluded : Job → Cmd → σ → Prop) : Prop :=
  ∀ ⦃job c s condition⦄, admitted job → demand job c () condition → ¬ excluded job c s

/-- Nothing that is excluded comes next. -/
theorem Vouched.not_excluded (clears : Clears admitted demand excluded)
    (vouched : pool.Vouched admitted demand thrown holds) (event : Event Agent Job) :
    ¬ pool.Excluded excluded event := by
  cases event with
  | start agent job => exact id
  | advance agent faulty =>
      intro excludes
      obtain ⟨job, c, next, excludes⟩ := excludes
      rw [command] at next
      split at next
      · rename_i found
        obtain ⟨rfl, rfl⟩ := Prod.mk.inj (Option.some.inj next)
        obtain ⟨fits, asked⟩ := vouched.running _ _ _ found
        exact clears fits asked excludes
      · cases next

variable [DecidableEq Agent]

/-- An agent goes on with a program that is vouched for. -/
theorem Vouched.setRunning (vouched : pool.Vouched admitted demand thrown holds) {agent : Agent}
    {program : Option (Job × Prog Answer Unit)} {s : σ} (state : holds s)
    (own : ∀ job p, program = some (job, p) →
      admitted job ∧ p.Vouched (demand job) (thrown job) fun _ => True) :
    Vouched admitted demand thrown holds { pool.setRunning agent program with state := s } where
  state := state
  running := by
    intro other job p found
    change (pool.setRunning agent program).running other = some (job, p) at found
    by_cases same : other = agent
    · subst same
      rw [setRunning_self] at found
      exact own job p found
    · rw [pool.setRunning_of_ne program same] at found
      exact vouched.running other job p found

/-- A running agent keeps to what is vouched for. -/
theorem Vouched.advance (keeps : ∀ job, Keeps exec (demand job) holds)
    (vouched : pool.Vouched admitted demand thrown holds) {agent : Agent} {faulty : Bool}
    (step : pool.advance exec agent faulty = some pool') :
    pool'.Vouched admitted demand thrown holds := by
  rcases advance_cases step with ⟨entry, -, rfl⟩ | ⟨job, left, next, found, rfl⟩ |
    ⟨job, c, next, answer, s, found, outcome, rfl⟩
  · exact vouched.setRunning vouched.state fun _ _ idle => by cases idle
  · obtain ⟨fits, interrupted, continues⟩ := vouched.running _ _ _ found
    refine vouched.setRunning vouched.state fun job p same => ?_
    obtain ⟨rfl, rfl⟩ := Prod.mk.inj (Option.some.inj same)
    split
    · exact ⟨fits, interrupted⟩
    · exact ⟨fits, continues⟩
  · obtain ⟨fits, asked⟩ := vouched.running _ _ _ found
    obtain ⟨state, continues⟩ := keeps _ vouched.state asked outcome
    refine vouched.setRunning state fun job p same => ?_
    obtain ⟨rfl, rfl⟩ := Prod.mk.inj (Option.some.inj same)
    exact ⟨fits, continues⟩

/-- A step keeps what is vouched for. -/
theorem Vouched.step (keeps : ∀ job, Keeps exec (demand job) holds)
    (starts : ∀ ⦃job⦄, admitted job →
      (code job).Vouched (demand job) (thrown job) fun _ => True)
    (vouched : pool.Vouched admitted demand thrown holds) {event : Event Agent Job}
    (step : Step exec code (fun agent job s => admitted job ∧ allowed agent job s) event pool
      pool') : pool'.Vouched admitted demand thrown holds := by
  cases event with
  | start agent job =>
      obtain ⟨-, ready, rfl⟩ := step
      refine vouched.setRunning vouched.state fun job' p same => ?_
      obtain ⟨rfl, rfl⟩ := Prod.mk.inj (Option.some.inj same)
      exact ⟨ready.1, starts ready.1⟩
  | advance agent faulty => exact vouched.advance keeps step

/-- The steps of admitted jobs are steps of jobs. -/
theorem Step.of_admitted {event : Event Agent Job}
    (step : Step exec code (fun agent job s => admitted job ∧ allowed agent job s) event pool
      pool') : Step exec code allowed event pool pool' := by
  cases event with
  | start agent job => exact ⟨step.1, step.2.1.2, step.2.2⟩
  | advance agent faulty => exact step

/-- A job that ends with an exception may throw. -/
theorem Vouched.threw_of_mem_ended (vouched : pool.Vouched admitted demand thrown holds)
    {agent : Agent} {event : Event Agent Job} {entry : Job × Ending}
    (member : entry ∈ pool.ended agent event) (threw : entry.2 = .threw) : thrown entry.1 := by
  cases event with
  | start => cases member
  | advance other faulty =>
      rw [ended] at member
      split at member
      · rw [ending] at member
        split at member <;> rename_i found
        · obtain rfl := List.mem_singleton.mp member
          cases threw
        · obtain rfl := List.mem_singleton.mp member
          exact (vouched.running _ _ _ found).2
        · cases member
      · cases member

/-- Where all admitted jobs are vouched for the invariant holds throughout, no step is
excluded, and only jobs that may throw have thrown. -/
theorem Vouched.run (keeps : ∀ job, Keeps exec (demand job) holds)
    (clears : Clears admitted demand excluded)
    (starts : ∀ ⦃job⦄, admitted job →
      (code job).Vouched (demand job) (thrown job) fun _ => True)
    {events : List (Event Agent Job)}
    (run : Runs (Step exec code fun agent job s => admitted job ∧ allowed agent job s) events pool
      pool')
    (vouched : pool.Vouched admitted demand thrown holds) :
    pool'.Vouched admitted demand thrown holds ∧
      Runs (fun event pool pool' => Step exec code allowed event pool pool' ∧
        ¬ pool.Excluded excluded event) events pool pool' ∧
      ∀ agent, ∀ entry ∈ endings exec code agent events pool,
        entry.2 = .threw → thrown entry.1 := by
  induction run with
  | nil pool => exact ⟨vouched, .nil pool, fun _ _ member => by cases member⟩
  | cons first _ ih =>
      obtain ⟨reached, rest, later⟩ := ih (vouched.step keeps starts first)
      refine ⟨reached, .cons ⟨first.of_admitted, vouched.not_excluded clears _⟩ rest, ?_⟩
      intro agent entry member threw
      rw [endings, first.after_eq] at member
      rcases List.mem_append.mp member with now | after
      · exact vouched.threw_of_mem_ended now threw
      · exact later agent entry after threw

end Pool

end Effects
