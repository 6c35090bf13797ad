import Mathlib.Algebra.BigOperators.Group.Finset.Piecewise
import Mathlib.Algebra.Order.BigOperators.Group.Finset
import Mathlib.Data.Set.Card
import StdBitcoin.CopyOnWrite.Counting

/-!
# Shares of a model

Several agents divide a state: each object belongs to one of them, and the count of a model
is the sum of the shares that they hold of it. What one agent does to its share is done to
the whole.
-/

namespace StdBitcoin.CopyOnWrite

open Effects Prog

variable {Agent ι T A : Type}

/-- The references that a part of a model stands for. -/
def references (part : Option (Model T A)) : Nat := part.elim 0 Model.count

@[simp] theorem references_none : references (none : Option (Model T A)) = 0 := rfl

@[simp] theorem references_some (m : Model T A) : references (some m) = m.count := rfl

/-- The agents hold parts of a model, whose counts add up. An unfinished part is the only
one. -/
structure Divided [Fintype Agent] (part : Agent → Option (Model T A)) (m : Model T A) : Prop where
  counted : m.count = ∑ agent, references (part agent)
  held : ∃ agent k, part agent = some k
  alloc : ∀ {agent k}, part agent = some k → k.alloc = m.alloc
  constructed : ∀ {agent k}, part agent = some k → k.value ≠ none → m.value ≠ none
  alone : ∀ {agent k}, part agent = some k → ¬ k.Complete → ∀ other, other ≠ agent →
    part other = none

/-- The parts of what is at an address; nobody holds a part of what is not there. -/
def Split [Fintype Agent] (part : Agent → Option (Model T A)) : Option (Model T A) → Prop
  | none => ∀ agent, part agent = none
  | some m => Divided part m

/-- What is held after an update is the new part, or held by another agent. -/
theorem of_update [DecidableEq Agent] {part : Agent → Option (Model T A)} {agent other : Agent}
    {k : Option (Model T A)} {j : Model T A} (held : Function.update part agent k other = some j) :
    other = agent ∧ k = some j ∨ other ≠ agent ∧ part other = some j := by
  by_cases same : other = agent
  · rw [same, Function.update_self] at held
    exact .inl ⟨same, held⟩
  · rw [Function.update_of_ne same] at held
    exact .inr ⟨same, held⟩

theorem of_update_none [DecidableEq Agent] {part : Agent → Option (Model T A)} {agent other : Agent}
    {j : Model T A} (held : Function.update part agent none other = some j) :
    other ≠ agent ∧ part other = some j := by
  rcases of_update held with ⟨-, absent⟩ | kept
  · cases absent
  · exact kept

section Divided

variable [Fintype Agent] {part : Agent → Option (Model T A)} {m m' k k' : Model T A} {agent : Agent}

/-- A share is no larger than the whole. -/
theorem Divided.count_le (divided : Divided part m) (found : part agent = some k) :
    k.count ≤ m.count := by
  rw [divided.counted]
  have bound := Finset.single_le_sum (f := fun agent => references (part agent))
    (fun _ _ => Nat.zero_le _) (Finset.mem_univ agent)
  rw [found] at bound
  exact bound

/-- What an agent holds a part of is there. -/
theorem Split.exists_divided {m : Option (Model T A)} (split : Split part m)
    (found : part agent = some k) : ∃ n, m = some n ∧ Divided part n := by
  cases m with
  | none =>
      rw [split agent] at found
      cases found
  | some n => exact ⟨n, rfl, split⟩

variable [DecidableEq Agent]

/-- Another share of one agent. -/
theorem sum_update (part : Agent → Option (Model T A)) (agent : Agent) (k : Option (Model T A)) :
    ∑ other, references (Function.update part agent k other) + references (part agent) =
      ∑ other, references (part other) + references k := by
  have changed : (fun other => references (Function.update part agent k other)) =
      Function.update (fun other => references (part other)) agent (references k) :=
    Function.comp_update references part agent k
  have member := Finset.mem_univ agent
  rw [changed, Finset.sum_update_of_mem member,
    Finset.sum_eq_add_sum_sdiff_singleton_of_mem member fun other => references (part other)]
  omega

namespace Divided

/-- The holder of the last reference holds the only part. -/
theorem lone (divided : Divided part m) (found : part agent = some k) (complete : k.Complete)
    (one : m.count = 1) (other : Agent) (distinct : other ≠ agent) : part other = none := by
  cases also : part other with
  | none => rfl
  | some j =>
      exfalso
      by_cases finished : j.Complete
      · have both := divided.counted
        rw [Finset.sum_eq_add_sum_sdiff_singleton_of_mem (Finset.mem_univ agent), found] at both
        have rest : references (part other) ≤
            ∑ other ∈ Finset.univ \ {agent}, references (part other) :=
          Finset.single_le_sum (f := fun agent => references (part agent))
            (fun _ _ => Nat.zero_le _)
            (Finset.mem_sdiff.mpr ⟨Finset.mem_univ other, Finset.notMem_singleton.mpr distinct⟩)
        rw [also] at rest
        have mine := complete.1
        have theirs := finished.1
        rw [references_some] at both rest
        omega
      · rw [divided.alone also finished agent distinct.symm] at found
        cases found

/-- The whole changes as the part of one agent does. -/
theorem update (divided : Divided part m) (found : part agent = some k)
    (counted : m'.count + k.count = m.count + k'.count) (alloc : k'.alloc = k.alloc)
    (alloc' : m'.alloc = m.alloc) (constructed : k'.value ≠ none → m'.value ≠ none)
    (constructed' : m.value ≠ none → m'.value ≠ none)
    (alone : ¬ k'.Complete → ∀ other, other ≠ agent → part other = none) :
    Divided (Function.update part agent (some k')) m' where
  counted := by
    have total := sum_update part agent (some k')
    rw [found, ← divided.counted, references_some, references_some] at total
    omega
  held := ⟨agent, k', Function.update_self ..⟩
  alloc := by
    intro other j held
    rcases of_update held with ⟨-, same⟩ | ⟨-, kept⟩
    · obtain rfl := Option.some.inj same
      exact alloc.trans ((divided.alloc found).trans alloc'.symm)
    · exact (divided.alloc kept).trans alloc'.symm
  constructed := by
    intro other j held
    rcases of_update held with ⟨-, same⟩ | ⟨-, kept⟩
    · obtain rfl := Option.some.inj same
      exact constructed
    · exact fun finished => constructed' (divided.constructed kept finished)
  alone := by
    intro other j held unfinished another distinct
    rcases of_update held with ⟨rfl, same⟩ | ⟨different, kept⟩
    · obtain rfl := Option.some.inj same
      rw [Function.update_of_ne distinct]
      exact alone unfinished another distinct
    · rw [divided.alone kept unfinished agent (Ne.symm different)] at found
      cases found

/-- A share grows with the whole. -/
theorem acquire (divided : Divided part m) (found : part agent = some k) (complete : k.Complete) :
    Divided (Function.update part agent (some { k with count := k.count + 1 }))
      { m with count := m.count + 1 } := by
  apply divided.update found
  · exact Nat.add_right_comm ..
  · rfl
  · rfl
  · exact fun finished => divided.constructed found finished
  · exact id
  · exact fun unfinished => absurd ⟨Nat.succ_pos _, complete.2⟩ unfinished

/-- A written value is the value of the whole. -/
theorem write (divided : Divided part m) (found : part agent = some k) (positive : 0 < k.count)
    (v : T) :
    Divided (Function.update part agent (some { k with value := some v }))
      { m with value := some v } := by
  apply divided.update found
  · rfl
  · rfl
  · rfl
  · exact fun _ => Option.some_ne_none v
  · exact fun _ => Option.some_ne_none v
  · exact fun unfinished => absurd ⟨positive, Option.some_ne_none v⟩ unfinished

/-- The last reference is given up by the only agent that holds a part. -/
theorem exhaust (divided : Divided part m) (found : part agent = some k) (complete : k.Complete)
    (one : m.count = 1) :
    Divided (Function.update part agent (some { k with count := 0 })) { m with count := 0 } := by
  have bound := divided.count_le found
  have positive := complete.1
  apply divided.update found
  · dsimp only
    omega
  · rfl
  · rfl
  · exact fun finished => divided.constructed found finished
  · exact id
  · exact fun _ => divided.lone found complete one

/-- A reference is given up that is not the last one. -/
theorem release (divided : Divided part m) (found : part agent = some k) (complete : k.Complete)
    (several : m.count ≠ 1) :
    Divided (Function.update part agent
        (if k.count = 1 then none else some { k with count := k.count - 1 }))
      { m with count := m.count - 1 } := by
  have bound := divided.count_le found
  have positive := complete.1
  split
  · rename_i one
    have total := sum_update part agent none
    rw [found, ← divided.counted, references_some, references_none] at total
    have remaining : ∑ other, references (Function.update part agent none other) ≠ 0 := by omega
    obtain ⟨other, -, nonzero⟩ := Finset.exists_ne_zero_of_sum_ne_zero remaining
    constructor
    · dsimp only
      omega
    · refine ⟨other, Option.ne_none_iff_exists'.mp fun absent => nonzero ?_⟩
      rw [absent]
      rfl
    · intro other j held
      exact divided.alloc (of_update_none held).2
    · intro other j held
      exact divided.constructed (of_update_none held).2
    · intro other j held unfinished
      obtain ⟨distinct, held⟩ := of_update_none held
      rw [divided.alone held unfinished agent (Ne.symm distinct)] at found
      cases found
  · rename_i more
    apply divided.update found
    · dsimp only
      omega
    · rfl
    · rfl
    · exact fun finished => divided.constructed found finished
    · exact id
    · exact fun unfinished => absurd ⟨Nat.sub_pos_of_lt (by omega), complete.2⟩ unfinished

end Divided

/-- New memory is the part of one agent. -/
theorem Split.create (split : Split part none) (agent : Agent) (alloc : A) :
    Split (Function.update part agent (some ⟨1, none, alloc⟩)) (some ⟨1, none, alloc⟩) := by
  have only {other : Agent} {k : Model T A}
      (held : Function.update part agent (some ⟨1, none, alloc⟩) other = some k) :
      other = agent ∧ k = ⟨1, none, alloc⟩ := by
    rcases of_update held with ⟨here, same⟩ | ⟨-, kept⟩
    · exact ⟨here, (Option.some.inj same).symm⟩
    · rw [split other] at kept
      cases kept
  constructor
  · have total := sum_update part agent (some ⟨1, none, alloc⟩)
    have nothing : ∑ other, references (part other) = 0 :=
      Finset.sum_eq_zero fun other _ => by rw [split other, references_none]
    rw [split agent, nothing, references_none, Nat.add_zero, Nat.zero_add] at total
    exact total.symm
  · exact ⟨agent, _, Function.update_self ..⟩
  · intro other k held
    rw [(only held).2]
  · intro other k held finished
    rw [(only held).2] at finished
    exact finished
  · intro other k held _ another distinct
    rw [(only held).1] at distinct
    rw [Function.update_of_ne distinct]
    exact split another

/-- What is destroyed was the part of one agent. -/
theorem Divided.destroy (divided : Divided part m) (found : part agent = some k)
    (unfinished : ¬ k.Complete) : Split (Function.update part agent none) none := by
  intro other
  by_cases same : other = agent
  · subst same
    exact Function.update_self ..
  · rw [Function.update_of_ne same]
    exact divided.alone found unfinished other same

end Divided

theorem models_update [DecidableEq Agent] (known : Agent → State ι T A) (agent : Agent)
    (g : State ι T A) (p : Loc) :
    (fun other => (Function.update known agent g other).models p) =
      Function.update (fun other => (known other).models p) agent (g.models p) :=
  Function.comp_update (fun s : State ι T A => s.models p) known agent g

/-- Each count is that of the handles, and every other model was destroyed exactly once. -/
structure NoneLost (x : State ι T A × Record ι T A) : Prop where
  counted : ∀ p m, x.1.models p = some m →
    ∃ owners : Finset ι, (∀ h, h ∈ owners ↔ x.1.self h = some p) ∧ m.count = owners.card
  destroyed : ∀ p, p < x.1.next → (∀ h, x.1.self h ≠ some p) →
    x.1.models p = none ∧ (x.2.map Prod.fst).count p = 1

/-- An agent at rest accounts for its share. -/
theorem Consistent.owners {traits : AllocatorTraits A} {s : State ι T A}
    (rest : Consistent traits [] s) (p : Loc) :
    ∃ owners : Finset ι, (∀ h, h ∈ owners ↔ s.self h = some p) ∧
      references (s.models p) = owners.card := by
  cases live : s.models p with
  | none =>
      refine ⟨∅, fun h => iff_of_false (Finset.notMem_empty h) fun points => ?_, rfl⟩
      obtain ⟨m, found⟩ := rest.pointed_self points
      rw [live] at found
      cases found
  | some m =>
      obtain ⟨⟨owners, owns, count⟩, -, -⟩ := rest.accounted live
      exact ⟨owners, owns, count⟩

section Coherent

variable [Fintype Agent] (owner : ι → Agent)

/-- The parts of the agents make up the state. -/
structure Coherent (known : Agent → State ι T A) (x : State ι T A × Record ι T A) : Prop where
  handles : ∀ h, x.1.handles h = (known (owner h)).handles h
  own : ∀ {agent h o}, (known agent).handles h = some o → owner h = agent
  next : ∀ agent, (known agent).next ≤ x.1.next
  split : ∀ p, Split (fun agent => (known agent).models p) (x.1.models p)
  recorded : Recorded x.1 x.2

namespace Coherent

variable {owner} {known : Agent → State ι T A} {s s' g : State ι T A}
  {record record' : Record ι T A} {agent : Agent} {h : ι} {o : Handle A} {p : Loc} {k : Model T A}

/-- What a program knows of an object is so. -/
theorem found (coherent : Coherent owner known (s, record))
    (found : (known agent).handles h = some o) : s.handles h = some o := by
  rw [coherent.handles h, coherent.own found]
  exact found

/-- A model that a program knows is divided among the programs. -/
theorem live (coherent : Coherent owner known (s, record))
    (live : (known agent).models p = some k) :
    ∃ m, s.models p = some m ∧ Divided (fun agent => (known agent).models p) m :=
  (coherent.split p).exists_divided live

/-- A program knows the pointers of its own objects only. -/
theorem own_self (coherent : Coherent owner known (s, record))
    (points : (known agent).self h = some p) : owner h = agent := by
  obtain ⟨o, found, -⟩ := Option.bind_eq_some_iff.mp points
  exact coherent.own found

/-- An object points to a model if and only if its program knows that. -/
theorem self_iff (coherent : Coherent owner known (s, record)) :
    s.self h = some p ↔ ∃ agent, (known agent).self h = some p := by
  have same : s.self h = (known (owner h)).self h := by
    rw [State.self, coherent.handles h, State.self]
  rw [same]
  refine ⟨fun points => ⟨owner h, points⟩, fun points => ?_⟩
  rcases points with ⟨agent, points⟩
  rw [coherent.own_self points]
  exact points

/-- Between operations the count of a model is the number of its owners. -/
theorem counted [DecidableEq ι] {traits : AllocatorTraits A} {m : Model T A}
    (coherent : Coherent owner known (s, record))
    (rest : ∀ agent, Consistent traits [] (known agent)) (live : s.models p = some m) :
    ∃ owners : Finset ι, (∀ h, h ∈ owners ↔ s.self h = some p) ∧ m.count = owners.card := by
  have divided := coherent.split p
  rw [live] at divided
  choose owners owns count using fun agent => (rest agent).owners p
  refine ⟨Finset.univ.biUnion owners, fun h => ?_, ?_⟩
  · rw [Finset.mem_biUnion, coherent.self_iff]
    simp only [owns, Finset.mem_univ, true_and]
  · rw [divided.counted, Finset.card_biUnion]
    · exact Finset.sum_congr rfl fun agent _ => count agent
    · intro agent _ other _ distinct
      refine Finset.disjoint_left.mpr fun h mine theirs => distinct ?_
      rw [← coherent.own_self ((owns agent h).mp mine),
        coherent.own_self ((owns other h).mp theirs)]

/-- Between operations every model has an owner. -/
theorem noneLost [DecidableEq ι] {traits : AllocatorTraits A}
    (coherent : Coherent owner known (s, record))
    (rest : ∀ agent, Consistent traits [] (known agent)) : NoneLost (s, record) where
  counted := fun _ _ live => coherent.counted rest live
  destroyed := by
    intro p used unowned
    have gone : s.models p = none := by
      cases live : s.models p with
      | none => rfl
      | some m =>
          have divided := coherent.split p
          rw [live] at divided
          obtain ⟨agent, k, held⟩ := divided.held
          obtain ⟨h, points⟩ := (rest agent).owned held
          exact absurd (coherent.self_iff.mpr ⟨agent, points⟩) (unowned h)
    refine ⟨gone, List.count_eq_one_of_mem coherent.recorded.once ?_⟩
    exact (coherent.recorded.mem_iff p).mpr ⟨used, gone⟩

variable [DecidableEq Agent]

/-- Nothing changes. -/
theorem stay (coherent : Coherent owner known (s, record)) (agent : Agent)
    (recorded : Recorded s record') :
    Coherent owner (Function.update known agent (known agent)) (s, record') := by
  rw [Function.update_eq_self]
  exact { coherent with recorded }

/-- An agent gives new members to its own object, or has one come or go. -/
theorem setHandle [DecidableEq ι] (coherent : Coherent owner known (s, record))
    (owned : owner h = agent) (o : Option (Handle A))
    (recorded : Recorded (s.setHandle h o) record') :
    Coherent owner (Function.update known agent ((known agent).setHandle h o))
      (s.setHandle h o, record') where
  handles := by
    intro k
    by_cases same : k = h
    · subst same
      rw [owned, Function.update_self, State.handles_setHandle_self, State.handles_setHandle_self]
    · rw [State.handles_setHandle_of_ne same, coherent.handles k]
      by_cases mine : owner k = agent
      · rw [mine, Function.update_self, State.handles_setHandle_of_ne same]
      · rw [Function.update_of_ne mine]
  own := by
    intro other k o' found
    by_cases mine : other = agent
    · subst mine
      rw [Function.update_self] at found
      by_cases same : k = h
      · rw [same, owned]
      · rw [State.handles_setHandle_of_ne same] at found
        exact coherent.own found
    · rw [Function.update_of_ne mine] at found
      exact coherent.own found
  next := by
    intro other
    by_cases mine : other = agent
    · subst mine
      rw [Function.update_self]
      exact coherent.next other
    · rw [Function.update_of_ne mine]
      exact coherent.next other
  split := by
    intro p
    rw [models_update, State.models_setHandle, Function.update_eq_self]
    exact coherent.split p
  recorded := recorded

/-- An agent changes its part of one model, and the whole follows. -/
theorem change (coherent : Coherent owner known (s, record))
    (handles : g.handles = (known agent).handles) (handles' : s'.handles = s.handles)
    (next : g.next ≤ s'.next) (later : s.next ≤ s'.next)
    (models : ∀ q, q ≠ p → g.models q = (known agent).models q)
    (models' : ∀ q, q ≠ p → s'.models q = s.models q)
    (split : Split (Function.update (fun other => (known other).models p) agent (g.models p))
      (s'.models p))
    (recorded : Recorded s' record') :
    Coherent owner (Function.update known agent g) (s', record') where
  handles := by
    intro k
    rw [handles', coherent.handles k]
    by_cases mine : owner k = agent
    · rw [mine, Function.update_self, handles]
    · rw [Function.update_of_ne mine]
  own := by
    intro other k o found
    by_cases mine : other = agent
    · subst mine
      rw [Function.update_self, handles] at found
      exact coherent.own found
    · rw [Function.update_of_ne mine] at found
      exact coherent.own found
  next := by
    intro other
    by_cases mine : other = agent
    · subst mine
      rw [Function.update_self]
      exact next
    · rw [Function.update_of_ne mine]
      exact (coherent.next other).trans later
  split := by
    intro q
    rw [models_update]
    by_cases same : q = p
    · subst same
      exact split
    · rw [models q same, models' q same, Function.update_eq_self]
      exact coherent.split q
  recorded := recorded

/-- A change of a model is split among the programs. -/
theorem setModel (coherent : Coherent owner known (s, record)) {k m : Option (Model T A)}
    (split : Split (Function.update (fun other => (known other).models p) agent k) m)
    (recorded : Recorded (s.setModel p m) record') :
    Coherent owner (Function.update known agent ((known agent).setModel p k))
      (s.setModel p m, record') := by
  refine coherent.change (p := p) rfl rfl (coherent.next agent) le_rfl
    (fun _ other => State.models_setModel_of_ne other k)
    (fun _ other => State.models_setModel_of_ne other m) ?_ recorded
  rw [State.models_setModel_self, State.models_setModel_self]
  exact split

/-- An agent gets new memory. -/
theorem allocate (coherent : Coherent owner known (s, record)) (agent : Agent) (alloc : A)
    (recorded : Recorded (s.raw alloc) record') :
    Coherent owner (Function.update known agent (((known agent).reserve s.next).raw alloc))
      (s.raw alloc, record') := by
  refine coherent.change (p := s.next) rfl rfl le_rfl (Nat.le_succ _)
    (fun _ other => State.models_setModel_of_ne other _)
    (fun _ other => State.models_setModel_of_ne other _) ?_ recorded
  have vacant := coherent.split s.next
  rw [coherent.recorded.fresh s.next le_rfl] at vacant
  have part : (((known agent).reserve s.next).raw alloc).models s.next = some ⟨1, none, alloc⟩ :=
    State.models_raw_self ((known agent).reserve s.next) alloc
  rw [part, State.models_raw_self]
  exact vacant.create agent alloc

end Coherent

end Coherent

section Initial

variable [DecidableEq Agent] (owner : ι → Agent)

/-- The objects of an agent, and the references that they hold. -/
noncomputable def State.part (s : State ι T A) (agent : Agent) : State ι T A where
  handles := fun h => if owner h = agent then s.handles h else none
  models := fun p => (s.models p).bind fun m =>
    let count := {h | s.self h = some p ∧ owner h = agent}.ncard
    if count = 0 then none else some { m with count }
  next := s.next

variable {owner} {traits : AllocatorTraits A} {s : State ι T A} {record : Record ι T A}
  {agent : Agent} {h : ι} {p : Loc} {m k : Model T A} {owners : Finset ι}

theorem State.handles_part (s : State ι T A) (agent : Agent) (h : ι) :
    (s.part owner agent).handles h = if owner h = agent then s.handles h else none := rfl

/-- The part of a program has the pointers of its own objects. -/
theorem State.self_part_iff :
    (s.part owner agent).self h = some p ↔ s.self h = some p ∧ owner h = agent := by
  rw [State.self, State.handles_part, State.self]
  split
  · rename_i mine
    exact (and_iff_left mine).symm
  · rename_i other
    exact iff_of_false (Option.some_ne_none p).symm fun both => other both.2

/-- The part of a program has as many references as it has objects. -/
theorem State.models_part (live : s.models p = some m)
    (owns : ∀ h, h ∈ owners ↔ s.self h = some p) (agent : Agent) :
    (s.part owner agent).models p =
      if (owners.filter (owner · = agent)).card = 0 then none else
        some { m with count := (owners.filter (owner · = agent)).card } := by
  have own : {h | s.self h = some p ∧ owner h = agent} = ↑(owners.filter (owner · = agent)) := by
    ext h
    rw [Set.mem_ofPred_eq, Finset.mem_coe, Finset.mem_filter, owns]
  rw [State.part]
  simp only [live, Option.bind_some, own, Set.ncard_coe_finset]

/-- The references of a part are its objects. -/
theorem references_part (live : s.models p = some m)
    (owns : ∀ h, h ∈ owners ↔ s.self h = some p) (agent : Agent) :
    references ((s.part owner agent).models p) = (owners.filter (owner · = agent)).card := by
  rw [State.models_part live owns]
  split
  · rename_i nothing
    rw [nothing]
    rfl
  · rfl

/-- The part of an agent has what the agent refers to. -/
theorem State.exists_part (live : s.models p = some m)
    (owns : ∀ h, h ∈ owners ↔ s.self h = some p) (points : (s.part owner agent).self h = some p) :
    ∃ k, (s.part owner agent).models p = some k ∧ k.alloc = m.alloc := by
  have member : h ∈ owners.filter (owner · = agent) := by
    rw [Finset.mem_filter, owns]
    exact State.self_part_iff.mp points
  rw [State.models_part live owns, if_neg (Finset.card_ne_zero_of_mem member)]
  exact ⟨_, rfl, rfl⟩

/-- A model of a part is one of the state, with the references of the agent. -/
theorem Consistent.of_part (inv : Consistent traits [] s)
    (held : (s.part owner agent).models p = some k) :
    ∃ m, s.models p = some m ∧ k.alloc = m.alloc ∧ k.value = m.value ∧ k.Complete ∧
      ∃ owners : Finset ι, (∀ h, h ∈ owners ↔ (s.part owner agent).self h = some p) ∧
        k.count = owners.card := by
  obtain ⟨m, live, -⟩ := Option.bind_eq_some_iff.mp held
  obtain ⟨⟨owners, owns, -⟩, -, -⟩ := inv.accounted live
  have complete := inv.complete live
  rw [State.models_part live owns] at held
  split at held
  · cases held
  · rename_i several
    obtain rfl := Option.some.inj held
    refine ⟨m, live, rfl, rfl, ⟨Nat.pos_of_ne_zero several, complete.2⟩,
      owners.filter (owner · = agent), fun h => ?_, rfl⟩
    rw [Finset.mem_filter, owns, State.self_part_iff]

/-- Each part of a consistent state is consistent. -/
theorem Consistent.part (inv : Consistent traits [] s) (agent : Agent) :
    Consistent traits [] (s.part owner agent) where
  accounted := by
    intro p k held
    obtain ⟨m, -, -, -, complete, owners, owns, count⟩ := inv.of_part held
    exact ⟨⟨owners, owns, count⟩, complete.1, Option.ne_none_iff_exists'.mp complete.2⟩
  pointed := by
    intro h o p found points
    have self := (State.self_of_handles found).trans points
    rw [State.handles_part, Option.ite_none_right_eq_some] at found
    obtain ⟨m, live, agrees⟩ := inv.pointed found.2 points
    obtain ⟨⟨owners, owns, -⟩, -, -⟩ := inv.accounted live
    obtain ⟨k, held, same⟩ := State.exists_part live owns self
    exact ⟨k, held, same ▸ agrees⟩
  held := nofun
  fresh := by
    intro p unused
    rw [State.part]
    simp only [inv.fresh unused, Option.bind_none]

/-- The parts of a consistent state make it up. -/
theorem Coherent.part [Fintype Agent] (inv : Consistent traits [] s)
    (recorded : Recorded s record) :
    Coherent owner (s.part owner) (s, record) where
  handles := fun h => (if_pos rfl).symm
  own := fun found => (Option.ite_none_right_eq_some.mp found).1
  next := fun _ => le_rfl
  split := by
    intro p
    cases live : s.models p with
    | none =>
        intro agent
        simp only [State.part, live, Option.bind_none]
    | some m =>
        obtain ⟨⟨owners, owns, count⟩, -, -⟩ := inv.accounted live
        constructor
        · rw [count, List.count_nil, Nat.add_zero]
          simp only [references_part live owns]
          exact Finset.card_eq_sum_card_fiberwise fun _ _ => Finset.mem_coe.mpr (Finset.mem_univ _)
        · obtain ⟨h, points⟩ := inv.owned live
          have mine : (s.part owner (owner h)).self h = some p :=
            State.self_part_iff.mpr ⟨points, rfl⟩
          obtain ⟨k, held, -⟩ := State.exists_part live owns mine
          exact ⟨owner h, k, held⟩
        · intro agent k held
          obtain ⟨n, live', same, -⟩ := inv.of_part held
          obtain rfl := Option.some.inj (live.symm.trans live')
          exact same
        · intro agent k held _
          exact (inv.complete live).2
        · intro agent k held unfinished
          obtain ⟨-, -, -, -, complete, -⟩ := inv.of_part held
          exact absurd complete unfinished
  recorded := recorded

end Initial

end StdBitcoin.CopyOnWrite
