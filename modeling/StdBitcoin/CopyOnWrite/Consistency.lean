import Mathlib.Data.Finset.Card
import StdBitcoin.CopyOnWrite.Heap

/-!
# Consistent states

In a consistent state every model counts the references to it: those of the handles
that point to it, and those that the running program holds in its own variables. The
state changes that the operations are made of move references between the two.
-/

namespace StdBitcoin.CopyOnWrite

variable {ι T A : Type}

/-- A handle counts for the model it points to. -/
theorem count_toList (v : Option Loc) (p : Loc) :
    v.toList.count p = if v = some p then 1 else 0 := by
  cases v with
  | none => rfl
  | some q => simp [List.count_singleton]

/-- A model counts the references of the handles and the loose ones. -/
structure Accounted (loose : List Loc) (s : State ι T A) (p : Loc) (m : Model T A) : Prop where
  counted : ∃ owners : Finset ι, (∀ h, h ∈ owners ↔ s.self h = some p) ∧
    m.count = owners.card + loose.count p
  positive : 0 < m.count
  constructed : ∃ v, m.value = some v

/-- Every model is accounted for, and every reference has its model. -/
structure Consistent (traits : AllocatorTraits A) (loose : List Loc) (s : State ι T A) : Prop where
  accounted : ∀ {p m}, s.models p = some m → Accounted loose s p m
  pointed : ∀ {h o p}, s.handles h = some o → o.self = some p →
    ∃ m, s.models p = some m ∧ traits.eq o.alloc m.alloc
  held : ∀ {p}, p ∈ loose → ∃ m, s.models p = some m
  fresh : ∀ {p}, s.next ≤ p → s.models p = none

namespace State

/-- A new model. -/
def new (s : State ι T A) (alloc : A) (v : T) : State ι T A :=
  { s.setModel s.next (some ⟨1, some v, alloc⟩) with next := s.next + 1 }

/-- A reference is given up, and the last one takes the model with it. -/
def release (s : State ι T A) (v : Option Loc) : State ι T A :=
  match v.bind fun p => (s.models p).map (p, ·) with
  | none => s
  | some (p, m) =>
      s.setModel p (if m.count = 1 then none else some { m with count := m.count - 1 })

/-- Giving up a reference lowers the count, and the last one takes the model away. -/
theorem release_some {s : State ι T A} {p : Loc} {m : Model T A} (found : s.models p = some m) :
    s.release (some p) =
      s.setModel p (if m.count = 1 then none else some { m with count := m.count - 1 }) := by
  simp [release, found]

@[simp] theorem release_none (s : State ι T A) : s.release none = s := rfl

/-- Giving up a reference leaves the other models alone. -/
theorem models_release_of_ne {s : State ι T A} {v : Option Loc} {q : Loc} (different : v ≠ some q) :
    (s.release v).models q = s.models q := by
  unfold release
  split
  · rfl
  · rename_i p m found
    obtain ⟨r, rfl, read⟩ := Option.bind_eq_some_iff.mp found
    obtain ⟨n, -, same⟩ := Option.map_eq_some_iff.mp read
    obtain ⟨rfl, rfl⟩ := Prod.mk.inj same
    exact Function.update_of_ne (fun equal => different (congrArg some equal.symm)) ..

theorem handles_release (s : State ι T A) (v : Option Loc) : (s.release v).handles = s.handles := by
  unfold release
  split <;> rfl

@[simp] theorem self_new (s : State ι T A) (alloc : A) (v : T) (h : ι) :
    (s.new alloc v).self h = s.self h := rfl

theorem self_of_handles {s : State ι T A} {h : ι} {o : Handle A} (found : s.handles h = some o) :
    s.self h = o.self := by
  rw [self, found]
  rfl

/-- Where there is no object and where there is one are different places. -/
theorem ne_of_vacant {s : State ι T A} {h k : ι} {o : Handle A} (vacant : s.handles h = none)
    (found : s.handles k = some o) : h ≠ k := by
  rintro rfl
  rw [vacant] at found
  cases found

theorem models_setModel_of_ne {s : State ι T A} {p q : Loc} (different : q ≠ p)
    (m : Option (Model T A)) : (s.setModel p m).models q = s.models q :=
  Function.update_of_ne different ..

@[simp] theorem models_setModel_self (s : State ι T A) (p : Loc) (m : Option (Model T A)) :
    (s.setModel p m).models p = m :=
  Function.update_self ..

section Places

variable [DecidableEq ι]

/-- The object at a place gets new members, or is gone, and its reference is given up. -/
def replace (s : State ι T A) (h : ι) (o : Option (Handle A)) : State ι T A :=
  (s.setHandle h o).release (s.self h)

@[simp] theorem handles_setHandle_self (s : State ι T A) (h : ι) (o : Option (Handle A)) :
    (s.setHandle h o).handles h = o :=
  Function.update_self ..

theorem handles_setHandle_of_ne {s : State ι T A} {h k : ι} (different : k ≠ h)
    (o : Option (Handle A)) : (s.setHandle h o).handles k = s.handles k :=
  Function.update_of_ne different ..

theorem setHandle_idem (s : State ι T A) (h : ι) (o o' : Option (Handle A)) :
    (s.setHandle h o).setHandle h o' = s.setHandle h o' := by
  simp only [setHandle, Function.update_idem]

theorem setHandle_comm {h k : ι} (different : h ≠ k) (s : State ι T A)
    (o o' : Option (Handle A)) :
    (s.setHandle h o).setHandle k o' = (s.setHandle k o').setHandle h o := by
  rw [setHandle, setHandle, Function.update_comm different]
  rfl

theorem setHandle_eq_self {s : State ι T A} {h : ι} {o : Option (Handle A)}
    (same : s.handles h = o) : s.setHandle h o = s := by
  rw [setHandle, ← same, Function.update_eq_self]

@[simp] theorem models_setHandle (s : State ι T A) (h : ι) (o : Option (Handle A)) :
    (s.setHandle h o).models = s.models := rfl

/-- The handles and the models are apart. -/
theorem setHandle_release (s : State ι T A) (v : Option Loc) (h : ι) (o : Option (Handle A)) :
    (s.release v).setHandle h o = (s.setHandle h o).release v := by
  unfold release
  rw [models_setHandle]
  split <;> rfl

theorem handles_replace (s : State ι T A) (h : ι) (o : Option (Handle A)) :
    (s.replace h o).handles = Function.update s.handles h o := by
  rw [replace, handles_release]
  rfl

theorem handles_replace_of_ne {s : State ι T A} {h k : ι} (different : k ≠ h)
    (o : Option (Handle A)) : (s.replace h o).handles k = s.handles k := by
  rw [handles_replace, Function.update_of_ne different]

theorem self_setHandle_of_ne {s : State ι T A} {h k : ι} (different : k ≠ h)
    (o : Option (Handle A)) : (s.setHandle h o).self k = s.self k := by
  rw [self, handles_setHandle_of_ne different, self]

@[simp] theorem self_setHandle_self (s : State ι T A) (h : ι) (o : Option (Handle A)) :
    (s.setHandle h o).self h = o.bind Handle.self := by
  rw [self, handles_setHandle_self]

end Places

end State

namespace Consistent

variable {traits : AllocatorTraits A} {loose loose' : List Loc} {s : State ι T A} {p : Loc}
  {m : Model T A}

/-- The state without objects is consistent. -/
theorem empty : Consistent traits [] (State.empty : State ι T A) where
  accounted := nofun
  pointed := nofun
  held := nofun
  fresh := fun _ => rfl

/-- A handle with a pointer points to a live model. -/
theorem pointed_self (inv : Consistent traits loose s) {h : ι} (points : s.self h = some p) :
    ∃ m, s.models p = some m := by
  obtain ⟨o, found, points⟩ := Option.bind_eq_some_iff.mp points
  obtain ⟨m, live, _⟩ := inv.pointed found points
  exact ⟨m, live⟩

/-- Between operations a model has a handle that points to it. -/
theorem owned (inv : Consistent traits [] s) (found : s.models p = some m) :
    ∃ h, s.self h = some p := by
  obtain ⟨⟨owners, owns, count⟩, positive, -⟩ := inv.accounted found
  rw [count, List.count_nil] at positive
  obtain ⟨h, owner⟩ := Finset.card_pos.mp positive
  exact ⟨h, (owns h).mp owner⟩

/-- What has a model is not the next address. -/
theorem used (inv : Consistent traits loose s) (found : s.models p = some m) : p ≠ s.next := by
  intro same
  rw [same, inv.fresh le_rfl] at found
  cases found

/-- What has a model is below the next address. -/
theorem lt_next (inv : Consistent traits loose s) (found : s.models p = some m) :
    p < s.next := by
  by_contra beyond
  rw [inv.fresh (Nat.le_of_not_lt beyond)] at found
  cases found

/-- The model of a sole reference is not pointed to by a second handle. -/
theorem sole (inv : Consistent traits loose s) (found : s.models p = some m) (one : m.count = 1)
    {h k : ι} (points : s.self h = some p) (also : s.self k = some p) : k = h := by
  obtain ⟨owners, owns, count⟩ := (inv.accounted found).counted
  have few : owners.card ≤ 1 := by omega
  exact Finset.card_le_one.mp few k ((owns k).mpr also) h ((owns h).mpr points)

/-- The references to a model determine its count. -/
theorem count_eq {s' : State ι T A} {m' : Model T A} (inv : Consistent traits loose s)
    (inv' : Consistent traits loose' s') (found : s.models p = some m)
    (found' : s'.models p = some m') (same : s'.self = s.self)
    (free : loose'.count p = loose.count p) : m'.count = m.count := by
  obtain ⟨owners, owns, count⟩ := (inv.accounted found).counted
  obtain ⟨owners', owns', count'⟩ := (inv'.accounted found').counted
  have equal : owners' = owners := Finset.ext fun h => by rw [owns', owns, same]
  rw [count', count, equal, free]

/-- No handle points to the model of a sole loose reference. -/
theorem unowned (inv : Consistent traits (p :: loose) s) (found : s.models p = some m)
    (one : m.count = 1) : p ∉ loose ∧ ∀ h, s.self h ≠ some p := by
  obtain ⟨owners, owns, count⟩ := (inv.accounted found).counted
  rw [one, List.count_cons_self] at count
  have none : owners = ∅ := Finset.card_eq_zero.mp (by omega)
  refine ⟨List.count_eq_zero.mp (by omega), fun h points => ?_⟩
  exact absurd ((owns h).mpr points) (none ▸ Finset.notMem_empty h)

/-- A model is overwritten together with the loose references to it. -/
theorem setModel (inv : Consistent traits loose s) (found : s.models p = some m)
    {m' : Model T A} (alloc : m'.alloc = m.alloc) (constructed : ∃ v, m'.value = some v)
    (positive : 0 < m'.count) (balance : m'.count + loose.count p = m.count + loose'.count p)
    (others : ∀ q, q ≠ p → loose'.count q = loose.count q) :
    Consistent traits loose' (s.setModel p (some m')) where
  accounted := by
    intro q n live
    by_cases same : q = p
    · subst same
      obtain rfl := Option.some.inj ((State.models_setModel_self ..).symm.trans live)
      obtain ⟨owners, owns, count⟩ := (inv.accounted found).counted
      exact ⟨⟨owners, owns, by omega⟩, positive, constructed⟩
    · rw [State.models_setModel_of_ne same] at live
      obtain ⟨⟨owners, owns, count⟩, positive, constructed⟩ := inv.accounted live
      exact ⟨⟨owners, owns, others q same ▸ count⟩, positive, constructed⟩
  pointed := by
    intro h o q alive points
    by_cases same : q = p
    · subst same
      obtain ⟨n, live, agrees⟩ := inv.pointed alive points
      obtain rfl := Option.some.inj (found.symm.trans live)
      exact ⟨m', State.models_setModel_self .., alloc ▸ agrees⟩
    · rw [State.models_setModel_of_ne same]
      exact inv.pointed alive points
  held := by
    intro q member
    by_cases same : q = p
    · subst same
      exact ⟨m', State.models_setModel_self ..⟩
    · rw [State.models_setModel_of_ne same]
      rw [← List.count_pos_iff, others q same, List.count_pos_iff] at member
      exact inv.held member
  fresh := by
    intro q unused
    by_cases same : q = p
    · subst same
      rw [inv.fresh unused] at found
      cases found
    · rw [State.models_setModel_of_ne same]
      exact inv.fresh unused

/-- Another value, whoever points to it. -/
theorem setValue (inv : Consistent traits loose s) (found : s.models p = some m) (v : T) :
    Consistent traits loose (s.setModel p (some { m with value := some v })) := by
  have positive := (inv.accounted found).positive
  exact inv.setModel found rfl ⟨v, rfl⟩ positive rfl fun _ _ => rfl

/-- One more loose reference. -/
theorem acquire (inv : Consistent traits loose s) (found : s.models p = some m) :
    Consistent traits (p :: loose) (s.setModel p (some { m with count := m.count + 1 })) := by
  have constructed := (inv.accounted found).constructed
  refine inv.setModel found rfl constructed (Nat.succ_pos _) ?_ fun q different => ?_
  · rw [List.count_cons_self]
    exact Nat.add_right_comm ..
  · exact List.count_cons_of_ne different.symm

/-- A new model starts with one loose reference. -/
theorem new (inv : Consistent traits loose s) (alloc : A) (v : T) :
    Consistent traits (s.next :: loose) (s.new alloc v) where
  accounted := by
    intro q n live
    by_cases same : q = s.next
    · subst same
      obtain rfl := Option.some.inj ((State.models_setModel_self ..).symm.trans live)
      refine ⟨⟨∅, fun h => ?_, ?_⟩, Nat.one_pos, v, rfl⟩
      · refine iff_of_false (Finset.notMem_empty h) fun points => ?_
        obtain ⟨m, found⟩ := inv.pointed_self points
        exact inv.used found rfl
      · have absent : s.next ∉ loose := by
          intro member
          obtain ⟨m, found⟩ := inv.held member
          exact inv.used found rfl
        rw [List.count_cons_self, List.count_eq_zero.mpr absent]
        rfl
    · obtain ⟨⟨owners, owns, count⟩, positive, constructed⟩ :=
        inv.accounted ((State.models_setModel_of_ne same _).symm.trans live)
      refine ⟨⟨owners, owns, ?_⟩, positive, constructed⟩
      rw [List.count_cons_of_ne (Ne.symm same)]
      exact count
  pointed := by
    intro h o q alive points
    obtain ⟨m, found, agrees⟩ := inv.pointed alive points
    exact ⟨m, (State.models_setModel_of_ne (inv.used found) _).trans found, agrees⟩
  held := by
    intro q member
    by_cases same : q = s.next
    · subst same
      exact ⟨_, State.models_setModel_self ..⟩
    · obtain ⟨m, found⟩ := inv.held (List.mem_of_ne_of_mem same member)
      exact ⟨m, (State.models_setModel_of_ne same _).trans found⟩
  fresh := by
    intro q unused
    have different : q ≠ s.next := (Nat.lt_of_succ_le unused).ne'
    exact (State.models_setModel_of_ne different _).trans (inv.fresh (Nat.le_of_succ_le unused))

/-- A loose reference is given up, and the last reference takes the model with it. -/
theorem release {v : Option Loc} (inv : Consistent traits (v.toList ++ loose) s) :
    Consistent traits loose (s.release v) := by
  cases v with
  | none => exact inv
  | some p =>
      obtain ⟨m, found⟩ := inv.held List.mem_cons_self
      rw [State.release_some found]
      split
      · rename_i one
        obtain ⟨spent, free⟩ := inv.unowned found one
        have kept {q : Loc} (reached : (∃ h, s.self h = some q) ∨ q ∈ loose) : q ≠ p := by
          rintro rfl
          rcases reached with ⟨h, points⟩ | member
          · exact free h points
          · exact spent member
        constructor
        · intro q n live
          have different : q ≠ p := by
            rintro rfl
            rw [State.models_setModel_self] at live
            cases live
          rw [State.models_setModel_of_ne different] at live
          obtain ⟨⟨owners, owns, count⟩, positive, constructed⟩ := inv.accounted live
          refine ⟨⟨owners, owns, ?_⟩, positive, constructed⟩
          rw [count]
          exact congrArg _ (List.count_cons_of_ne different.symm)
        · intro h o q alive points
          rw [State.models_setModel_of_ne
            (kept (.inl ⟨h, (State.self_of_handles alive).trans points⟩))]
          exact inv.pointed alive points
        · intro q member
          rw [State.models_setModel_of_ne (kept (.inr member))]
          exact inv.held (List.mem_cons_of_mem p member)
        · intro q unused
          by_cases same : q = p
          · exact same ▸ State.models_setModel_self ..
          · rw [State.models_setModel_of_ne same]
            exact inv.fresh unused
      · rename_i several
        obtain ⟨-, positive, constructed⟩ := inv.accounted found
        refine inv.setModel found rfl constructed (by dsimp only; omega) ?_ fun q different => ?_
        · change m.count - 1 + (p :: loose).count p = _
          rw [List.count_cons_self]
          omega
        · exact (List.count_cons_of_ne different.symm).symm

/-- What has another loose reference outlives a release. -/
theorem kept {v : Option Loc} (inv : Consistent traits (v.toList ++ loose) s) (member : p ∈ loose)
    (found : s.models p = some m) :
    ∃ m', (s.release v).models p = some m' ∧ m'.alloc = m.alloc ∧ m'.value = m.value := by
  cases v with
  | none => exact ⟨m, found, rfl, rfl⟩
  | some q =>
      obtain ⟨n, live⟩ := inv.held List.mem_cons_self
      rw [State.release_some live]
      by_cases same : p = q
      · subst same
        obtain rfl := Option.some.inj (found.symm.trans live)
        have several : m.count ≠ 1 := fun one => (inv.unowned found one).1 member
        rw [if_neg several]
        exact ⟨_, State.models_setModel_self .., rfl, rfl⟩
      · exact ⟨m, (State.models_setModel_of_ne same _).trans found, rfl, rfl⟩

section Places

variable [DecidableEq ι] {h : ι} {o : Option (Handle A)}

/-- References move between a handle and the running program. -/
theorem setHandle (inv : Consistent traits loose s)
    (live : ∀ o' p, o = some o' → o'.self = some p →
      ∃ m, s.models p = some m ∧ traits.eq o'.alloc m.alloc)
    (balance : ∀ p, ((o.bind Handle.self).toList ++ loose').count p =
      ((s.self h).toList ++ loose).count p) :
    Consistent traits loose' (s.setHandle h o) where
  accounted := by
    intro q n found
    obtain ⟨⟨owners, owns, count⟩, positive, constructed⟩ := inv.accounted found
    have shift := balance q
    rw [List.count_append, List.count_append, count_toList, count_toList] at shift
    refine ⟨⟨if o.bind Handle.self = some q then insert h owners else owners.erase h,
      fun k => ?_, ?_⟩, positive, constructed⟩
    · by_cases same : k = h
      · subst same
        rw [State.self_setHandle_self]
        split
        · rename_i points
          exact iff_of_true (Finset.mem_insert_self ..) points
        · rename_i points
          exact iff_of_false (Finset.notMem_erase _ _) points
      · rw [State.self_setHandle_of_ne same, ← owns k]
        split
        · exact Finset.mem_insert.trans (or_iff_right same)
        · exact Finset.mem_erase.trans (and_iff_right same)
    · by_cases before : s.self h = some q
      · have owner := (owns h).mpr before
        have nonzero := Finset.card_pos.mpr ⟨h, owner⟩
        rw [if_pos before] at shift
        split at shift
        · rw [if_pos ‹_›, Finset.insert_eq_of_mem owner]
          omega
        · rw [if_neg ‹_›, Finset.card_erase_of_mem owner]
          omega
      · have stranger := mt (owns h).mp before
        rw [if_neg before] at shift
        split at shift
        · rw [if_pos ‹_›, Finset.card_insert_of_notMem stranger]
          omega
        · rw [if_neg ‹_›, Finset.erase_eq_of_notMem stranger]
          omega
  pointed := by
    intro k o' q alive points
    by_cases same : k = h
    · subst same
      rw [State.handles_setHandle_self] at alive
      exact live o' q alive points
    · rw [State.handles_setHandle_of_ne same] at alive
      exact inv.pointed alive points
  held := by
    intro q member
    have among : q ∈ (s.self h).toList ++ loose := by
      rw [← List.count_pos_iff, ← balance q, List.count_pos_iff]
      exact List.mem_append_right _ member
    rcases List.mem_append.mp among with points | member
    · exact inv.pointed_self (Option.mem_toList.mp points)
    · exact inv.held member
  fresh := inv.fresh

/-- A handle takes over a loose reference, and its own becomes loose. -/
theorem exchange (inv : Consistent traits ((o.bind Handle.self).toList ++ loose) s)
    (live : ∀ o' p, o = some o' → o'.self = some p →
      ∃ m, s.models p = some m ∧ traits.eq o'.alloc m.alloc) :
    Consistent traits ((s.self h).toList ++ loose) (s.setHandle h o) := by
  refine inv.setHandle live fun p => ?_
  simp only [List.count_append]
  exact Nat.add_left_comm ..

/-- A handle takes over a loose reference and gives up its own. -/
theorem replace (inv : Consistent traits ((o.bind Handle.self).toList ++ loose) s)
    (live : ∀ o' p, o = some o' → o'.self = some p →
      ∃ m, s.models p = some m ∧ traits.eq o'.alloc m.alloc) :
    Consistent traits loose (s.replace h o) :=
  release (inv.exchange live)

end Places

end Consistent

end StdBitcoin.CopyOnWrite
