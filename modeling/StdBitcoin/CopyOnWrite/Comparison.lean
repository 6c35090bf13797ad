import StdBitcoin.CopyOnWrite.Exceptions

/-!
# Comparison and hashing

Objects are compared by their values, except that two which share a model are equal at
once, and that valueless ones are looked at no further. After any run the results are
those of the values that the objects show, so that sharing cannot be told from equality.
-/

namespace StdBitcoin.CopyOnWrite

open Effects Prog

variable {ι T A β : Type}

/-- `==`, `<=>` and `std::hash` of the value type, with what is expected of them. A result
of `<=>` is absent if it is unordered. -/
structure ValueRelations (T : Type) where
  eq : T → T → Bool
  threeWay : T → T → Option Ordering
  hash : T → UInt64
  eq_refl : ∀ v, eq v v
  threeWay_iff : ∀ {v w}, threeWay v w = some .eq ↔ eq v w
  hash_eq : ∀ {v w}, eq v w → hash v = hash w

/-- `synth_three_way`, where there is `<` only. -/
def synthThreeWay (less : T → T → Bool) (t u : T) : Option Ordering :=
  if less t u then some .lt else if less u t then some .gt else some .eq

/-- `operator*`. -/
def deref (o : Handle A) : Code ι T A T := do
  let p ← pointee o
  value p

/-- `identical_to`. -/
def identicalTo (left right : Handle A) : Code ι T A Bool := do
  assert (left.self.isSome && right.self.isSome)
  return left.self == right.self

/-- The comparison of two objects, given that of their being valueless and of their values. -/
def relate (valueless : Bool → Bool → β) (same : β) (values : T → T → β) (x y : ι) :
    Code ι T A β := do
  let left ← handle x
  let right ← handle y
  if left.self.isNone || right.self.isNone then
    return valueless left.self.isNone right.self.isNone
  else
    let identical ← identicalTo left right
    if identical then
      return same
    else
      let v ← deref left
      let w ← deref right
      return values v w

/-- A look at the value of an object that may be valueless. -/
def inspect (valueless : β) (look : T → β) (x : ι) : Code ι T A β := do
  let o ← handle x
  if o.self.isNone then
    return valueless
  else
    let v ← deref o
    return look v

section Members

variable (relations : ValueRelations T)

/-- `operator==(copy_on_write const&, copy_on_write const&)`. -/
def equal (x y : ι) : Code ι T A Bool := relate (fun l r => l == r) true relations.eq x y

/-- `operator<=>(copy_on_write const&, copy_on_write const&)`. -/
def threeWay (x y : ι) : Code ι T A (Option Ordering) :=
  relate (fun l r => some (compare (!l) (!r))) (some .eq) relations.threeWay x y

/-- `operator==(copy_on_write const&, U const&)`. -/
def equalValue (x : ι) (u : T) : Code ι T A Bool := inspect false (fun v => relations.eq v u) x

/-- `operator<=>(copy_on_write const&, U const&)`. -/
def threeWayValue (x : ι) (u : T) : Code ι T A (Option Ordering) :=
  inspect (some .lt) (fun v => relations.threeWay v u) x

/-- `std::hash<copy_on_write>`. -/
def hash (x : ι) : Code ι T A UInt64 := inspect 0xFFFFFFFFFFFFFFFF relations.hash x

end Members

section Seen

/-- Values are compared, and what is valueless by being so. -/
def relateSeen (valueless : Bool → Bool → β) (values : T → T → β) : Option T → Option T → β
  | some v, some w => values v w
  | v, w => valueless v.isNone w.isNone

namespace ValueRelations

variable (relations : ValueRelations T)

/-- The equality of two values, either of which may be missing. -/
def equalSeen : Option T → Option T → Bool := relateSeen (fun l r => l == r) relations.eq

/-- A missing value comes before the others. -/
def threeWaySeen : Option T → Option T → Option Ordering :=
  relateSeen (fun l r => some (compare (!l) (!r))) relations.threeWay

/-- The hash of what an object shows: all bits are set where it has no value. -/
def hashSeen (v : Option T) : UInt64 := v.elim 0xFFFFFFFFFFFFFFFF relations.hash

theorem equalSeen_self (v : Option T) : relations.equalSeen v v = true := by
  cases v with
  | none => rfl
  | some v => exact relations.eq_refl v

/-- The ordering says equal if and only if the equality does. -/
theorem threeWaySeen_iff (v w : Option T) :
    relations.threeWaySeen v w = some .eq ↔ relations.equalSeen v w = true := by
  cases v with
  | none =>
      cases w with
      | none => exact iff_of_true rfl rfl
      | some w => exact iff_of_false nofun nofun
  | some v =>
      cases w with
      | none => exact iff_of_false nofun nofun
      | some w => exact relations.threeWay_iff

/-- What is equal has one hash. -/
theorem hashSeen_eq {v w : Option T} (equal : relations.equalSeen v w = true) :
    relations.hashSeen v = relations.hashSeen w := by
  cases v with
  | none =>
      cases w with
      | none => rfl
      | some w => cases equal
  | some v =>
      cases w with
      | none => cases equal
      | some w => exact relations.hash_eq equal

end ValueRelations

end Seen

section Outcomes

variable {traits : AllocatorTraits A} {s : State ι T A} {loose : List Loc} {x y : ι}
  {o : Handle A} {v w : Option T} {thrown : State ι T A → Prop} {normal : β → State ι T A → Prop}

/-- An object shows a value exactly if it has a pointer. -/
theorem Consistent.shows_pointer (inv : Consistent traits loose s) (found : s.handles x = some o)
    (seen : s.observe x = some v) :
    (v = none ∧ o.self = none) ∨
      ∃ u p, v = some u ∧ o.self = some p ∧ s.valueAt p = some u := by
  rw [State.observe_of_handles found, Option.some.injEq] at seen
  cases points : o.self with
  | none =>
      rw [points] at seen
      exact .inl ⟨seen.symm, rfl⟩
  | some p =>
      obtain ⟨m, live, -⟩ := inv.pointed found points
      obtain ⟨u, -, value⟩ := inv.valueAt live
      rw [points, Option.bind_some, value] at seen
      exact .inr ⟨u, p, seen.symm, rfl, value⟩

variable [DecidableEq ι]

/-- Dereferencing gives the value. -/
theorem wp_deref {p : Loc} {v : T} {normal : T → State ι T A → Prop} (points : o.self = some p)
    (value : s.valueAt p = some v) :
    wp (exec traits) (deref o) normal thrown s ↔ normal v s := by
  rw [deref, wp_bind, wp_pointee points, wp_value value]

/-- The shortcut for a shared model gives what the values would. -/
theorem wp_relate {valueless : Bool → Bool → β} {same : β} {values : T → T → β}
    (inv : Consistent traits loose s) (reflexive : ∀ v, values v v = same)
    (first : s.observe x = some v) (second : s.observe y = some w) :
    wp (exec traits) (relate valueless same values x y) normal thrown s ↔
      normal (relateSeen valueless values v w) s := by
  obtain ⟨left, found⟩ := exists_handle (first ▸ Option.some_ne_none v)
  obtain ⟨right, other⟩ := exists_handle (second ▸ Option.some_ne_none w)
  rw [relate, wp_bind, wp_handle found, wp_bind, wp_handle other]
  rcases inv.shows_pointer found first with ⟨rfl, null⟩ | ⟨a, p, rfl, points, value⟩
  · rcases inv.shows_pointer other second with ⟨rfl, null'⟩ | ⟨b, q, rfl, points', -⟩
    · rw [null, null']
      rfl
    · rw [null, points']
      rfl
  · rcases inv.shows_pointer other second with ⟨rfl, null'⟩ | ⟨b, q, rfl, points', value'⟩
    · rw [points, null']
      rfl
    · rw [identicalTo, points, points']
      simp only [Option.isNone_some, Bool.or_self, Bool.false_eq_true, if_false, wp_bind,
        Option.isSome_some, Bool.and_self, wp_assert, wp_pure]
      split
      · rename_i identical
        obtain rfl := Option.some.inj (beq_iff_eq.mp identical)
        obtain rfl := Option.some.inj (value.symm.trans value')
        rw [wp_pure, relateSeen, reflexive]
      · rw [wp_bind, wp_deref points value, wp_bind, wp_deref points' value', wp_pure]
        rfl

/-- An inspection sees what the object shows and changes nothing. -/
theorem wp_inspect {valueless : β} {look : T → β} (inv : Consistent traits loose s)
    (seen : s.observe x = some v) :
    wp (exec traits) (inspect valueless look x) normal thrown s ↔
      normal (v.elim valueless look) s := by
  obtain ⟨o, found⟩ := exists_handle (seen ▸ Option.some_ne_none v)
  rw [inspect, wp_bind, wp_handle found]
  rcases inv.shows_pointer found seen with ⟨rfl, null⟩ | ⟨u, p, rfl, points, value⟩
  · rw [null]
    rfl
  · rw [points]
    simp only [Option.isNone_some, Bool.false_eq_true, if_false, wp_bind]
    rw [wp_deref points value]
    rfl

/-- What the comparisons and the hash of an object yield, without a change of the state, where
the objects show these values. -/
structure Compares (traits : AllocatorTraits A) (relations : ValueRelations T) (s : State ι T A)
    (x y : ι) (v w : Option T) : Prop where
  equal : ∀ faults, Prog.run (exec traits) faults (equal relations x y) s =
    some (some (relations.equalSeen v w), s)
  threeWay : ∀ faults, Prog.run (exec traits) faults (threeWay relations x y) s =
    some (some (relations.threeWaySeen v w), s)
  equalValue : ∀ u faults, Prog.run (exec traits) faults (equalValue relations x u) s =
    some (some (relations.equalSeen v (some u)), s)
  threeWayValue : ∀ u faults, Prog.run (exec traits) faults (threeWayValue relations x u) s =
    some (some (relations.threeWaySeen v (some u)), s)
  hash : ∀ faults, Prog.run (exec traits) faults (hash relations x) s =
    some (some (relations.hashSeen v), s)

/-- Every comparison of two objects is that of what they show. -/
theorem Consistent.compares (inv : Consistent traits loose s) (relations : ValueRelations T)
    (first : s.observe x = some v) (second : s.observe y = some w) :
    Compares traits relations s x y v w where
  equal := run_eq_of_wp ((wp_relate inv relations.eq_refl first second).mpr ⟨rfl, rfl⟩)
  threeWay := run_eq_of_wp ((wp_relate inv
    (fun v => relations.threeWay_iff.mpr (relations.eq_refl v)) first second).mpr ⟨rfl, rfl⟩)
  equalValue := by
    intro u
    refine run_eq_of_wp ((wp_inspect inv first).mpr ⟨?_, rfl⟩)
    cases v <;> rfl
  threeWayValue := by
    intro u
    refine run_eq_of_wp ((wp_inspect inv first).mpr ⟨?_, rfl⟩)
    cases v <;> rfl
  hash := run_eq_of_wp ((wp_inspect inv first).mpr ⟨rfl, rfl⟩)

end Outcomes

variable [DecidableEq ι] {traits : AllocatorTraits A} {values : ValueTraits T}

/-- A copy shows what its source shows. -/
def Op.Copies (this x : ι) (op : Op ι T A) : Prop :=
  op = .copy this x ∨ (∃ alloc, op = .copyWith this alloc x) ∨ op = .copyAssign this x

/-- After any run of operations that return or throw, comparing two objects compares what they
show, whether or not they share a model; the comparisons and the hash agree with each other, and
a copy equals its source. -/
theorem comparisons_of_run (relations : ValueRelations T) {ops : List (Op ι T A)}
    {x : State ι T A × Record ι T A}
    (run : Runs (Op.Happens traits values) ops (.empty, []) x) {i j : ι} {v w : Option T}
    (first : x.1.observe i = some v) (second : x.1.observe j = some w) :
    Compares traits relations x.1 i j v w ∧
      (relations.threeWaySeen v w = some .eq ↔ relations.equalSeen v w = true) ∧
      (relations.equalSeen v w = true → relations.hashSeen v = relations.hashSeen w) ∧
      ∀ k op faults y, Op.Copies k j op → op.Ready traits x.1 →
        Prog.run (execRecorded traits) faults (op.code traits values) x = some (some (), y) →
        ∀ faults, Prog.run (exec traits) faults (equal relations k j) y.1 =
          some (some true, y.1) := by
  have tidy : Tidy traits x :=
    run.preserves (fun _ _ _ tidy happens => happens.tidy tidy) .empty
  refine ⟨tidy.consistent.compares relations first second, relations.threeWaySeen_iff v w,
    relations.hashSeen_eq, fun k op faults y copies ready returns => ?_⟩
  have reached : op.Happens traits values x y := ⟨ready, faults, _, returns⟩
  have inv := (reached.tidy tidy).consistent
  have kept : ¬ op.Discloses traits x.1 := by
    rcases copies with rfl | ⟨alloc, rfl⟩ | rfl <;> exact not_false
  obtain ⟨result, z, outcome, post⟩ :=
    run_of_wp (tidy.consistent.wp_outcome values ready kept) faults
  obtain ⟨rfl, rfl⟩ := Prod.mk.inj (Option.some.inj (returns.symm.trans outcome))
  have seen : y.1.observe = Function.update x.1.observe k (x.1.observe j) := by
    rcases copies with rfl | ⟨alloc, rfl⟩ | rfl <;> exact post
  have copied : y.1.observe k = some w := by
    rw [seen, Function.update_self, second]
  have source : y.1.observe j = some w := by
    by_cases same : j = k
    · rw [same, copied]
    · rw [seen, Function.update_of_ne same, second]
  rw [← relations.equalSeen_self w]
  exact (inv.compares relations copied source).equal

namespace Sample

/-- Sequences are compared by their sizes, for which there is `<` only. -/
def bySize : ValueRelations (List Nat) where
  eq := fun v w => v.length == w.length
  threeWay := synthThreeWay fun v w => decide (v.length < w.length)
  hash := fun v => UInt64.ofNat v.length
  eq_refl := fun _ => beq_self_eq_true _
  threeWay_iff := by
    intro v w
    rw [synthThreeWay, beq_iff_eq]
    split <;> rename_i less <;> rw [decide_eq_true_iff] at less
    · exact iff_of_false nofun less.ne
    · split <;> rename_i greater <;> rw [decide_eq_true_iff] at greater
      · exact iff_of_false nofun (Ne.symm greater.ne)
      · exact iff_of_true rfl (by omega)
  hash_eq := fun equal => congrArg UInt64.ofNat (beq_iff_eq.mp equal)

end Sample

/-- Two vectors of different lengths, and a copy of the first in place of the second. -/
theorem comparisons_of_run_thrown :
    ∃ x y, Runs (Op.Happens Sample.resourceTraits Sample.sequenceTraits) Sample.thrown
        (.empty, []) x ∧
      Compares Sample.resourceTraits Sample.bySize x.1 0 1 (some [5]) (some [8, 5]) ∧
      Prog.run (execRecorded Sample.resourceTraits) []
        ((Op.copyAssign 1 0).code Sample.resourceTraits Sample.sequenceTraits) x =
          some (some (), y) ∧
      Prog.run (exec Sample.resourceTraits) [] (equal Sample.bySize 1 0) y.1 =
        some (some true, y.1) := by
  have run : ∃ x y, Runs (Op.Happens Sample.resourceTraits Sample.sequenceTraits) Sample.thrown
        (.empty, []) x ∧
      x.1.observe 0 = some (some [5]) ∧ x.1.observe 1 = some (some [8, 5]) ∧
      (Op.copyAssign 1 0 : Op Nat (List Nat) Nat).Ready Sample.resourceTraits x.1 ∧
      Prog.run (execRecorded Sample.resourceTraits) []
        ((Op.copyAssign 1 0).code Sample.resourceTraits Sample.sequenceTraits) x =
          some (some (), y) := by
    refine ⟨_, _, .cons ⟨rfl, [], _, rfl⟩ (.cons ⟨⟨rfl, _, rfl⟩, [], _, rfl⟩
      (.cons ⟨rfl, [], _, rfl⟩ (.cons ⟨⟨_, rfl⟩, [], _, rfl⟩ (.nil _)))),
      rfl, rfl, ⟨⟨_, rfl⟩, _, rfl⟩, rfl⟩
  obtain ⟨x, y, run, first, second, ready, returns⟩ := run
  obtain ⟨compares, -, -, -⟩ := comparisons_of_run Sample.bySize run first second
  obtain ⟨-, -, -, copies⟩ := comparisons_of_run Sample.bySize run second first
  exact ⟨x, y, run, compares, returns, copies 1 _ [] y (.inr (.inr rfl)) ready returns []⟩

end StdBitcoin.CopyOnWrite
