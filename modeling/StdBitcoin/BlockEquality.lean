import StdBitcoin.Serdes.Narrowing

/-!
# Block equality

Blocks compare by their headers and by the witness hashes of their transactions. Their
bytes agree as soon as they are equal, and a difference that the bytes do not show is one
of the times.
-/

namespace StdBitcoin

/-- The defaulted operator compares the headers and, in order, the transactions. -/
instance : BEq Block :=
  ⟨fun lhs rhs => lhs.header == rhs.header && lhs.transactions.toList == rhs.transactions.toList⟩

/-- Sequences are equal when what decides the equality of their elements is. -/
theorem beq_iff_map_eq {α β : Type} [BEq α] {f : α → β} {xs ys : List α}
    (each : ∀ x ∈ xs, ∀ y ∈ ys, (x == y) = true ↔ f x = f y) :
    (xs == ys) = true ↔ xs.map f = ys.map f := by
  induction xs generalizing ys with
  | nil => cases ys <;> simp
  | cons x xs ih =>
      cases ys with
      | nil => simp
      | cons y ys =>
          have others := ih fun u u_member v v_member =>
            each u (List.mem_cons_of_mem _ u_member) v (List.mem_cons_of_mem _ v_member)
          rw [List.cons_beq_cons, Bool.and_eq_true, List.map_cons, List.map_cons, List.cons.injEq,
            each x List.mem_cons_self y List.mem_cons_self, others]

namespace BlockHeader

/-- Two headers with the same bytes differ in the upper half of the time, if at all. -/
theorem eq_iff_narrowed (a b : BlockHeader) : a = b ↔ a.narrowed = b.narrowed ∧ a.time = b.time := by
  constructor
  · rintro rfl
    exact ⟨rfl, rfl⟩
  · rintro ⟨narrow, time⟩
    obtain ⟨version, parent, root, -, bits, nonce⟩ := (BlockHeader.ext_iff ..).mp narrow
    exact BlockHeader.ext version parent root time bits nonce

end BlockHeader

section Hashing

variable {H : List UInt8 → ByteArray32}

/-- The transactions of the list have no two serialisations with one hash. -/
def NoCollision (H : List UInt8 → ByteArray32) (txs : List Transaction) : Prop :=
  Set.InjOn H {bytes | ∃ tx ∈ txs, bytes = (encodeTx tx).flatten}

/-- Composed transactions compare equal if and only if their narrowed forms are. -/
theorem Transaction.Composed.beq_iff {x y : Transaction} (first : x.Composed H)
    (second : y.Composed H)
    (no_collision : H (encodeTx x).flatten = H (encodeTx y).flatten →
      (encodeTx x).flatten = (encodeTx y).flatten) :
    (x == y) = true ↔ x.observe.narrowed = y.observe.narrowed := by
  have hashed {tx : Transaction} (composed : tx.Composed H) :
      tx.impl.witnessHash = H (encodeTx tx).flatten := by
    rw [composed.built]
    rfl
  rw [Transaction.beq_eq_true_iff, hashed first, hashed second,
    ← Transaction.flatten_encodeTx_eq_iff_narrowed H first.nonempty second.nonempty,
    ← first.built, ← second.built]
  exact ⟨no_collision, congrArg H⟩

/-- Blocks are equal when nothing but the upper half of a time could tell them apart, and it
does not. -/
theorem Block.Composed.beq_iff {a b : Block} (first : a.Composed H) (second : b.Composed H)
    (no_collision : NoCollision H (a.transactions.toList ++ b.transactions.toList)) :
    (a == b) = true ↔ a.narrowed H = b.narrowed H ∧ a.header.time = b.header.time := by
  have transactions : (a.transactions.toList == b.transactions.toList) = true ↔
      (a.narrowed H).transactions = (b.narrowed H).transactions := by
    rw [← StdVector.toList_inj]
    refine beq_iff_map_eq fun x x_member y y_member => ?_
    rw [(first x x_member).beq_iff (second y y_member)]
    · exact ⟨congrArg _, congrArg Transaction.observe⟩
    · exact fun same => no_collision ⟨x, List.mem_append_left _ x_member, rfl⟩
        ⟨y, List.mem_append_right _ y_member, rfl⟩ same
  have parts : (a == b) = true ↔ a.header = b.header ∧
      (a.transactions.toList == b.transactions.toList) = true := by
    change (a.header == b.header && _) = true ↔ _
    rw [Bool.and_eq_true, beq_iff_eq]
  have narrow : a.narrowed H = b.narrowed H ↔ a.header.narrowed = b.header.narrowed ∧
      (a.narrowed H).transactions = (b.narrowed H).transactions :=
    (Block.mk.injEq ..).to_iff
  rw [parts, transactions, BlockHeader.eq_iff_narrowed, narrow]
  tauto

/-- Equality of blocks is equality of their bytes and of their times. -/
theorem beq_iff_serialize_eq {a b : Block} (first : a.Composed H) (second : b.Composed H)
    (no_collision : NoCollision H (a.transactions.toList ++ b.transactions.toList)) :
    (a == b) = true ↔
      written (serializeBlock a vectorSink) = written (serializeBlock b vectorSink) ∧
        a.header.time = b.header.time := by
  rw [first.beq_iff second no_collision, written_serializeBlock, written_serializeBlock,
    Block.flatten_encodeBlock_eq_iff_narrowed first second]

end Hashing

namespace Sample

/-- A block of one transaction, with the given time. -/
def timed (time : Int64) : Block := ⟨{ header with time }, ⟨[transaction stack], by decide⟩⟩

theorem composed_timed (time : Int64) : (timed time).Composed zeroHash := by
  intro tx member
  obtain rfl := List.mem_singleton.mp member
  exact ⟨rfl, List.cons_ne_nil _ _⟩

/-- The sample blocks hold one and the same transaction. -/
theorem noCollision_timed (first second : Int64) : NoCollision zeroHash
    ((timed first).transactions.toList ++ (timed second).transactions.toList) := by
  rintro _ ⟨x, x_member, rfl⟩ _ ⟨y, y_member, rfl⟩ -
  have only : ∀ tx ∈ (timed first).transactions.toList ++ (timed second).transactions.toList,
      tx = transaction stack := by
    intro tx member
    simpa [timed] using member
  rw [only x x_member, only y y_member]

end Sample

/-- The same bytes, but two blocks. -/
theorem beq_iff_serialize_eq_sample :
    (Sample.timed 0 == Sample.timed (2 ^ 32)) = true ↔
      written (serializeBlock (Sample.timed 0) vectorSink) =
        written (serializeBlock (Sample.timed (2 ^ 32)) vectorSink) ∧
      (Sample.timed 0).header.time = (Sample.timed (2 ^ 32)).header.time :=
  beq_iff_serialize_eq (Sample.composed_timed _) (Sample.composed_timed _)
    (Sample.noCollision_timed _ _)

namespace Sample

/-- The sample transaction as it is received, with identifiers that depend on its bytes. -/
def received (witness : StdVector (StdVector UInt8)) : Transaction :=
  .ofObservable lengthHash (transaction witness).observe

end Sample

end StdBitcoin
