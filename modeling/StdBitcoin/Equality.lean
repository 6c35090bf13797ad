import StdBitcoin.Serdes.RoundTrip
import StdBitcoin.Serdes.Separation

/-!
# Transaction equality

Transactions compare by the hash of their bytes. Within one layout the bytes
determine the transaction. The bytes of a transaction without inputs and with one
output can also be read as the extended layout, with the whole body of another
transaction in the place of the output.
-/

namespace StdBitcoin

open Codec Wire

namespace TxInput

/-- An input consists of its stripped form and its witness. -/
theorem zipWith_stripped (inputs : List TxInput) :
    List.zipWith withWitness (inputs.map stripped) (inputs.map witness) =
      inputs := by
  induction inputs with
  | nil => rfl
  | cons input inputs ih =>
      rw [List.map_cons, List.map_cons, List.zipWith_cons_cons, ih]
      rfl

end TxInput

namespace Transaction

namespace Observable

/-- Whether some input has a witness, which chooses the layout. -/
def witnessed (seen : Observable) : Bool := seen.inputs.toList.any TxInput.hasWitness

/-- The part of the bytes between the version, or the marker, and the locktime. -/
def body (seen : Observable) : List UInt8 :=
  (encodeRange seen.inputs encodeTxin ++ encodeRange seen.outputs encodeTxout ++
    if seen.witnessed then
      seen.inputs.toList.flatMap fun input => encodeRange input.witness encodeBytes
    else []).flatten

/-- Marker and flag of the extended layout. -/
def marker (seen : Observable) : List UInt8 := if seen.witnessed then [0, 1] else []

/-- Every outpoint index can be written in its four-byte field. -/
def IndicesFit (seen : Observable) : Prop :=
  ∀ input ∈ seen.inputs.toList, input.prevout.index.toNat < 2 ^ 32

/-- A transaction without inputs whose only output is written like the whole body of
a transaction with witnesses. -/
def Overlaps (bare other : Observable) : Prop :=
  bare.version = other.version ∧ bare.locktime = other.locktime ∧ bare.inputs = .empty ∧
    other.witnessed ∧ ∃ output, bare.outputs.toList = [output] ∧
      (encodeTxout output).flatten = other.body

end Observable

/-- The encoding from the content: version, marker, body and locktime. -/
theorem flatten_encodeTx_ofObservable (H : List UInt8 → ByteArray32) (seen : Observable) :
    (encodeTx (ofObservable H seen)).flatten = (encodeU32 seen.version).flatten ++
      (seen.marker ++ seen.body ++ (encodeU32 seen.locktime).flatten) := by
  have flag : (ofObservable H seen).hasWitness = seen.witnessed := rfl
  rw [encodeTx, encodeTxData, flag, Observable.marker, Observable.body]
  cases seen.witnessed <;> simp [encodeU8] <;> rfl

/-- The bytes agree exactly when version, locktime and what stands between do. -/
theorem flatten_encodeTx_eq_iff (H : List UInt8 → ByteArray32) (a b : Observable) :
    (encodeTx (ofObservable H a)).flatten = (encodeTx (ofObservable H b)).flatten ↔
      a.version = b.version ∧ a.locktime = b.locktime ∧
        a.marker ++ a.body = b.marker ++ b.body := by
  rw [flatten_encodeTx_ofObservable, flatten_encodeTx_ofObservable]
  constructor
  · intro same
    obtain ⟨version, rest⟩ := inverts_readU32.separates trivial trivial same
    have widths :
        (encodeU32 a.locktime).flatten.length = (encodeU32 b.locktime).flatten.length := by
      simp [encodeU32]
    obtain ⟨middle, locktime⟩ := List.append_inj' rest widths
    exact ⟨version, inverts_readU32.separates.inj trivial trivial locktime, middle⟩
  · rintro ⟨version, locktime, middle⟩
    rw [version, locktime, middle]

namespace Observable

variable {a b : Observable}

/-- Without witnesses all stacks are empty. -/
theorem inputs_unwitnessed (none : a.witnessed = false) :
    ∀ input ∈ a.inputs.toList, input.witness = .empty :=
  (TxInput.any_hasWitness_eq_false_iff _).mp none

/-- Inputs without their witnesses are told apart by what is written. -/
theorem IndicesFit.stripped {seen : Observable} (fits : seen.IndicesFit) :
    ∀ input ∈ (seen.inputs.map TxInput.stripped).toList,
      input.prevout.index.toNat < 2 ^ 32 ∧ input.witness = .empty := by
  intro input member
  obtain ⟨whole, present, rfl⟩ := List.mem_map.mp member
  exact ⟨fits whole present, rfl⟩

/-- Without witnesses the vectors determine inputs and outputs. -/
theorem eq_of_body_legacy (a_fits : a.IndicesFit) (b_fits : b.IndicesFit)
    (a_none : a.witnessed = false) (b_none : b.witnessed = false) (same : a.body = b.body) :
    a.inputs = b.inputs ∧ a.outputs = b.outputs := by
  rw [body, body, a_none, b_none] at same
  simp only [Bool.false_eq_true, if_false, List.append_nil, List.flatten_append] at same
  obtain ⟨inputs, rest⟩ := separates_encodeRange separates_encodeTxin
    (fun input member => ⟨a_fits input member, inputs_unwitnessed a_none input member⟩)
    (fun input member => ⟨b_fits input member, inputs_unwitnessed b_none input member⟩) same
  exact ⟨inputs, (separates_encodeRange separates_encodeTxout).inj (fun _ _ => trivial)
    (fun _ _ => trivial) rest⟩

/-- With witnesses the vectors and the stacks determine inputs and outputs. -/
theorem eq_of_body_extended (a_fits : a.IndicesFit) (b_fits : b.IndicesFit)
    (a_some : a.witnessed = true) (b_some : b.witnessed = true) (same : a.body = b.body) :
    a.inputs = b.inputs ∧ a.outputs = b.outputs := by
  rw [body, body, a_some, b_some, ← encodeRange_stripped a.inputs, ← encodeRange_stripped b.inputs]
    at same
  simp only [if_true, List.flatten_append, List.append_assoc] at same
  obtain ⟨stripped, rest⟩ := separates_encodeRange separates_encodeTxin a_fits.stripped
    b_fits.stripped same
  obtain ⟨outputs, witness_bytes⟩ :=
    separates_encodeRange separates_encodeTxout (fun _ _ => trivial)
    (fun _ _ => trivial) rest
  have length : (a.inputs.toList.map TxInput.witness).length =
      (b.inputs.toList.map TxInput.witness).length := by
    have mapped := congrArg (fun inputs => inputs.toList.length) stripped
    simpa using mapped
  have stack_bytes (inputs : List TxInput) :
      (inputs.flatMap fun input => encodeRange input.witness encodeBytes).flatten =
        (inputs.map TxInput.witness).flatMap fun witness =>
          (encodeRange witness encodeBytes).flatten := by
    rw [flatten_flatMap, List.flatMap_map]
  rw [stack_bytes, stack_bytes, ← List.append_nil (List.flatMap _ (a.inputs.toList.map _)),
    ← List.append_nil (List.flatMap _ (b.inputs.toList.map _))] at witness_bytes
  obtain ⟨witnesses, -⟩ := (separates_encodeRange separates_encodeBytes).flatMap length
    (fun _ _ _ _ => trivial) (fun _ _ _ _ => trivial) witness_bytes
  refine ⟨StdVector.ext ?_, outputs⟩
  rw [← TxInput.zipWith_stripped a.inputs.toList,
    ← TxInput.zipWith_stripped b.inputs.toList, witnesses]
  exact congrArg (List.zipWith _ · _) (congrArg StdVector.toList stripped)

/-- The marker in front of a body is read as an empty input vector and the size of
an output vector with one element. -/
theorem overlaps_of_body (version : a.version = b.version) (locktime : a.locktime = b.locktime)
    (a_none : a.witnessed = false) (b_some : b.witnessed = true)
    (same : a.body = 0 :: 1 :: b.body) :
    a.Overlaps b := by
  rw [body, a_none] at same
  simp only [Bool.false_eq_true, if_false, List.append_nil, List.flatten_append, encodeRange,
    List.append_assoc] at same
  obtain ⟨no_inputs, rest⟩ := size_eq_of_cons (by decide) same
  have inputs : a.inputs = .empty := by
    apply StdVector.ext
    rw [StdVector.toList_empty, ← List.length_eq_zero_iff, ← StdVector.toNat_size, no_inputs]
    rfl
  rw [inputs] at rest
  obtain ⟨one_output, rest⟩ := size_eq_of_cons (by decide) rest
  have single : a.outputs.toList.length = 1 := by
    rw [← StdVector.toNat_size, one_output]
    rfl
  obtain ⟨output, outputs⟩ := List.length_eq_one_iff.mp single
  refine ⟨version, locktime, inputs, b_some, output, outputs, ?_⟩
  rw [outputs, List.flatMap_singleton] at rest
  exact rest

/-- The overlap is mutual: the marker makes the bytes agree. -/
theorem Overlaps.body_eq (overlaps : a.Overlaps b) :
    a.marker ++ a.body = b.marker ++ b.body := by
  obtain ⟨-, -, inputs, some, output, outputs, same⟩ := overlaps
  have none : a.witnessed = false := by
    rw [witnessed, inputs]
    rfl
  have size : a.outputs.size = 1 := by
    rw [StdVector.size, outputs]
    rfl
  have range : (encodeRange a.outputs encodeTxout).flatten = 1 :: (encodeTxout output).flatten := by
    rw [encodeRange, size, outputs, List.flatMap_singleton, List.flatten_append]
    rfl
  rw [marker, marker, none, some, ← same, body, none, inputs]
  simp only [Bool.false_eq_true, if_false, if_true, List.append_nil, List.flatten_append, range,
    flatten_encodeRange_empty]
  rfl

end Observable

/-- Equal bytes are those of equal fields, or of an overlap of the two layouts. -/
theorem flatten_encodeTx_eq_iff_overlaps (H : List UInt8 → ByteArray32) {a b : Observable}
    (a_fits : a.IndicesFit) (b_fits : b.IndicesFit) :
    (encodeTx (ofObservable H a)).flatten = (encodeTx (ofObservable H b)).flatten ↔
      a = b ∨ a.Overlaps b ∨ b.Overlaps a := by
  rw [flatten_encodeTx_eq_iff]
  constructor
  · rintro ⟨version, locktime, same⟩
    have equal (vectors : a.inputs = b.inputs ∧ a.outputs = b.outputs) : a = b :=
      Observable.ext version vectors.1 vectors.2 locktime
    rw [Observable.marker, Observable.marker] at same
    cases a_layout : a.witnessed <;> cases b_layout : b.witnessed <;>
      rw [a_layout, b_layout] at same
    · exact .inl (equal (Observable.eq_of_body_legacy a_fits b_fits a_layout b_layout same))
    · exact .inr (.inl (Observable.overlaps_of_body version locktime a_layout b_layout same))
    · exact .inr (.inr (Observable.overlaps_of_body version.symm locktime.symm b_layout a_layout
        same.symm))
    · exact .inl (equal (Observable.eq_of_body_extended a_fits b_fits a_layout b_layout
        (List.append_cancel_left same)))
  · rintro (rfl | overlaps | overlaps)
    · exact ⟨rfl, rfl, rfl⟩
    · exact ⟨overlaps.1, overlaps.2.1, overlaps.body_eq⟩
    · exact ⟨overlaps.1.symm, overlaps.2.1.symm, overlaps.body_eq.symm⟩

/-- Equality is equality of all observable fields, or an overlap of the two layouts,
for a hash without a collision between the two. -/
theorem beq_ofObservable_iff (H : List UInt8 → ByteArray32) (a b : Observable)
    (a_fits : a.IndicesFit) (b_fits : b.IndicesFit)
    (no_collision : H (encodeTx (ofObservable H a)).flatten = H (encodeTx (ofObservable H b)).flatten →
      (encodeTx (ofObservable H a)).flatten = (encodeTx (ofObservable H b)).flatten) :
    (ofObservable H a == ofObservable H b) = true ↔ a = b ∨ a.Overlaps b ∨ b.Overlaps a := by
  have hashed (seen : Observable) : (ofObservable H seen).impl.witnessHash =
      H (encodeTx (ofObservable H seen)).flatten := rfl
  rw [beq_eq_true_iff, hashed, hashed, ← flatten_encodeTx_eq_iff_overlaps H a_fits b_fits]
  exact ⟨no_collision, congrArg H⟩

end Transaction

namespace Sample

/-- One input with one empty witness item and no output. The eighth byte of its
previous identifier is the size of the script below. -/
def disguised : Transaction.Observable where
  version := 0
  inputs := ⟨[{
    prevout := ⟨⟨⟨List.replicate 7 0 ++ [36] ++ List.replicate 24 0, by decide⟩⟩, 0⟩
    script := .empty
    sequence := 0
    witness := ⟨[.empty], by decide⟩ }], by simp⟩
  outputs := .empty
  locktime := 0

/-- No input and one output, whose bytes are the body of the transaction above. -/
def disguise : Transaction.Observable where
  version := 0
  inputs := .empty
  outputs := ⟨[{ value := 1, script := ⟨⟨List.replicate 34 0 ++ [1, 0], by decide⟩⟩ }], by decide⟩
  locktime := 0

/-- A transaction without inputs whose encoding is read as the extended layout. -/
theorem disguise_overlaps : disguise.Overlaps disguised :=
  ⟨rfl, rfl, rfl, by decide, _, rfl, by decide⟩

theorem indicesFit_disguise : disguise.IndicesFit := fun _ member => absurd member List.not_mem_nil

theorem indicesFit_disguised : disguised.IndicesFit := by
  intro input member
  obtain rfl := List.mem_singleton.mp member
  decide

end Sample

namespace Transaction

/-- Two different transactions are equal, whatever the hash. -/
theorem beq_disguise : Sample.disguise.inputs ≠ Sample.disguised.inputs ∧
    Sample.disguise.outputs ≠ Sample.disguised.outputs ∧
    ∀ H, (ofObservable H Sample.disguise == ofObservable H Sample.disguised) = true := by
  refine ⟨by decide, by decide, fun H => ?_⟩
  rw [beq_eq_true_iff]
  exact congrArg H ((flatten_encodeTx_eq_iff_overlaps H Sample.indicesFit_disguise
    Sample.indicesFit_disguised).mpr (.inr (.inl Sample.disguise_overlaps)))

/-- Two different transactions of one encoding compare equal. -/
theorem beq_ofObservable_iff_sample :
    (ofObservable Sample.zeroHash Sample.disguise ==
      ofObservable Sample.zeroHash Sample.disguised) = true ↔
      Sample.disguise = Sample.disguised ∨ Sample.disguise.Overlaps Sample.disguised ∨
        Sample.disguised.Overlaps Sample.disguise :=
  beq_ofObservable_iff Sample.zeroHash _ _ Sample.indicesFit_disguise Sample.indicesFit_disguised
    fun _ => by decide

end Transaction

end StdBitcoin
