import StdBitcoin.Equality
import StdBitcoin.Identity
import Mathlib.Data.Set.Function

/-!
# What the identifiers commit to

The bytes behind `txid` determine everything but the witnesses, and no witness byte is
among them. The bytes behind `wtxid` are longer as soon as there is a witness.
-/

namespace StdBitcoin

open Codec Wire

namespace TxInput

/-- The fields of an input apart from its witness. -/
def committed (input : TxInput) : Outpoint × Script × UInt32 :=
  (input.prevout, input.script, input.sequence)

/-- Equal stripped inputs agree in number, order and all fields but the witness. -/
theorem map_stripped_eq_iff (first second : StdVector TxInput) :
    first.map stripped = second.map stripped ↔
      first.toList.map committed = second.toList.map committed := by
  have split (inputs : List TxInput) : (inputs.map stripped).map committed = inputs.map committed :=
    List.map_map
  have join (inputs : List TxInput) : (inputs.map committed).map
      (fun fields => ⟨fields.1, fields.2.1, fields.2.2, .empty⟩) = inputs.map stripped :=
        List.map_map
  rw [← StdVector.toList_inj, StdVector.toList_map, StdVector.toList_map]
  constructor
  · intro same
    rw [← split first.toList, same, split]
  · intro same
    rw [← join first.toList, same, join]

end TxInput

namespace Transaction

namespace Observable

variable {a b : Observable}

/-- The preimage of the `txid` is the legacy layout without the witnesses. -/
theorem serialization_false (seen : Observable) : seen.serialization false =
    (encodeU32 seen.version).flatten ++
    ((encodeRange (seen.inputs.map TxInput.stripped) encodeTxin).flatten ++
      ((encodeRange seen.outputs encodeTxout).flatten ++ (encodeU32 seen.locktime).flatten)) := by
  rw [serialization, encodeTxData, encodeRange_stripped]
  simp

/-- The stripped bytes determine all they are made of. -/
theorem serialization_false_eq_iff (a_fits : a.IndicesFit) (b_fits : b.IndicesFit) :
    a.serialization false = b.serialization false ↔
      a.version = b.version ∧ a.locktime = b.locktime ∧ a.outputs = b.outputs ∧
        a.inputs.toList.map TxInput.committed = b.inputs.toList.map TxInput.committed := by
  rw [serialization_false, serialization_false, ← TxInput.map_stripped_eq_iff]
  constructor
  · intro same
    obtain ⟨version, rest⟩ := inverts_readU32.separates trivial trivial same
    obtain ⟨inputs, rest⟩ :=
      separates_encodeRange separates_encodeTxin a_fits.stripped b_fits.stripped rest
    obtain ⟨outputs, rest⟩ := separates_encodeRange separates_encodeTxout (fun _ _ => trivial)
      (fun _ _ => trivial) rest
    exact ⟨version, inverts_readU32.separates.inj trivial trivial rest, outputs, inputs⟩
  · intro same
    rcases same with ⟨version, locktime, outputs, inputs⟩
    rw [version, locktime, outputs, inputs]

/-- The marker makes the bytes with witnesses longer. -/
theorem length_serialization_lt (seen : Observable) :
    (seen.serialization false).length < (seen.serialization true).length := by
  simp only [serialization, encodeTxData, if_true, Bool.false_eq_true, if_false,
    List.flatten_append, List.length_append, List.flatten_nil, List.length_nil]
  have marker : 0 < (encodeU8 0).flatten.length := by decide
  omega

/-- Only a transaction without witnesses has one serialisation. -/
theorem serialization_eq_iff (seen : Observable) :
    seen.serialization false = seen.serialization seen.witnessed ↔
      ∀ input ∈ seen.inputs.toList, input.witness = .empty := by
  rw [← TxInput.any_hasWitness_eq_false_iff]
  change _ ↔ seen.witnessed = false
  cases seen.witnessed with
  | false => exact iff_of_true rfl rfl
  | true =>
      exact iff_of_false (fun same => (length_serialization_lt seen).ne (congrArg _ same)) nofun

end Observable

/-- What the two identifiers of a transaction commit to, for a hash without a collision
between the serialisations. -/
theorem txid_commitment (H : List UInt8 → ByteArray32) (a b : Observable) (a_fits : a.IndicesFit)
    (b_fits : b.IndicesFit) (injective : Set.InjOn H {a.serialization false, b.serialization false,
      a.serialization a.witnessed}) :
    ((ofObservable H a).txid = (ofObservable H b).txid ↔
      a.version = b.version ∧ a.locktime = b.locktime ∧ a.outputs = b.outputs ∧
        a.inputs.toList.map TxInput.committed = b.inputs.toList.map TxInput.committed) ∧
    ((ofObservable H a).txid.asBytes = (ofObservable H a).wtxid.asBytes ↔
      ∀ input ∈ a.inputs.toList, input.witness = .empty) := by
  have txid (seen : Observable) : (ofObservable H seen).txid = ⟨H (seen.serialization false)⟩ := rfl
  have wtxid : (ofObservable H a).wtxid = ⟨H (a.serialization a.witnessed)⟩ := rfl
  rw [txid, txid, wtxid]
  constructor
  · rw [BasicHashId.mk.injEq, ← Observable.serialization_false_eq_iff a_fits b_fits]
    exact injective.eq_iff (by simp) (by simp)
  · rw [← Observable.serialization_eq_iff, BasicHashId.asBytes, BasicHashId.asBytes,
      List.Vector.toList_injective.eq_iff]
    exact injective.eq_iff (by simp) (by simp)

end Transaction

namespace Sample

/-- The transaction with one empty witness item, without it. -/
def undisguised : Transaction.Observable where
  version := 0
  inputs := disguised.inputs.map TxInput.stripped
  outputs := .empty
  locktime := 0

theorem indicesFit_undisguised : undisguised.IndicesFit := by
  intro input member
  obtain rfl := List.mem_singleton.mp member
  decide

/-- The lengths tell the preimages of the samples apart. -/
theorem injOn_lengthHash : Set.InjOn lengthHash {disguised.serialization false,
    undisguised.serialization false, disguised.serialization disguised.witnessed} := by
  have apart : ∀ first ∈ [disguised.serialization false, undisguised.serialization false,
      disguised.serialization disguised.witnessed],
      ∀ second ∈ [disguised.serialization false, undisguised.serialization false,
        disguised.serialization disguised.witnessed],
      lengthHash first = lengthHash second → first = second := by
    decide
  intro first first_member second second_member
  exact apart first (by simpa using first_member) second (by simpa using second_member)

end Sample

namespace Transaction

/-- One identifier for two witness stacks, and two for a transaction with a stack. -/
theorem txid_commitment_sample :
    (ofObservable Sample.lengthHash Sample.disguised).txid =
        (ofObservable Sample.lengthHash Sample.undisguised).txid ∧
      (ofObservable Sample.lengthHash Sample.disguised).txid.asBytes ≠
        (ofObservable Sample.lengthHash Sample.disguised).wtxid.asBytes := by
  have commitment := txid_commitment Sample.lengthHash Sample.disguised Sample.undisguised
    Sample.indicesFit_disguised Sample.indicesFit_undisguised Sample.injOn_lengthHash
  constructor
  · exact commitment.1.mpr ⟨rfl, rfl, rfl, rfl⟩
  · intro same
    exact absurd (commitment.2.mp same _ (List.mem_singleton_self _)) (by decide)

end Transaction

end StdBitcoin
