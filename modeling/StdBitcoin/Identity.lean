import StdBitcoin.Serdes.RoundTrip

/-!
# Transaction identifiers

The cached members of a transaction answer for its identifiers and its layout. The
four-argument constructor fills them, and the default constructor leaves both
hashes at zero.
-/

namespace StdBitcoin

open Codec

namespace Transaction

/-- The ways in which the public interface hands out a transaction. -/
inductive Origin where
  | default
  | make (version : UInt32) (inputs : StdVector TxInput) (outputs : StdVector TxOutput)
      (locktime : UInt32)
  | parsed (raw : List UInt8)
  | element (raw : List UInt8) (index : Nat)
  | copy (of : Origin)

namespace Origin

/-- The transaction, if the parse functions accept their input. -/
def value (H : List UInt8 → ByteArray32) : Origin → Option Transaction
  | default => some Transaction.default
  | make version inputs outputs locktime => some (.make H version inputs outputs locktime)
  | parsed raw => parseTransaction H raw
  | element raw index => do (← parseBlock H raw).transactions.toList[index]?
  | copy origin => origin.value H

/-- Copies of copies go back to the default constructor. -/
def isDefault : Origin → Bool
  | default => true
  | copy origin => origin.isDefault
  | _ => false

end Origin

/-- The bytes of the observable fields, with or without the witnesses. -/
def Observable.serialization (seen : Observable) (segwit : Bool) : List UInt8 :=
  (encodeTxData seen.version seen.inputs seen.outputs seen.locktime segwit).flatten

/-- The identifiers hash the serialisations, and the witness flag tells the truth. -/
structure IdentifierLaw (H : List UInt8 → ByteArray32) (tx : Transaction) : Prop where
  txid : tx.txid = ⟨H (tx.observe.serialization false)⟩
  wtxid : tx.wtxid = ⟨H (written (serializeTx tx vectorSink))⟩
  hasWitness : tx.hasWitness ↔ ∃ input ∈ tx.inputs.toList, input.witness.toList ≠ []

/-- Some input has a witness if and only if some stack has an item. -/
theorem hasWitness_iff (inputs : List TxInput) :
    inputs.any TxInput.hasWitness ↔ ∃ input ∈ inputs, input.witness.toList ≠ [] := by
  simp [TxInput.hasWitness]

/-- Whatever the four-argument constructor builds. -/
theorem identifierLaw_of_built {H : List UInt8 → ByteArray32} {tx : Transaction}
    (built : tx = ofObservable H tx.observe) : IdentifierLaw H tx where
  txid := by
    rw [built]
    rfl
  wtxid := by
    rw [written_serializeTx, built]
    rfl
  hasWitness := by
    rw [hasWitness_of_built built]
    exact hasWitness_iff _

/-- The default-constructed transaction answers zero for both identifiers. -/
theorem identifierLaw_default_iff (H : List UInt8 → ByteArray32) :
    IdentifierLaw H default ↔ H (List.replicate 10 0) = zeros 32 := by
  constructor
  · intro law
    exact (congrArg BasicHashId.value law.txid).symm
  · intro zero
    refine ⟨?_, ?_, ?_⟩
    · exact BasicHashId.ext zero.symm
    · rw [written_serializeTx]
      exact BasicHashId.ext zero.symm
    · simp [default, Implementation.default, Transaction.hasWitness, Transaction.inputs]

/-- Transactions of any other origin are built by the four-argument constructor. -/
theorem Origin.built {H : List UInt8 → ByteArray32} {origin : Origin} {tx : Transaction}
    (filled : origin.isDefault = false) (obtained : origin.value H = some tx) :
    tx = ofObservable H tx.observe := by
  induction origin with
  | default => cases filled
  | make version inputs outputs locktime =>
      cases obtained
      rfl
  | parsed raw => exact ((parseTransaction_eq_some_iff H _ _).mp obtained).1.built
  | element raw index =>
      obtain ⟨b, parsed, found⟩ := Option.bind_eq_some_iff.mp obtained
      exact (((parseBlock_eq_some_iff H _ _).mp parsed).1.all tx (List.mem_of_getElem? found)).built
  | copy origin ih => exact ih filled obtained

/-- What is only copied from the default transaction is the default transaction. -/
theorem Origin.eq_default {H : List UInt8 → ByteArray32} {origin : Origin} {tx : Transaction}
    (unfilled : origin.isDefault = true) (obtained : origin.value H = some tx) :
    tx = Transaction.default := by
  induction origin with
  | default => exact (Option.some.inj obtained).symm
  | copy origin ih => exact ih unfilled obtained
  | make | parsed | element => cases unfilled

/-- The law holds of every transaction but the default-constructed ones and their
copies, unless the hash of ten zero bytes happens to be zero. -/
theorem identifierLaw_iff (H : List UInt8 → ByteArray32) (origin : Origin) (tx : Transaction)
    (obtained : origin.value H = some tx) :
    IdentifierLaw H tx ↔ origin.isDefault = false ∨ H (List.replicate 10 0) = zeros 32 := by
  cases root : origin.isDefault with
  | false =>
      have law := identifierLaw_of_built (Origin.built root obtained)
      simp [law]
  | true =>
      obtain rfl := Origin.eq_default root obtained
      simp [identifierLaw_default_iff]

/-- The sample transaction and its copies keep the law. -/
theorem identifierLaw_iff_sample :
    IdentifierLaw Sample.zeroHash (Sample.transaction Sample.stack) ↔
      Origin.isDefault (.copy (.make 2 (Sample.transaction Sample.stack).inputs
        (Sample.transaction Sample.stack).outputs 0)) = false ∨
      Sample.zeroHash (List.replicate 10 0) = zeros 32 :=
  identifierLaw_iff Sample.zeroHash (.copy (.make 2 _ _ 0)) (Sample.transaction Sample.stack) rfl

/-- A hash without zero bytes tells the default transaction from its identifiers. -/
theorem default_breaks_identifierLaw :
    Origin.default.value (fun _ => List.Vector.replicate 32 1) = some Transaction.default ∧
      ¬ IdentifierLaw (fun _ => List.Vector.replicate 32 1) Transaction.default := by
  refine ⟨rfl, ?_⟩
  rw [identifierLaw_default_iff]
  decide

end Transaction

end StdBitcoin
