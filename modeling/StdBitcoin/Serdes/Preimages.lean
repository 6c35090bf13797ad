import StdBitcoin.Commitment
import StdBitcoin.Serdes.Narrowing

/-!
# Hashes of received bytes

A received block falls apart into its header, a count and one accepted message for each
transaction. The identifiers of what was received are the hashes of these slices. Only
the bytes behind a `txid` need not have been received; they are an accepted message of
their own, of the transaction without its witnesses.
-/

namespace StdBitcoin

open Codec Wire

section Hashing

variable (H : List UInt8 → ByteArray32)

/-- The bytes of a block, cut into the header, the count and the transactions. -/
structure Block.Sliced (raw : List UInt8) (b : Block) (slices : List (List UInt8)) : Prop where
  header : parseBlockHeader (raw.take 80) = some b.header
  body : raw.drop 80 = (encodeSize (.ofNat slices.length)).flatten ++ slices.flatten
  few : slices.length ≤ wireLimit
  transactions :
    List.Forall₂ (fun slice tx => parseTransaction H slice = some tx) slices b.transactions.toList

/-- Accepted slices are the encodings of the transactions. -/
theorem forall₂_parseTransaction_iff (slices : List (List UInt8)) (txs : List Transaction) :
    List.Forall₂ (fun slice tx => parseTransaction H slice = some tx) slices txs ↔
      (∀ tx ∈ txs, tx.Carried H) ∧ slices = txs.map fun tx => (encodeTx tx).flatten := by
  induction slices generalizing txs with
  | nil => cases txs <;> simp
  | cons slice slices ih =>
      cases txs with
      | nil => simp
      | cons tx txs =>
          rw [List.forall₂_cons, ih, parseTransaction_eq_some_iff, List.forall_mem_cons,
            List.map_cons, List.cons.injEq]
          tauto

/-- A block is parsed if and only if the input is cut into its header and the slices of its
transactions. -/
theorem parseBlock_eq_some_iff_sliced (raw : List UInt8) (b : Block) :
    parseBlock H raw = some b ↔ ∃ slices, b.Sliced H raw slices := by
  have bytes : (encodeBlock b).flatten = (encodeBlockHeader b.header).flatten ++
      ((encodeSize (.ofNat b.transactions.toList.length)).flatten ++
        (b.transactions.toList.map fun tx => (encodeTx tx).flatten).flatten) := by
    rw [encodeBlock, encodeRange, StdVector.size, List.flatten_append, List.flatten_append,
      flatten_flatMap, List.flatMap_def]
  have width := length_encodeBlockHeader b.header
  rw [parseBlock_eq_some_iff]
  constructor
  · rintro ⟨carried, rfl⟩
    refine ⟨b.transactions.toList.map fun tx => (encodeTx tx).flatten, ?_, ?_, ?_, ?_⟩
    · rw [bytes, List.take_left' width, parseBlockHeader_eq_some_iff]
      exact ⟨carried.time, rfl⟩
    · rw [bytes, List.drop_left' width, List.length_map]
    · rw [List.length_map]
      exact carried.transactions
    · exact (forall₂_parseTransaction_iff H _ _).mpr ⟨carried.all, rfl⟩
  · rintro ⟨slices, header, body, few, transactions⟩
    obtain ⟨all, rfl⟩ := (forall₂_parseTransaction_iff H _ _).mp transactions
    obtain ⟨time, front⟩ := (parseBlockHeader_eq_some_iff _ _).mp header
    rw [List.length_map] at body few
    refine ⟨⟨time, few, all⟩, ?_⟩
    rw [← List.take_append_drop 80 raw, front, body, bytes]

variable {H}

/-- A carried transaction is identified by the bytes it was read from. -/
theorem Transaction.Carried.wtxid {tx : Transaction} (carried : tx.Carried H) :
    tx.wtxid = ⟨H (encodeTx tx).flatten⟩ := by
  rw [carried.built]
  rfl

/-- There is one way to cut a block, and the hashes of the cuts are the identifiers. -/
theorem Block.Sliced.hashes {raw : List UInt8} {b : Block} {slices : List (List UInt8)}
    (sliced : b.Sliced H raw slices) :
    BlockHash.ofHeader H b.header = ⟨H (raw.take 80)⟩ ∧
      b.transactions.toList.map Transaction.wtxid = slices.map (fun slice => ⟨H slice⟩) ∧
      ∀ others, b.Sliced H raw others → others = slices := by
  obtain ⟨all, rfl⟩ := (forall₂_parseTransaction_iff H _ _).mp sliced.transactions
  refine ⟨?_, ?_, fun others cut => ?_⟩
  · rw [((parseBlockHeader_eq_some_iff _ _).mp sliced.header).2]
    rfl
  · rw [List.map_map]
    exact List.map_congr_left fun tx member => (all tx member).wtxid
  · exact ((forall₂_parseTransaction_iff H _ _).mp cut.transactions).2

/-- A block is accepted exactly if it can be cut into accepted messages, in one way, and
the identifiers of its parts are the hashes of the cuts. -/
theorem parseBlock_slices (H : List UInt8 → ByteArray32) (raw : List UInt8) (b : Block) :
    (parseBlock H raw = some b ↔ ∃ slices, b.Sliced H raw slices) ∧
      ∀ slices, b.Sliced H raw slices →
        BlockHash.ofHeader H b.header = ⟨H (raw.take 80)⟩ ∧
          b.transactions.toList.map Transaction.wtxid = slices.map (fun slice => ⟨H slice⟩) ∧
          ∀ others, b.Sliced H raw others → others = slices :=
  ⟨parseBlock_eq_some_iff_sliced H raw b, fun _ sliced => sliced.hashes⟩

/-- The `wtxid`s of the sample block are the digests of its slices. -/
theorem parseBlock_slices_sample :
    ∃ slices, Sample.block.Sliced Sample.zeroHash (encodeBlock Sample.block).flatten slices ∧
      Sample.block.transactions.toList.map Transaction.wtxid =
        slices.map fun slice => ⟨Sample.zeroHash slice⟩ := by
  have whole := parseBlock_slices Sample.zeroHash (encodeBlock Sample.block).flatten Sample.block
  have parsed := (parseBlock_eq_some_iff Sample.zeroHash _ _).mpr ⟨Sample.carried_block, rfl⟩
  obtain ⟨slices, sliced⟩ := whole.1.mp parsed
  exact ⟨slices, sliced, (whole.2 slices sliced).2.1⟩

namespace Transaction

/-- The transaction without its witnesses. -/
def Observable.stripped (seen : Observable) : Observable :=
  { seen with inputs := seen.inputs.map TxInput.stripped }

/-- A transaction without its witnesses has none. -/
theorem Observable.witnessed_stripped (seen : Observable) : seen.stripped.witnessed = false :=
  (TxInput.any_hasWitness_eq_false_iff _).mpr fun input member => by
    obtain ⟨whole, -, rfl⟩ := List.mem_map.mp member
    rfl

/-- The preimage of the `txid` does not depend on the witnesses. -/
theorem Observable.serialization_stripped (seen : Observable) :
    seen.stripped.serialization false = seen.serialization false := by
  have twice : seen.stripped.inputs.map TxInput.stripped = seen.inputs.map TxInput.stripped :=
    StdVector.ext (List.map_map ..)
  rw [serialization_false, serialization_false, twice]
  rfl

/-- The preimages do not depend on the bits of an index that are not written. -/
theorem Observable.serialization_narrowed (seen : Observable) (segwit : Bool) :
    seen.narrowed.serialization segwit = seen.serialization segwit :=
  congrArg List.flatten (seen.encodeTxData_narrowed segwit)

/-- Sizes within a limit stay so without the witnesses. -/
theorem Observable.Within.stripped {limit : Nat} {seen : Observable} (within : seen.Within limit) :
    seen.stripped.Within limit where
  inputs := (StdVector.within_map_iff _ _).mpr within.inputs
  bodies := by
    intro input member
    obtain ⟨whole, present, rfl⟩ := List.mem_map.mp member
    exact within.bodies whole present
  witnesses := by
    intro input member
    obtain ⟨whole, -, rfl⟩ := List.mem_map.mp member
    exact TxInput.witnessWithin_of_eq_empty rfl
  outputs := within.outputs
  scripts := within.scripts

/-- The bytes behind a `txid` are accepted, as the transaction without its witnesses: both
of its identifiers are the `txid`. -/
theorem txid_preimage {tx : Transaction} (composed : tx.Composed H)
    (within : tx.observe.narrowed.Within maxSize.toNat) :
    tx.txid = ⟨H (tx.observe.serialization false)⟩ ∧
      ∃ bare, parseTransaction H (tx.observe.serialization false) = some bare ∧
        bare.observe = tx.observe.narrowed.stripped ∧ bare.hasWitness = false ∧
        bare.txid = tx.txid ∧ bare.wtxid.asBytes = tx.txid.asBytes := by
  have law := identifierLaw_of_built composed.built
  let bare := ofObservable H tx.observe.narrowed.stripped
  have stripped : bare.observe.serialization false = tx.observe.serialization false :=
    (Observable.serialization_stripped tx.observe.narrowed).trans
      (Observable.serialization_narrowed tx.observe false)
  have unwitnessed : bare.hasWitness = false := Observable.witnessed_stripped _
  have bytes : (encodeTx bare).flatten = tx.observe.serialization false := by
    rw [encodeTx, unwitnessed]
    exact stripped
  have txid : bare.txid = tx.txid := by
    rw [law.txid, ← stripped]
    rfl
  refine ⟨law.txid, bare, ?_, rfl, unwitnessed, txid, ?_⟩
  · rw [parseTransaction_eq_some_iff]
    refine ⟨⟨rfl, ?_, (within.mono maxSize_le_wireLimit).stripped⟩, bytes.symm⟩
    exact List.map_eq_nil_iff.not.mpr (List.map_eq_nil_iff.not.mpr composed.nonempty)
  · rw [← txid]
    have one : bare.wtxid = ⟨H (encodeTx bare).flatten⟩ := rfl
    have other : bare.txid = ⟨H (bare.observe.serialization false)⟩ := rfl
    rw [one, other, bytes, stripped]
    rfl

/-- A transaction with a witness and an index that does not fit. -/
theorem txid_preimage_sample :
    Sample.faraway.hasWitness = true ∧
      ∃ bare, parseTransaction Sample.zeroHash
          (Sample.faraway.observe.serialization false) = some bare ∧
        bare.hasWitness = false ∧ bare.txid = Sample.faraway.txid := by
  obtain ⟨-, bare, parsed, -, unwitnessed, txid, -⟩ :=
    txid_preimage Sample.composed_faraway (by decide)
  exact ⟨by decide, bare, parsed, unwitnessed, txid⟩

end Transaction

end Hashing

end StdBitcoin
