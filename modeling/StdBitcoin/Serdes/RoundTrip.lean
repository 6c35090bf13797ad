import StdBitcoin.Serdes.Messages
import StdBitcoin.Serdes.Sink

/-!
# The parse functions against the serializer

The parse functions accept exactly the encodings of the values the format
carries. Round trips in both directions and the independence of what follows an
accepted message are consequences.
-/

namespace StdBitcoin

open Codec
open Decoder (ofSpan)

section Hashing

variable (H : List UInt8 → ByteArray32)

/-- `parse_transaction` accepts exactly the encodings of the transactions that the wire carries. -/
theorem parseTransaction_eq_some_iff (raw : List UInt8) (tx : Transaction) :
    parseTransaction H raw = some tx ↔ tx.Carried H ∧ raw = (encodeTx tx).flatten := by
  rw [parseTransaction, parse_eq_some_iff, strict_decodeTx, (Wire.inverts_readTx H).run_eq_nil_iff]

/-- `parse_block` accepts exactly the encodings of the blocks that the wire carries. -/
theorem parseBlock_eq_some_iff (raw : List UInt8) (b : Block) :
    parseBlock H raw = some b ↔ b.Carried H ∧ raw = (encodeBlock b).flatten := by
  rw [parseBlock, parse_eq_some_iff, strict_decodeBlock, (Wire.inverts_readBlock H).run_eq_nil_iff]

/-- `parse_block_header` accepts exactly the encodings of headers with a time of 32 bits. -/
theorem parseBlockHeader_eq_some_iff (raw : List UInt8) (header : BlockHeader) :
    parseBlockHeader raw = some header ↔
      header.TimeFits ∧ raw = (encodeBlockHeader header).flatten := by
  rw [parseBlockHeader, parse_eq_some_iff, strict_decodeBlockHeader,
    Wire.inverts_readBlockHeader.run_eq_nil_iff]

/-- Built by the four-argument constructor, with at least one input and every size
within `maxSize`. -/
structure Transaction.Buildable (tx : Transaction) : Prop where
  built : tx = ofObservable H tx.observe
  nonempty : tx.inputs.toList ≠ []
  within : tx.observe.Within maxSize.toNat

theorem Transaction.Observable.Within.mono {lower upper : Nat} (ordered : lower ≤ upper)
    {seen : Transaction.Observable} (within : seen.Within lower) : seen.Within upper where
  inputs := within.inputs.trans ordered
  bodies := fun input member =>
    ⟨(within.bodies input member).1, (within.bodies input member).2.trans ordered⟩
  witnesses := fun input member => ⟨(within.witnesses input member).1.trans ordered,
    fun item present => ((within.witnesses input member).2 item present).trans ordered⟩
  outputs := within.outputs.trans ordered
  scripts := fun output member => (within.scripts output member).trans ordered

theorem maxSize_le_wireLimit : maxSize.toNat ≤ wireLimit := by decide

/-- The wire carries the transactions that are built within the limits. -/
theorem Transaction.Buildable.carried {tx : Transaction} (buildable : tx.Buildable H) :
    tx.Carried H :=
  ⟨buildable.built, buildable.nonempty, buildable.within.mono maxSize_le_wireLimit⟩

/-- Decoding undoes encoding, for transactions and for blocks of them. -/
theorem parse_serialize :
    (∀ (version : UInt32) (inputs : StdVector TxInput) (outputs : StdVector TxOutput)
        (locktime : UInt32), inputs.toList ≠ [] →
      Transaction.Observable.Within maxSize.toNat ⟨version, inputs, outputs, locktime⟩ →
      ∃ tx, parseTransaction H (written (serializeTx
            (Transaction.make H version inputs outputs locktime) vectorSink)) = some tx ∧
          tx.version = version ∧ tx.inputs = inputs ∧ tx.outputs = outputs ∧
          tx.locktime = locktime) ∧
      ∀ b : Block, b.header.TimeFits → b.transactions.Within maxSize.toNat →
        (∀ tx ∈ b.transactions.toList, tx.Buildable H) →
        parseBlock H (written (serializeBlock b vectorSink)) = some b := by
  constructor
  · intro version inputs outputs locktime nonempty within
    refine ⟨Transaction.make H version inputs outputs locktime, ?_, rfl, rfl, rfl, rfl⟩
    have buildable : (Transaction.make H version inputs outputs locktime).Buildable H :=
      ⟨rfl, nonempty, within⟩
    rw [written_serializeTx, parseTransaction_eq_some_iff]
    exact ⟨buildable.carried, rfl⟩
  · intro b time transactions buildable
    rw [written_serializeBlock, parseBlock_eq_some_iff]
    exact ⟨⟨time, transactions.trans maxSize_le_wireLimit,
      fun tx member => (buildable tx member).carried⟩, rfl⟩

end Hashing

namespace Sample

/-- A hash that does not depend on the bytes. -/
def zeroHash : List UInt8 → ByteArray32 := fun _ => zeros 32

/-- A hash that tells byte strings of different lengths below 256 apart. -/
def lengthHash (bytes : List UInt8) : ByteArray32 :=
  ⟨UInt8.ofNat bytes.length :: List.replicate 31 0, rfl⟩

/-- One input with the given witness stack, and one output. -/
def transaction (witness : StdVector (StdVector UInt8)) : Transaction :=
  Transaction.make zeroHash 2
    ⟨[{ prevout := ⟨.zero, 7⟩, script := ⟨⟨[0x51], by decide⟩⟩, sequence := 0xFFFFFFFE, witness }],
      by simp⟩
    ⟨[{ value := -1, script := .empty }], by decide⟩ 0

/-- A witness stack with an item of two bytes and an empty one. -/
def stack : StdVector (StdVector UInt8) := ⟨[⟨[0xAB, 0xCD], by decide⟩, .empty], by decide⟩

/-- A header with the time and the target of the first block. -/
def header : BlockHeader :=
  { version := 1, prevBlockHash := .zero, merkleRoot := .zero, time := 1231006505,
    bits := 0x1D00FFFF, nonce := 0 }

/-- A block with a transaction of either layout. -/
def block : Block := ⟨header, ⟨[transaction .empty, transaction stack], by decide⟩⟩

theorem buildable (witness : StdVector (StdVector UInt8))
    (within : (transaction witness).observe.Within maxSize.toNat) :
    (transaction witness).Buildable zeroHash :=
  ⟨rfl, List.cons_ne_nil _ _, within⟩

theorem carried_transaction : (transaction stack).Carried zeroHash :=
  (buildable _ (by decide)).carried

theorem carried_block : block.Carried zeroHash := by
  refine ⟨by decide, by decide, fun tx member => ?_⟩
  rcases List.mem_pair.mp member with rfl | rfl
  · exact (buildable _ (by decide)).carried
  · exact carried_transaction

end Sample

/-- A transaction with a witness and a block with both layouts come back. -/
theorem parse_serialize_sample :
    (∃ tx, parseTransaction Sample.zeroHash
        (written (serializeTx (Sample.transaction Sample.stack) vectorSink)) = some tx ∧
      tx.inputs = (Sample.transaction Sample.stack).inputs) ∧
    parseBlock Sample.zeroHash (written (serializeBlock Sample.block vectorSink)) =
      some Sample.block := by
  constructor
  · obtain ⟨tx, parsed, -, inputs, -⟩ := (parse_serialize Sample.zeroHash).1 2
      (Sample.transaction Sample.stack).inputs (Sample.transaction Sample.stack).outputs 0
      (List.cons_ne_nil _ _) (by decide)
    exact ⟨tx, parsed, inputs⟩
  · apply (parse_serialize Sample.zeroHash).2 Sample.block (by decide) (by decide)
    intro tx member
    rcases List.mem_pair.mp member with rfl | rfl
    · exact Sample.buildable _ (by decide)
    · exact Sample.buildable _ (by decide)

section Hashing

variable (H : List UInt8 → ByteArray32)

/-- A transaction the format carries is determined by what its observers show. -/
theorem Transaction.Carried.eq_of_observe {H : List UInt8 → ByteArray32} {x y : Transaction}
    (left : x.Carried H) (right : y.Carried H) (same : x.observe = y.observe) : x = y := by
  rw [left.built, right.built, same]

/-- Blocks that the wire carries are told apart by their content. -/
theorem Block.Carried.eq_of_observe {H : List UInt8 → ByteArray32} {x y : Block}
    (left : x.Carried H) (right : y.Carried H) (same : x.observe = y.observe) : x = y := by
  obtain ⟨header, transactions⟩ := x
  obtain ⟨header', transactions'⟩ := y
  obtain ⟨rfl, seen⟩ := Prod.mk.inj same
  congr 1
  apply StdVector.ext
  have rebuilt (txs : List Transaction) (all : ∀ tx ∈ txs, tx.Carried H) :
      (txs.map Transaction.observe).map (Transaction.ofObservable H) = txs := by
    rw [List.map_map]
    calc txs.map (Transaction.ofObservable H ∘ Transaction.observe)
      _ = txs.map id := List.map_congr_left fun tx member => (all tx member).built.symm
      _ = txs := List.map_id txs
  rw [← rebuilt _ left.all, ← rebuilt _ right.all]
  exact congrArg (List.map _) seen

theorem fixedWidth_readU32 : FixedWidth Wire.readU32 4 := (fixedWidth_take 4).map _

/-- Four words and two hashes. -/
theorem fixedWidth_readBlockHeader : FixedWidth Wire.readBlockHeader 80 :=
  fixedWidth_readU32.bind fun _ => (fixedWidth_take 32).bind fun _ =>
    (fixedWidth_take 32).bind fun _ =>
    fixedWidth_readU32.bind fun _ => fixedWidth_readU32.bind fun _ =>
      fixedWidth_readU32.bind fun _ =>
      fixedWidth_pure _

/-- `parse_block_header` accepts exactly the spans of 80 bytes. -/
theorem isSome_parseBlockHeader_iff (raw : List UInt8) :
    (parseBlockHeader raw).isSome ↔ raw.length = 80 := by
  rw [Option.isSome_iff_exists]
  constructor
  · rintro ⟨header, parsed⟩
    obtain ⟨-, rfl⟩ := (parseBlockHeader_eq_some_iff _ _).mp parsed
    exact length_encodeBlockHeader header
  · intro length
    obtain ⟨header, run⟩ := fixedWidth_readBlockHeader raw length.ge
    rw [List.drop_of_length_le length.le] at run
    refine ⟨header, ?_⟩
    rw [parseBlockHeader, parse_eq_some_iff, strict_decodeBlockHeader, run]

/-- Encoding undoes decoding: no object has a second encoding. -/
theorem serialize_parse (raw : List UInt8) :
    (∀ tx, parseTransaction H raw = some tx → written (serializeTx tx vectorSink) = raw) ∧
    (∀ b, parseBlock H raw = some b → written (serializeBlock b vectorSink) = raw) ∧
    (∀ header, parseBlockHeader raw = some header →
      written (serializeBlockHeader header vectorSink) = raw) ∧
    (∀ other, other ≠ raw →
      (∀ x y, parseTransaction H raw = some x → parseTransaction H other = some y →
        x.observe ≠ y.observe) ∧
      (∀ x y, parseBlock H raw = some x → parseBlock H other = some y → x.observe ≠ y.observe) ∧
      ∀ x y, parseBlockHeader raw = some x → parseBlockHeader other = some y → x ≠ y) ∧
    ((parseBlockHeader raw).isSome ↔ raw.length = 80) := by
  refine ⟨?_, ?_, ?_, ?_, isSome_parseBlockHeader_iff raw⟩
  · intro tx parsed
    rw [written_serializeTx, ← ((parseTransaction_eq_some_iff H _ _).mp parsed).2]
  · intro b parsed
    rw [written_serializeBlock, ← ((parseBlock_eq_some_iff H _ _).mp parsed).2]
  · intro header parsed
    rw [written_serializeBlockHeader, ← ((parseBlockHeader_eq_some_iff _ _).mp parsed).2]
  · intro other distinct
    refine ⟨?_, ?_, ?_⟩
    · intro x y left right same
      obtain ⟨first, rfl⟩ := (parseTransaction_eq_some_iff H _ _).mp left
      obtain ⟨second, rfl⟩ := (parseTransaction_eq_some_iff H _ _).mp right
      exact distinct (by rw [first.eq_of_observe second same])
    · intro x y left right same
      obtain ⟨first, rfl⟩ := (parseBlock_eq_some_iff H _ _).mp left
      obtain ⟨second, rfl⟩ := (parseBlock_eq_some_iff H _ _).mp right
      exact distinct (by rw [first.eq_of_observe second same])
    · rintro x y left right rfl
      obtain ⟨-, rfl⟩ := (parseBlockHeader_eq_some_iff _ _).mp left
      obtain ⟨-, rfl⟩ := (parseBlockHeader_eq_some_iff _ _).mp right
      exact distinct rfl

end Hashing

/-- A transaction with a witness, and a block with transactions of both layouts. -/
theorem serialize_parse_sample :
    (∃ tx, parseTransaction Sample.zeroHash
        (encodeTx (Sample.transaction Sample.stack)).flatten = some tx ∧
      written (serializeTx tx vectorSink) = (encodeTx (Sample.transaction Sample.stack)).flatten) ∧
    (∃ b, parseBlock Sample.zeroHash (encodeBlock Sample.block).flatten = some b ∧
      written (serializeBlock b vectorSink) = (encodeBlock Sample.block).flatten) ∧
    (parseBlockHeader (encodeBlockHeader Sample.header).flatten).isSome := by
  have tx_parsed := (parseTransaction_eq_some_iff Sample.zeroHash _ _).mpr
    ⟨Sample.carried_transaction, rfl⟩
  have block_parsed := (parseBlock_eq_some_iff Sample.zeroHash _ _).mpr ⟨Sample.carried_block, rfl⟩
  refine ⟨⟨_, tx_parsed, ?_⟩, ⟨_, block_parsed, ?_⟩, ?_⟩
  · exact (serialize_parse Sample.zeroHash _).1 _ tx_parsed
  · exact (serialize_parse Sample.zeroHash _).2.1 _ block_parsed
  · exact (serialize_parse Sample.zeroHash _).2.2.2.2.mpr rfl

/-- The decoder takes exactly these bytes, whatever follows them, and fails on
every proper prefix of them. -/
structure ExactInput {α : Type} (decode : Decode α) (raw : List UInt8) : Prop where
  consumed : ∀ rest, (decode (ofSpan (raw ++ rest))).2 = ofSpan rest
  truncated : ∀ cut, cut <+: raw → cut ≠ raw → (decode (ofSpan cut)).2.failed = true
  rejects_prefix : ∀ cut, cut <+: raw → cut ≠ raw → parse decode cut = none
  rejects_extension : ∀ extra, extra ≠ [] → parse decode (raw ++ extra) = none

/-- A parser that accepts a span has read all of it, and no other span with the same beginning. -/
theorem exactInput_of_parse {α : Type} {decode : Decode α} [Delimited (spanCursor.strict decode)]
    {raw : List UInt8} (accepted : (parse decode raw).isSome) : ExactInput decode raw := by
  obtain ⟨value, parsed⟩ := Option.isSome_iff_exists.mp accepted
  have reads := run_eq_nil_iff.mp ((parse_eq_some_iff _ _ _).mp parsed)
  have consumed (rest : List UInt8) : decode (ofSpan (raw ++ rest)) = (value, ofSpan rest) :=
    (spanCursor.strict_run_eq_some_iff _ _ _ _).mp (reads rest)
  have truncated (cut : List UInt8) (leads : cut <+: raw) (proper : cut ≠ raw) :
      (decode (ofSpan cut)).2.failed = true := by
    obtain ⟨extra, rfl⟩ := leads
    have stuck := reads.run_proper_prefix (by rintro rfl; exact proper (List.append_nil _).symm)
    cases failed : (decode (ofSpan cut)).2.failed with
    | true => rfl
    | false =>
        have live : spanCursor.view (decode (spanCursor.live cut)).2 =
            some (decode (ofSpan cut)).2.source.data := if_neg (Bool.eq_false_iff.mp failed)
        rw [spanCursor.strict_run_of_view live] at stuck
        cases stuck
  refine ⟨fun rest => by rw [consumed], truncated, ?_, ?_⟩
  · intro cut leads proper
    change (if ((decode (ofSpan cut)).2.failed || _) = true then none else _) = none
    rw [truncated cut leads proper, Bool.true_or, if_pos rfl]
  · intro extra nonempty
    unfold parse
    rw [consumed]
    cases extra with
    | nil => exact absurd rfl nonempty
    | cons byte extra => rfl

section Hashing

variable (H : List UInt8 → ByteArray32)

/-- Accepted messages are prefix-free, and the decoder tells where they end. -/
theorem parse_exact_input (raw : List UInt8) :
    ((parseTransaction H raw).isSome → ExactInput (decodeTx H) raw) ∧
    ((parseBlock H raw).isSome → ExactInput (decodeBlock H) raw) ∧
    ((parseBlockHeader raw).isSome → ExactInput decodeBlockHeader raw) := by
  have tx : Delimited (spanCursor.strict (decodeTx H)) := by
    rw [strict_decodeTx]
    infer_instance
  have block : Delimited (spanCursor.strict (decodeBlock H)) := by
    rw [strict_decodeBlock]
    infer_instance
  have header : Delimited (spanCursor.strict decodeBlockHeader) := by
    rw [strict_decodeBlockHeader]
    infer_instance
  exact ⟨exactInput_of_parse, exactInput_of_parse, exactInput_of_parse⟩

end Hashing

/-- A transaction with a witness, and a block with transactions of both layouts. -/
theorem parse_exact_input_sample :
    ExactInput (decodeTx Sample.zeroHash) (encodeTx (Sample.transaction Sample.stack)).flatten ∧
      ExactInput (decodeBlock Sample.zeroHash) (encodeBlock Sample.block).flatten := by
  have tx_parsed := (parseTransaction_eq_some_iff Sample.zeroHash _ _).mpr
    ⟨Sample.carried_transaction, rfl⟩
  have block_parsed := (parseBlock_eq_some_iff Sample.zeroHash _ _).mpr ⟨Sample.carried_block, rfl⟩
  exact ⟨(parse_exact_input Sample.zeroHash _).1 (Option.isSome_of_eq_some tx_parsed),
    (parse_exact_input Sample.zeroHash _).2.1 (Option.isSome_of_eq_some block_parsed)⟩

end StdBitcoin
