import StdBitcoin.Equality

/-!
# What a receiver is sent

The index of an outpoint and the time of a header are wider in memory than on the
wire. The bytes of a value are those of its narrowed form, the narrowed form is what
the parse functions return, and nothing else is lost: values with different narrowed
forms have different bytes.
-/

namespace StdBitcoin

open Codec Wire

/-- A sequence whose elements are replaced by others with the same bytes. -/
theorem encodeRange_map {α : Type} {encodeElem : α → Writes} {f : α → α} {elems : StdVector α}
    (same : ∀ elem ∈ elems.toList, encodeElem (f elem) = encodeElem elem) :
    encodeRange (elems.map f) encodeElem = encodeRange elems encodeElem := by
  rw [encodeRange, encodeRange, StdVector.size, StdVector.toList_map, List.length_map,
    List.flatMap_map]
  exact congrArg _ (List.flatMap_congr same)

namespace Outpoint

/-- The outpoint with the index that fits in the four-byte field. -/
def narrowed (p : Outpoint) : Outpoint := { p with index := p.index.toUInt32.toUInt64 }

theorem index_narrowed_lt (p : Outpoint) : p.narrowed.index.toNat < 2 ^ 32 := by
  rw [narrowed, UInt32.toNat_toUInt64]
  exact p.index.toUInt32.toNat_lt

/-- Narrowing keeps an outpoint if and only if its index has 32 bits. -/
theorem narrowed_eq_self_iff (p : Outpoint) : p.narrowed = p ↔ p.index.toNat < 2 ^ 32 := by
  constructor
  · intro same
    rw [← same]
    exact p.index_narrowed_lt
  · intro fits
    refine Outpoint.ext rfl (UInt64.toNat_inj.mp ?_)
    rw [narrowed, UInt32.toNat_toUInt64, UInt64.toNat_toUInt32]
    exact Nat.mod_eq_of_lt fits

end Outpoint

namespace TxInput

/-- The input as it comes back from the wire. -/
def narrowed (input : TxInput) : TxInput := { input with prevout := input.prevout.narrowed }

theorem encodeTxin_narrowed (input : TxInput) : encodeTxin input.narrowed = encodeTxin input := by
  have index : input.prevout.index.toUInt32.toUInt64.toUInt32 = input.prevout.index.toUInt32 :=
    UInt32.toUInt32_toUInt64 _
  rw [encodeTxin, encodeTxin, encodeOutpoint, encodeOutpoint, narrowed, Outpoint.narrowed]
  simp only [index]

end TxInput

namespace Transaction

namespace Observable

/-- The transaction as it comes back from the wire. -/
def narrowed (seen : Observable) : Observable :=
  { seen with inputs := seen.inputs.map TxInput.narrowed }

theorem indicesFit_narrowed (seen : Observable) : seen.narrowed.IndicesFit := by
  intro input member
  obtain ⟨whole, -, rfl⟩ := List.mem_map.mp member
  exact whole.prevout.index_narrowed_lt

/-- Narrowing keeps a transaction if and only if its indices have 32 bits. -/
theorem narrowed_eq_self_iff (seen : Observable) : seen.narrowed = seen ↔ seen.IndicesFit := by
  constructor
  · intro same
    rw [← same]
    exact seen.indicesFit_narrowed
  · intro fits
    refine Observable.ext rfl (StdVector.ext ?_) rfl rfl
    calc seen.inputs.toList.map TxInput.narrowed
      _ = seen.inputs.toList.map id := List.map_congr_left fun input member =>
          TxInput.ext ((Outpoint.narrowed_eq_self_iff _).mpr (fits input member)) rfl rfl rfl
      _ = seen.inputs.toList := List.map_id _

theorem witnessed_narrowed (seen : Observable) : seen.narrowed.witnessed = seen.witnessed :=
  List.any_map

/-- The bytes of the narrowed form, with the witnesses or without. -/
theorem encodeTxData_narrowed (seen : Observable) (segwit : Bool) :
    encodeTxData seen.version seen.narrowed.inputs seen.outputs seen.locktime segwit =
      encodeTxData seen.version seen.inputs seen.outputs seen.locktime segwit := by
  have inputs : encodeRange seen.narrowed.inputs encodeTxin =
      encodeRange seen.inputs encodeTxin :=
    encodeRange_map fun input _ => input.encodeTxin_narrowed
  have witnesses : (seen.narrowed.inputs.toList.flatMap fun input =>
      encodeRange input.witness encodeBytes) =
        seen.inputs.toList.flatMap fun input => encodeRange input.witness encodeBytes := by
    rw [narrowed, StdVector.toList_map, List.flatMap_map]
    rfl
  rw [encodeTxData, encodeTxData, inputs, witnesses]

end Observable

section Hashing

variable (H : List UInt8 → ByteArray32)

/-- A transaction and its narrowed form have the same encoding. -/
theorem encodeTx_narrowed (seen : Observable) :
    encodeTx (ofObservable H seen.narrowed) = encodeTx (ofObservable H seen) := by
  have flag : (ofObservable H seen.narrowed).hasWitness = (ofObservable H seen).hasWitness :=
    seen.witnessed_narrowed
  rw [encodeTx, encodeTx, flag]
  exact seen.encodeTxData_narrowed _

/-- Identifiers do not tell a transaction from its narrowed form. -/
theorem txid_narrowed (seen : Observable) :
    (ofObservable H seen.narrowed).txid = (ofObservable H seen).txid :=
  congrArg (fun writes : Writes => (⟨H writes.flatten⟩ : Txid)) (seen.encodeTxData_narrowed false)

/-- A transaction and its narrowed form have the same `wtxid`. -/
theorem wtxid_narrowed (seen : Observable) :
    (ofObservable H seen.narrowed).wtxid = (ofObservable H seen).wtxid :=
  congrArg (fun writes : Writes => (⟨H writes.flatten⟩ : Wtxid)) (encodeTx_narrowed H seen)

end Hashing

namespace Observable

variable {a b : Observable} {left right : List UInt8}

/-- Without witnesses the vectors end where the next bytes begin. -/
theorem separates_body_legacy (a_fits : a.IndicesFit) (b_fits : b.IndicesFit)
    (a_none : a.witnessed = false) (b_none : b.witnessed = false)
    (same : a.body ++ left = b.body ++ right) :
    a.inputs = b.inputs ∧ a.outputs = b.outputs ∧ left = right := by
  rw [body, body, a_none, b_none] at same
  simp only [Bool.false_eq_true, if_false, List.append_nil, List.flatten_append,
    List.append_assoc] at same
  obtain ⟨inputs, rest⟩ := separates_encodeRange separates_encodeTxin
    (fun input member => ⟨a_fits input member, inputs_unwitnessed a_none input member⟩)
    (fun input member => ⟨b_fits input member, inputs_unwitnessed b_none input member⟩) same
  obtain ⟨outputs, rest⟩ := separates_encodeRange separates_encodeTxout (fun _ _ => trivial)
    (fun _ _ => trivial) rest
  exact ⟨inputs, outputs, rest⟩

/-- With witnesses there are as many stacks as inputs before the next bytes. -/
theorem separates_body_extended (a_fits : a.IndicesFit) (b_fits : b.IndicesFit)
    (a_some : a.witnessed = true) (b_some : b.witnessed = true)
    (same : a.body ++ left = b.body ++ right) :
    a.inputs = b.inputs ∧ a.outputs = b.outputs ∧ left = right := by
  rw [body, body, a_some, b_some, ← encodeRange_stripped a.inputs, ← encodeRange_stripped b.inputs]
    at same
  simp only [if_true, List.flatten_append, List.append_assoc, flatten_flatMap] at same
  obtain ⟨stripped, rest⟩ := separates_encodeRange separates_encodeTxin a_fits.stripped
    b_fits.stripped same
  obtain ⟨outputs, rest⟩ := separates_encodeRange separates_encodeTxout (fun _ _ => trivial)
    (fun _ _ => trivial) rest
  have length : (a.inputs.toList.map TxInput.witness).length =
      (b.inputs.toList.map TxInput.witness).length := by
    have mapped := congrArg (fun inputs => inputs.toList.length) stripped
    simpa using mapped
  have listed (inputs : List TxInput) :
      (inputs.flatMap fun input => (encodeRange input.witness encodeBytes).flatten) =
        (inputs.map TxInput.witness).flatMap fun witness =>
          (encodeRange witness encodeBytes).flatten := by
    rw [List.flatMap_map]
  rw [listed, listed] at rest
  obtain ⟨witnesses, rest⟩ := (separates_encodeRange separates_encodeBytes).flatMap length
    (fun _ _ _ _ => trivial) (fun _ _ _ _ => trivial) rest
  refine ⟨StdVector.ext ?_, outputs, rest⟩
  rw [← TxInput.zipWith_stripped a.inputs.toList, ← TxInput.zipWith_stripped b.inputs.toList,
    witnesses]
  exact congrArg (List.zipWith _ · _) (congrArg StdVector.toList stripped)

/-- The size of a vector with elements is not the marker. -/
theorem body_append_ne_marker (nonempty : a.inputs.toList ≠ []) (tail : List UInt8) :
    a.body ++ left ≠ 0 :: tail := by
  intro headed
  simp only [body, encodeRange, List.flatten_append, List.append_assoc] at headed
  obtain ⟨size, -⟩ := size_eq_of_cons (by decide) headed
  apply nonempty
  rw [← List.length_eq_zero_iff, ← StdVector.toNat_size, size]
  rfl

end Observable

/-- Transactions with inputs have no overlap of the two layouts. -/
theorem separates_ofObservable (H : List UInt8 → ByteArray32) :
    Separates (fun seen => (encodeTx (ofObservable H seen)).flatten) fun seen =>
      seen.IndicesFit ∧ seen.inputs.toList ≠ [] := by
  intro a b a_domain b_domain left right same
  obtain ⟨a_fits, a_nonempty⟩ := a_domain
  obtain ⟨b_fits, b_nonempty⟩ := b_domain
  simp only [flatten_encodeTx_ofObservable, List.append_assoc] at same
  obtain ⟨version, rest⟩ := inverts_readU32.separates trivial trivial same
  have vectors : a.inputs = b.inputs ∧ a.outputs = b.outputs ∧
      (encodeU32 a.locktime).flatten ++ left = (encodeU32 b.locktime).flatten ++ right := by
    rw [Observable.marker, Observable.marker] at rest
    cases a_layout : a.witnessed <;> cases b_layout : b.witnessed <;>
      rw [a_layout, b_layout] at rest
    · exact Observable.separates_body_legacy a_fits b_fits a_layout b_layout rest
    · exact absurd rest (Observable.body_append_ne_marker a_nonempty _)
    · exact absurd rest.symm (Observable.body_append_ne_marker b_nonempty _)
    · exact Observable.separates_body_extended a_fits b_fits a_layout b_layout
        (List.append_cancel_left rest)
  obtain ⟨inputs, outputs, rest⟩ := vectors
  obtain ⟨locktime, rest⟩ := inverts_readU32.separates trivial trivial rest
  exact ⟨Observable.ext version inputs outputs locktime, rest⟩

/-- The bytes determine the narrowed form and nothing more. -/
theorem flatten_encodeTx_eq_iff_narrowed (H : List UInt8 → ByteArray32) {a b : Observable}
    (a_nonempty : a.inputs.toList ≠ []) (b_nonempty : b.inputs.toList ≠ []) :
    (encodeTx (ofObservable H a)).flatten = (encodeTx (ofObservable H b)).flatten ↔
      a.narrowed = b.narrowed := by
  rw [← encodeTx_narrowed H a, ← encodeTx_narrowed H b]
  constructor
  · intro same
    apply (separates_ofObservable H).inj _ _ same
    · exact ⟨a.indicesFit_narrowed, List.map_eq_nil_iff.not.mpr a_nonempty⟩
    · exact ⟨b.indicesFit_narrowed, List.map_eq_nil_iff.not.mpr b_nonempty⟩
  · intro same
    rw [same]

end Transaction

namespace BlockHeader

/-- The header with the time that fits in the four-byte field. -/
def narrowed (header : BlockHeader) : BlockHeader :=
  { header with time := header.time.toUInt64.toUInt32.toUInt64.toInt64 }

theorem timeFits_narrowed (header : BlockHeader) : header.narrowed.TimeFits := by
  have bound := header.time.toUInt64.toUInt32.toNat_lt
  rw [TimeFits, narrowed, toInt_seconds]
  omega

/-- Narrowing keeps a header if and only if its time has 32 bits. -/
theorem narrowed_eq_self_iff (header : BlockHeader) :
    header.narrowed = header ↔ header.TimeFits := by
  constructor
  · intro same
    rw [← same]
    exact header.timeFits_narrowed
  · intro fits
    exact BlockHeader.ext rfl rfl rfl (seconds_of_fits fits.1 fits.2) rfl rfl

/-- A header and its narrowed form have the same encoding. -/
theorem encodeBlockHeader_narrowed (header : BlockHeader) :
    encodeBlockHeader header.narrowed = encodeBlockHeader header := by
  have time : header.narrowed.time.toUInt64.toUInt32 = header.time.toUInt64.toUInt32 :=
    UInt32.toUInt32_toUInt64 _
  rw [encodeBlockHeader, encodeBlockHeader, time]
  rfl

/-- A header and its narrowed form have the same `block_hash`. -/
theorem ofHeader_narrowed (H : List UInt8 → ByteArray32) (header : BlockHeader) :
    BlockHash.ofHeader H header.narrowed = BlockHash.ofHeader H header := by
  rw [BlockHash.ofHeader, BlockHash.ofHeader, header.encodeBlockHeader_narrowed]

end BlockHeader

/-- Headers have the same encoding if and only if their narrowed forms are equal. -/
theorem flatten_encodeBlockHeader_eq_iff_narrowed (a b : BlockHeader) :
    (encodeBlockHeader a).flatten = (encodeBlockHeader b).flatten ↔ a.narrowed = b.narrowed := by
  rw [← a.encodeBlockHeader_narrowed, ← b.encodeBlockHeader_narrowed]
  constructor
  · exact inverts_readBlockHeader.separates.inj a.timeFits_narrowed b.timeFits_narrowed
  · intro same
    rw [same]

/-- Built by the four-argument constructor with at least one input. -/
structure Transaction.Composed (H : List UInt8 → ByteArray32) (tx : Transaction) : Prop where
  built : tx = ofObservable H tx.observe
  nonempty : tx.inputs.toList ≠ []

/-- What the wire carries is composed of its content and has an input. -/
theorem Transaction.Carried.composed {H : List UInt8 → ByteArray32} {tx : Transaction}
    (carried : tx.Carried H) : tx.Composed H :=
  ⟨carried.built, carried.nonempty⟩

namespace Block

variable (H : List UInt8 → ByteArray32)

/-- The block of the narrowed header and the narrowed transactions. -/
def narrowed (b : Block) : Block where
  header := b.header.narrowed
  transactions := b.transactions.map fun tx => .ofObservable H tx.observe.narrowed

/-- Every transaction of the block has an input. -/
def Composed (b : Block) : Prop := ∀ tx ∈ b.transactions.toList, tx.Composed H

variable {H}

/-- The transactions of a block that the wire carries are composed and have inputs. -/
theorem Carried.composed {b : Block} (carried : b.Carried H) : b.Composed H :=
  fun tx member => (carried.all tx member).composed

/-- A block and its narrowed form have the same encoding. -/
theorem flatten_encodeBlock_narrowed {b : Block} (composed : b.Composed H) :
    (encodeBlock (b.narrowed H)).flatten = (encodeBlock b).flatten := by
  have transactions : encodeRange (b.narrowed H).transactions encodeTx =
      encodeRange b.transactions encodeTx := by
    refine encodeRange_map fun tx member => ?_
    rw [Transaction.encodeTx_narrowed, ← (composed tx member).built]
  have header : encodeBlockHeader (b.narrowed H).header = encodeBlockHeader b.header :=
    b.header.encodeBlockHeader_narrowed
  rw [encodeBlock, encodeBlock, transactions, header]

/-- The bytes of a block determine its narrowed form and nothing more. -/
theorem flatten_encodeBlock_eq_iff_narrowed {a b : Block} (a_composed : a.Composed H)
    (b_composed : b.Composed H) :
    (encodeBlock a).flatten = (encodeBlock b).flatten ↔ a.narrowed H = b.narrowed H := by
  rw [← flatten_encodeBlock_narrowed a_composed, ← flatten_encodeBlock_narrowed b_composed]
  constructor
  · intro same
    have separates : Separates (fun tx => (encodeTx tx).flatten) fun tx =>
        tx = .ofObservable H tx.observe ∧ tx.observe.IndicesFit ∧ tx.inputs.toList ≠ [] := by
      intro x y first second left right same
      rw [first.1, second.1] at same
      obtain ⟨observed, rest⟩ := Transaction.separates_ofObservable H first.2 second.2 same
      exact ⟨first.1.trans ((congrArg _ observed).trans second.1.symm), rest⟩
    have domain {c : Block} (composed : c.Composed H) : ∀ tx ∈ (c.narrowed H).transactions.toList,
        tx = .ofObservable H tx.observe ∧ tx.observe.IndicesFit ∧ tx.inputs.toList ≠ [] := by
      intro tx member
      obtain ⟨whole, present, rfl⟩ := List.mem_map.mp member
      exact ⟨rfl, whole.observe.indicesFit_narrowed,
        List.map_eq_nil_iff.not.mpr (composed whole present).nonempty⟩
    simp only [encodeBlock, List.flatten_append] at same
    obtain ⟨header, rest⟩ := inverts_readBlockHeader.separates a.header.timeFits_narrowed
      b.header.timeFits_narrowed same
    have transactions := (separates_encodeRange separates).inj (domain a_composed)
      (domain b_composed) rest
    exact congrArg₂ Block.mk header transactions
  · intro same
    rw [same]

end Block

section Hashing

variable (H : List UInt8 → ByteArray32)

/-- What a receiver makes of a transaction. -/
structure Transaction.Relayed (sent received : Transaction) : Prop where
  observe : received.observe = sent.observe.narrowed
  txid : received.txid = sent.txid
  wtxid : received.wtxid = sent.wtxid
  equal : (received == sent) = true
  bytes : written (serializeTx received vectorSink) = written (serializeTx sent vectorSink)
  exact : received = sent ↔ sent.observe.IndicesFit

/-- What a receiver makes of a block. -/
structure Block.Relayed (sent received : Block) : Prop where
  header : received.header = sent.header.narrowed
  hash : BlockHash.ofHeader H received.header = BlockHash.ofHeader H sent.header
  transactions :
    List.Forall₂ Transaction.Relayed sent.transactions.toList received.transactions.toList
  bytes : written (serializeBlock received vectorSink) = written (serializeBlock sent vectorSink)

variable {H}

/-- The narrowed transaction stands for the composed one on the wire. -/
theorem Transaction.Composed.relayed {tx : Transaction} (composed : tx.Composed H) :
    tx.Relayed (ofObservable H tx.observe.narrowed) := by
  obtain ⟨built, -⟩ := composed
  have bytes : encodeTx (ofObservable H tx.observe.narrowed) = encodeTx tx :=
    (encodeTx_narrowed H _).trans (congrArg encodeTx built.symm)
  have wtxid : (ofObservable H tx.observe.narrowed).wtxid = tx.wtxid :=
    (wtxid_narrowed H _).trans (congrArg Transaction.wtxid built.symm)
  refine ⟨rfl, (txid_narrowed H _).trans (congrArg Transaction.txid built.symm), wtxid, ?_, ?_, ?_⟩
  · exact (beq_eq_true_iff _ _).mpr (congrArg BasicHashId.value wtxid)
  · rw [written_serializeTx, written_serializeTx, bytes]
  · rw [← Observable.narrowed_eq_self_iff]
    constructor
    · intro same
      exact congrArg observe same
    · intro same
      rw [same, ← built]

/-- The narrowed block stands for the composed one on the wire. -/
theorem Block.Composed.relayed {b : Block} (composed : b.Composed H) :
    b.Relayed H (b.narrowed H) where
  header := rfl
  hash := b.header.ofHeader_narrowed H
  transactions := List.forall₂_map_right_iff.mpr (List.forall₂_same.mpr fun tx member =>
    (composed tx member).relayed)
  bytes := by
    rw [written_serializeBlock, written_serializeBlock, flatten_encodeBlock_narrowed composed]

/-- The wire carries the narrowed form of a composed transaction whose sizes are allowed. -/
theorem Transaction.Composed.carried_narrowed {tx : Transaction} (composed : tx.Composed H)
    (within : tx.observe.narrowed.Within maxSize.toNat) :
    (ofObservable H tx.observe.narrowed).Carried H :=
  ⟨rfl, List.map_eq_nil_iff.not.mpr composed.nonempty, within.mono maxSize_le_wireLimit⟩

/-- What is sent is received, whatever the indices of its outpoints and the time of its
header, and differs in nothing else. -/
theorem parse_serialize_relayed (H : List UInt8 → ByteArray32) :
    (∀ tx : Transaction, tx.Composed H → tx.observe.narrowed.Within maxSize.toNat →
      ∃ received, parseTransaction H (written (serializeTx tx vectorSink)) = some received ∧
        tx.Relayed received) ∧
    (∀ b : Block, b.Composed H → b.transactions.Within maxSize.toNat →
      (∀ tx ∈ b.transactions.toList, tx.observe.narrowed.Within maxSize.toNat) →
      ∃ received, parseBlock H (written (serializeBlock b vectorSink)) = some received ∧
        b.Relayed H received) ∧
    ∀ header : BlockHeader,
      parseBlockHeader (written (serializeBlockHeader header vectorSink)) =
          some header.narrowed ∧
        (header.narrowed = header ↔ header.TimeFits) := by
  refine ⟨?_, ?_, ?_⟩
  · intro tx composed within
    refine ⟨_, ?_, composed.relayed⟩
    rw [← composed.relayed.bytes, written_serializeTx, parseTransaction_eq_some_iff]
    exact ⟨composed.carried_narrowed within, rfl⟩
  · intro b composed few within
    refine ⟨_, ?_, composed.relayed⟩
    rw [← composed.relayed.bytes, written_serializeBlock, parseBlock_eq_some_iff]
    refine ⟨⟨b.header.timeFits_narrowed, ?_, fun tx member => ?_⟩, rfl⟩
    · exact (StdVector.within_map_iff _ _).mpr (few.trans maxSize_le_wireLimit)
    · obtain ⟨whole, present, rfl⟩ := List.mem_map.mp member
      exact (composed whole present).carried_narrowed (within whole present)
  · intro header
    refine ⟨?_, header.narrowed_eq_self_iff⟩
    rw [written_serializeBlockHeader, parseBlockHeader_eq_some_iff,
      header.encodeBlockHeader_narrowed]
    exact ⟨header.timeFits_narrowed, rfl⟩

end Hashing

namespace Sample

/-- A transaction whose input names an output beyond the four-byte field. -/
def faraway : Transaction :=
  Transaction.make zeroHash 2
    ⟨[{ prevout := ⟨.zero, 0x100000007⟩, script := .empty, sequence := 0, witness := stack }],
      by simp⟩ .empty 0

theorem composed_faraway : faraway.Composed zeroHash := ⟨rfl, List.cons_ne_nil _ _⟩

end Sample

/-- A transaction whose index has more than 32 bits is received as another one. -/
theorem parse_serialize_relayed_sample :
    ∃ received, parseTransaction Sample.zeroHash
        (written (serializeTx Sample.faraway vectorSink)) = some received ∧
      Sample.faraway.Relayed received ∧ received ≠ Sample.faraway := by
  obtain ⟨received, parsed, relayed⟩ := (parse_serialize_relayed Sample.zeroHash).1 Sample.faraway
    Sample.composed_faraway (by decide)
  refine ⟨received, parsed, relayed, ?_⟩
  rw [ne_eq, relayed.exact]
  intro fits
  exact absurd (fits _ (List.mem_singleton_self _)) (by decide)

end StdBitcoin
