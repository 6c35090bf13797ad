import StdBitcoin.Serdes.Narrowing
import StdBitcoin.Validation.Verifier

/-!
# Verdicts on received values

Bitcoin Core's types hold what the wire carries: the conversions tell two values apart
exactly when `serialize` does. So the verifier says of a received header or block, on a
received chain, what it says of the ones that were sent.
-/

namespace StdBitcoin

namespace Legacy

/-- What a converted outpoint shows. -/
def observeOutpoint (p : COutPoint) : Outpoint := ⟨⟨p.hash⟩, p.n.toUInt64⟩

/-- The content of a converted input. -/
def observeTxin (input : CTxIn) : TxInput :=
  ⟨observeOutpoint input.prevout, ⟨input.scriptSig⟩, input.nSequence, input.scriptWitness.stack⟩

/-- The content of a converted output. -/
def observeTxout (output : CTxOut) : TxOutput := ⟨output.nValue, ⟨output.scriptPubKey⟩⟩

/-- What a converted transaction shows. -/
def observeTx (tx : CTransaction) : Transaction.Observable where
  version := tx.version
  inputs := tx.vin.map observeTxin
  outputs := tx.vout.map observeTxout
  locktime := tx.nLockTime

/-- What a converted header shows. -/
def observeHeader (header : CBlockHeader) : BlockHeader where
  version := header.nVersion.toUInt32
  prevBlockHash := ⟨header.hashPrevBlock⟩
  merkleRoot := ⟨header.hashMerkleRoot⟩
  time := header.nTime.toUInt64.toInt64
  bits := header.nBits
  nonce := header.nNonce

theorem observeTxin_convertTxin (input : TxInput) :
    observeTxin (convertTxin input) = input.narrowed := by
  refine TxInput.ext rfl rfl rfl (StdVector.ext ?_)
  exact List.map_id' _

/-- Conversion keeps what is sent of a transaction. -/
theorem observeTx_convertTx (tx : Transaction) :
    observeTx (convertTx tx) = tx.observe.narrowed := by
  refine Transaction.Observable.ext rfl (StdVector.ext ?_) (StdVector.ext ?_) rfl
  · change (tx.inputs.toList.map convertTxin).map observeTxin = tx.inputs.toList.map TxInput.narrowed
    rw [List.map_map]
    exact List.map_congr_left fun input _ => observeTxin_convertTxin input
  · change (tx.outputs.toList.map convertTxout).map observeTxout = tx.outputs.toList
    rw [List.map_map]
    exact List.map_id _

/-- Conversion keeps what is sent of a header. -/
theorem observeHeader_convertHeader (header : BlockHeader) :
    observeHeader (convertHeader header) = header.narrowed :=
  BlockHeader.ext (UInt32.toUInt32_toInt32 _) rfl rfl rfl rfl rfl

/-- The conversion reads no more of an input than its narrowed form has. -/
theorem convertTxin_narrowed (input : TxInput) : convertTxin input.narrowed = convertTxin input := by
  have index : input.prevout.index.toUInt32.toUInt64.toUInt32 = input.prevout.index.toUInt32 :=
    UInt32.toUInt32_toUInt64 _
  rw [convertTxin, convertTxin, convertOutpoint, convertOutpoint, TxInput.narrowed, Outpoint.narrowed]
  simp only [index]

/-- Transactions are converted alike if and only if they are sent alike. -/
theorem convertTx_eq_iff (a b : Transaction) :
    convertTx a = convertTx b ↔ a.observe.narrowed = b.observe.narrowed := by
  constructor
  · intro same
    rw [← observeTx_convertTx, same, observeTx_convertTx]
  · intro same
    obtain ⟨version, inputs, outputs, locktime⟩ :=
      (Transaction.Observable.ext_iff ..).mp same
    have narrowed (inputs : List TxInput) :
        (inputs.map TxInput.narrowed).map convertTxin = inputs.map convertTxin := by
      rw [List.map_map]
      exact List.map_congr_left fun input _ => convertTxin_narrowed input
    have vin : a.inputs.map convertTxin = b.inputs.map convertTxin := by
      apply StdVector.ext
      rw [StdVector.toList_map, StdVector.toList_map, ← narrowed a.inputs.toList,
        ← narrowed b.inputs.toList]
      exact congrArg (List.map convertTxin) (congrArg StdVector.toList inputs)
    have vout : a.outputs = b.outputs := outputs
    have version : a.version = b.version := version
    have locktime : a.locktime = b.locktime := locktime
    rw [convertTx, convertTx, version, vin, vout, locktime]

/-- Headers are converted alike if and only if they are sent alike. -/
theorem convertHeader_eq_iff (a b : BlockHeader) :
    convertHeader a = convertHeader b ↔ a.narrowed = b.narrowed := by
  have narrowed (header : BlockHeader) : convertHeader header.narrowed = convertHeader header := by
    have time : header.narrowed.time.toUInt64.toUInt32 = header.time.toUInt64.toUInt32 :=
      UInt32.toUInt32_toUInt64 _
    rw [convertHeader, convertHeader, time]
    rfl
  constructor
  · intro same
    rw [← observeHeader_convertHeader, same, observeHeader_convertHeader]
  · intro same
    rw [← narrowed a, same, narrowed b]

/-- Two maps with one kernel agree on the same sequences. -/
theorem map_eq_map_iff_of_kernel {α β γ : Type} {f : α → β} {g : α → γ}
    (kernel : ∀ x y, f x = f y ↔ g x = g y) (xs ys : List α) :
    xs.map f = ys.map f ↔ xs.map g = ys.map g := by
  simp only [← List.forall₂_eq_eq_eq, List.forall₂_map_left_iff, List.forall₂_map_right_iff, kernel]

/-- Blocks are converted alike if and only if they are sent alike. -/
theorem convertBlock_eq_iff {H : List UInt8 → ByteArray32} (a b : Block) :
    convertBlock a = convertBlock b ↔ a.narrowed H = b.narrowed H := by
  have kernel (x y : Transaction) : convertTx x = convertTx y ↔
      Transaction.ofObservable H x.observe.narrowed =
        Transaction.ofObservable H y.observe.narrowed := by
    rw [convertTx_eq_iff]
    exact ⟨congrArg _, congrArg Transaction.observe⟩
  have transactions := map_eq_map_iff_of_kernel kernel a.transactions.toList b.transactions.toList
  rw [convertBlock, convertBlock, CBlock.mk.injEq, Block.narrowed, Block.narrowed, Block.mk.injEq,
    convertHeader_eq_iff, ← StdVector.toList_inj, ← StdVector.toList_inj]
  exact and_congr_right fun _ => transactions

/-- Values are converted alike exactly when they are sent alike. -/
theorem convert_eq_iff_serialize_eq (H : List UInt8 → ByteArray32) :
    (∀ a b : Transaction, a.Composed H → b.Composed H →
      (convertTx a = convertTx b ↔
        written (serializeTx a vectorSink) = written (serializeTx b vectorSink))) ∧
    (∀ a b : BlockHeader, convertHeader a = convertHeader b ↔
      written (serializeBlockHeader a vectorSink) = written (serializeBlockHeader b vectorSink)) ∧
    ∀ a b : Block, a.Composed H → b.Composed H →
      (convertBlock a = convertBlock b ↔
        written (serializeBlock a vectorSink) = written (serializeBlock b vectorSink)) := by
  refine ⟨?_, ?_, ?_⟩
  · intro a b first second
    rw [convertTx_eq_iff, written_serializeTx, written_serializeTx, first.built, second.built]
    exact (Transaction.flatten_encodeTx_eq_iff_narrowed H first.nonempty second.nonempty).symm
  · intro a b
    rw [convertHeader_eq_iff, written_serializeBlockHeader, written_serializeBlockHeader,
      flatten_encodeBlockHeader_eq_iff_narrowed]
  · intro a b first second
    rw [convertBlock_eq_iff, written_serializeBlock, written_serializeBlock,
      Block.flatten_encodeBlock_eq_iff_narrowed first second]

end Legacy

namespace Sample

theorem composed (witness : StdVector (StdVector UInt8)) :
    (transaction witness).Composed zeroHash :=
  ⟨rfl, List.cons_ne_nil _ _⟩

end Sample

namespace Legacy

/-- A witness is converted, and sent. -/
theorem convert_eq_iff_serialize_eq_sample :
    convertTx (Sample.transaction .empty) ≠ convertTx (Sample.transaction Sample.stack) ↔
      written (serializeTx (Sample.transaction .empty) vectorSink) ≠
        written (serializeTx (Sample.transaction Sample.stack) vectorSink) :=
  ((convert_eq_iff_serialize_eq Sample.zeroHash).1 _ _ (Sample.composed _) (Sample.composed _)).not

end Legacy

namespace Verifier

open Legacy

variable (H : List UInt8 → ByteArray32) (core : Consensus) (verifier : Verifier)

section Converted

variable {a b : BlockHeader} {chain chain' : Chain} (same : convertHeader a = convertHeader b)
  (chains : chain.map convertHeader = chain'.map convertHeader)

include same

/-- A header is judged by its converted form. -/
theorem verifyHeader_congr : verifier.verifyHeader core a = verifier.verifyHeader core b := by
  rw [verifyHeader, verifyHeader, same]

include chains

/-- The parent is looked for by a hash of what is converted. -/
theorem parentFound_congr : ParentFound H a chain ↔ ParentFound H b chain' := by
  have hashes (headers : Chain) : headers.map (BlockHash.ofHeader H) =
      (headers.map convertHeader).map fun header => BlockHash.ofHeader H (observeHeader header) := by
    rw [List.map_map]
    refine List.map_congr_left fun header _ => ?_
    rw [Function.comp_apply, observeHeader_convertHeader, header.ofHeader_narrowed]
  have found (header : BlockHeader) (headers : Chain) : ParentFound H header headers ↔
      (headers.map (BlockHash.ofHeader H)).getLast? = some header.prevBlockHash := by
    rw [List.getLast?_map, Option.map_eq_some_iff]
    exact exists_congr fun tip => and_congr_right fun _ => eq_comm
  have parent : a.prevBlockHash = b.prevBlockHash :=
    BasicHashId.ext (congrArg CBlockHeader.hashPrevBlock same)
  rw [found, found, hashes, hashes, chains, parent]

/-- A header behind a chain is judged by its converted form. -/
theorem verifyHeaderChain_congr (now : Int64) :
    verifier.verifyHeaderChain H core a chain now =
      verifier.verifyHeaderChain H core b chain' now := by
  rw [verifyHeaderChain_eq_report, verifyHeaderChain_eq_report]
  congr 1
  funext rule
  cases rule with
  | intrinsic => rw [judgeHeader, judgeHeader, same]
  | parentFound =>
      rw [judgeHeader, judgeHeader]
      simp only [parentFound_congr H same chains]
  | contextual => rw [judgeHeader, judgeHeader, same, chains]

end Converted

/-- All overloads say the same of two blocks, each on its own chain. -/
structure SameVerdicts (a b : Block) (chain chain' : Chain) (now : Int64) : Prop where
  header : verifier.verifyHeader core a.header = verifier.verifyHeader core b.header
  headerChain : verifier.verifyHeaderChain H core a.header chain now =
    verifier.verifyHeaderChain H core b.header chain' now
  block : verifier.verifyBlock core a = verifier.verifyBlock core b
  blockChain : verifier.verifyBlockChain H core a chain now =
    verifier.verifyBlockChain H core b chain' now

/-- Blocks that are converted alike get the same verdicts. -/
theorem sameVerdicts_of_converted {a b : Block} {chain chain' : Chain}
    (same : convertBlock a = convertBlock b)
    (chains : chain.map convertHeader = chain'.map convertHeader) (now : Int64) :
    verifier.SameVerdicts H core a b chain chain' now := by
  have headers : convertHeader a.header = convertHeader b.header := congrArg CBlock.header same
  have alone := verifier.verifyHeader_congr core headers
  have extending := verifier.verifyHeaderChain_congr H core headers chains now
  refine ⟨alone, extending, ?_, ?_⟩
  · rw [verifyBlock, verifyBlock, alone, same]
  · rw [verifyBlockChain, verifyBlockChain, extending, same, chains]

/-- A block and a chain of headers that went over the wire get the verdicts of the originals,
whatever times and outpoint indices these have. -/
theorem verdicts_of_received {sent received : Block} {chain chain' : Chain}
    (composed : sent.Composed H)
    (block : parseBlock H (written (serializeBlock sent vectorSink)) = some received)
    (headers : List.Forall₂ (fun header header' =>
      parseBlockHeader (written (serializeBlockHeader header vectorSink)) = some header')
      chain chain')
    (now : Int64) : verifier.SameVerdicts H core received sent chain' chain now := by
  have arrived := (parseBlock_eq_some_iff H _ _).mp block
  apply verifier.sameVerdicts_of_converted H core
  · rw [convertBlock_eq_iff received sent,
      ← Block.flatten_encodeBlock_eq_iff_narrowed arrived.1.composed composed, ← arrived.2,
      written_serializeBlock]
  · rw [← List.forall₂_eq_eq_eq, List.forall₂_map_left_iff, List.forall₂_map_right_iff]
    refine headers.flip.imp fun header' header parsed => ?_
    rw [convertHeader_eq_iff, ← flatten_encodeBlockHeader_eq_iff_narrowed,
      ← ((parseBlockHeader_eq_some_iff _ _).mp parsed).2, written_serializeBlockHeader]

/-- The time of the received header has lost its upper half. -/
theorem verdicts_of_received_sample :
    let late : BlockHeader := { Sample.header with time := Sample.header.time + 2 ^ 32 }
    Verifier.SameVerdicts Sample.zeroHash workless ⟨{}⟩ Sample.block
      { Sample.block with header := late } [Sample.header] [late] 0 := by
  intro late
  have sent : (⟨late, Sample.block.transactions⟩ : Block).Composed Sample.zeroHash :=
    Sample.carried_block.composed
  have bytes : encodeBlockHeader late = encodeBlockHeader Sample.header := by decide
  refine verdicts_of_received Sample.zeroHash workless ⟨{}⟩ sent ?_ (.cons ?_ .nil) 0
  · rw [written_serializeBlock, parseBlock_eq_some_iff]
    exact ⟨Sample.carried_block, congrArg (fun header =>
      (header ++ encodeRange Sample.block.transactions encodeTx).flatten) bytes⟩
  · rw [written_serializeBlockHeader, parseBlockHeader_eq_some_iff]
    exact ⟨by decide, congrArg List.flatten bytes⟩

end Verifier

end StdBitcoin
