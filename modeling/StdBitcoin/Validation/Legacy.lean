import StdBitcoin.Vocabulary

/-!
# Conversion to the types of Bitcoin Core

The consensus functions of Bitcoin Core take Core's own data types. Every
conversion copies the members one by one and narrows those that are shorter there.
-/

namespace StdBitcoin

/-- `consensus_parameters`; the default is the limit of the main network. -/
structure ConsensusParameters where
  powLimit : Hash256 := ⟨⟨List.replicate 28 0xFF ++ List.replicate 4 0, rfl⟩⟩
deriving DecidableEq

namespace Legacy

/-- `uint256`. -/
abbrev UInt256 := ByteArray32

/-- `CScript`. -/
abbrev CScript := StdVector UInt8

/-- `COutPoint`. -/
structure COutPoint where
  hash : UInt256
  n : UInt32
deriving DecidableEq

/-- `CScriptWitness`. -/
structure CScriptWitness where
  stack : StdVector (StdVector UInt8)
deriving DecidableEq

/-- `CTxIn`. -/
structure CTxIn where
  prevout : COutPoint
  scriptSig : CScript
  nSequence : UInt32
  scriptWitness : CScriptWitness
deriving DecidableEq

/-- `CTxOut`. -/
structure CTxOut where
  nValue : Int64
  scriptPubKey : CScript
deriving DecidableEq

/-- `CTransaction`, whose version is unsigned. -/
structure CTransaction where
  version : UInt32
  vin : StdVector CTxIn
  vout : StdVector CTxOut
  nLockTime : UInt32
deriving DecidableEq

/-- `CBlockHeader`, whose version is signed. -/
structure CBlockHeader where
  nVersion : Int32
  hashPrevBlock : UInt256
  hashMerkleRoot : UInt256
  nTime : UInt32
  nBits : UInt32
  nNonce : UInt32
deriving DecidableEq

/-- `CBlock`, with its transactions behind shared pointers. -/
structure CBlock where
  header : CBlockHeader
  vtx : StdVector CTransaction
deriving DecidableEq

/-- `Consensus::Params`; every other member keeps its initialiser. -/
structure Params where
  powLimit : UInt256
deriving DecidableEq

/-- `convert_uint256`. -/
def convertUInt256 {policy : HashPolicy} (hash : BasicHashId policy) : UInt256 := hash.value

/-- `convert_script`. -/
def convertScript (script : Script) : CScript := script.bytes

/-- `convert_outpoint`: the index is cut to four bytes. -/
def convertOutpoint (p : Outpoint) : COutPoint where
  hash := convertUInt256 p.txid
  n := p.index.toUInt32

/-- `convert_txin`, with the witness of the input. -/
def convertTxin (input : TxInput) : CTxIn where
  prevout := convertOutpoint input.prevout
  scriptSig := convertScript input.script
  nSequence := input.sequence
  scriptWitness := ⟨input.witness.map fun item => item⟩

/-- `convert_txout`. -/
def convertTxout (output : TxOutput) : CTxOut where
  nValue := output.value
  scriptPubKey := convertScript output.script

/-- `convert_tx`. -/
def convertTx (tx : Transaction) : CTransaction where
  version := tx.version
  vin := tx.inputs.map convertTxin
  vout := tx.outputs.map convertTxout
  nLockTime := tx.locktime

/-- `convert_header`: the time is cut to four bytes. -/
def convertHeader (header : BlockHeader) : CBlockHeader where
  nVersion := header.version.toInt32
  hashPrevBlock := convertUInt256 header.prevBlockHash
  hashMerkleRoot := convertUInt256 header.merkleRoot
  nTime := header.time.toUInt64.toUInt32
  nBits := header.bits
  nNonce := header.nonce

/-- `convert_block`. -/
def convertBlock (b : Block) : CBlock where
  header := convertHeader b.header
  vtx := b.transactions.map convertTx

/-- `convert_consensus`. -/
def convertConsensus (params : ConsensusParameters) : Params where
  powLimit := convertUInt256 params.powLimit

end Legacy

end StdBitcoin
