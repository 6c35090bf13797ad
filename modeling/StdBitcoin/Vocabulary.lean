import Mathlib.Data.Vector.Basic

/-!
# Vocabulary types

The value types of the library: hash identifiers, outpoints, inputs and outputs,
transactions, headers and blocks. A transaction holds its implementation record,
whose last three members cache what the other four determine; the constructors
that fill them live with the encoders.
-/

namespace StdBitcoin

/-- `std::vector`: a sequence whose size is a `std::size_t`. -/
@[ext] structure StdVector (α : Type) where
  toList : List α
  size_lt : toList.length < 2 ^ 64
deriving DecidableEq

namespace StdVector

variable {α β : Type}

/-- The default-constructed vector. -/
def empty : StdVector α := ⟨[], Nat.two_pow_pos 64⟩

/-- `size()`, which is representable as no vector is longer. -/
def size (xs : StdVector α) : UInt64 := UInt64.ofNat xs.toList.length

/-- A vector of the same size, element by element. -/
def map (f : α → β) (xs : StdVector α) : StdVector β :=
  ⟨xs.toList.map f, by rw [List.length_map]; exact xs.size_lt⟩

/-- As many elements as a `std::size_t` says. -/
def ofVector {size : UInt64} (elems : List.Vector α size.toNat) : StdVector α :=
  ⟨elems.toList, by rw [elems.toList_length]; exact size.toNat_lt⟩

/-- At most as many elements as a `std::size_t` says. -/
def ofBounded {size : UInt64} (elems : { elems : List α // elems.length ≤ size.toNat }) :
    StdVector α :=
  ⟨elems.1, Nat.lt_of_le_of_lt elems.2 size.toNat_lt⟩

/-- As many elements as another vector has. -/
def ofSameLength (xs : StdVector α)
    (elems : { elems : List β // elems.length = xs.toList.length }) :
    StdVector β :=
  ⟨elems.1, by rw [elems.2]; exact xs.size_lt⟩

@[simp] theorem toList_ofVector {size : UInt64} (elems : List.Vector α size.toNat) :
    (ofVector elems).toList = elems.toList := rfl

@[simp] theorem toList_ofBounded {size : UInt64}
    (elems : { elems : List α // elems.length ≤ size.toNat }) :
    (ofBounded elems).toList = elems.1 := rfl

@[simp] theorem size_ofVector {size : UInt64} (elems : List.Vector α size.toNat) :
    (ofVector elems).size = size := by
  rw [StdVector.size, toList_ofVector, elems.toList_length, UInt64.ofNat_toNat]

/-- The size is the number of elements, without a wrap. -/
@[simp] theorem toNat_size (xs : StdVector α) : xs.size.toNat = xs.toList.length := by
  rw [size, UInt64.toNat_ofNat']
  exact Nat.mod_eq_of_lt xs.size_lt

@[simp] theorem toList_empty : (empty : StdVector α).toList = [] := rfl

@[simp] theorem isEmpty_empty : (empty : StdVector α).toList.isEmpty = true := rfl

@[simp] theorem toList_map (f : α → β) (xs : StdVector α) :
    (xs.map f).toList = xs.toList.map f := rfl

theorem toList_inj {xs ys : StdVector α} : xs.toList = ys.toList ↔ xs = ys :=
  ⟨StdVector.ext, fun same => congrArg toList same⟩

end StdVector

/-- `std::array<std::byte, 32>`. -/
abbrev ByteArray32 := List.Vector UInt8 32

/-- The tags that keep the hash identifiers apart. -/
inductive HashPolicy where
  | blockHash
  | txid
  | wtxid
  | hash256
deriving DecidableEq

/-- Thirty-two bytes in wire order. -/
@[ext] structure BasicHashId (policy : HashPolicy) where
  value : ByteArray32
deriving DecidableEq

namespace BasicHashId

/-- The default-constructed identifier holds zero bytes only. -/
def zero {policy : HashPolicy} : BasicHashId policy := ⟨List.Vector.replicate 32 0⟩

/-- `as_bytes`: the bytes as they are hashed and sent. -/
def asBytes {policy : HashPolicy} (hash : BasicHashId policy) : List UInt8 := hash.value.toList

@[simp] theorem length_asBytes {policy : HashPolicy} (hash : BasicHashId policy) :
    hash.asBytes.length = 32 := hash.value.toList_length

end BasicHashId

/-- The hash of a block header. -/
abbrev BlockHash := BasicHashId .blockHash

/-- The hash of a transaction without its witnesses. -/
abbrev Txid := BasicHashId .txid

/-- The hash of a transaction with its witnesses. -/
abbrev Wtxid := BasicHashId .wtxid

/-- A hash of no particular kind. -/
abbrev Hash256 := BasicHashId .hash256

/-- `std::int64_t` satoshis; the valid money range is not imposed. -/
abbrev Amount := Int64

/-- Serialized script bytes, of any length. -/
@[ext] structure Script where
  bytes : StdVector UInt8
deriving DecidableEq

namespace Script

/-- The script without bytes. -/
def empty : Script := ⟨.empty⟩

end Script

/-- A transaction output, named by its transaction and its `std::size_t` index. -/
@[ext] structure Outpoint where
  txid : Txid
  index : UInt64
deriving DecidableEq

/-- A transaction input: what it spends, and with which script and witness. -/
@[ext] structure TxInput where
  prevout : Outpoint
  script : Script
  sequence : UInt32
  witness : StdVector (StdVector UInt8)
deriving DecidableEq

namespace TxInput

/-- `has_witness(input)`: the witness stack has items. -/
def hasWitness (input : TxInput) : Bool := !input.witness.toList.isEmpty

/-- The constructor that takes over another input and replaces its witness. -/
def withWitness (other : TxInput) (witness : StdVector (StdVector UInt8)) : TxInput :=
  { other with witness }

end TxInput

/-- A transaction output: an amount, and the script that locks it. -/
@[ext] structure TxOutput where
  value : Amount
  script : Script
deriving DecidableEq

/-- `transaction::implementation`: the fields and what is cached about them. -/
structure Transaction.Implementation where
  version : UInt32
  inputs : StdVector TxInput
  outputs : StdVector TxOutput
  locktime : UInt32
  isSegwit : Bool
  hash : ByteArray32
  witnessHash : ByteArray32

/-- A transaction is a pointer to its implementation, which is never modified. -/
structure Transaction where
  impl : Transaction.Implementation

namespace Transaction

/-- `implementation() = default`: every member is value-initialised. -/
def Implementation.default : Implementation where
  version := 0
  inputs := .empty
  outputs := .empty
  locktime := 0
  isSegwit := false
  hash := List.Vector.replicate 32 0
  witnessHash := List.Vector.replicate 32 0

/-- The default constructor. -/
def default : Transaction := ⟨.default⟩

/-- `version()`. -/
def version (tx : Transaction) : UInt32 := tx.impl.version

/-- `locktime()`. -/
def locktime (tx : Transaction) : UInt32 := tx.impl.locktime

/-- `inputs()`. -/
def inputs (tx : Transaction) : StdVector TxInput := tx.impl.inputs

/-- `outputs()`. -/
def outputs (tx : Transaction) : StdVector TxOutput := tx.impl.outputs

/-- `has_witness(tx)`, which was computed by the constructor. -/
def hasWitness (tx : Transaction) : Bool := tx.impl.isSegwit

/-- Implementations compare by their witness hash. -/
instance : BEq Implementation := ⟨fun lhs rhs => decide (lhs.witnessHash = rhs.witnessHash)⟩

instance : BEq Transaction := ⟨fun lhs rhs => lhs.impl == rhs.impl⟩

/-- Equality compares the cached witness hashes only. -/
theorem beq_eq_true_iff (lhs rhs : Transaction) :
    (lhs == rhs) = true ↔ lhs.impl.witnessHash = rhs.impl.witnessHash :=
  decide_eq_true_iff

/-- What the observers of a transaction show. -/
@[ext] structure Observable where
  version : UInt32
  inputs : StdVector TxInput
  outputs : StdVector TxOutput
  locktime : UInt32
deriving DecidableEq

/-- What the accessors show of a transaction. -/
def observe (tx : Transaction) : Observable := ⟨tx.version, tx.inputs, tx.outputs, tx.locktime⟩

/-- `txid{tx}`. -/
def txid (tx : Transaction) : Txid := ⟨tx.impl.hash⟩

/-- `wtxid{tx}`. -/
def wtxid (tx : Transaction) : Wtxid := ⟨tx.impl.witnessHash⟩

end Transaction

/-- The time is a `std::chrono::sys_seconds` count. -/
@[ext] structure BlockHeader where
  version : UInt32
  prevBlockHash : BlockHash
  merkleRoot : Hash256
  time : Int64
  bits : UInt32
  nonce : UInt32
deriving DecidableEq

/-- A block: a header, and transactions in their order. -/
structure Block where
  header : BlockHeader
  transactions : StdVector Transaction

/-- The header and what the observers of each transaction show, in order. -/
def Block.observe (b : Block) : BlockHeader × List Transaction.Observable :=
  (b.header, b.transactions.toList.map Transaction.observe)

end StdBitcoin
