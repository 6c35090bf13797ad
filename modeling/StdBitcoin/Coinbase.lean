import StdBitcoin.Commitment
import StdBitcoin.Serdes.Narrowing

/-!
# Coinbase transactions

A coinbase transaction is told by its only outpoint, which is the null outpoint. In the
bytes of a received transaction that is one span behind the version and the marker, and
the `txid` commits to it.
-/

namespace StdBitcoin

open Codec Wire

/-- `explicit operator bool`. -/
def BasicHashId.toBool {policy : HashPolicy} (hash : BasicHashId policy) : Bool :=
  decide (hash ≠ .zero)

/-- `is_coinbase(tx)`. -/
def Transaction.isCoinbase (tx : Transaction) : Bool :=
  match tx.inputs.toList with
  | [input] => !input.prevout.txid.toBool && input.prevout.index == 0xFFFFFFFF
  | _ => false

namespace Outpoint

/-- The null outpoint. -/
def null : Outpoint := ⟨.zero, 0xFFFFFFFF⟩

theorem length_encodeOutpoint (p : Outpoint) : (encodeOutpoint p).flatten.length = 36 := by
  simp [encodeOutpoint, encodeHash256, encodeU32]

/-- Outpoints whose indices fit are told apart by their bytes. -/
theorem encodeOutpoint_inj {p q : Outpoint} (first : p.index.toNat < 2 ^ 32)
    (second : q.index.toNat < 2 ^ 32)
    (same : (encodeOutpoint p).flatten = (encodeOutpoint q).flatten) : p = q := by
  simp only [encodeOutpoint, encodeHash256, BasicHashId.asBytes, List.flatten_append,
    List.flatten_singleton] at same
  obtain ⟨hash, rest⟩ := (inverts_take 32).separates trivial trivial same
  have index := inverts_readU32.separates.inj trivial trivial rest
  refine Outpoint.ext (BasicHashId.ext hash) (UInt64.toNat_inj.mp ?_)
  rw [← Nat.mod_eq_of_lt first, ← Nat.mod_eq_of_lt second]
  exact congrArg UInt32.toNat index

end Outpoint

namespace Transaction

/-- A coinbase has one input, which spends the null outpoint. -/
theorem isCoinbase_iff (tx : Transaction) :
    tx.isCoinbase = true ↔ tx.inputs.toList.map TxInput.prevout = [Outpoint.null] := by
  rw [isCoinbase]
  match tx.inputs.toList with
  | [] => simp
  | [input] => simp [BasicHashId.toBool, Outpoint.null, Outpoint.ext_iff]
  | _ :: _ :: _ => simp

/-- What stands behind the version, and behind the marker if there is one. -/
def inputBytes (raw : List UInt8) : List UInt8 :=
  if (raw.drop 4).head? = some 0 then (raw.drop 4).drop 2 else raw.drop 4

/-- The size of an input vector with one element, and the null outpoint. -/
def coinbaseBytes : List UInt8 := 1 :: (List.replicate 32 0 ++ List.replicate 4 0xFF)

/-- The 37 bytes are a count of one and the null outpoint. -/
theorem coinbaseBytes_eq : coinbaseBytes = 1 :: (encodeOutpoint .null).flatten := by decide

/-- The inputs stand behind the version in the legacy layout and behind the marker in the extended
one. -/
theorem inputBytes_flatten_encodeTx {H : List UInt8 → ByteArray32} {seen : Observable}
    (nonempty : seen.inputs.toList ≠ []) :
    inputBytes (encodeTx (ofObservable H seen)).flatten =
      seen.body ++ (encodeU32 seen.locktime).flatten := by
  have width : (encodeU32 seen.version).flatten.length = 4 := by simp [encodeU32]
  rw [inputBytes, flatten_encodeTx_ofObservable, List.drop_left' width]
  cases layout : seen.witnessed with
  | true =>
      rw [Observable.marker, layout]
      rfl
  | false =>
      rw [Observable.marker, layout]
      have unmarked : (seen.body ++ (encodeU32 seen.locktime).flatten).head? ≠ some 0 := by
        intro headed
        obtain ⟨tail, same⟩ := List.head?_eq_some_iff.mp headed
        exact Observable.body_append_ne_marker nonempty tail same
      exact if_neg unmarked

/-- The span of one input holds its outpoint. -/
theorem take_body_of_singleton {seen : Observable} {input : TxInput}
    (only : seen.inputs.toList = [input]) (tail : List UInt8) :
    (seen.body ++ tail).take 37 = 1 :: (encodeOutpoint input.prevout).flatten := by
  have size : seen.inputs.size = 1 := by
    rw [StdVector.size, only]
    rfl
  have one : (encodeSize 1).flatten = [1] := rfl
  rw [Observable.body, encodeRange, size, only, List.flatMap_singleton, encodeTxin]
  simp only [List.flatten_append, one, List.append_assoc]
  rw [List.singleton_append, List.take_succ_cons, List.take_left' input.prevout.length_encodeOutpoint]

/-- Behind version and marker a coinbase transaction begins with the null outpoint, and no
other transaction does. -/
theorem isCoinbase_iff_take {H : List UInt8 → ByteArray32} {seen : Observable}
    (fits : seen.IndicesFit) (tail : List UInt8) :
    (ofObservable H seen).isCoinbase = true ↔ (seen.body ++ tail).take 37 = coinbaseBytes := by
  have single {input : TxInput} (only : seen.inputs.toList = [input]) :
      (ofObservable H seen).isCoinbase = true ↔ (seen.body ++ tail).take 37 = coinbaseBytes := by
    have shown : (ofObservable H seen).inputs.toList = [input] := only
    rw [isCoinbase_iff, shown, take_body_of_singleton only, coinbaseBytes_eq, List.map_singleton,
      List.singleton_inj, List.cons.injEq]
    constructor
    · intro null
      rw [null]
      exact ⟨rfl, rfl⟩
    · rintro ⟨-, same⟩
      exact Outpoint.encodeOutpoint_inj (fits input (by simp [only])) (by decide) same
  constructor
  · intro coinbase
    obtain ⟨input, only, -⟩ := List.map_eq_singleton_iff.mp ((isCoinbase_iff _).mp coinbase)
    exact (single only).mp coinbase
  · intro bytes
    have headed : seen.body ++ tail = 1 :: ((encodeOutpoint .null).flatten ++
        (seen.body ++ tail).drop 37) := by
      rw [← List.cons_append, ← coinbaseBytes_eq, ← bytes, List.take_append_drop]
    have vector := headed
    simp only [Observable.body, encodeRange, List.flatten_append, List.append_assoc] at vector
    obtain ⟨size, -⟩ := size_eq_of_cons (by decide) vector
    have length : seen.inputs.toList.length = 1 := by
      rw [← StdVector.toNat_size, size]
      rfl
    obtain ⟨input, only⟩ := List.length_eq_one_iff.mp length
    exact (single only).mpr bytes

/-- A received transaction is a coinbase transaction exactly if its bytes say so. Two of one
`txid` both are or both are not, unless the hash collides. -/
theorem isCoinbase_received (H : List UInt8 → ByteArray32) {raw : List UInt8} {tx : Transaction}
    (parsed : parseTransaction H raw = some tx) :
    (tx.isCoinbase = true ↔ (inputBytes raw).take 37 = coinbaseBytes) ∧
      ∀ other y, parseTransaction H other = some y → tx.txid = y.txid →
        Set.InjOn H {tx.observe.serialization false, y.observe.serialization false} →
        tx.isCoinbase = y.isCoinbase := by
  have indices {y : Transaction} (carried : y.Carried H) : y.observe.IndicesFit :=
    fun input member => (carried.within.bodies input member).1
  obtain ⟨carried, rfl⟩ := (parseTransaction_eq_some_iff H _ _).mp parsed
  constructor
  · rw [carried.built, inputBytes_flatten_encodeTx carried.nonempty,
      isCoinbase_iff_take (indices carried)]
  · intro other y y_parsed same injective
    obtain ⟨y_carried, -⟩ := (parseTransaction_eq_some_iff H _ _).mp y_parsed
    have txid {x : Transaction} (built : x = ofObservable H x.observe) :
        x.txid = ⟨H (x.observe.serialization false)⟩ := (identifierLaw_of_built built).txid
    rw [txid carried.built, txid y_carried.built, BasicHashId.mk.injEq,
      injective.eq_iff (by simp) (by simp),
      Observable.serialization_false_eq_iff (indices carried) (indices y_carried)] at same
    have prevouts : tx.inputs.toList.map TxInput.prevout = y.inputs.toList.map TxInput.prevout := by
      have committed := congrArg (List.map Prod.fst) same.2.2.2
      rwa [List.map_map, List.map_map] at committed
    rw [Bool.eq_iff_iff, isCoinbase_iff, isCoinbase_iff, prevouts]

end Transaction

namespace Sample

/-- One input that spends the null outpoint. -/
def coinbase (witness : StdVector (StdVector UInt8)) : Transaction :=
  Transaction.make lengthHash 1
    ⟨[{ prevout := .null, script := .empty, sequence := 0, witness }], by simp⟩ .empty 0

theorem carried_coinbase {witness : StdVector (StdVector UInt8)}
    (within : (coinbase witness).observe.Within maxSize.toNat) :
    (coinbase witness).Carried lengthHash :=
  Transaction.Buildable.carried _ ⟨rfl, List.cons_ne_nil _ _, within⟩

end Sample

namespace Transaction

/-- The bytes tell a coinbase transaction with a witness, and with them its other encoding, which
has the same `txid`. -/
theorem isCoinbase_received_sample :
    (Sample.coinbase Sample.stack).isCoinbase = true ∧
      (Sample.coinbase .empty).isCoinbase = true ∧
      (Sample.coinbase Sample.stack).txid = (Sample.coinbase .empty).txid ∧
      (encodeTx (Sample.coinbase Sample.stack)).flatten ≠
        (encodeTx (Sample.coinbase .empty)).flatten := by
  have parsed := (parseTransaction_eq_some_iff Sample.lengthHash _ _).mpr
    ⟨Sample.carried_coinbase (by decide : (Sample.coinbase Sample.stack).observe.Within _), rfl⟩
  have other := (parseTransaction_eq_some_iff Sample.lengthHash _ _).mpr
    ⟨Sample.carried_coinbase (by decide : (Sample.coinbase .empty).observe.Within _), rfl⟩
  obtain ⟨bytes, agree⟩ := isCoinbase_received Sample.lengthHash parsed
  have coinbase : (Sample.coinbase Sample.stack).isCoinbase = true := bytes.mpr (by decide)
  have same : (Sample.coinbase Sample.stack).txid = (Sample.coinbase .empty).txid := by decide
  refine ⟨coinbase, ?_, same, by decide⟩
  rw [← agree _ _ other same (Set.injOn_pair.mpr fun _ => by decide)]
  exact coinbase

end Transaction

end StdBitcoin
