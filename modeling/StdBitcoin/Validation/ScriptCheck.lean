import StdBitcoin.Validation.Flags
import StdBitcoin.Validation.Reception

/-!
# The verifier of scripts and transactions

The script interpreter belongs to Bitcoin Core. What it is called with is decided here:
arguments that cannot be meant are refused before, a transaction reaches it in its
converted form, and the spent outputs reach it only if the taproot flag asks for them.
-/

namespace StdBitcoin

open Legacy

/-- `TransactionSignatureChecker` with `MissingDataBehavior::FAIL`. -/
structure SignatureChecker (τ : Type) where
  txTo : CTransaction
  nIn : UInt32
  amount : Amount
  txdata : τ

/-- The script interpreter of Bitcoin Core, with the bits of its flags. -/
structure ScriptInterpreter (τ : Type) where
  scriptVerifyP2sh : UInt32
  scriptVerifyCleanstack : UInt32
  scriptVerifyWitness : UInt32
  /-- `PrecomputedTransactionData{tx}`. -/
  precompute : CTransaction → τ
  /-- `txdata.Init(tx, spent_outputs)`. -/
  init : τ → CTransaction → StdVector CTxOut → τ
  verifyScript : CScript → CScript → CScriptWitness → UInt32 → SignatureChecker τ → Bool

namespace ScriptInterpreter

variable {τ : Type} (core : ScriptInterpreter τ)

/-- The bits that Bitcoin Core documents. -/
structure Documented : Prop where
  p2sh : core.scriptVerifyP2sh = (1 : UInt32) <<< 0
  cleanstack : core.scriptVerifyCleanstack = (1 : UInt32) <<< 8
  witness : core.scriptVerifyWitness = (1 : UInt32) <<< 11

/-- `is_valid_flag_combination`. -/
def isValidFlagCombination (flags : UInt32) : Bool :=
  if flags &&& core.scriptVerifyCleanstack != 0 &&
      ~~~flags &&& (core.scriptVerifyP2sh ||| core.scriptVerifyWitness) != 0 then
    false
  else if flags &&& core.scriptVerifyWitness != 0 && ~~~flags &&& core.scriptVerifyP2sh != 0 then
    false
  else
    true

end ScriptInterpreter

namespace Verifier

variable {τ : Type} (core : ScriptInterpreter τ)

/-- `verify(script, value, tx_to, input_index, flags, prevouts)`: nothing after a failed
assertion, else the text of `std::invalid_argument` or the status. -/
def verifyScript (script : Script) (value : Amount) (txTo : Transaction) (inputIndex : UInt64)
    (flags : ValidationFlags) (prevouts : StdVector TxOutput) :
    Option (Except String ValidationStatus) :=
  if ¬ inputIndex < txTo.inputs.size then
    none
  else if flags.isSet (~~~.all) then
    none
  else if !core.isValidFlagCombination flags.raw then
    some (.error "Invalid flag combination")
  else if flags.isSet .taproot && prevouts.size != txTo.inputs.size then
    some (.error "Spent outputs required for taproot")
  else
    let tx := convertTx txTo
    let txdata := core.precompute tx
    let txdata := if flags.isSet .taproot then core.init txdata tx (prevouts.map convertTxout)
      else txdata
    let checker : SignatureChecker τ := ⟨tx, inputIndex.toUInt32, value, txdata⟩
    match tx.vin.toList[inputIndex.toNat]? with
    | none => none
    | some input =>
        if core.verifyScript input.scriptSig (convertScript script) input.scriptWitness flags.raw
            checker then
          some (.ok .default)
        else
          some (.ok ⟨"Script verification failed"⟩)

/-- `verify(tx)`, over `CheckTransaction`. -/
def verifyTransaction (checkTransaction : CTransaction → Verdict) (tx : Transaction) :
    ValidationStatus :=
  (checkTransaction (convertTx tx)).status

end Verifier

namespace ValidationFlags

/-- Of one bit, the complement has what the flags do not have. -/
theorem complement_and_bit (flags : UInt32) {bit : UInt32} {k : Nat}
    (single : bit.toBitVec = BitVec.twoPow 32 k) (small : k < 32) :
    (~~~flags &&& bit != 0) = !(flags &&& bit != 0) := by
  have bits (x : UInt32) : (x &&& bit != 0) = x.toBitVec.getLsbD k := by
    have value : (x &&& bit).toBitVec =
        if x.toBitVec.getLsbD k then BitVec.twoPow 32 k else 0#32 := by
      rw [UInt32.toBitVec_and, single, BitVec.and_twoPow]
    have nonzero : BitVec.twoPow 32 k ≠ 0#32 := by
      intro zero
      have bit := congrArg (fun b => b.getLsbD k) zero
      simp [small] at bit
    rw [Bool.eq_iff_iff, bne_iff_ne, ne_eq, ← UInt32.toBitVec_inj, value]
    split <;> simp_all
  rw [bits, bits, UInt32.toBitVec_not, BitVec.getLsbD_not]
  simp [small]

/-- Flags of the interface have no bit of which the interface knows nothing. -/
theorem and_eq_zero_of_known {flags : ValidationFlags} (known : flags.isSet (~~~all) = false)
    {bit : UInt32} (foreign : (~~~all : ValidationFlags).raw &&& bit = bit) :
    flags.raw &&& bit = 0 := by
  have none : flags.raw &&& (~~~all : ValidationFlags).raw = 0 := by
    simpa [isSet] using known
  rw [← foreign, ← UInt32.and_assoc, none, UInt32.zero_and]

end ValidationFlags

namespace Verifier

variable {τ : Type} {core : ScriptInterpreter τ}

/-- What the interface calls a combination is witness validation without P2SH; a clean
stack cannot be asked for. -/
theorem isValidFlagCombination_eq (documented : core.Documented) {flags : ValidationFlags}
    (known : flags.isSet (~~~.all) = false) :
    core.isValidFlagCombination flags.raw = !(flags.isSet .witness && !flags.isSet .p2sh) := by
  have cleanstack : flags.raw &&& core.scriptVerifyCleanstack = 0 := by
    rw [documented.cleanstack]
    exact ValidationFlags.and_eq_zero_of_known known (by decide)
  have p2sh : (~~~flags.raw &&& core.scriptVerifyP2sh != 0) = !flags.isSet .p2sh := by
    rw [documented.p2sh]
    exact ValidationFlags.complement_and_bit _ (by decide : _ = BitVec.twoPow 32 0) (by decide)
  have witness : (flags.raw &&& core.scriptVerifyWitness != 0) = flags.isSet .witness := by
    rw [documented.witness]
    rfl
  rw [ScriptInterpreter.isValidFlagCombination, cleanstack, p2sh, witness]
  cases flags.isSet .witness <;> cases flags.isSet .p2sh <;> rfl

section Outcomes

variable (script : Script) (value : Amount) (txTo : Transaction) (inputIndex : UInt64)
  (flags : ValidationFlags) (prevouts : StdVector TxOutput)

/-- The arguments that the assertions let pass. -/
def Asserted : Prop := inputIndex < txTo.inputs.size ∧ flags.isSet (~~~.all) = false

/-- The combinations that the interpreter knows. -/
def Combined : Prop := flags.isSet .witness → flags.isSet .p2sh

/-- Taproot needs one spent output for each input. -/
def Supplied : Prop := flags.isSet .taproot → prevouts.size = txTo.inputs.size

theorem combined_iff : (flags.isSet .witness && !flags.isSet .p2sh) = false ↔ Combined flags := by
  rw [Combined]
  cases flags.isSet .witness <;> cases flags.isSet .p2sh <;> decide

theorem supplied_iff : (flags.isSet .taproot && prevouts.size != txTo.inputs.size) = false ↔
    Supplied txTo flags prevouts := by
  rw [Supplied]
  cases flags.isSet .taproot <;> simp

/-- The input that is asserted to exist is found. -/
theorem exists_input {txTo : Transaction} {inputIndex : UInt64}
    (inside : inputIndex < txTo.inputs.size) :
    ∃ input, (convertTx txTo).vin.toList[inputIndex.toNat]? = some input := by
  have bound : inputIndex.toNat < txTo.inputs.toList.length := by
    rw [← StdVector.toNat_size]
    exact inside
  refine ⟨convertTxin txTo.inputs.toList[inputIndex.toNat], ?_⟩
  change (txTo.inputs.toList.map convertTxin)[inputIndex.toNat]? = _
  rw [List.getElem?_map, List.getElem?_eq_getElem bound, Option.map_some]

/-- One of the four ends of a call, each with what leads there. -/
theorem verifyScript_cases (documented : core.Documented) :
    (¬ Asserted txTo inputIndex flags ∧
      verifyScript core script value txTo inputIndex flags prevouts = none) ∨
    (Asserted txTo inputIndex flags ∧ ¬ Combined flags ∧
      verifyScript core script value txTo inputIndex flags prevouts =
        some (.error "Invalid flag combination")) ∨
    (Asserted txTo inputIndex flags ∧ Combined flags ∧ ¬ Supplied txTo flags prevouts ∧
      verifyScript core script value txTo inputIndex flags prevouts =
        some (.error "Spent outputs required for taproot")) ∨
    (Asserted txTo inputIndex flags ∧ Combined flags ∧ Supplied txTo flags prevouts ∧
      ∃ status, verifyScript core script value txTo inputIndex flags prevouts =
        some (.ok status)) := by
  by_cases inside : inputIndex < txTo.inputs.size
  · cases known : flags.isSet (~~~.all) with
    | true =>
        refine .inl ⟨fun asserted => ?_, ?_⟩
        · exact absurd (known.symm.trans asserted.2) (by decide)
        · rw [verifyScript, if_neg (not_not_intro inside), if_pos known]
    | false =>
        refine .inr ?_
        have asserted : Asserted txTo inputIndex flags := ⟨inside, known⟩
        rw [verifyScript, if_neg (not_not_intro inside), if_neg (Bool.eq_false_iff.mp known),
          isValidFlagCombination_eq documented known, Bool.not_not]
        by_cases combined : Combined flags
        · rw [if_neg (Bool.eq_false_iff.mp ((combined_iff flags).mpr combined))]
          refine .inr ?_
          by_cases supplied : Supplied txTo flags prevouts
          · rw [if_neg (Bool.eq_false_iff.mp ((supplied_iff txTo flags prevouts).mpr supplied))]
            obtain ⟨input, found⟩ := exists_input inside
            refine .inr ⟨asserted, combined, supplied, ?_⟩
            dsimp only
            rw [found]
            exact ⟨_, (apply_ite (fun status => some (Except.ok status)) _ _ _).symm⟩
          · rw [if_pos (Bool.not_eq_false _ ▸ (supplied_iff txTo flags prevouts).not.mpr supplied)]
            exact .inl ⟨asserted, combined, supplied, rfl⟩
        · rw [if_pos (Bool.not_eq_false _ ▸ (combined_iff flags).not.mpr combined)]
          exact .inl ⟨asserted, combined, rfl⟩
  · refine .inl ⟨fun asserted => inside asserted.1, ?_⟩
    rw [verifyScript, if_pos inside]

/-- Spent outputs that nobody asks for have no influence. -/
theorem verifyScript_of_not_taproot (unset : flags.isSet .taproot = false)
    (others : StdVector TxOutput) :
    verifyScript core script value txTo inputIndex flags others =
      verifyScript core script value txTo inputIndex flags prevouts := by
  rw [verifyScript, verifyScript, unset]
  rfl

/-- When a call fails an assertion, when it throws which text, and when it has a status. -/
theorem verifyScript_outcomes (documented : core.Documented) :
    (verifyScript core script value txTo inputIndex flags prevouts = none ↔
      ¬ Asserted txTo inputIndex flags) ∧
    (∀ text, verifyScript core script value txTo inputIndex flags prevouts = some (.error text) ↔
      Asserted txTo inputIndex flags ∧
        (¬ Combined flags ∧ text = "Invalid flag combination" ∨
          Combined flags ∧ ¬ Supplied txTo flags prevouts ∧
            text = "Spent outputs required for taproot")) ∧
    ((∃ status, verifyScript core script value txTo inputIndex flags prevouts =
      some (.ok status)) ↔
      Asserted txTo inputIndex flags ∧ Combined flags ∧ Supplied txTo flags prevouts) ∧
    (flags.isSet .taproot = false → ∀ others,
      verifyScript core script value txTo inputIndex flags others =
        verifyScript core script value txTo inputIndex flags prevouts) := by
  have ends := verifyScript_cases script value txTo inputIndex flags prevouts documented
  refine ⟨?_, fun text => ?_, ?_, fun unset others =>
    verifyScript_of_not_taproot script value txTo inputIndex flags prevouts unset others⟩
  · rcases ends with ⟨refused, same⟩ | ⟨asserted, -, same⟩ | ⟨asserted, -, -, same⟩ |
      ⟨asserted, -, -, status, same⟩
    · exact iff_of_true same refused
    all_goals
      rw [same]
      simp [asserted]
  · rcases ends with ⟨refused, same⟩ | ⟨asserted, alone, same⟩ | ⟨asserted, combined, missing, same⟩ |
      ⟨asserted, combined, supplied, status, same⟩
    · rw [same]
      simp [refused]
    · rw [same]
      simp [asserted, alone, eq_comm]
    · rw [same]
      simp [asserted, combined, missing, eq_comm]
    · rw [same]
      simp [combined, supplied]
  · rcases ends with ⟨refused, same⟩ | ⟨-, alone, same⟩ | ⟨-, -, missing, same⟩ |
      ⟨asserted, combined, supplied, status, same⟩
    · rw [same]
      simp [refused]
    · rw [same]
      simp [alone]
    · rw [same]
      simp [missing]
    · exact iff_of_true ⟨status, same⟩ ⟨asserted, combined, supplied⟩

end Outcomes

section Received

variable (core) (script : Script) (value : Amount) (inputIndex : UInt64) (flags : ValidationFlags)

/-- The checks read a transaction through its conversion. -/
theorem verifyScript_congr {a b : Transaction} (same : convertTx a = convertTx b)
    {prevouts others : StdVector TxOutput}
    (spent : flags.isSet .taproot → prevouts = others) :
    verifyScript core script value a inputIndex flags prevouts =
      verifyScript core script value b inputIndex flags others := by
  have size : a.inputs.size = b.inputs.size := by
    have lengths := congrArg (fun tx : CTransaction => tx.vin.toList.length) same
    change (a.inputs.toList.map convertTxin).length = (b.inputs.toList.map convertTxin).length
      at lengths
    rw [List.length_map, List.length_map] at lengths
    rw [StdVector.size, StdVector.size, lengths]
  have agree : verifyScript core script value a inputIndex flags others =
      verifyScript core script value b inputIndex flags others := by
    rw [verifyScript, verifyScript, size, same]
  rw [← agree]
  cases set : flags.isSet .taproot with
  | false => exact verifyScript_of_not_taproot script value a inputIndex flags others set prevouts
  | true => rw [spent set]

/-- A transaction that went over the wire, whatever its outpoint indices are, gets the verdict of
the original from the transaction check, and for each of its inputs from the script check. -/
theorem verdicts_of_received_transaction {H : List UInt8 → ByteArray32}
    {sent received : Transaction} (composed : sent.Composed H)
    (parsed : parseTransaction H (written (serializeTx sent vectorSink)) = some received)
    (checkTransaction : CTransaction → Verdict) {prevouts others : StdVector TxOutput}
    (spent : flags.isSet .taproot → prevouts = others) :
    verifyTransaction checkTransaction received = verifyTransaction checkTransaction sent ∧
      verifyScript core script value received inputIndex flags prevouts =
        verifyScript core script value sent inputIndex flags others := by
  obtain ⟨carried, bytes⟩ := (parseTransaction_eq_some_iff H _ _).mp parsed
  have same : convertTx received = convertTx sent := by
    rw [convertTx_eq_iff, ← Transaction.flatten_encodeTx_eq_iff_narrowed H carried.nonempty
      composed.nonempty, ← carried.built, ← composed.built, ← bytes, written_serializeTx]
  refine ⟨?_, verifyScript_congr core script value inputIndex flags same spent⟩
  rw [verifyTransaction, verifyTransaction, same]

end Received

/-- An interpreter of scripts that push small integers and do nothing else. They are accepted if
the last one is not zero. -/
def smallIntegers : ScriptInterpreter (List CTxOut) where
  scriptVerifyP2sh := (1 : UInt32) <<< 0
  scriptVerifyCleanstack := (1 : UInt32) <<< 8
  scriptVerifyWitness := (1 : UInt32) <<< 11
  precompute := fun _ => []
  init := fun _ _ spent => spent.toList
  verifyScript := fun scriptSig scriptPubKey _ _ _ =>
    let codes := scriptSig.toList ++ scriptPubKey.toList
    codes.all (fun code => code == 0x00 || 0x51 ≤ code && code ≤ 0x60) &&
      codes.getLast?.any fun code => code != 0x00

/-- The interpreter of small integers behaves as documented. -/
theorem documented_smallIntegers : smallIntegers.Documented := ⟨rfl, rfl, rfl⟩

/-- Witness validation is refused without P2SH. With it the interpreter is asked, and accepts the
input script `OP_1` for an empty script. -/
theorem verifyScript_outcomes_sample :
    verifyScript smallIntegers .empty 0 (Sample.transaction .empty) 0 .witness .empty =
        some (.error "Invalid flag combination") ∧
      (∃ status, verifyScript smallIntegers .empty 0 (Sample.transaction .empty) 0
        (.p2sh ||| .witness) .empty = some (.ok status)) ∧
      verifyScript smallIntegers .empty 0 (Sample.transaction .empty) 0 (.p2sh ||| .witness)
        .empty = some (.ok .default) := by
  have alone := verifyScript_outcomes .empty 0 (Sample.transaction .empty) 0 .witness .empty
    documented_smallIntegers
  have both := verifyScript_outcomes .empty 0 (Sample.transaction .empty) 0 (.p2sh ||| .witness)
    .empty documented_smallIntegers
  refine ⟨(alone.2.1 _).mpr ⟨⟨by decide, by decide⟩, .inl ⟨?_, rfl⟩⟩, both.2.2.1.mpr ?_, rfl⟩
  · exact fun combined => absurd (combined (by decide)) (by decide)
  · exact ⟨⟨by decide, by decide⟩, fun _ => by decide, fun set => absurd set (by decide)⟩

/-- An output that anybody can spend: its script is `OP_2`. -/
def spendable : TxOutput := { value := 5000, script := ⟨⟨[0x52], by decide⟩⟩ }

/-- The index of the received outpoint has lost its upper half, and both transactions spend the
output. -/
theorem verdicts_of_received_transaction_sample :
    ∃ received, received ≠ Sample.faraway ∧
      verifyScript smallIntegers spendable.script 5000 received 0 .taproot
          ⟨[spendable], by decide⟩ =
        verifyScript smallIntegers spendable.script 5000 Sample.faraway 0 .taproot
          ⟨[spendable], by decide⟩ ∧
      verifyScript smallIntegers spendable.script 5000 Sample.faraway 0 .taproot
        ⟨[spendable], by decide⟩ = some (.ok .default) := by
  have relayed := Sample.composed_faraway.relayed
  have parsed : parseTransaction Sample.zeroHash
      (written (serializeTx Sample.faraway vectorSink)) = some _ :=
    (parseTransaction_eq_some_iff _ _ _).mpr
      ⟨Sample.composed_faraway.carried_narrowed (by decide), by
        rw [← relayed.bytes, written_serializeTx]⟩
  refine ⟨_, ?_, (verdicts_of_received_transaction smallIntegers spendable.script 5000 0 .taproot
    Sample.composed_faraway parsed (fun _ => .accept) fun _ => rfl).2, rfl⟩
  rw [ne_eq, relayed.exact]
  intro fits
  exact absurd (fits _ (List.mem_singleton_self _)) (by decide)

end Verifier

end StdBitcoin
