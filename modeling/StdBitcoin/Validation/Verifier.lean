import StdBitcoin.Serdes.RoundTrip
import StdBitcoin.Validation.Legacy
import StdBitcoin.Validation.Rules

/-!
# The verifier of headers and blocks

Each overload evaluates some consensus rules and reports the first that rejects.
The rules themselves belong to Bitcoin Core; which of them an overload consults, and
with which evidence, is decided here. The overload that takes a header with its
chain skips the intrinsic check, and so does the one that takes a block with its
chain.
-/

namespace StdBitcoin

open Legacy

/-- The rule that rejected, or no text. -/
structure ValidationStatus where
  rejectedRule : String
deriving DecidableEq

namespace ValidationStatus

/-- The default constructor: success. -/
def default : ValidationStatus := ⟨""⟩

/-- `explicit operator bool`. -/
def toBool (status : ValidationStatus) : Bool := status.rejectedRule.isEmpty

theorem toBool_default : default.toBool = true := rfl

theorem eq_default_of_toBool {status : ValidationStatus} (success : status.toBool) :
    status = default :=
  congrArg mk (String.isEmpty_iff.mp success)

end ValidationStatus

/-- The return value of a check and `state.GetRejectReason()`. -/
structure Verdict where
  result : Bool
  rejectReason : String
  reasoned : result = false → rejectReason.isEmpty = false

namespace Verdict

/-- `result ? validation_status{} : state.GetRejectReason()`. -/
def status (verdict : Verdict) : ValidationStatus :=
  if verdict.result then .default else ⟨verdict.rejectReason⟩

/-- The status of a verdict tells its result. -/
@[simp] theorem toBool_status (verdict : Verdict) : verdict.status.toBool = verdict.result := by
  rw [status]
  split
  · rename_i accepted
    exact accepted.symm
  · rename_i rejected
    rw [Bool.not_eq_true] at rejected
    rw [rejected]
    exact verdict.reasoned rejected

/-- The verdict without a complaint. -/
def accept : Verdict := ⟨true, "", nofun⟩

/-- A refusal with the reason for it. -/
def reject (reason : String) (reasoned : reason.isEmpty = false) : Verdict :=
  ⟨false, reason, fun _ => reasoned⟩

end Verdict

/-- The consensus functions of Bitcoin Core. -/
structure Consensus where
  checkBlockHeader : CBlockHeader → Params → Verdict
  contextualCheckBlockHeader : CBlockHeader → Params → List CBlockHeader → Int64 → Verdict
  checkBlock : CBlock → Params → Verdict
  contextualCheckBlock : CBlock → Params → List CBlockHeader → Verdict

/-- `coin_t`. -/
structure Coin where
  value : Amount
  outputScript : Script
  fundingHeight : UInt64
  isCoinbase : Bool

/-- `coin_index_ref`, which offers `lookup` only. -/
abbrev CoinIndex := Outpoint → Option Coin

/-- `any_chain`: the headers in order, the tip last. -/
abbrev Chain := List BlockHeader

/-- A verifier refers to the parameters of its network. -/
structure Verifier where
  params : ConsensusParameters

namespace Verifier

variable (H : List UInt8 → ByteArray32) (core : Consensus) (verifier : Verifier)

/-- `verify(header)`. -/
def verifyHeader (header : BlockHeader) : ValidationStatus :=
  (core.checkBlockHeader (convertHeader header) (convertConsensus verifier.params)).status

/-- `verify(header, chain, now)`; its call of `verify(header)` is commented out. -/
def verifyHeaderChain (header : BlockHeader) (chain : Chain) (now : Int64) : ValidationStatus :=
  if empty : chain = [] then
    ⟨"parent not found"⟩
  else if header.prevBlockHash ≠ BlockHash.ofHeader H (chain.getLast empty) then
    ⟨"parent not found"⟩
  else
    (core.contextualCheckBlockHeader (convertHeader header) (convertConsensus verifier.params)
      (chain.map convertHeader) now).status

/-- `verify(block)`. -/
def verifyBlock (b : Block) : ValidationStatus :=
  let status := verifier.verifyHeader core b.header
  if !status.toBool then
    status
  else
    (core.checkBlock (convertBlock b) (convertConsensus verifier.params)).status

/-- `verify(block, chain, now)`. -/
def verifyBlockChain (b : Block) (chain : Chain) (now : Int64) : ValidationStatus :=
  let status := verifier.verifyHeaderChain H core b.header chain now
  if !status.toBool then
    status
  else
    (core.contextualCheckBlock (convertBlock b) (convertConsensus verifier.params)
      (chain.map convertHeader)).status

/-- `verify(block, chain, now, coins)`. -/
def verifyBlockCoins (_verifier : Verifier) (_b : Block) (_chain : Chain) (_now : Int64)
    (_coins : CoinIndex) : ValidationStatus :=
  ⟨"NOT IMPLEMENTED YET"⟩

/-- What the specification promises of one input: a superset of the evidence never
accepts more. -/
structure Superset (header : BlockHeader) (b : Block) (chain : Chain) (now : Int64)
    (coins : CoinIndex) : Prop where
  headerChain : (verifier.verifyHeaderChain H core header chain now).toBool →
    (verifier.verifyHeader core header).toBool
  blockChain : (verifier.verifyBlockChain H core b chain now).toBool →
    (verifier.verifyBlock core b).toBool ∧
      (verifier.verifyHeaderChain H core b.header chain now).toBool
  blockCoins : (verifier.verifyBlockCoins b chain now coins).toBool →
    (verifier.verifyBlockChain H core b chain now).toBool
  block : (verifier.verifyBlock core b).toBool → (verifier.verifyHeader core b.header).toBool

/-- The rules that a header is held against. -/
inductive HeaderRule where
  | intrinsic
  | parentFound
  | contextual

/-- The rules that a block is held against. -/
inductive BlockRule where
  | header (rule : HeaderRule)
  | intrinsic
  | contextual

/-- The rules that `verify(header)` applies. -/
def headerRules : List HeaderRule := [.intrinsic]

/-- The rules that `verify(header, chain, now)` applies. The intrinsic one is not among them. -/
def headerChainRules : List HeaderRule := [.parentFound, .contextual]

/-- The rules that `verify(block)` applies. -/
def blockRules : List BlockRule := headerRules.map .header ++ [.intrinsic]

/-- The rules that `verify(block, chain, now)` applies. The intrinsic ones are not among them. -/
def blockChainRules : List BlockRule := headerChainRules.map .header ++ [.contextual]

/-- The tip of the chain is the parent that the header names. -/
def ParentFound (header : BlockHeader) (chain : Chain) : Prop :=
  ∃ tip, chain.getLast? = some tip ∧ header.prevBlockHash = BlockHash.ofHeader H tip

/-- The parent of a header is found if and only if it is the tip of the chain. -/
theorem parentFound_iff {header : BlockHeader} {chain : Chain} (nonempty : chain ≠ []) :
    ParentFound H header chain ↔
      header.prevBlockHash = BlockHash.ofHeader H (chain.getLast nonempty) := by
  simp [ParentFound, List.getLast?_eq_some_getLast nonempty]

instance (header : BlockHeader) (chain : Chain) : Decidable (ParentFound H header chain) :=
  if empty : chain = [] then
    isFalse (by rw [empty]; rintro ⟨_, ⟨⟩, _⟩)
  else
    decidable_of_iff' _ (parentFound_iff H empty)

section Judge

variable (header : BlockHeader) (b : Block) (chain : Chain) (now : Int64)

/-- What each rule says of a header. -/
def judgeHeader : HeaderRule → ValidationStatus
  | .intrinsic =>
      (core.checkBlockHeader (convertHeader header) (convertConsensus verifier.params)).status
  | .parentFound => if ParentFound H header chain then .default else ⟨"parent not found"⟩
  | .contextual =>
      (core.contextualCheckBlockHeader (convertHeader header) (convertConsensus verifier.params)
        (chain.map convertHeader) now).status

/-- What each rule says of a block. -/
def judgeBlock : BlockRule → ValidationStatus
  | .header rule => verifier.judgeHeader H core b.header chain now rule
  | .intrinsic => (core.checkBlock (convertBlock b) (convertConsensus verifier.params)).status
  | .contextual =>
      (core.contextualCheckBlock (convertBlock b) (convertConsensus verifier.params)
        (chain.map convertHeader)).status

/-- The first rule that rejects, under some way of judging. -/
def report {ι : Type} (judge : ι → ValidationStatus) (rules : List ι) : ValidationStatus :=
  Rules.evaluate ValidationStatus.toBool .default judge rules

theorem report_single {ι : Type} (judge : ι → ValidationStatus) (rule : ι) :
    report judge [rule] = judge rule := by
  rw [report, Rules.evaluate, Rules.evaluate]
  split
  · rename_i success
    exact (ValidationStatus.eq_default_of_toBool success).symm
  · rfl

/-- The overload for a header reports the rules for it. -/
theorem verifyHeader_eq_report :
    verifier.verifyHeader core header =
      report (verifier.judgeHeader H core header chain now) headerRules :=
  (report_single _ _).symm

/-- The overload for a header and a chain reports the rules for both. -/
theorem verifyHeaderChain_eq_report :
    verifier.verifyHeaderChain H core header chain now =
      report (verifier.judgeHeader H core header chain now) headerChainRules := by
  have parent : report (verifier.judgeHeader H core header chain now) headerChainRules =
      if ParentFound H header chain then verifier.judgeHeader H core header chain now .contextual
      else ⟨"parent not found"⟩ := by
    rw [headerChainRules, report, Rules.evaluate, ← report, report_single, judgeHeader]
    split <;> rfl
  rw [parent, verifyHeaderChain]
  by_cases empty : chain = []
  · rw [dif_pos empty, if_neg]
    rw [empty]
    rintro ⟨_, ⟨⟩, _⟩
  · rw [dif_neg empty, ite_not]
    simp only [parentFound_iff H empty]
    rfl

/-- The overload for a block reports the rules for it. -/
theorem verifyBlock_eq_report :
    verifier.verifyBlock core b = report (verifier.judgeBlock H core b chain now) blockRules := by
  rw [blockRules, report, Rules.evaluate_append ValidationStatus.toBool_default,
    Rules.evaluate_map, ← report, ← report, report_single, verifyBlock,
    verifier.verifyHeader_eq_report H core b.header chain now]
  simp only [Bool.not_eq_true', ← Bool.not_eq_true, ite_not]
  rfl

/-- The overload for a block and a chain reports the rules for both. -/
theorem verifyBlockChain_eq_report :
    verifier.verifyBlockChain H core b chain now =
      report (verifier.judgeBlock H core b chain now) blockChainRules := by
  rw [blockChainRules, report, Rules.evaluate_append ValidationStatus.toBool_default,
    Rules.evaluate_map, ← report, ← report, report_single, verifyBlockChain,
    verifyHeaderChain_eq_report]
  simp only [Bool.not_eq_true', ← Bool.not_eq_true, ite_not]
  rfl

/-- The rules of a block that are rules of its header accept no more than all of them. -/
theorem toBool_report_header {rules : List HeaderRule} {others : List BlockRule}
    (accepted : (report (verifier.judgeBlock H core b chain now)
      (rules.map .header ++ others)).toBool) :
    (report (verifier.judgeHeader H core b.header chain now) rules).toBool := by
  have header := Rules.passes_of_subset ValidationStatus.toBool_default
    (List.subset_append_left _ _) _ accepted
  rw [Rules.evaluate_map] at header
  exact header

/-- A block that is accepted on its own has an accepted header. -/
theorem verifyHeader_of_verifyBlock (accepted : (verifier.verifyBlock core b).toBool) :
    (verifier.verifyHeader core b.header).toBool := by
  -- the rules without evidence are judged alike whatever the evidence
  rw [verifier.verifyBlock_eq_report Sample.zeroHash core b [] 0] at accepted
  rw [verifier.verifyHeader_eq_report Sample.zeroHash core b.header [] 0]
  exact verifier.toBool_report_header _ core b [] 0 accepted

/-- A block that is accepted on its chain has a header that is accepted there. -/
theorem verifyHeaderChain_of_verifyBlockChain
    (accepted : (verifier.verifyBlockChain H core b chain now).toBool) :
    (verifier.verifyHeaderChain H core b.header chain now).toBool := by
  rw [verifyBlockChain_eq_report] at accepted
  rw [verifyHeaderChain_eq_report]
  exact verifier.toBool_report_header H core b chain now accepted

/-- A report is a success if and only if every rule passes. -/
theorem toBool_report {ι : Type} (judge : ι → ValidationStatus) (rules : List ι) :
    (report judge rules).toBool ↔ ∀ rule ∈ rules, (judge rule).toBool :=
  Rules.passes_evaluate ValidationStatus.toBool_default judge rules

end Judge

section Acceptance

variable (header : BlockHeader) (b : Block) (chain : Chain) (now : Int64)

/-- Bitcoin Core accepts the header on its own. -/
def HeaderIntrinsic : Prop :=
  (core.checkBlockHeader (convertHeader header) (convertConsensus verifier.params)).result

/-- Bitcoin Core accepts the block on its own. -/
def BlockIntrinsic : Prop :=
  verifier.HeaderIntrinsic core b.header ∧
    (core.checkBlock (convertBlock b) (convertConsensus verifier.params)).result

/-- The header names the tip, and Bitcoin Core accepts it there. -/
def HeaderExtends : Prop :=
  ParentFound H header chain ∧
    (core.contextualCheckBlockHeader (convertHeader header) (convertConsensus verifier.params)
      (chain.map convertHeader) now).result

/-- The header of the block extends the chain, and Bitcoin Core accepts the block there. -/
def BlockExtends : Prop :=
  verifier.HeaderExtends H core b.header chain now ∧
    (core.contextualCheckBlock (convertBlock b) (convertConsensus verifier.params)
      (chain.map convertHeader)).result

/-- A header is accepted if and only if it passes the intrinsic check. -/
theorem toBool_verifyHeader :
    (verifier.verifyHeader core header).toBool ↔ verifier.HeaderIntrinsic core header := by
  rw [verifyHeader, Verdict.toBool_status]
  rfl

/-- A header is accepted behind a chain if and only if it extends the chain. -/
theorem toBool_verifyHeaderChain :
    (verifier.verifyHeaderChain H core header chain now).toBool ↔
      verifier.HeaderExtends H core header chain now := by
  rw [verifyHeaderChain_eq_report, toBool_report]
  have parent : (verifier.judgeHeader H core header chain now .parentFound).toBool ↔
      ParentFound H header chain := by
    rw [judgeHeader]
    split <;> simp_all [ValidationStatus.toBool, ValidationStatus.default]
  rw [headerChainRules, List.forall_mem_cons, List.forall_mem_singleton, parent, judgeHeader,
    Verdict.toBool_status]
  rfl

/-- A block is accepted if and only if Bitcoin Core accepts its header and the block. -/
theorem toBool_verifyBlock :
    (verifier.verifyBlock core b).toBool ↔ verifier.BlockIntrinsic core b := by
  rw [verifier.verifyBlock_eq_report Sample.zeroHash core b [] 0, toBool_report]
  simp [blockRules, headerRules, judgeBlock, judgeHeader, BlockIntrinsic, HeaderIntrinsic]

/-- A block is accepted behind a chain if and only if it extends the chain. -/
theorem toBool_verifyBlockChain :
    (verifier.verifyBlockChain H core b chain now).toBool ↔
      verifier.BlockExtends H core b chain now := by
  rw [verifyBlockChain_eq_report, toBool_report, BlockExtends, ← toBool_verifyHeaderChain,
    verifyHeaderChain_eq_report, toBool_report]
  simp [blockChainRules, headerChainRules, judgeBlock]
  tauto

end Acceptance

/-- The promise is kept where a header and block that extend the chain also pass the
checks that need no chain. -/
theorem superset_of_behaviour_iff (header : BlockHeader) (b : Block) (chain : Chain) (now : Int64)
    (coins : CoinIndex) :
    verifier.Superset H core header b chain now coins ↔
      (verifier.HeaderExtends H core header chain now → verifier.HeaderIntrinsic core header) ∧
      (verifier.BlockExtends H core b chain now → verifier.BlockIntrinsic core b) := by
  constructor
  · intro promise
    refine ⟨fun accepted => ?_, fun accepted => ?_⟩
    · rw [← toBool_verifyHeader]
      exact promise.headerChain ((toBool_verifyHeaderChain ..).mpr accepted)
    · rw [← toBool_verifyBlock]
      exact (promise.blockChain ((toBool_verifyBlockChain ..).mpr accepted)).1
  · intro kept
    refine ⟨?_, ?_, ?_, ?_⟩
    · rw [toBool_verifyHeader, toBool_verifyHeaderChain]
      exact kept.1
    · intro accepted
      refine ⟨?_, verifier.verifyHeaderChain_of_verifyBlockChain H core b chain now accepted⟩
      rw [toBool_verifyBlock]
      exact kept.2 ((toBool_verifyBlockChain ..).mp accepted)
    · intro accepted
      cases accepted
    · exact verifier.verifyHeader_of_verifyBlock core b

/-- A consensus whose only objection is to the work of a header. -/
def workless : Consensus where
  checkBlockHeader := fun _ _ => .reject "high-hash" rfl
  contextualCheckBlockHeader := fun _ _ _ _ => .accept
  checkBlock := fun _ _ => .accept
  contextualCheckBlock := fun _ _ _ => .accept

/-- The promise fails exactly where the chain evidence speaks for a header or a block
that the checks without a chain refuse. Such a consensus exists as soon as a parent is
found. -/
theorem superset_iff (header : BlockHeader) (b : Block) (chain : Chain) (now : Int64)
    (coins : CoinIndex) :
    (∀ core, verifier.Superset H core header b chain now coins ↔
      ¬ (verifier.HeaderExtends H core header chain now ∧ ¬ verifier.HeaderIntrinsic core header) ∧
      ¬ (verifier.BlockExtends H core b chain now ∧ ¬ verifier.BlockIntrinsic core b)) ∧
    ((∀ core, verifier.Superset H core header b chain now coins) ↔
      ¬ ParentFound H header chain ∧ ¬ ParentFound H b.header chain) := by
  simp only [superset_of_behaviour_iff, not_and_not_right, implies_true, true_and]
  constructor
  · intro all
    obtain ⟨alone, inside⟩ := all workless
    refine ⟨fun found => ?_, fun found => ?_⟩
    · exact absurd (alone ⟨found, rfl⟩) Bool.false_ne_true
    · exact absurd (inside ⟨⟨found, rfl⟩, rfl⟩).1 Bool.false_ne_true
  · intro missing core
    exact ⟨fun accepted => absurd accepted.1 missing.1,
      fun accepted => absurd accepted.1.1 missing.2⟩

/-- A header and a block without work are accepted on a chain whose tip they name. -/
theorem workless_accepted :
    let verifier : Verifier := ⟨{}⟩
    let header := { Sample.header with nonce := 2083236892 }
    let b : Block := ⟨header, .empty⟩
    verifier.verifyHeaderChain Sample.zeroHash workless header [Sample.header] 0 = .default ∧
      verifier.verifyHeader workless header = ⟨"high-hash"⟩ ∧
      verifier.verifyBlockChain Sample.zeroHash workless b [Sample.header] 0 = .default ∧
      verifier.verifyBlock workless b = ⟨"high-hash"⟩ ∧
      ¬ verifier.Superset Sample.zeroHash workless header b [Sample.header] 0 fun _ => none := by
  refine ⟨by decide, by decide, by decide, by decide, ?_⟩
  intro promise
  exact absurd (promise.headerChain (by decide)) (by decide)

end Verifier

end StdBitcoin
