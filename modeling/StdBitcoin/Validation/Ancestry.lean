import StdBitcoin.Serdes.Narrowing
import StdBitcoin.Validation.Linked
import StdBitcoin.Validation.Verifier

/-!
# Chains of accepted headers

A header is accepted on the headers before it only if it names the hash of the last of
them, and so is a block. A chain that was accepted header by header is therefore linked
back to its first header, whatever the consensus functions say, and two verifiers with
the same tip hash hold the same headers.
-/

namespace StdBitcoin

namespace Verifier

variable (H : List UInt8 → ByteArray32) (core : Consensus) (verifier : Verifier)

/-- A chain whose headers were accepted one by one, alone or in front of a block, each on the
headers before it. -/
inductive Validated : Chain → Prop
  | root (header : BlockHeader) : Validated [header]
  | header {chain : Chain} {header : BlockHeader} {now : Int64} (before : Validated chain)
      (accepted : (verifier.verifyHeaderChain H core header chain now).toBool) :
      Validated (chain ++ [header])
  | block {chain : Chain} {b : Block} {now : Int64} (before : Validated chain)
      (accepted : (verifier.verifyBlockChain H core b chain now).toBool) :
      Validated (chain ++ [b.header])

variable {H core verifier}

/-- One accepted header keeps the chain linked. -/
theorem links_append_of_accepted {header : BlockHeader} {chain : Chain} {now : Int64}
    (linked : Linked.Links (BlockHash.ofHeader H) BlockHeader.prevBlockHash chain)
    (accepted : (verifier.verifyHeaderChain H core header chain now).toBool) :
    Linked.Links (BlockHash.ofHeader H) BlockHeader.prevBlockHash (chain ++ [header]) := by
  obtain ⟨⟨tip, last, names⟩, -⟩ := (toBool_verifyHeaderChain ..).mp accepted
  refine Linked.links_append_singleton_iff.mpr ⟨linked, fun other found => ?_⟩
  rw [names, Option.some.inj (last.symm.trans found)]

/-- A chain that was validated step by step is linked by its hashes. -/
theorem Validated.links {chain : Chain} (validated : Validated H core verifier chain) :
    Linked.Links (BlockHash.ofHeader H) BlockHeader.prevBlockHash chain := by
  induction validated with
  | root header => exact List.isChain_singleton _
  | header before accepted ih => exact links_append_of_accepted ih accepted
  | block before accepted ih =>
      exact links_append_of_accepted ih
        (verifier.verifyHeaderChain_of_verifyBlockChain H core _ _ _ accepted)

/-- Narrowed headers have the hashes and name the parents of the originals. -/
theorem Validated.links_narrowed {chain : Chain} (validated : Validated H core verifier chain) :
    Linked.Links (BlockHash.ofHeader H) BlockHeader.prevBlockHash
      (chain.map BlockHeader.narrowed) := by
  rw [Linked.Links, List.isChain_map]
  exact validated.links.imp fun parent child named =>
    named.trans (parent.ofHeader_narrowed H).symm

/-- No two headers of the chains have the same hash and different bytes. -/
def NoCollision (H : List UInt8 → ByteArray32) (headers : List BlockHeader) : Prop :=
  Set.InjOn H {bytes | ∃ header ∈ headers, bytes = (encodeBlockHeader header).flatten}

/-- Without a collision the hash tells the headers of the chains apart as they are sent. -/
theorem injOn_ofHeader {first second : Chain} (no_collision : NoCollision H (first ++ second)) :
    Set.InjOn (BlockHash.ofHeader H)
      {header | header ∈ first.map BlockHeader.narrowed ∨
        header ∈ second.map BlockHeader.narrowed} := by
  have written : ∀ narrow, narrow ∈ first.map BlockHeader.narrowed ∨
      narrow ∈ second.map BlockHeader.narrowed →
      ∃ header ∈ first ++ second, header.narrowed = narrow := by
    intro narrow member
    rwa [← List.mem_append, ← List.map_append, List.mem_map] at member
  intro a a_member b b_member same
  obtain ⟨x, x_member, rfl⟩ := written a a_member
  obtain ⟨y, y_member, rfl⟩ := written b b_member
  rw [x.ofHeader_narrowed, y.ofHeader_narrowed] at same
  rw [← flatten_encodeBlockHeader_eq_iff_narrowed]
  exact no_collision ⟨x, x_member, rfl⟩ ⟨y, y_member, rfl⟩ (congrArg BasicHashId.value same)

/-- Two verifiers with the same tip hash, of whatever networks, consensus functions and
histories of acceptance: what is sent of the headers of one chain ends what is sent of the
other. Where both start at a header that names no header of either, it is the same. -/
theorem validated_agree {core' : Consensus} {verifier' : Verifier} {first second : Chain}
    (left : Validated H core verifier first) (right : Validated H core' verifier' second)
    (no_collision : NoCollision H (first ++ second))
    (tips : first.getLast?.map (BlockHash.ofHeader H) =
      second.getLast?.map (BlockHash.ofHeader H)) :
    (first.map BlockHeader.narrowed <:+ second.map BlockHeader.narrowed ∨
      second.map BlockHeader.narrowed <:+ first.map BlockHeader.narrowed) ∧
    ∀ genesis : BlockHeader, first.head? = some genesis → second.head? = some genesis →
      (∀ header ∈ first ++ second, BlockHash.ofHeader H header ≠ genesis.prevBlockHash) →
      first.map BlockHeader.narrowed = second.map BlockHeader.narrowed := by
  have hashes (chain : Chain) :
      (chain.map BlockHeader.narrowed).getLast?.map (BlockHash.ofHeader H) =
        chain.getLast?.map (BlockHash.ofHeader H) := by
    rw [List.getLast?_map, Option.map_map]
    congr 1
    funext header
    exact header.ofHeader_narrowed H
  have narrowed_tips := (hashes first).trans (tips.trans (hashes second).symm)
  refine ⟨Linked.suffix_or_suffix_of_tip left.links_narrowed right.links_narrowed
    (injOn_ofHeader no_collision) narrowed_tips, ?_⟩
  intro genesis first_root second_root bottom
  have roots {chain : Chain} (starts : chain.head? = some genesis) :
      (chain.map BlockHeader.narrowed).head? = some genesis.narrowed := by
    rw [List.head?_map, starts, Option.map_some]
  refine Linked.eq_of_tip_of_root left.links_narrowed right.links_narrowed
    (injOn_ofHeader no_collision) narrowed_tips (roots first_root) (roots second_root)
    fun narrow member => ?_
  rw [← List.mem_append, ← List.map_append] at member
  obtain ⟨header, present, rfl⟩ := List.mem_map.mp member
  rw [header.ofHeader_narrowed]
  exact bottom header present

end Verifier

namespace Sample

/-- A hash that keeps the nonce of a header. -/
def nonceHash (bytes : List UInt8) : ByteArray32 :=
  ⟨(bytes.drop 76 ++ List.replicate 32 1).take 32, by simp⟩

/-- A header on top of the sample header. -/
def child : BlockHeader :=
  { header with prevBlockHash := BlockHash.ofHeader nonceHash header, nonce := 1 }

/-- The same header with a time that does not fit. -/
def lateChild : BlockHeader := { child with time := child.time + 2 ^ 32 }

/-- The nonces tell the headers of the sample chains apart. -/
theorem noCollision_child :
    Verifier.NoCollision nonceHash ([header, child] ++ [header, lateChild]) := by
  have bytes : encodeBlockHeader lateChild = encodeBlockHeader child := by decide
  have apart : nonceHash (encodeBlockHeader header).flatten ≠
      nonceHash (encodeBlockHeader child).flatten := by decide
  refine (Set.injOn_pair.mpr fun same => absurd same apart).mono ?_
  rintro _ ⟨x, member, rfl⟩
  simp only [List.cons_append, List.nil_append, List.mem_cons, List.not_mem_nil, or_false] at member
  rcases member with rfl | rfl | rfl | rfl
  · exact .inl rfl
  · exact .inr rfl
  · exact .inl rfl
  · exact .inr (congrArg List.flatten bytes)

end Sample

namespace Verifier

/-- A header of one verifier and the block of another one in front of the same header. -/
theorem validated_agree_sample :
    [Sample.header, Sample.child] ≠ [Sample.header, Sample.lateChild] ∧
      [Sample.header, Sample.child].map BlockHeader.narrowed =
        [Sample.header, Sample.lateChild].map BlockHeader.narrowed := by
  let verifier : Verifier := ⟨{}⟩
  have accepted_header : (verifier.verifyHeaderChain Sample.nonceHash workless Sample.child
      [Sample.header] 0).toBool := by decide
  have accepted_block : (verifier.verifyBlockChain Sample.nonceHash workless
      ⟨Sample.lateChild, .empty⟩ [Sample.header] 0).toBool := by decide
  have left := Validated.header (.root Sample.header) accepted_header
  have right := Validated.block (.root Sample.header) accepted_block
  exact ⟨by decide, (validated_agree left right Sample.noCollision_child (by decide)).2
    Sample.header rfl rfl (by decide)⟩

end Verifier

end StdBitcoin
