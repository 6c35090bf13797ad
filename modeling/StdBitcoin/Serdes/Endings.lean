import StdBitcoin.Serdes.Buffering
import StdBitcoin.Serdes.RoundTrip

/-!
# How a serialization ends

Whatever a sink does on each of its calls, a serialization ends in one of four ways, and
the calls tell in which. What was accepted never deviates from the encoding: a refused
block that the destructor offers again is accepted at most once. A receiver therefore
either has the whole message or rejects what it has. As a header is a single block, a
caller who catches an exception has nevertheless delivered it whole.
-/

namespace StdBitcoin

open Codec

variable {σ ε : Type}

/-- The bytes of the calls that did not throw. -/
def received (log : CallLog ε) : List UInt8 :=
  log.flatMap fun call =>
    match call.2 with
    | .ok () => call.1
    | .error _ => []

theorem received_append (front back : CallLog ε) :
    received (front ++ back) = received front ++ received back :=
  List.flatMap_append

/-- Of chunks that are all accepted everything is received. -/
theorem received_accepted (chunks : List (List UInt8)) :
    received (accepted chunks : CallLog ε) = chunks.flatten := by
  rw [received, accepted, List.flatMap_map, List.flatten_eq_flatMap]
  rfl

/-- The ways in which a serialization ends, each with all the calls on the sink. -/
inductive Ending (bufferSize : Nat) (encoding : List UInt8) : Outcome ε → CallLog ε → Prop where
  | complete : Ending bufferSize encoding .returned (accepted (chunks bufferSize encoding))
  /-- The destructor throws while nothing else does. -/
  | restRefused (exception : ε) (waiting : remainder bufferSize encoding ≠ []) :
      Ending bufferSize encoding (.threw exception)
        (accepted (blocks bufferSize encoding) ++
          [(remainder bufferSize encoding, .error exception)])
  | blockRepeated (exception : ε) {front back : List (List UInt8)} {block : List UInt8}
      (split : blocks bufferSize encoding = front ++ block :: back) :
      Ending bufferSize encoding (.threw exception)
        (accepted front ++ [(block, .error exception), (block, .ok ())])
  /-- The destructor throws while the stack is unwound. -/
  | blockRefusedTwice (exception again : ε) {front back : List (List UInt8)} {block : List UInt8}
      (split : blocks bufferSize encoding = front ++ block :: back) :
      Ending bufferSize encoding .terminated
        (accepted front ++ [(block, .error exception), (block, .error again)])

/-- The first refused write, and the writes before it. -/
theorem exists_refused {sink : ByteSink σ ε} {writes : Writes} {state next : σ} {exception : ε}
    (run : writeAll sink writes state = (.error exception, next)) :
    ∃ front chunk back middle, writes = front ++ chunk :: back ∧
      writeAll sink front state = (.ok (), middle) ∧
      sink chunk middle = (.error exception, next) := by
  induction writes generalizing state with
  | nil => cases run
  | cons chunk writes ih =>
      rw [writeAll] at run
      rcases call : sink chunk state with ⟨first | _, middle⟩ <;> rw [call] at run
      · obtain ⟨same, rfl⟩ := Prod.mk.inj run
        obtain rfl := Except.error.inj same
        exact ⟨[], chunk, writes, state, rfl, rfl, call⟩
      · obtain ⟨front, refused, back, last, rfl, before, at_last⟩ := ih run
        refine ⟨chunk :: front, refused, back, last, rfl, ?_, at_last⟩
        rw [writeAll, call]
        exact before

section Buffered

variable {bufferSize : Nat} {encoding : List UInt8} {outcome : Outcome ε} {log : CallLog ε}
  (positive : 0 < bufferSize)

include positive

section Split

variable {front back : List (List UInt8)} {block : List UInt8}
  (split : blocks bufferSize encoding = front ++ block :: back)

include split

/-- The block at which the sink may fail is a full one. -/
theorem length_of_split : block.length = bufferSize := by
  apply length_of_mem_blocks positive
  rw [split]
  exact List.mem_append_right _ List.mem_cons_self

/-- The parts around the block make up the encoding. -/
theorem flatten_of_split :
    front.flatten ++ (block ++ (back.flatten ++ remainder bufferSize encoding)) = encoding := by
  have whole := flatten_blocks_append_remainder positive encoding
  rw [split, List.flatten_append, List.flatten_cons, List.append_assoc, List.append_assoc] at whole
  exact whole

end Split

/-- A refused block is the first of two equal calls. -/
theorem serializeWrites_of_refused {sink : ByteSink σ ε} {writes : Writes} {state middle next : σ}
    {front back : List (List UInt8)} {block : List UInt8} {exception : ε}
    (split : blocks bufferSize writes.flatten = front ++ block :: back)
    (before : writeAll sink front state = (.ok (), middle))
    (refused : sink block middle = (.error exception, next)) :
    serializeWrites bufferSize (recording sink) writes (state, []) =
      (match (sink block next).1 with
        | .ok () => .threw exception
        | .error _ => .terminated,
        ((sink block next).2,
          accepted front ++ [(block, .error exception), (block, (sink block next).1)])) := by
  have full : 0 < block.length := (length_of_split positive split).symm ▸ positive
  rw [serializeWrites, BufferedSink.writeAll_eq (recording sink) writes ⟨(state, []), []⟩ positive,
    List.nil_append, split, BufferedSink.handOver_append _ front _ [],
    BufferedSink.handOver_of_ok (writeAll_recording before [])]
  dsimp only
  rw [BufferedSink.handOver, recording_of_call refused]
  dsimp only
  rw [BufferedSink.destroy, if_pos full, recording_of_call rfl, List.nil_append, List.append_assoc]
  rcases (sink block next).1 with _ | _ <;> rfl

/-- There are no other endings. -/
theorem exists_ending (sink : ByteSink σ ε) (writes : Writes) (state : σ) :
    ∃ outcome final log,
      serializeWrites bufferSize (recording sink) writes (state, []) = (outcome, (final, log)) ∧
      Ending bufferSize writes.flatten outcome log := by
  rcases run : writeAll sink (blocks bufferSize writes.flatten) state with ⟨exception | _, next⟩
  · obtain ⟨front, block, back, middle, split, before, refused⟩ := exists_refused run
    refine ⟨_, _, _, serializeWrites_of_refused positive split before refused, ?_⟩
    rcases (sink block next).1 with again | _
    · exact .blockRefusedTwice exception again split
    · exact .blockRepeated exception split
  · have accepts : AcceptsFullBlocks bufferSize writes.flatten sink state := congrArg Prod.fst run
    obtain ⟨final, returned | ⟨exception, threw⟩⟩ := outcome_of_accepts positive accepts
    · exact ⟨_, final, _, returned, .complete⟩
    · refine ⟨_, final, _, threw, .restRefused exception fun nothing => ?_⟩
      -- Without a rest the destructor makes no call that could be refused.
      rw [serializeWrites_of_ok positive (writeAll_recording run []), nothing] at threw
      cases threw

namespace Ending

/-- What has been accepted, with the repeated block counted once, is a prefix. -/
theorem received_leads (ending : Ending bufferSize encoding outcome log) :
    received log <+: encoding := by
  cases ending with
  | complete =>
      have all : received (accepted (chunks bufferSize encoding) : CallLog ε) = encoding :=
        (received_accepted _).trans (flatten_chunks positive encoding)
      exact ⟨[], (List.append_nil _).trans all⟩
  | restRefused exception waiting =>
      refine ⟨remainder bufferSize encoding, ?_⟩
      rw [received_append, received_accepted]
      change _ ++ [] ++ _ = _
      rw [List.append_nil, flatten_blocks_append_remainder positive]
  | @blockRepeated exception front back block split =>
      refine ⟨back.flatten ++ remainder bufferSize encoding, ?_⟩
      rw [received_append, received_accepted]
      change _ ++ (_ ++ []) ++ _ = _
      rw [List.append_nil, List.append_assoc]
      exact flatten_of_split positive split
  | @blockRefusedTwice exception again front back block split =>
      refine ⟨block ++ (back.flatten ++ remainder bufferSize encoding), ?_⟩
      rw [received_append, received_accepted]
      change _ ++ [] ++ _ = _
      rw [List.append_nil]
      exact flatten_of_split positive split

/-- A call that returns has delivered everything, one that terminates has not. -/
theorem delivers (ending : Ending bufferSize encoding outcome log) :
    (outcome = .returned → received log = encoding) ∧
      (outcome = .terminated → received log ≠ encoding) := by
  cases ending with
  | complete =>
      refine ⟨fun _ => ?_, nofun⟩
      rw [received_accepted, flatten_chunks positive]
  | restRefused exception waiting => exact ⟨nofun, nofun⟩
  | blockRepeated exception split => exact ⟨nofun, nofun⟩
  | @blockRefusedTwice exception again front back block split =>
      refine ⟨nofun, fun _ same => ?_⟩
      have length := length_of_split positive split
      have whole := congrArg List.length (flatten_of_split positive split)
      rw [received_append, received_accepted] at same
      have short := congrArg List.length same
      change (front.flatten ++ []).length = _ at short
      simp only [List.length_append, List.length_nil] at short whole
      omega

end Ending

/-- A list of one block has nothing else. -/
theorem blocks_of_length {bytes : List UInt8} (length : bytes.length = bufferSize) :
    blocks bufferSize bytes = [bytes] ∧ remainder bufferSize bytes = [] := by
  have long : bufferSize ≤ bytes.length := Nat.le_of_eq length.symm
  have behind : bytes.drop bufferSize = [] := by
    rw [← length, List.drop_length]
  have nothing : (bytes.drop bufferSize).length < bufferSize := by
    rw [behind]
    exact positive
  rw [blocks_of_le positive long, remainder_of_le positive long, blocks_of_lt nothing,
    remainder_of_lt nothing, behind, ← length, List.take_length]
  exact ⟨rfl, rfl⟩

/-- With a single block and no rest, an exception leaves the sink with everything, and
termination leaves it with nothing. -/
theorem Ending.of_single (single : encoding.length = bufferSize)
    (ending : Ending bufferSize encoding outcome log) :
    (∀ exception, outcome = .threw exception → received log = encoding) ∧
      (outcome = .terminated → received log = []) := by
  obtain ⟨one, nothing⟩ := blocks_of_length positive single
  have alone {front back : List (List UInt8)} {block : List UInt8}
      (split : blocks bufferSize encoding = front ++ block :: back) :
      front = [] ∧ block = encoding := by
    rw [one] at split
    obtain ⟨empty, last⟩ | ⟨-, impossible⟩ := List.singleton_eq_append_iff.mp split
    · exact ⟨empty, (List.cons.inj last).1⟩
    · cases impossible
  cases ending with
  | complete => exact ⟨nofun, nofun⟩
  | restRefused exception waiting => exact absurd nothing waiting
  | blockRepeated exception split =>
      obtain ⟨rfl, rfl⟩ := alone split
      exact ⟨fun _ _ => List.append_nil _, nofun⟩
  | blockRefusedTwice exception again split =>
      obtain ⟨rfl, rfl⟩ := alone split
      exact ⟨nofun, fun _ => rfl⟩

end Buffered

/-- What a serialization has told the sink, and what a receiver of the accepted bytes
makes of them. -/
structure Delivery {α : Type} (bufferSize : Nat) (encoding : List UInt8) (decode : Decode α)
    (run : Outcome ε × (σ × CallLog ε)) : Prop where
  ending : Ending bufferSize encoding run.1 run.2.2
  kept : received run.2.2 <+: encoding
  whole : run.1 = .returned → received run.2.2 = encoding
  incomplete : run.1 = .terminated → received run.2.2 ≠ encoding
  /-- Where the message parses at all, nothing less of it does. -/
  parses_iff : (parse decode encoding).isSome →
    ((parse decode (received run.2.2)).isSome ↔ received run.2.2 = encoding)

/-- However the sink behaves, a run ends in one of the ways of a delivery. -/
theorem delivery_of_serializeWrites {α : Type} {decode : Decode α}
    [Delimited (spanCursor.strict decode)] {bufferSize : Nat} (positive : 0 < bufferSize)
    (sink : ByteSink σ ε) (writes : Writes) (state : σ) :
    Delivery bufferSize writes.flatten decode
      (serializeWrites bufferSize (recording sink) writes (state, [])) := by
  obtain ⟨outcome, final, log, run, ending⟩ := exists_ending positive sink writes state
  have kept := ending.received_leads positive
  obtain ⟨whole, incomplete⟩ := ending.delivers positive
  rw [run]
  refine ⟨ending, kept, whole, incomplete, fun accepted => ⟨fun parses => ?_, fun same => ?_⟩⟩
  · by_contra proper
    have rejected := ExactInput.rejects_prefix (exactInput_of_parse accepted) _ kept proper
    rw [rejected] at parses
    cases parses
  · rw [same]
    exact accepted

/-- Every serialization ends in one of the four ways, and a receiver that parses what the
sink has accepted takes the whole message for what it is and rejects any part of it. A
header is delivered whole or not at all, and whole also when its serialization throws. -/
theorem serialize_delivery (H : List UInt8 → ByteArray32) (sink : ByteSink σ ε) (state : σ) :
    (∀ tx, Delivery 512 (encodeTx tx).flatten (decodeTx H)
      (serializeTx tx (recording sink) (state, []))) ∧
    (∀ b, Delivery 512 (encodeBlock b).flatten (decodeBlock H)
      (serializeBlock b (recording sink) (state, []))) ∧
    ∀ header, Delivery 80 (encodeBlockHeader header).flatten decodeBlockHeader
        (serializeBlockHeader header (recording sink) (state, [])) ∧
      (∀ exception,
        (serializeBlockHeader header (recording sink) (state, [])).1 = .threw exception →
          received (serializeBlockHeader header (recording sink) (state, [])).2.2 =
            (encodeBlockHeader header).flatten) ∧
      ((serializeBlockHeader header (recording sink) (state, [])).1 = .terminated →
        received (serializeBlockHeader header (recording sink) (state, [])).2.2 = []) := by
  have : Delimited (spanCursor.strict (decodeTx H)) := by
    rw [strict_decodeTx]
    infer_instance
  have : Delimited (spanCursor.strict (decodeBlock H)) := by
    rw [strict_decodeBlock]
    infer_instance
  have : Delimited (spanCursor.strict decodeBlockHeader) := by
    rw [strict_decodeBlockHeader]
    infer_instance
  refine ⟨fun tx => ?_, fun b => ?_, fun header => ?_⟩
  · exact delivery_of_serializeWrites (by decide) sink (encodeTx tx) state
  · exact delivery_of_serializeWrites (by decide) sink (encodeBlock b) state
  · have delivery : Delivery 80 (encodeBlockHeader header).flatten decodeBlockHeader
        (serializeBlockHeader header (recording sink) (state, [])) :=
      delivery_of_serializeWrites (by decide) sink (encodeBlockHeader header) state
    have positive : 0 < 80 := by decide
    exact ⟨delivery, delivery.ending.of_single positive (length_encodeBlockHeader header)⟩

end StdBitcoin
