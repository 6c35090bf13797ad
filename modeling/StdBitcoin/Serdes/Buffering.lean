import StdBitcoin.Serdes.Sink

/-!
# What a sink receives

The calls on a sink, recorded with their results. As long as every full block is accepted
the calls follow the encoding, and a failure ends them. A full block that is refused
is written once more by the destructor.
-/

namespace StdBitcoin

open Codec

variable {σ ε : Type}

/-- Calls of `write` with their results. -/
abbrev CallLog (ε : Type) := List (List UInt8 × Except ε Unit)

/-- The sink with a record of its calls. -/
def recording (sink : ByteSink σ ε) : ByteSink (σ × CallLog ε) ε := fun bytes (state, log) =>
  let (result, next) := sink bytes state
  (result, (next, log ++ [(bytes, result)]))

/-- The record of a call of the sink has the chunk and its result. -/
theorem recording_of_call {sink : ByteSink σ ε} {chunk : List UInt8} {state next : σ}
    {result : Except ε Unit} (call : sink chunk state = (result, next)) (log : CallLog ε) :
    recording sink chunk (state, log) = (result, (next, log ++ [(chunk, result)])) := by
  rw [recording, call]

/-- Calls that did not throw. -/
def accepted (chunks : List (List UInt8)) : CallLog ε := chunks.map fun chunk => (chunk, .ok ())

/-- A call that throws is no part of a record without failures. -/
theorem not_mem_accepted (chunk : List UInt8) (exception : ε) (chunks : List (List UInt8)) :
    (chunk, Except.error exception) ∉ accepted chunks := by
  intro member
  obtain ⟨_, _, same⟩ := List.mem_map.mp member
  cases (Prod.mk.inj same).2

theorem accepted_cons (chunk : List UInt8) (chunks : List (List UInt8)) (log : CallLog ε) :
    log ++ accepted (chunk :: chunks) = log ++ [(chunk, .ok ())] ++ accepted chunks := by
  rw [List.append_assoc]
  rfl

theorem accepted_concat (chunks : List (List UInt8)) (chunk : List UInt8) :
    (accepted (chunks ++ [chunk]) : CallLog ε) = accepted chunks ++ [(chunk, .ok ())] :=
  List.map_append

/-- A run without failures leaves a record of the chunks. -/
theorem writeAll_recording {sink : ByteSink σ ε} {chunks : List (List UInt8)} {state next : σ}
    (run : writeAll sink chunks state = (.ok (), next)) (log : CallLog ε) :
    writeAll (recording sink) chunks (state, log) = (.ok (), (next, log ++ accepted chunks)) := by
  induction chunks generalizing state log with
  | nil =>
      obtain ⟨-, rfl⟩ := Prod.mk.inj run
      rw [accepted, List.map_nil, List.append_nil, writeAll]
  | cons chunk chunks ih =>
      rw [writeAll] at run
      rw [writeAll, recording]
      rcases call : sink chunk state with ⟨_ | _, middle⟩ <;> rw [call] at run
      · cases run
      · rw [accepted_cons]
        exact ih run _

/-- The record of blocks of which one was refused ends with it, and it is still buffered. -/
theorem handOver_recording_of_error {sink : ByteSink σ ε} {blocks : List (List UInt8)}
    {state next : σ} {exception : ε} (run : writeAll sink blocks state = (.error exception, next))
    (rest : List UInt8) (log : CallLog ε) :
    ∃ chunks, ∃ block ∈ blocks, BufferedSink.handOver (recording sink) blocks rest (state, log) =
      (.error exception,
        ⟨(next, log ++ accepted chunks ++ [(block, .error exception)]), block⟩) := by
  induction blocks generalizing state log with
  | nil => cases run
  | cons block blocks ih =>
      rw [writeAll] at run
      rw [BufferedSink.handOver, recording]
      rcases call : sink block state with ⟨_ | _, middle⟩ <;> rw [call] at run
      · obtain ⟨same, rfl⟩ := Prod.mk.inj run
        obtain rfl := Except.error.inj same
        refine ⟨[], block, List.mem_cons_self, ?_⟩
        rw [accepted, List.map_nil, List.append_nil]
      · obtain ⟨chunks, refused, member, final⟩ := ih run (log ++ [(block, .ok ())])
        refine ⟨block :: chunks, refused, List.mem_cons_of_mem _ member, ?_⟩
        rw [accepted_cons]
        exact final

/-- The first exception leaves the call, nothing is written after it, and what was
accepted before is a prefix of the encoding. -/
def StopsAtFailure (encoding : List UInt8) (run : σ × CallLog ε → Outcome ε × (σ × CallLog ε))
    (state : σ) : Prop :=
  ∃ chunks final, chunks.flatten <+: encoding ∧
    (run (state, []) = (.returned, (final, accepted chunks)) ∨
      ∃ chunk exception, run (state, []) =
        (.threw exception, (final, accepted chunks ++ [(chunk, .error exception)])))

/-- No call with a full buffer throws. -/
def AcceptsFullBlocks (bufferSize : Nat) (encoding : List UInt8) (sink : ByteSink σ ε)
    (state : σ) : Prop :=
  (writeAll sink (blocks bufferSize encoding) state).1 = .ok ()

section Chunks

variable {bufferSize : Nat} (positive : 0 < bufferSize)

include positive

/-- With every full block accepted, at most the rest in the buffer is refused. -/
theorem outcome_of_accepts {sink : ByteSink σ ε} {writes : Writes} {state : σ}
    (accepts : AcceptsFullBlocks bufferSize writes.flatten sink state) :
    ∃ final, serializeWrites bufferSize (recording sink) writes (state, []) =
        (.returned, (final, accepted (chunks bufferSize writes.flatten))) ∨
      ∃ exception, serializeWrites bufferSize (recording sink) writes (state, []) =
        (.threw exception, (final, accepted (blocks bufferSize writes.flatten) ++
          [(remainder bufferSize writes.flatten, .error exception)])) := by
  have run : writeAll sink (blocks bufferSize writes.flatten) state =
      (.ok (), (writeAll sink (blocks bufferSize writes.flatten) state).2) := Prod.ext accepts rfl
  rw [serializeWrites_of_ok positive (writeAll_recording run []), List.nil_append,
    BufferedSink.destroy, chunks]
  set next := (writeAll sink (blocks bufferSize writes.flatten) state).2
  set rest := remainder bufferSize writes.flatten
  dsimp only
  by_cases waiting : rest = []
  · refine ⟨next, .inl ?_⟩
    rw [waiting]
    simp
  · rw [if_pos (List.length_pos_iff.mpr waiting), if_neg (by simpa using waiting)]
    rcases call : sink rest next with ⟨exception | _, final⟩ <;> rw [recording_of_call call]
    · exact ⟨final, .inr ⟨exception, rfl⟩⟩
    · rw [accepted_concat]
      exact ⟨final, .inl rfl⟩

/-- A sink that accepts the full blocks sees no call behind a failure. -/
theorem stopsAtFailure_of_accepts {sink : ByteSink σ ε} {writes : Writes} {state : σ}
    (accepts : AcceptsFullBlocks bufferSize writes.flatten sink state) :
    StopsAtFailure writes.flatten (serializeWrites bufferSize (recording sink) writes) state := by
  obtain ⟨final, returned | ⟨exception, threw⟩⟩ := outcome_of_accepts positive accepts
  · refine ⟨chunks bufferSize writes.flatten, final, ⟨[], ?_⟩, .inl returned⟩
    rw [List.append_nil, flatten_chunks positive]
  · exact ⟨blocks bufferSize writes.flatten, final, ⟨_, flatten_blocks_append_remainder positive _⟩,
      .inr ⟨_, exception, threw⟩⟩

/-- What the destructor writes after a refused block: the block once more. -/
theorem log_of_refused {sink : ByteSink σ ε} {writes : Writes} {state next : σ} {exception : ε}
    (run : writeAll sink (blocks bufferSize writes.flatten) state = (.error exception, next)) :
    ∃ chunks block result,
      (serializeWrites bufferSize (recording sink) writes (state, [])).2.2 =
        accepted chunks ++ [(block, .error exception)] ++ [(block, result)] := by
  obtain ⟨chunks, block, member, body⟩ :=
    handOver_recording_of_error run (remainder bufferSize writes.flatten) []
  have full : 0 < block.length := (length_of_mem_blocks positive member).symm ▸ positive
  refine ⟨chunks, block, (sink block next).1, ?_⟩
  rw [serializeWrites, BufferedSink.writeAll_eq (recording sink) writes ⟨(state, []), []⟩ positive,
    List.nil_append, body, List.nil_append]
  dsimp only
  rw [BufferedSink.destroy, if_pos full, recording_of_call rfl]
  rcases (sink block next).1 with _ | _ <;> rfl

/-- If no call follows a failure the sink has accepted the full blocks. -/
theorem accepts_of_stopsAtFailure {sink : ByteSink σ ε} {writes : Writes} {state : σ}
    (stops : StopsAtFailure writes.flatten
      (serializeWrites bufferSize (recording sink) writes) state) :
    AcceptsFullBlocks bufferSize writes.flatten sink state := by
  rcases run : writeAll sink (blocks bufferSize writes.flatten) state with ⟨exception | _, next⟩
  · obtain ⟨written, block, result, log⟩ := log_of_refused positive run
    obtain ⟨chunks, final, -, outcome⟩ := stops
    have refused : (block, Except.error exception) ∈ accepted chunks := by
      rcases outcome with returned | ⟨chunk, first, threw⟩
      · rw [returned] at log
        change accepted chunks = _ at log
        rw [log]
        simp
      · rw [threw] at log
        obtain ⟨same, -⟩ := List.append_inj' log rfl
        rw [same]
        simp
    exact absurd refused (not_mem_accepted _ _ _)
  · exact congrArg Prod.fst run

/-- No call follows a failure if and only if the sink accepts the full blocks. -/
theorem stopsAtFailure_iff (sink : ByteSink σ ε) (writes : Writes) (state : σ) :
    StopsAtFailure writes.flatten (serializeWrites bufferSize (recording sink) writes) state ↔
      AcceptsFullBlocks bufferSize writes.flatten sink state :=
  ⟨accepts_of_stopsAtFailure positive, stopsAtFailure_of_accepts positive⟩

/-- A sink that does not throw receives the chunks. -/
theorem serializeWrites_recording (sink : ByteSink σ Empty) (writes : Writes) (state : σ) :
    ∃ final, serializeWrites bufferSize (recording sink) writes (state, []) =
      (.returned, (final, accepted (chunks bufferSize writes.flatten))) := by
  have accepts : AcceptsFullBlocks bufferSize writes.flatten sink state := by
    unfold AcceptsFullBlocks
    rcases (writeAll sink (blocks bufferSize writes.flatten) state).1 with exception | _
    · exact exception.elim
    · rfl
  obtain ⟨final, returned | ⟨exception, -⟩⟩ := outcome_of_accepts positive accepts
  · exact ⟨final, returned⟩
  · exact exception.elim

end Chunks

/-- A failing sink is not written again, unless it refused a full buffer. -/
theorem serialize_stopsAtFailure_iff (sink : ByteSink σ ε) (state : σ) :
    (∀ tx, StopsAtFailure (encodeTx tx).flatten (serializeTx tx (recording sink)) state ↔
      AcceptsFullBlocks 512 (encodeTx tx).flatten sink state) ∧
    (∀ header, StopsAtFailure (encodeBlockHeader header).flatten
        (serializeBlockHeader header (recording sink)) state ↔
      AcceptsFullBlocks 80 (encodeBlockHeader header).flatten sink state) ∧
    ∀ b, StopsAtFailure (encodeBlock b).flatten (serializeBlock b (recording sink)) state ↔
      AcceptsFullBlocks 512 (encodeBlock b).flatten sink state :=
  ⟨fun tx => stopsAtFailure_iff (by decide) sink (encodeTx tx) state,
    fun header => stopsAtFailure_iff (by decide) sink (encodeBlockHeader header) state,
    fun b => stopsAtFailure_iff (by decide) sink (encodeBlock b) state⟩

/-- A sink that throws on its first call receives the header on its second. -/
theorem not_stopsAtFailure_first :
    ¬ StopsAtFailure (encodeBlockHeader ⟨0, .zero, .zero, 0, 0, 0⟩).flatten
      (serializeBlockHeader ⟨0, .zero, .zero, 0, 0, 0⟩
        (recording fun _ calls => (if calls = 0 then .error () else .ok (), calls + 1))) 0 := by
  have run : serializeBlockHeader ⟨0, .zero, .zero, 0, 0, 0⟩
      (recording fun _ calls => (if calls = 0 then .error () else .ok (), calls + 1)) (0, []) =
        (.threw (), (2, [(List.replicate 80 0, .error ()), (List.replicate 80 0, .ok ())])) := rfl
  intro stops
  rcases stops with ⟨chunks, final, -, outcome⟩
  rw [run] at outcome
  rcases outcome with returned | ⟨chunk, exception, threw⟩
  · cases (Prod.mk.inj returned).1
  · have log := (Prod.mk.inj (Prod.mk.inj threw).2).2
    have last := (List.append_inj' (show [_] ++ [_] = _ from log) rfl).2
    cases (Prod.mk.inj (List.singleton_inj.mp last)).2

end StdBitcoin
