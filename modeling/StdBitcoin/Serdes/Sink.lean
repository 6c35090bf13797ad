import StdBitcoin.Codec.Blocks
import StdBitcoin.Serdes.Encode

/-!
# Byte sinks and buffering

A sink is whatever `write` does to its state; a write may throw. The buffered sink
collects the writes of an encoder into chunks, hands a chunk over whenever its
buffer is full, and hands over the rest when it is destroyed, also while an
exception unwinds the stack.
-/

namespace StdBitcoin

open Codec

variable {σ ε : Type}

/-- `sink.write(bytes)` on a sink with state `σ` and exceptions `ε`. -/
abbrev ByteSink (σ ε : Type) := List UInt8 → σ → Except ε Unit × σ

/-- The write calls of an encoder, up to the first that throws. -/
def writeAll (sink : ByteSink σ ε) : Writes → σ → Except ε Unit × σ
  | [], state => (.ok (), state)
  | bytes :: writes, state =>
      match sink bytes state with
      | (.ok (), next) => writeAll sink writes next
      | (.error exception, next) => (.error exception, next)

/-- `buffered_sink`: the state of `_sink` and the first `_pos` bytes of `_buffer`. -/
structure BufferedSink (σ : Type) where
  sink : σ
  buffer : List UInt8

namespace BufferedSink

/-- `while (!bytes.empty())`. Each round takes at least one byte, so as many
rounds as there are bytes are enough. -/
def writeLoop (bufferSize : Nat) (sink : ByteSink σ ε) :
    Nat → List UInt8 → BufferedSink σ → Except ε Unit × BufferedSink σ
  | 0, _, state => (.ok (), state)
  | rounds + 1, bytes, state =>
      if bytes.isEmpty then
        (.ok (), state)
      else
        let n := min bytes.length (bufferSize - state.buffer.length)
        let buffer := state.buffer ++ bytes.take n
        if buffer.length = bufferSize then
          match sink buffer state.sink with
          | (.ok (), next) => writeLoop bufferSize sink rounds (bytes.drop n) ⟨next, []⟩
          -- The exception leaves `_pos` at the size of the buffer.
          | (.error exception, next) => (.error exception, ⟨next, buffer⟩)
        else
          writeLoop bufferSize sink rounds (bytes.drop n) ⟨state.sink, buffer⟩

/-- `buffered_sink::operator()`. -/
def write (bufferSize : Nat) (sink : ByteSink σ ε) : ByteSink (BufferedSink σ) ε := fun bytes =>
  writeLoop bufferSize sink bytes.length bytes

/-- The destructor, which may throw. -/
def destroy (sink : ByteSink σ ε) (state : BufferedSink σ) : Except ε Unit × σ :=
  if 0 < state.buffer.length then sink state.buffer state.sink else (.ok (), state.sink)

end BufferedSink

/-- How a call leaves its frame. -/
inductive Outcome (ε : Type) where
  | returned
  | threw (exception : ε)
  | terminated
deriving DecidableEq

/-- The body shared by the `serialize` overloads: encode into a buffered sink on
the stack. A destructor that throws during unwinding terminates the program. -/
def serializeWrites (bufferSize : Nat) (sink : ByteSink σ ε) (writes : Writes) (state : σ) :
    Outcome ε × σ :=
  let (body, buffered) := writeAll (BufferedSink.write bufferSize sink) writes ⟨state, []⟩
  let (destruction, final) := BufferedSink.destroy sink buffered
  match body, destruction with
  | .ok (), .ok () => (.returned, final)
  | .ok (), .error exception => (.threw exception, final)
  | .error exception, .ok () => (.threw exception, final)
  | .error _, .error _ => (.terminated, final)

/-- `serialize(tx, sink)`. -/
def serializeTx (tx : Transaction) (sink : ByteSink σ ε) : σ → Outcome ε × σ :=
  serializeWrites 512 sink (encodeTx tx)

/-- `serialize(header, sink)`. -/
def serializeBlockHeader (header : BlockHeader) (sink : ByteSink σ ε) : σ → Outcome ε × σ :=
  serializeWrites 80 sink (encodeBlockHeader header)

/-- `serialize(b, sink)`. -/
def serializeBlock (b : Block) (sink : ByteSink σ ε) : σ → Outcome ε × σ :=
  serializeWrites 512 sink (encodeBlock b)

namespace BufferedSink

/-- Full blocks handed over in order, with the rest left to the destructor. A block that
is refused stays in the buffer. -/
def handOver (sink : ByteSink σ ε) :
    List (List UInt8) → List UInt8 → σ → Except ε Unit × BufferedSink σ
  | [], rest, state => (.ok (), ⟨state, rest⟩)
  | block :: blocks, rest, state =>
      match sink block state with
      | (.ok (), next) => handOver sink blocks rest next
      | (.error exception, next) => (.error exception, ⟨next, block⟩)

/-- Blocks are handed over one group behind the other, up to the first failure. -/
theorem handOver_append (sink : ByteSink σ ε) (front back : List (List UInt8))
    (middle rest : List UInt8) (state : σ) :
    handOver sink (front ++ back) rest state =
      match handOver sink front middle state with
      | (.ok (), next) => handOver sink back rest next.sink
      | (.error exception, final) => (.error exception, final) := by
  induction front generalizing state with
  | nil => rfl
  | cons block front ih =>
      rw [List.cons_append, handOver, handOver]
      rcases sink block state with ⟨_ | _, next⟩
      · rfl
      · exact ih next

/-- What is left of a run without failures is the remainder. -/
theorem buffer_of_handOver_ok {sink : ByteSink σ ε} {blocks : List (List UInt8)} {rest : List UInt8}
    {state : σ} {final : BufferedSink σ} (run : handOver sink blocks rest state = (.ok (), final)) :
    final.buffer = rest := by
  induction blocks generalizing state with
  | nil =>
      obtain ⟨-, rfl⟩ := Prod.mk.inj run
      rfl
  | cons block blocks ih =>
      rw [handOver] at run
      rcases call : sink block state with ⟨_ | _, next⟩ <;> rw [call] at run
      · cases run
      · exact ih run

/-- Handing over accepted blocks is writing them. -/
theorem handOver_of_ok {sink : ByteSink σ ε} {blocks : List (List UInt8)} {state next : σ}
    (accepted : writeAll sink blocks state = (.ok (), next)) (rest : List UInt8) :
    handOver sink blocks rest state = (.ok (), ⟨next, rest⟩) := by
  induction blocks generalizing state with
  | nil =>
      obtain ⟨-, rfl⟩ := Prod.mk.inj accepted
      rfl
  | cons block blocks ih =>
      rw [writeAll] at accepted
      rw [handOver]
      rcases call : sink block state with ⟨_ | _, middle⟩ <;> rw [call] at accepted
      · cases accepted
      · exact ih accepted

variable {bufferSize : Nat}

/-- A loop with enough rounds hands over the full blocks of what waited and what came. -/
theorem writeLoop_eq (sink : ByteSink σ ε) {rounds : Nat} {bytes : List UInt8}
    (enough : bytes.length ≤ rounds) (state : BufferedSink σ)
    (room : state.buffer.length < bufferSize) :
    writeLoop bufferSize sink rounds bytes state =
      handOver sink (blocks bufferSize (state.buffer ++ bytes))
        (remainder bufferSize (state.buffer ++ bytes)) state.sink := by
  have idle : handOver sink (blocks bufferSize (state.buffer ++ []))
      (remainder bufferSize (state.buffer ++ [])) state.sink = (.ok (), state) := by
    rw [List.append_nil, blocks_of_lt room, remainder_of_lt room]
    rfl
  induction rounds generalizing bytes state with
  | zero =>
      obtain rfl := List.length_eq_zero_iff.mp (Nat.le_zero.mp enough)
      exact idle.symm
  | succ rounds ih =>
      cases bytes with
      | nil => exact idle.symm
      | cons byte bytes =>
          let n := min (byte :: bytes).length (bufferSize - state.buffer.length)
          let buffer := state.buffer ++ (byte :: bytes).take n
          have positive : 0 < bufferSize := Nat.zero_lt_of_lt room
          have progress : 0 < n := by
            change 0 < min (bytes.length + 1) _
            omega
          have fewer : ((byte :: bytes).drop n).length ≤ rounds := by
            rw [List.length_drop]
            omega
          have moved : state.buffer ++ byte :: bytes = buffer ++ (byte :: bytes).drop n := by
            rw [List.append_assoc, List.take_append_drop]
          rw [moved, writeLoop, if_neg (by simp)]
          change ite (buffer.length = bufferSize) _ _ = _
          by_cases full : buffer.length = bufferSize
          · have long : bufferSize ≤ (buffer ++ (byte :: bytes).drop n).length := by
              rw [List.length_append, full]
              exact Nat.le_add_right _ _
            rw [if_pos full, blocks_of_le positive long, remainder_of_le positive long,
              List.take_left' full, List.drop_left' full, handOver]
            rcases sink buffer state.sink with ⟨_ | _, next⟩
            · rfl
            · apply ih fewer ⟨next, []⟩ positive
              rw [List.append_nil, blocks_of_lt positive, remainder_of_lt positive]
              rfl
          · have below : buffer.length < bufferSize := by
              have length : buffer.length = state.buffer.length + n := by
                rw [List.length_append, List.length_take_of_le (Nat.min_le_left _ _)]
              omega
            rw [if_neg full]
            apply ih fewer ⟨state.sink, buffer⟩ below
            rw [List.append_nil, blocks_of_lt below, remainder_of_lt below]
            rfl

/-- How the writes are cut up depends only on their concatenation. -/
theorem writeAll_eq (sink : ByteSink σ ε) (writes : Writes) (state : BufferedSink σ)
    (room : state.buffer.length < bufferSize) :
    writeAll (write bufferSize sink) writes state =
      handOver sink (blocks bufferSize (state.buffer ++ writes.flatten))
        (remainder bufferSize (state.buffer ++ writes.flatten)) state.sink := by
  induction writes generalizing state with
  | nil =>
      rw [List.flatten_nil, List.append_nil, blocks_of_lt room, remainder_of_lt room]
      rfl
  | cons bytes writes ih =>
      have positive : 0 < bufferSize := Nat.zero_lt_of_lt room
      rw [writeAll, write, writeLoop_eq sink le_rfl state room, List.flatten_cons,
        ← List.append_assoc, blocks_append positive (state.buffer ++ bytes),
        remainder_append positive (state.buffer ++ bytes),
        handOver_append sink _ _ (remainder bufferSize (state.buffer ++ bytes))]
      rcases run : handOver sink _ _ _ with ⟨_ | _, middle⟩
      · rfl
      · have waiting := buffer_of_handOver_ok run
        have space : middle.buffer.length < bufferSize := by
          rw [waiting]
          exact length_remainder_lt positive _
        rw [← waiting]
        exact ih middle space

end BufferedSink

section Serialize

variable {bufferSize : Nat} (positive : 0 < bufferSize)

include positive

/-- If no full block is refused, the destructor writes the rest. -/
theorem serializeWrites_of_ok {sink : ByteSink σ ε} {writes : Writes} {state next : σ}
    (accepted : writeAll sink (blocks bufferSize writes.flatten) state = (.ok (), next)) :
    serializeWrites bufferSize sink writes state =
      match BufferedSink.destroy sink ⟨next, remainder bufferSize writes.flatten⟩ with
      | (.ok (), final) => (.returned, final)
      | (.error exception, final) => (.threw exception, final) := by
  rw [serializeWrites, BufferedSink.writeAll_eq sink writes ⟨state, []⟩ positive, List.nil_append,
    BufferedSink.handOver_of_ok accepted]
  dsimp only
  rcases BufferedSink.destroy sink _ with ⟨_ | _, final⟩ <;> rfl

end Serialize

/-- A sink that appends every chunk to the bytes received before. -/
def vectorSink : ByteSink (List UInt8) Empty := fun chunk bytes => (.ok (), bytes ++ chunk)

/-- The bytes a run of `serialize` leaves in a fresh vector sink. -/
def written (run : List UInt8 → Outcome Empty × List UInt8) : List UInt8 := (run []).2

/-- A vector takes all writes at its end. -/
theorem writeAll_vectorSink (writes : Writes) (bytes : List UInt8) :
    writeAll vectorSink writes bytes = (.ok (), bytes ++ writes.flatten) := by
  induction writes generalizing bytes with
  | nil => rw [List.flatten_nil, List.append_nil, writeAll]
  | cons chunk writes ih =>
      rw [List.flatten_cons, ← List.append_assoc]
      exact ih (bytes ++ chunk)

/-- The destructor appends the buffer to the vector. -/
theorem destroy_vectorSink (state : BufferedSink (List UInt8)) :
    BufferedSink.destroy vectorSink state = (.ok (), state.sink ++ state.buffer) := by
  rw [BufferedSink.destroy]
  split
  · rfl
  · rename_i empty
    rw [List.length_eq_zero_iff.mp (Nat.eq_zero_of_not_pos empty), List.append_nil]

/-- Through a buffer of any positive size a vector receives the writes in order. -/
theorem serializeWrites_vectorSink {bufferSize : Nat} (positive : 0 < bufferSize)
    (writes : Writes) (bytes : List UInt8) :
    serializeWrites bufferSize vectorSink writes bytes = (.returned, bytes ++ writes.flatten) := by
  rw [serializeWrites_of_ok positive (writeAll_vectorSink _ bytes), destroy_vectorSink]
  dsimp only
  rw [List.append_assoc, flatten_blocks_append_remainder positive]

@[simp] theorem written_serializeTx (tx : Transaction) :
    written (serializeTx tx vectorSink) = (encodeTx tx).flatten := by
  rw [written, serializeTx, serializeWrites_vectorSink (by decide), List.nil_append]

@[simp] theorem written_serializeBlockHeader (header : BlockHeader) :
    written (serializeBlockHeader header vectorSink) = (encodeBlockHeader header).flatten := by
  rw [written, serializeBlockHeader, serializeWrites_vectorSink (by decide), List.nil_append]

@[simp] theorem written_serializeBlock (b : Block) :
    written (serializeBlock b vectorSink) = (encodeBlock b).flatten := by
  rw [written, serializeBlock, serializeWrites_vectorSink (by decide), List.nil_append]

end StdBitcoin
