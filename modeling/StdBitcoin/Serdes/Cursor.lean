import StdBitcoin.Serdes.Decode

/-!
# The decoder as a cursor

Once failed, a decoder takes nothing and stays failed. Before that, reading into
a buffer takes as many bytes as the buffer holds, and a short read fails.
-/

namespace StdBitcoin

open Codec
open Decoder (good fail read ofSpan)

/-- Decoders that have not failed hold the bytes left to read. -/
def spanCursor : Cursor Decoder UInt8 where
  live := ofSpan
  view := fun r => if r.failed then none else some r.source.data
  view_eq_some_iff := by
    rintro ⟨⟨data⟩, failed⟩ input
    cases failed <;> simp [ofSpan]

namespace Decoder

/-- A failed reader reads nothing. -/
theorem readLoop_failed (rounds : Nat) (out : List UInt8) (source : SpanSource) :
    readLoop rounds out ⟨source, true⟩ = (out, ⟨source, true⟩) := by
  cases rounds with
  | zero => rfl
  | succ rounds => rw [readLoop, if_pos (by simp)]

/-- Where the data suffices the output is filled from its front. -/
theorem readLoop_enough {rounds : Nat} {out data : List UInt8} (rounds_enough : out.length ≤ rounds)
    (data_enough : out.length ≤ data.length) :
    readLoop rounds out (ofSpan data) = (data.take out.length, ofSpan (data.drop out.length)) := by
  cases rounds with
  | zero =>
      obtain rfl := List.length_eq_zero_iff.mp (Nat.le_zero.mp rounds_enough)
      rfl
  | succ rounds =>
      cases out with
      | nil => rfl
      | cons byte out =>
          have all : min (byte :: out).length data.length = (byte :: out).length :=
            Nat.min_eq_left data_enough
          have done : readLoop rounds [] (ofSpan (data.drop (byte :: out).length)) =
              ([], ofSpan (data.drop (byte :: out).length)) := by
            cases rounds <;> rfl
          rw [readLoop, if_neg (by simp [ofSpan])]
          dsimp only [SpanSource.readSome, ofSpan]
          rw [all, if_neg (by simp), List.drop_length, List.append_nil,
            List.drop_of_length_le (by rw [List.length_take]; exact Nat.min_le_left _ _)]
          dsimp only [ofSpan] at done
          rw [done, List.append_nil, List.take_take, Nat.min_self]

/-- Where the data does not suffice the reader fails. -/
theorem readLoop_short {rounds : Nat} {out data : List UInt8} (rounds_enough : out.length ≤ rounds)
    (short : data.length < out.length) : (readLoop rounds out (ofSpan data)).2.failed = true := by
  induction rounds generalizing out data with
  | zero => omega
  | succ rounds ih =>
      have nonempty : out.isEmpty = false := by
        cases out with
        | nil => simp at short
        | cons byte out => rfl
      have partly : min out.length data.length = data.length := Nat.min_eq_right (by omega)
      rw [readLoop, if_neg (by simp [ofSpan, nonempty])]
      dsimp only [SpanSource.readSome, ofSpan]
      rw [partly]
      split
      · rfl
      · have filled : (data.take data.length ++ out.drop data.length).drop data.length =
            out.drop data.length := by
          rw [List.take_length, List.drop_left]
        rw [filled, List.drop_length]
        have fewer : (out.drop data.length).length ≤ rounds := by
          rw [List.length_drop]
          omega
        have missing : ([] : List UInt8).length < (out.drop data.length).length := by
          rw [List.length_drop]
          exact Nat.sub_pos_of_lt short
        exact ih fewer missing

instance settled_read {n : Nat} (out : List.Vector UInt8 n) : spanCursor.Settled (read out) where
  stays := by
    rintro ⟨source, failed⟩ dead
    cases failed with
    | false => cases dead
    | true =>
        change (if (readLoop n out.toList ⟨source, true⟩).2.failed then _ else _) = _
        rw [readLoop_failed]
        rfl

/-- Reading into a buffer takes as many bytes as it holds. -/
@[simp] theorem strict_read {n : Nat} (out : List.Vector UInt8 n) :
    spanCursor.strict (read out) = take n := by
  have length : out.toList.length = n := out.toList_length
  funext input
  change (spanCursor.view (readLoop n out.toList (ofSpan input)).2).map _ = dite _ _ _
  by_cases enough : n ≤ input.length
  · rw [dif_pos enough]
    have run := readLoop_enough length.le (length.trans_le enough)
    rw [length] at run
    change Option.map (fun rest => (_, rest)) _ = _
    rw [run]
    change some (_, input.drop n) = some (_, input.drop n)
    congr 2
    apply List.Vector.eq
    change (readLoop n out.toList (ofSpan input)).1 = input.take n
    rw [run]
  · rw [dif_neg enough]
    have run := readLoop_short length.le ((Nat.lt_of_not_le enough).trans_eq length.symm)
    change Option.map _ (if (readLoop n out.toList (ofSpan input)).2.failed then _ else _) = _
    rw [if_pos run]
    rfl

instance tells_good : spanCursor.Tells good where
  answer := by
    rintro ⟨source, failed⟩
    cases failed <;> rfl

instance settled_good : spanCursor.Settled good := spanCursor.settled_of_tells

@[simp] theorem strict_good : spanCursor.strict good = pure true := spanCursor.strict_of_tells

instance settled_fail : spanCursor.Settled fail where
  stays := fun _ _ => rfl

@[simp] theorem strict_fail : spanCursor.strict fail = failure :=
  spanCursor.strict_eq_failure fun _ => rfl

end Decoder

end StdBitcoin
