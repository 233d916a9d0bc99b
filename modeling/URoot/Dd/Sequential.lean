import URoot.Dd.Copy

set_option autoImplicit false

namespace URoot.Dd

open GoLib

structure Sink (σ : Type) where
  w : σ
  out : Bytes
  bytesWritten : Nat

def Sink.took {σ : Type} (sink : Sink σ) (w : σ) (bytes : Bytes) : Sink σ := { sink with w := w, out := sink.out ++ bytes }

def Sink.count {σ : Type} (sink : Sink σ) (n : Nat) : Sink σ := { sink with bytesWritten := sink.bytesWritten + n }

namespace Call

variable {σ : Type} (c : Call σ)

-- A copy without a second goroutine: the blocks of the input are written one
-- after the other, up to the first block whose output fails.
section Sequential

def chunk (i : Nat) : Bytes := (c.r i).bytes

def Continues (i : Nat) : Prop := c.chunk i ≠ [] ∧ (c.r i).err = none

def Delivers (i : Nat) : Prop := (∀ j, j < i → c.Continues j) ∧ c.chunk i ≠ []

def Ends (last blocks : Nat) : Prop :=
  (∀ j, j < last → c.Continues j) ∧ ¬ c.Continues last ∧ blocks = if c.chunk last = [] then last else last + 1

def writeTo (sink : Sink σ) (data : Bytes) : Sink σ × Option IoError :=
  if _empty : data = [] then (sink, none)
  else
    let bytes := c.transform (data.take c.outBufSize)
    match c.w.write sink.w bytes with
    | (w, got, some e) => (sink.took w (bytes.take got), some e)
    | (w, got, none) =>
        if got ≠ (data.take c.outBufSize).length then (sink.took w (bytes.take got), some .shortWrite)
        else writeTo (sink.took w (bytes.take got)) (data.drop c.outBufSize)
termination_by data.length
decreasing_by
  have positive := c.outPositive
  have length := List.length_pos_of_ne_nil _empty
  rw [List.length_drop]
  omega

def writeBlocks (sink : Sink σ) : Nat → Sink σ × Option IoError
  | 0 => (sink, none)
  | n + 1 =>
      match writeBlocks sink n with
      | (next, none) =>
          match c.writeTo next (c.chunk n) with
          | (done, none) => (done.count (c.chunk n).length, none)
          | (done, some e) => (done, some e)
      | (next, some e) => (next, some e)

def FailsAt (sink : Sink σ) (k : Nat) (last : Sink σ) (e : IoError) : Prop :=
  ∃ next, c.writeBlocks sink k = (next, none) ∧ c.writeTo next (c.chunk k) = (last, some e)

def OutputFailsAt (sink : Sink σ) (k : Nat) : Prop := ∃ last e, c.FailsAt sink k last e

theorem delivers_mono (i j : Nat) (later : c.Delivers j) (le : i ≤ j) : c.Delivers i := by
  obtain ⟨before, present⟩ := later
  refine ⟨fun k bound => before k (by omega), ?_⟩
  by_cases same : i = j
  · rw [same]
    exact present
  · exact (before i (by omega)).1

theorem write_to_nil (sink : Sink σ) : c.writeTo sink [] = (sink, none) := by
  rw [writeTo, dif_pos rfl]

def outChunk (data : Bytes) (i : Nat) : Bytes := (data.drop i).take c.outBufSize

theorem drop_chunk (data : Bytes) (i : Nat) :
    (data.drop i).drop c.outBufSize = data.drop (i + (c.outChunk data i).length) := by
  have positive := c.outPositive
  rw [outChunk, List.length_take, List.length_drop, List.drop_drop]
  by_cases short : data.length - i ≤ c.outBufSize
  · rw [Nat.min_eq_right short, List.drop_of_length_le (by omega), List.drop_of_length_le (by omega)]
  · rw [Nat.min_eq_left (by omega)]

theorem write_to_at (sink : Sink σ) (data : Bytes) (i : Nat) (inside : i < data.length) :
    c.writeTo sink (data.drop i) =
      match c.w.write sink.w (c.transform (c.outChunk data i)) with
      | (w, got, some e) => (sink.took w ((c.transform (c.outChunk data i)).take got), some e)
      | (w, got, none) =>
          if got ≠ (c.outChunk data i).length then
            (sink.took w ((c.transform (c.outChunk data i)).take got), some .shortWrite)
          else
            c.writeTo (sink.took w ((c.transform (c.outChunk data i)).take got))
              (data.drop (i + (c.outChunk data i).length)) := by
  have nonempty : data.drop i ≠ [] := by
    intro empty
    have length : (data.drop i).length = data.length - i := List.length_drop
    rw [empty, List.length_nil] at length
    omega
  rw [← drop_chunk, writeTo, dif_neg nonempty]
  rfl

theorem write_to_wrote (sink : Sink σ) (w : σ) (data : Bytes) (i got : Nat) (inside : i < data.length)
    (took : c.w.write sink.w (c.transform (c.outChunk data i)) = (w, got, none))
    (whole : got = (c.outChunk data i).length) :
    c.writeTo sink (data.drop i) =
      c.writeTo (sink.took w ((c.transform (c.outChunk data i)).take got)) (data.drop (i + got)) := by
  rw [write_to_at c sink data i inside, took, whole]
  simp only [ne_eq, not_true_eq_false, if_false]

theorem write_to_failed (sink : Sink σ) (w : σ) (data : Bytes) (i got : Nat) (result : Option IoError) (err : IoError)
    (inside : i < data.length) (took : c.w.write sink.w (c.transform (c.outChunk data i)) = (w, got, result))
    (why : result = some err ∨ result = none ∧ got ≠ (c.outChunk data i).length ∧ err = .shortWrite) :
    c.writeTo sink (data.drop i) = (sink.took w ((c.transform (c.outChunk data i)).take got), some err) := by
  rw [write_to_at c sink data i inside, took]
  rcases why with rfl | ⟨rfl, short, rfl⟩
  · rfl
  · simp only [ne_eq, short, not_false_eq_true, if_true]

theorem write_blocks_next (sink mid done : Sink σ) (n : Nat) (before : c.writeBlocks sink n = (mid, none))
    (here : c.writeTo mid (c.chunk n) = (done, none)) :
    c.writeBlocks sink (n + 1) = (done.count (c.chunk n).length, none) := by
  rw [writeBlocks, before]
  simp only [here]

theorem write_blocks_failed (sink last : Sink σ) (k : Nat) (e : IoError) (fails : c.FailsAt sink k last e) :
    c.writeBlocks sink (k + 1) = (last, some e) := by
  obtain ⟨mid, before, here⟩ := fails
  rw [writeBlocks, before]
  simp only [here]

theorem failed_stays (sink last : Sink σ) (e : IoError) (n m : Nat) (le : n ≤ m)
    (failed : c.writeBlocks sink n = (last, some e)) : c.writeBlocks sink m = (last, some e) := by
  induction m with
  | zero =>
      rw [Nat.le_zero.mp le] at failed
      exact failed
  | succ m ih =>
      by_cases same : n = m + 1
      · rw [← same]
        exact failed
      · rw [writeBlocks, ih (by omega)]

theorem fails_first (sink : Sink σ) (j k : Nat) (earlier : c.OutputFailsAt sink j) (later : c.OutputFailsAt sink k) :
    k ≤ j := by
  obtain ⟨last, e, failed⟩ := earlier
  obtain ⟨_, _, mid, before, _⟩ := later
  by_contra less
  have stays := c.failed_stays sink last e (j + 1) k (by omega) (c.write_blocks_failed sink last j e failed)
  rw [before] at stays
  cases stays

theorem read_from_count (result : ReadResult) : (readFrom result).1 = result.bytes.length := by
  unfold readFrom
  split
  · rename_i empty
    rw [empty.1]
    rfl
  · rfl

theorem continues_iff (i : Nat) : c.Continues i ↔ c.chunk i ≠ [] ∧ (readFrom (c.r i)).2 = none := by
  unfold Continues chunk readFrom
  split
  · rename_i empty
    simp [empty.1]
  · rfl

end Sequential

end Call

end URoot.Dd
