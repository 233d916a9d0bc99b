import URoot.Dd.Sequential

set_option autoImplicit false

namespace URoot.Dd

open GoLib

variable {σ : Type}

inductive ReaderMove (c : Call σ) (s : State σ) : State σ → Prop where
  | leave (pc : s.reader = .check) (closed : s.quit = true) : ReaderMove c s { s with reader := .done }
  | turn (pc : s.reader = .check) (running : s.quit = false) : ReaderMove c s { s with reader := .get }
  | reuse (buf : Nat) (rest : List Nat) (pc : s.reader = .get) (pooled : s.pool = buf :: rest) :
      ReaderMove c s { s with pool := rest, reader := .read buf }
  | alloc (pc : s.reader = .get) (empty : s.pool = []) :
      ReaderMove c s
        { s with heap := Function.update s.heap s.next [], next := s.next + 1, reader := .read s.next }
  | data (buf : Nat) (pc : s.reader = .read buf) (present : c.chunk s.reads ≠ []) :
      ReaderMove c s
        { s with
          heap := Function.update s.heap buf (c.chunk s.reads), reads := s.reads + 1,
          reader := .send buf (c.chunk s.reads).length (c.r s.reads).err }
  | noData (buf : Nat) (pc : s.reader = .read buf) (empty : c.chunk s.reads = []) :
      ReaderMove c s
        { s with
          heap := Function.update s.heap buf [], reads := s.reads + 1,
          reader := .after 0 (readFrom (c.r s.reads)).2 }
  | enqueue (buf n : Nat) (err : Option IoError) (pc : s.reader = .send buf n err) (room : s.ready.length < c.depth) :
      ReaderMove c s { s with ready := s.ready ++ [buf], reader := .after n err }
  | handOver (buf n : Nat) (err : Option IoError) (pc : s.reader = .send buf n err) (unbuffered : c.depth = 0)
      (receiving : s.caller = .recv) (empty : ¬ s.ready.length < c.depth) :
      ReaderMove c s { s with caller := .writing buf 0, reader := .after n err }
  | endOfFile (n : Nat) (pc : s.reader = .after n (some .eof)) : ReaderMove c s { s with reader := .done }
  | readError (n : Nat) (err : Option IoError) (pc : s.reader = .after n err) (other : err ≠ some .eof)
      (failed : n = 0 ∨ err ≠ none) : ReaderMove c s { s with reader := .sendErr err }
  | again (n : Nat) (pc : s.reader = .after n none) (positive : n ≠ 0) : ReaderMove c s { s with reader := .check }
  | report (err : Option IoError) (pc : s.reader = .sendErr err) (room : s.errs.length < 1) :
      ReaderMove c s { s with errs := s.errs ++ [err], reader := .done }
  | finish (pc : s.reader = .done) : ReaderMove c s { s with wgDone := true, reader := .closing }
  | close (pc : s.reader = .closing) : ReaderMove c s { s with readyClosed := true, reader := .halted }

theorem reader_moves {c : Call σ} {s next : State σ} (moved : c.stepReader s = some next) : ReaderMove c s next := by
  unfold Call.stepReader at moved
  split at moved
  case h_1 pc =>
    by_cases closed : s.quit = true
    · rw [if_pos closed] at moved
      cases moved
      exact .leave pc closed
    · rw [if_neg closed] at moved
      cases moved
      exact .turn pc (Bool.eq_false_iff.mpr closed)
  case h_2 pc =>
    split at moved
    · cases moved
      exact .reuse _ _ pc ‹_›
    · cases moved
      exact .alloc pc ‹_›
  case h_3 buf pc =>
    have count := Call.read_from_count (c.r s.reads)
    by_cases empty : c.chunk s.reads = []
    · have none : (readFrom (c.r s.reads)).1 = 0 := by
        rw [count]
        exact List.length_eq_zero_iff.mpr empty
      simp only [none, Nat.lt_irrefl, if_false] at moved
      cases moved
      have bytes : (c.r s.reads).bytes = [] := empty
      rw [bytes]
      exact .noData buf pc empty
    · have result : readFrom (c.r s.reads) = ((c.chunk s.reads).length, (c.r s.reads).err) := by
        unfold readFrom
        rw [if_neg (fun both => empty both.1)]
        rfl
      simp only [result, List.length_pos_of_ne_nil empty, if_true] at moved
      cases moved
      exact .data buf pc empty
  case h_4 buf n err pc =>
    obtain ⟨sent, done, rfl⟩ := Option.map_eq_some_iff.mp moved
    unfold Call.sendReady at done
    split at done
    · cases done
      exact .enqueue buf n err pc ‹_›
    · split at done
      · rename_i full both
        cases done
        exact .handOver buf n err pc both.1 both.2 full
      · cases done
  case h_5 n err pc =>
    by_cases eof : err = some .eof
    · subst eof
      cases moved
      exact .endOfFile n pc
    · rw [if_neg eof] at moved
      by_cases failed : n = 0 ∨ err ≠ none
      · rw [if_pos failed] at moved
        cases moved
        exact .readError n err pc eof failed
      · rw [if_neg failed] at moved
        cases moved
        have none : err = none := by
          by_contra some
          exact failed (Or.inr some)
        rw [none] at pc
        exact .again n pc (fun zero => failed (Or.inl zero))
  case h_6 err pc =>
    split at moved
    · cases moved
      exact .report err pc ‹_›
    · cases moved
  case h_7 pc =>
    cases moved
    exact .finish pc
  case h_8 pc =>
    cases moved
    exact .close pc
  case h_9 => cases moved

inductive CallerMove (c : Call σ) (s : State σ) : State σ → Prop where
  | take (buf : Nat) (rest : List Nat) (pc : s.caller = .recv) (queued : s.ready = buf :: rest) :
      CallerMove c s { s with ready := rest, caller := .writing buf 0 }
  | drained (pc : s.caller = .recv) (empty : s.ready = []) (closed : s.readyClosed = true) :
      CallerMove c s { s with caller := .closeQuit }
  | wrote (buf i got : Nat) (w : σ) (pc : s.caller = .writing buf i) (inside : i < (s.heap buf).length)
      (took : c.w.write s.w (c.transform (c.outChunk (s.heap buf) i)) = (w, got, none))
      (whole : got = (c.outChunk (s.heap buf) i).length) :
      CallerMove c s
        { s with
          w := w, out := s.out ++ (c.transform (c.outChunk (s.heap buf) i)).take got, caller := .writing buf (i + got) }
  | failed (buf i got : Nat) (w : σ) (result : Option IoError) (err : IoError) (pc : s.caller = .writing buf i)
      (inside : i < (s.heap buf).length)
      (took : c.w.write s.w (c.transform (c.outChunk (s.heap buf) i)) = (w, got, result))
      (why : result = some err ∨ result = none ∧ got ≠ (c.outChunk (s.heap buf) i).length ∧ err = .shortWrite) :
      CallerMove c s
        { s with
          w := w, out := s.out ++ (c.transform (c.outChunk (s.heap buf) i)).take got,
          writeErr := some (.outputError err), caller := .closeQuit }
  | written (buf i : Nat) (pc : s.caller = .writing buf i) (past : ¬ i < (s.heap buf).length) :
      CallerMove c s { s with caller := .put buf i }
  | putBack (buf n : Nat) (pc : s.caller = .put buf n) (room : s.pool.length < c.depth) :
      CallerMove c s { s with bytesWritten := s.bytesWritten + n, pool := s.pool ++ [buf], caller := .recv }
  | forget (buf n : Nat) (pc : s.caller = .put buf n) (full : ¬ s.pool.length < c.depth) :
      CallerMove c s { s with bytesWritten := s.bytesWritten + n, caller := .recv }
  | closeQuit (pc : s.caller = .closeQuit) : CallerMove c s { s with quit := true, caller := .wait }
  | waited (pc : s.caller = .wait) (done : s.wgDone = true) : CallerMove c s { s with caller := .select }
  | selectErr (err : Option IoError) (rest : List (Option IoError)) (pc : s.caller = .select)
      (reported : s.errs = err :: rest) :
      CallerMove c s { s with errs := rest, caller := .returned (some (.inputError err)) }
  | selectDone (pc : s.caller = .select) (none : s.errs = []) :
      CallerMove c s { s with caller := .returned s.writeErr }

theorem chunk_length (c : Call σ) (data : Bytes) (i : Nat) (inside : i < data.length) :
    (if i + c.outBufSize > data.length then data.length - i else c.outBufSize) = (c.outChunk data i).length := by
  rw [Call.outChunk, List.length_take, List.length_drop]
  split <;> omega

theorem chunk_slice (c : Call σ) (data : Bytes) (i : Nat) :
    slice data i (c.outChunk data i).length = c.outChunk data i := by
  rw [slice, Call.outChunk, List.length_take, ← List.take_eq_take_min]

theorem write_chunk_moves (c : Call σ) (s : State σ) (buf i : Nat) (pc : s.caller = .writing buf i)
    (inside : i < (s.heap buf).length) : CallerMove c s (c.writeChunk s buf i) := by
  have same := chunk_slice c (s.heap buf) i
  have length := chunk_length c (s.heap buf) i inside
  rcases took : c.w.write s.w (c.transform (c.outChunk (s.heap buf) i)) with ⟨w, got, result⟩
  simp only [Call.writeChunk, same, length, took]
  cases result with
  | some err => exact .failed buf i got w (some err) err pc inside took (Or.inl rfl)
  | none =>
      by_cases whole : got = (c.outChunk (s.heap buf) i).length
      · simp only [ne_eq, whole, not_true_eq_false, if_false]
        exact .wrote buf i _ w pc inside (whole ▸ took) rfl
      · simp only [ne_eq, whole, not_false_eq_true, if_true]
        exact .failed buf i got w none .shortWrite pc inside took (Or.inr ⟨rfl, whole, rfl⟩)

theorem caller_moves {c : Call σ} {s next : State σ} (moved : c.stepCaller s = some next) : CallerMove c s next := by
  unfold Call.stepCaller at moved
  split at moved
  case h_1 pc =>
    split at moved
    · cases moved
      exact .take _ _ pc ‹_›
    · split at moved
      · cases moved
        exact .drained pc ‹_› ‹_›
      · cases moved
  case h_2 buf i pc =>
    split at moved
    · cases moved
      exact write_chunk_moves c s buf i pc ‹_›
    · cases moved
      exact .written buf i pc ‹_›
  case h_3 buf n pc =>
    by_cases room : s.pool.length < c.depth
    · rw [if_pos room] at moved
      cases moved
      exact .putBack buf n pc room
    · rw [if_neg room] at moved
      cases moved
      exact .forget buf n pc room
  case h_4 pc =>
    cases moved
    exact .closeQuit pc
  case h_5 pc =>
    split at moved
    · cases moved
      exact .waited pc ‹_›
    · cases moved
  case h_6 pc =>
    split at moved
    · cases moved
      exact .selectErr _ _ pc ‹_›
    · cases moved
      exact .selectDone pc ‹_›
  case h_7 => cases moved

end URoot.Dd
