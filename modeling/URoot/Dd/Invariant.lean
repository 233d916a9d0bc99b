import URoot.Dd.Moves
import Mathlib.Data.List.Count

set_option autoImplicit false

namespace URoot.Dd

open GoLib

variable {σ : Type}

section Ownership

def ReaderPc.holds : ReaderPc → List Nat
  | .read buf => [buf]
  | .send buf _ _ => [buf]
  | _ => []

def CallerPc.holds : CallerPc → List Nat
  | .writing buf _ => [buf]
  | .put buf _ => [buf]
  | _ => []

def State.owned (s : State σ) : List Nat := s.reader.holds ++ (s.caller.holds ++ (s.ready ++ s.pool))

-- Every buffer that was allocated is in at most one of the reader's hands, the
-- caller's hands, the channel and the pool, and there at most once.
def State.OwnedOnce (s : State σ) : Prop := ∀ buf, s.owned.count buf ≤ if buf < s.next then 1 else 0

theorem reader_owned_once {c : Call σ} {s next : State σ} (once : s.OwnedOnce) (move : ReaderMove c s next) :
    next.OwnedOnce := by
  intro buf
  have here := once buf
  cases move with
  | alloc pc empty =>
      have fresh := once s.next
      simp only [State.owned, pc, empty, ReaderPc.holds, List.count_append, List.count_cons, List.count_nil, beq_iff_eq,
        Nat.lt_irrefl, if_false] at here fresh ⊢
      by_cases same : s.next = buf
      · subst same
        simp only [if_true, Nat.lt_succ_self]
        omega
      · simp only [same, if_false]
        split at here <;> split <;> omega
  | reuse first rest pc pooled =>
      simp only [State.owned, pc, pooled, ReaderPc.holds, List.count_append, List.count_cons, List.count_nil] at here ⊢
      omega
  | noData first pc empty =>
      simp only [State.owned, pc, ReaderPc.holds, List.count_append, List.count_cons, List.count_nil] at here ⊢
      omega
  | enqueue first n err pc room =>
      simp only [State.owned, pc, ReaderPc.holds, List.count_append, List.count_cons, List.count_nil] at here ⊢
      omega
  | handOver first n err pc unbuffered receiving full =>
      simp only [State.owned, pc, receiving, ReaderPc.holds, CallerPc.holds, List.count_append, List.count_cons,
        List.count_nil] at here ⊢
      omega
  | _ => simpa only [State.owned, ‹s.reader = _›, ReaderPc.holds] using here

theorem caller_owned_once (c : Call σ) (s next : State σ) (once : s.OwnedOnce) (move : CallerMove c s next) :
    next.OwnedOnce := by
  intro buf
  have here := once buf
  cases move with
  | take first rest pc queued =>
      simp only [State.owned, pc, queued, CallerPc.holds, List.count_append, List.count_cons, List.count_nil] at here ⊢
      omega
  | putBack first n pc room =>
      simp only [State.owned, pc, CallerPc.holds, List.count_append, List.count_cons, List.count_nil] at here ⊢
      omega
  | forget first n pc full =>
      simp only [State.owned, pc, CallerPc.holds, List.count_append, List.count_cons, List.count_nil] at here ⊢
      omega
  | failed first i got w result err pc inside took why =>
      simp only [State.owned, pc, CallerPc.holds, List.count_append, List.count_cons, List.count_nil] at here ⊢
      omega
  | _ => simpa only [State.owned, ‹s.caller = _›, CallerPc.holds] using here

theorem reader_holds_alone (s : State σ) (once : s.OwnedOnce) (buf : Nat) (held : s.reader.holds = [buf]) :
    buf ∉ s.caller.holds ∧ buf ∉ s.ready := by
  have here := once buf
  simp only [State.owned, held, List.count_append, List.count_singleton_self] at here
  rw [← List.count_eq_zero, ← List.count_eq_zero]
  split at here <;> omega

theorem next_unowned (s : State σ) (once : s.OwnedOnce) : s.next ∉ s.caller.holds ∧ s.next ∉ s.ready := by
  have here := once s.next
  simp only [State.owned, List.count_append, Nat.lt_irrefl, if_false] at here
  rw [← List.count_eq_zero, ← List.count_eq_zero]
  omega

end Ownership

section Progress

def ReaderPc.signalled : ReaderPc → Bool
  | .closing => true
  | .halted => true
  | _ => false

def CallerPc.quits : CallerPc → Bool
  | .wait => true
  | .select => true
  | .returned _ => true
  | _ => false

def CallerPc.waited : CallerPc → Bool
  | .select => true
  | .returned _ => true
  | _ => false

structure Flags (s : State σ) : Prop where
  quit : s.quit = s.caller.quits
  wgDone : s.wgDone = s.reader.signalled
  readyClosed : s.readyClosed = decide (s.reader = .halted)
  waited : s.caller.waited = true → s.reader.signalled = true

theorem signalled_halted (pc : ReaderPc) (working : pc.signalled = false) : decide (pc = .halted) = false := by
  cases pc with
  | halted => cases working
  | _ => rfl

theorem waited_quits (pc : CallerPc) (waited : pc.waited = true) : pc.quits = true := by
  cases pc with
  | select => rfl
  | returned result => rfl
  | _ => cases waited

variable {s next : State σ} (flags : Flags s)

include flags

theorem working_flags (before : s.reader.signalled = false)
    (after : next.reader.signalled = false) (caller : next.caller = s.caller)
    (same : next.quit = s.quit ∧ next.wgDone = s.wgDone ∧ next.readyClosed = s.readyClosed) : Flags next where
  quit := by rw [same.1, caller, flags.quit]
  wgDone := by rw [same.2.1, flags.wgDone, before, after]
  readyClosed := by rw [same.2.2, flags.readyClosed, signalled_halted _ before, signalled_halted _ after]
  waited := by
    intro waited
    rw [caller] at waited
    cases before.symm.trans (flags.waited waited)

theorem copying_flags (before : s.caller.quits = false) (after : next.caller.quits = false)
    (reader : next.reader.signalled = s.reader.signalled)
    (halted : decide (next.reader = .halted) = decide (s.reader = .halted))
    (same : next.quit = s.quit ∧ next.wgDone = s.wgDone ∧ next.readyClosed = s.readyClosed) : Flags next where
  quit := by rw [same.1, flags.quit, before, after]
  wgDone := by rw [same.2.1, flags.wgDone, reader]
  readyClosed := by rw [same.2.2, flags.readyClosed, halted]
  waited := by
    intro waited
    cases after.symm.trans (waited_quits _ waited)

theorem reader_flags {c : Call σ} (move : ReaderMove c s next) : Flags next := by
  cases move with
  | handOver buf n err pc unbuffered receiving full =>
      exact copying_flags flags (by rw [receiving]; rfl) rfl (by rw [pc]; rfl) (by rw [pc]; rfl) ⟨rfl, rfl, rfl⟩
  | finish pc => exact ⟨flags.quit, rfl, by rw [flags.readyClosed, pc]; rfl, fun _ => rfl⟩
  | close pc => exact ⟨flags.quit, by rw [flags.wgDone, pc]; rfl, rfl, fun _ => rfl⟩
  | _ => exact working_flags flags (by rw [‹s.reader = _›]; rfl) rfl rfl ⟨rfl, rfl, rfl⟩

theorem caller_flags {c : Call σ} (move : CallerMove c s next) : Flags next := by
  cases move with
  | closeQuit pc => exact ⟨rfl, flags.wgDone, flags.readyClosed, fun impossible => by cases impossible⟩
  | waited pc done =>
      exact ⟨by rw [flags.quit, pc]; rfl, flags.wgDone, flags.readyClosed, fun _ => by rw [← flags.wgDone, done]⟩
  | selectErr err rest pc reported =>
      exact ⟨by rw [flags.quit, pc]; rfl, flags.wgDone, flags.readyClosed, fun _ => flags.waited (by rw [pc]; rfl)⟩
  | selectDone pc none =>
      exact ⟨by rw [flags.quit, pc]; rfl, flags.wgDone, flags.readyClosed, fun _ => flags.waited (by rw [pc]; rfl)⟩
  | _ => exact copying_flags flags (by rw [‹s.caller = _›]; rfl) rfl rfl rfl ⟨rfl, rfl, rfl⟩

end Progress

section Stages

def State.sink (s : State σ) : Sink σ := ⟨s.w, s.out, s.bytesWritten⟩

def State.reported (s : State σ) : List (Option IoError) :=
  match s.caller with
  | .returned (some (.inputError err)) => err :: s.errs
  | _ => s.errs

def Call.verdict (c : Call σ) (last : Nat) : List (Option IoError) :=
  if (readFrom (c.r last)).2 = some .eof then [] else [(readFrom (c.r last)).2]

-- How far the reader is: sent blocks have gone into the channel or on from it.
def ReaderAt (c : Call σ) (sink : Sink σ) (pc : ReaderPc) (heap : Nat → Bytes) (reads : Nat)
    (reported : List (Option IoError)) (sent : Nat) : Prop :=
  match pc with
  | .check => reads = sent ∧ (∀ i, i < sent → c.Continues i) ∧ reported = []
  | .get => reads = sent ∧ (∀ i, i < sent → c.Continues i) ∧ reported = []
  | .read _ => reads = sent ∧ (∀ i, i < sent → c.Continues i) ∧ reported = []
  | .send buf n err =>
      reads = sent + 1 ∧ c.Delivers sent ∧ heap buf = c.chunk sent ∧ n = (c.chunk sent).length ∧
        err = (readFrom (c.r sent)).2 ∧ reported = []
  | .after n err =>
      ∃ last, reads = last + 1 ∧ (∀ i, i < last → c.Continues i) ∧ n = (c.chunk last).length ∧
        err = (readFrom (c.r last)).2 ∧ sent = (if c.chunk last = [] then last else last + 1) ∧ reported = []
  | .sendErr err =>
      ∃ last, c.Ends last sent ∧ err = (readFrom (c.r last)).2 ∧ err ≠ some .eof ∧ reported = []
  | _ => (∃ k, c.OutputFailsAt sink k) ∨ ∃ last, c.Ends last sent ∧ reported = c.verdict last

-- How far the caller is: it has taken over taken blocks, and what it has written is
-- what a sequential copy of these blocks would have written.
def CallerAt (c : Call σ) (sink : Sink σ) (pc : CallerPc) (heap : Nat → Bytes) (now : Sink σ)
    (writeErr : Option CopyError) (drained : Prop) (taken : Nat) : Prop :=
  match pc with
  | .recv => c.writeBlocks sink taken = (now, none) ∧ writeErr = none
  | .writing buf i =>
      ∃ block mid, taken = block + 1 ∧ c.writeBlocks sink block = (mid, none) ∧ heap buf = c.chunk block ∧
        i ≤ (c.chunk block).length ∧ c.writeTo mid (c.chunk block) = c.writeTo now ((c.chunk block).drop i) ∧
        writeErr = none
  | .put _ n =>
      ∃ block mid, taken = block + 1 ∧ c.writeBlocks sink block = (mid, none) ∧ n = (c.chunk block).length ∧
        c.writeTo mid (c.chunk block) = (now, none) ∧ writeErr = none
  | _ =>
      (drained ∧ c.writeBlocks sink taken = (now, none) ∧ writeErr = none) ∨
        ∃ k e, taken = k + 1 ∧ c.FailsAt sink k now e ∧ writeErr = some (.outputError e)

def State.Drained (s : State σ) : Prop := s.reader = .halted ∧ s.ready = []

def verdictResult (reported : List (Option IoError)) (writeErr : Option CopyError) : Option CopyError :=
  match reported with
  | err :: _ => some (.inputError err)
  | [] => writeErr

structure Inv (c : Call σ) (sink : Sink σ) (s : State σ) (taken sent : Nat) : Prop where
  once : s.OwnedOnce
  flags : Flags s
  capacity : s.ready.length ≤ c.depth
  counted : taken + s.ready.length = sent
  queue : s.ready.map s.heap = (List.range' taken s.ready.length).map c.chunk
  reader : ReaderAt c sink s.reader s.heap s.reads s.reported sent
  caller : CallerAt c sink s.caller s.heap s.sink s.writeErr s.Drained taken
  result : ∀ result, s.caller = .returned result → result = verdictResult s.reported s.writeErr

theorem start_inv (c : Call σ) (w : σ) (bytesWritten : Nat) :
    Inv c ⟨w, [], bytesWritten⟩ (State.start w bytesWritten) 0 0 where
  once := fun _ => Nat.zero_le _
  flags := ⟨rfl, rfl, rfl, fun impossible => by cases impossible⟩
  capacity := Nat.zero_le _
  counted := rfl
  queue := rfl
  reader := ⟨rfl, fun _ impossible => absurd impossible (Nat.not_lt_zero _), rfl⟩
  caller := ⟨rfl, rfl⟩
  result := fun _ impossible => by cases impossible

theorem caller_at_frame (c : Call σ) (sink now : Sink σ) (pc : CallerPc) (heap : Nat → Bytes)
    (writeErr : Option CopyError) (drained : Prop) (taken buf : Nat) (bytes : Bytes) (other : buf ∉ pc.holds)
    (stage : CallerAt c sink pc heap now writeErr drained taken) :
    CallerAt c sink pc (Function.update heap buf bytes) now writeErr drained taken := by
  cases pc with
  | writing held i =>
      obtain ⟨block, mid, count, before, content, after⟩ := stage
      refine ⟨block, mid, count, before, ?_, after⟩
      have different : held ≠ buf := fun same => other (by rw [same]; exact List.mem_singleton_self buf)
      rw [Function.update_of_ne different]
      exact content
  | _ => exact stage

theorem queue_frame (ready : List Nat) (heap : Nat → Bytes) (buf : Nat) (bytes : Bytes) (other : buf ∉ ready) :
    ready.map (Function.update heap buf bytes) = ready.map heap := by
  apply List.map_congr_left
  intro held member
  have different : held ≠ buf := fun same => other (by rw [← same]; exact member)
  exact Function.update_of_ne different _ _

theorem caller_at_running {c : Call σ} {sink now : Sink σ} {pc : CallerPc} {heap : Nat → Bytes}
    {writeErr : Option CopyError} {drained : Prop} (drained' : Prop) (taken : Nat) (running : ¬ drained)
    (stage : CallerAt c sink pc heap now writeErr drained taken) :
    CallerAt c sink pc heap now writeErr drained' taken := by
  cases pc with
  | recv => exact stage
  | writing buf i => exact stage
  | put buf n => exact stage
  | _ => exact Or.inr (stage.resolve_left (fun left => running left.1))

theorem running_not_drained (c : Call σ) (s next : State σ) (move : ReaderMove c s next) : ¬ s.Drained := by
  rintro ⟨halted, _⟩
  cases move with
  | _ => cases halted.symm.trans ‹s.reader = _›

end Stages

section Preserved

variable {c : Call σ} {sink now : Sink σ} {s next : State σ} {taken sent reads buf n i got : Nat} {heap : Nat → Bytes}
  {err : Option IoError} {reported : List (Option IoError)} {writeErr : Option CopyError} {drained : Prop} {w : σ}

theorem sent_stage
    (stage : ReaderAt c sink (.send buf n err) heap reads reported sent) :
    ReaderAt c sink (.after n err) heap reads reported (sent + 1) := by
  obtain ⟨count, ⟨before, present⟩, _, length, result, none⟩ := stage
  exact ⟨sent, count, before, length, result, by rw [if_neg present], none⟩

theorem after_ends (stage : ReaderAt c sink (.after n err) heap reads reported sent) (stops : n = 0 ∨ err ≠ none) :
    ∃ last, c.Ends last sent ∧ err = (readFrom (c.r last)).2 ∧ reported = [] := by
  obtain ⟨last, count, before, length, result, blocks, none⟩ := stage
  refine ⟨last, ⟨before, ?_, blocks⟩, result, none⟩
  rw [c.continues_iff]
  rintro ⟨present, clean⟩
  rcases stops with nothing | failed
  · rw [length] at nothing
    exact present (List.length_eq_zero_iff.mp nothing)
  · exact failed (result.trans clean)

theorem after_again (positive : n ≠ 0) (stage : ReaderAt c sink (.after n none) heap reads reported sent) :
    ReaderAt c sink .check heap reads reported sent := by
  obtain ⟨last, count, before, length, result, blocks, none⟩ := stage
  have present : c.chunk last ≠ [] := by
    intro empty
    rw [empty] at length
    exact positive length
  rw [if_neg present] at blocks
  refine ⟨by omega, fun i bound => ?_, none⟩
  by_cases here : i = last
  · rw [here, c.continues_iff]
    exact ⟨present, result.symm⟩
  · exact before i (by omega)

theorem quits_failed {pc : CallerPc} (quits : pc.quits = true) (stage : CallerAt c sink pc heap now writeErr False taken) :
    ∃ k, c.OutputFailsAt sink k := by
  cases pc with
  | recv => cases quits
  | writing buf i => cases quits
  | put buf n => cases quits
  | closeQuit => cases quits
  | _ =>
      rcases stage with impossible | ⟨k, e, _, fails, _⟩
      · exact impossible.1.elim
      · exact ⟨k, now, e, fails⟩

theorem not_returned (flags : Flags s) (working : s.reader.signalled = false) (result : Option CopyError) :
    s.caller ≠ .returned result := by
  intro returned
  have signalled := flags.waited (by rw [returned]; rfl)
  rw [working] at signalled
  cases signalled

theorem reported_errs (flags : Flags s) (working : s.reader.signalled = false) : s.reported = s.errs := by
  unfold State.reported
  split
  · exact absurd ‹s.caller = _› (not_returned flags working _)
  · rfl

theorem data_stage (stage : ReaderAt c sink (.read buf) heap reads reported sent) (present : c.chunk reads ≠ []) :
    ReaderAt c sink (.send buf (c.chunk reads).length (c.r reads).err) (Function.update heap buf (c.chunk reads)) (reads + 1)
      reported sent := by
  obtain ⟨rfl, before, none⟩ := stage
  have clean : (readFrom (c.r reads)).2 = (c.r reads).err := by
    rw [readFrom, if_neg (fun both => present both.1)]
  exact ⟨rfl, ⟨before, present⟩, Function.update_self _ _ _, rfl, clean.symm, none⟩

theorem no_data_stage (stage : ReaderAt c sink (.read buf) heap reads reported sent) (empty : c.chunk reads = []) :
    ReaderAt c sink (.after 0 (readFrom (c.r reads)).2) (Function.update heap buf []) (reads + 1) reported sent := by
  obtain ⟨rfl, before, none⟩ := stage
  exact ⟨reads, rfl, before, by rw [empty]; rfl, rfl, by rw [if_pos empty], none⟩

theorem eof_stage (stage : ReaderAt c sink (.after n (some .eof)) heap reads reported sent) :
    ReaderAt c sink .done heap reads reported sent := by
  obtain ⟨last, ends, verdict, none⟩ := after_ends stage (Or.inr (Option.some_ne_none _))
  refine Or.inr ⟨last, ends, ?_⟩
  rw [Call.verdict, ← verdict, if_pos rfl, none]

theorem report_stage (stage : ReaderAt c sink (.sendErr err) heap reads reported sent) :
    ReaderAt c sink .done heap reads (reported ++ [err]) sent := by
  obtain ⟨last, ends, verdict, other, none⟩ := stage
  refine Or.inr ⟨last, ends, ?_⟩
  rw [Call.verdict, ← verdict, if_neg other, none]
  rfl

theorem fill_frame (inv : Inv c sink s taken sent) (running : ¬ s.Drained) (buf : Nat) (bytes : Bytes) (drained : Prop)
    (alone : buf ∉ s.caller.holds ∧ buf ∉ s.ready) :
    s.ready.map (Function.update s.heap buf bytes) = (List.range' taken s.ready.length).map c.chunk ∧
      CallerAt c sink s.caller (Function.update s.heap buf bytes) s.sink s.writeErr drained taken := by
  refine ⟨by rw [queue_frame _ _ _ _ alone.2, inv.queue], caller_at_frame _ _ _ _ _ _ _ _ _ _ alone.1 ?_⟩
  exact caller_at_running drained taken running inv.caller

theorem enqueue_inv (inv : Inv c sink s taken sent) (pc : s.reader = .send buf n err)
    (room : s.ready.length < c.depth) :
    Inv c sink { s with ready := s.ready ++ [buf], reader := .after n err } taken (sent + 1) := by
  have move := ReaderMove.enqueue _ _ _ pc room
  have stage := inv.reader
  rw [pc] at stage
  obtain ⟨_, _, content, _⟩ := stage
  refine ⟨reader_owned_once inv.once move, reader_flags inv.flags move, ?_, ?_, ?_,
    sent_stage (pc ▸ inv.reader),
    caller_at_running _ taken (running_not_drained c s _ move) inv.caller,
    inv.result⟩
  · rw [List.length_append]
    exact room
  · rw [List.length_append, ← inv.counted]
    rfl
  · rw [List.map_append, inv.queue, List.length_append, List.length_singleton, List.range'_1_concat, List.map_append,
      List.map_singleton, List.map_singleton, inv.counted, content]

-- An unbuffered channel is empty, so the block handed over is the next one.
theorem hand_over_inv (inv : Inv c sink s taken sent) (pc : s.reader = .send buf n err)
    (unbuffered : c.depth = 0) (receiving : s.caller = .recv) (full : ¬ s.ready.length < c.depth) :
    Inv c sink { s with caller := .writing buf 0, reader := .after n err } (taken + 1) (sent + 1) := by
  have move := ReaderMove.handOver _ _ _ pc unbuffered receiving full
  have stage := inv.reader
  have copied := inv.caller
  have capacity := inv.capacity
  have empty : s.ready = [] := List.length_eq_zero_iff.mp (by omega)
  have same : taken = sent := by rw [← inv.counted, empty]; rfl
  rw [pc, State.reported, receiving] at stage
  rw [receiving] at copied
  refine ⟨reader_owned_once inv.once move, reader_flags inv.flags move, capacity, ?_, ?_,
    sent_stage stage, ?_, fun _ impossible => by cases impossible⟩
  · simp only [empty, same, List.length_nil, Nat.add_zero]
  · simp only [empty, List.length_nil, List.range'_zero, List.map_nil]
  · exact ⟨taken, s.sink, rfl, copied.1, by rw [stage.2.2.1, same], Nat.zero_le _, rfl, copied.2⟩

theorem reader_inv (inv : Inv c sink s taken sent) (move : ReaderMove c s next) :
    ∃ taken' sent', Inv c sink next taken' sent' := by
  have once := reader_owned_once inv.once move
  have flags := reader_flags inv.flags move
  have running := running_not_drained c s next move
  have kept := fun drained' =>
    caller_at_running drained' taken running inv.caller
  have stage := inv.reader
  cases move with
  | leave pc closed =>
      have quits : s.caller.quits = true := by rw [← inv.flags.quit, closed]
      have failed := quits_failed quits (kept False)
      exact ⟨taken, sent, once, flags, inv.capacity, inv.counted, inv.queue, Or.inl failed, kept _, inv.result⟩
  | alloc pc empty =>
      rw [pc] at stage
      obtain ⟨queue, caller⟩ := fill_frame inv running s.next [] _ (next_unowned s inv.once)
      exact ⟨taken, sent, once, flags, inv.capacity, inv.counted, queue, stage, caller, inv.result⟩
  | data buf pc present =>
      have alone := reader_holds_alone s inv.once buf (by rw [pc]; rfl)
      rw [pc] at stage
      obtain ⟨queue, caller⟩ := fill_frame inv running buf (c.chunk s.reads) _ alone
      exact ⟨taken, sent, once, flags, inv.capacity, inv.counted, queue, data_stage stage present, caller,
        inv.result⟩
  | noData buf pc empty =>
      have alone := reader_holds_alone s inv.once buf (by rw [pc]; rfl)
      rw [pc] at stage
      obtain ⟨queue, caller⟩ := fill_frame inv running buf [] _ alone
      exact ⟨taken, sent, once, flags, inv.capacity, inv.counted, queue, no_data_stage stage empty, caller,
        inv.result⟩
  | enqueue buf n err pc room => exact ⟨taken, sent + 1, enqueue_inv inv pc room⟩
  | handOver buf n err pc unbuffered receiving full =>
      exact ⟨taken + 1, sent + 1, hand_over_inv inv pc unbuffered receiving full⟩
  | endOfFile n pc =>
      rw [pc] at stage
      exact ⟨taken, sent, once, flags, inv.capacity, inv.counted, inv.queue, eof_stage stage, kept _,
        inv.result⟩
  | readError n err pc other failed =>
      rw [pc] at stage
      obtain ⟨last, ends, verdict, none⟩ := after_ends stage failed
      exact ⟨taken, sent, once, flags, inv.capacity, inv.counted, inv.queue, ⟨last, ends, verdict, other, none⟩, kept _,
        inv.result⟩
  | again n pc positive =>
      rw [pc] at stage
      exact ⟨taken, sent, once, flags, inv.capacity, inv.counted, inv.queue, after_again positive stage,
        kept _, inv.result⟩
  | report err pc room =>
      have notBack := not_returned inv.flags (by rw [pc]; rfl)
      rw [pc, reported_errs inv.flags (by rw [pc]; rfl)] at stage
      refine ⟨taken, sent, once, flags, inv.capacity, inv.counted, inv.queue, ?_, kept _,
        fun result returned => absurd returned (notBack result)⟩
      rw [reported_errs flags rfl]
      exact report_stage stage
  | _ =>
      rw [‹s.reader = _›] at stage
      exact ⟨taken, sent, once, flags, inv.capacity, inv.counted, inv.queue, stage, kept _, inv.result⟩

theorem wrote_stage (drained' : Prop) (stage : CallerAt c sink (.writing buf i) heap now writeErr drained taken)
    (inside : i < (heap buf).length) (took : c.w.write now.w (c.transform (c.outChunk (heap buf) i)) = (w, got, none))
    (whole : got = (c.outChunk (heap buf) i).length) :
    CallerAt c sink (.writing buf (i + got)) heap
      (now.took w ((c.transform (c.outChunk (heap buf) i)).take got)) writeErr drained' taken := by
  obtain ⟨block, mid, count, before, content, bound, rest, clean⟩ := stage
  rw [content] at inside took whole ⊢
  have chunkBound : got ≤ (c.chunk block).length - i := by
    rw [whole, Call.outChunk, List.length_take, List.length_drop]
    exact Nat.min_le_right _ _
  refine ⟨block, mid, count, before, content, by omega, ?_, clean⟩
  rw [rest, c.write_to_wrote now w _ i got inside took whole]

theorem failed_stage {result : Option IoError} {err : IoError} (drained' : Prop)
    (stage : CallerAt c sink (.writing buf i) heap now writeErr drained taken) (inside : i < (heap buf).length)
    (took : c.w.write now.w (c.transform (c.outChunk (heap buf) i)) = (w, got, result))
    (why : result = some err ∨ result = none ∧ got ≠ (c.outChunk (heap buf) i).length ∧ err = .shortWrite) :
    CallerAt c sink .closeQuit heap (now.took w ((c.transform (c.outChunk (heap buf) i)).take got))
      (some (.outputError err)) drained' taken := by
  obtain ⟨block, mid, count, before, content, bound, rest, clean⟩ := stage
  rw [content] at inside took why ⊢
  refine Or.inr ⟨block, err, count, ⟨mid, before, ?_⟩, rfl⟩
  rw [rest, c.write_to_failed now w _ i got result err inside took why]

theorem written_stage (drained' : Prop)
    (stage : CallerAt c sink (.writing buf i) heap now writeErr drained taken) (past : ¬ i < (heap buf).length) :
    CallerAt c sink (.put buf i) heap now writeErr drained' taken := by
  obtain ⟨block, mid, count, before, content, bound, rest, clean⟩ := stage
  rw [content] at past
  rw [List.drop_of_length_le (by omega), c.write_to_nil] at rest
  exact ⟨block, mid, count, before, by omega, rest, clean⟩

theorem put_stage (stage : CallerAt c sink (.put buf n) heap now writeErr drained taken) :
    c.writeBlocks sink taken = (now.count n, none) ∧ writeErr = none := by
  obtain ⟨block, mid, count, before, length, rest, clean⟩ := stage
  rw [count, c.write_blocks_next sink mid now block before rest, ← length]
  exact ⟨rfl, clean⟩

theorem take_inv {rest : List Nat} (inv : Inv c sink s taken sent) (pc : s.caller = .recv)
    (queued : s.ready = buf :: rest) :
    Inv c sink { s with ready := rest, caller := .writing buf 0 } (taken + 1) sent := by
  have move : CallerMove c s { s with ready := rest, caller := .writing buf 0 } := .take _ _ pc queued
  obtain ⟨once, flags, capacity, counted, queue, reader, stage, _⟩ := inv
  rw [State.reported, pc] at reader
  rw [pc] at stage
  rw [queued] at capacity counted queue
  rw [List.length_cons] at capacity counted
  simp only [List.map_cons, List.length_cons, List.range'_succ, List.cons.injEq] at queue
  exact ⟨caller_owned_once c s _ once move, caller_flags flags move, Nat.le_of_succ_le capacity,
    (Nat.add_right_comm taken 1 _).trans counted, queue.2, reader,
    ⟨taken, s.sink, rfl, stage.1, queue.1, Nat.zero_le _, rfl, stage.2⟩, fun _ impossible => by cases impossible⟩

theorem caller_reported (move : CallerMove c s next) : s.reported = s.errs := by
  cases move with
  | _ => simp only [State.reported, ‹s.caller = _›]

theorem returned_reported (s : State σ) (stage : CallerAt c sink .select heap now writeErr drained taken) :
    ({ s with caller := .returned writeErr } : State σ).reported = s.errs := by
  rcases stage with ⟨_, _, rfl⟩ | ⟨k, e, _, _, rfl⟩
  · rfl
  · rfl

theorem caller_inv (inv : Inv c sink s taken sent) (move : CallerMove c s next) :
    ∃ taken', Inv c sink next taken' sent := by
  have once := caller_owned_once c s next inv.once move
  have flags := caller_flags inv.flags move
  have reader := inv.reader
  have stage := inv.caller
  rw [caller_reported move] at reader
  cases move with
  | take buf rest pc queued => exact ⟨taken + 1, take_inv inv pc queued⟩
  | drained pc empty closed =>
      rw [pc] at stage
      have halted : s.reader = .halted := by simpa [closed] using inv.flags.readyClosed
      exact ⟨taken, once, flags, inv.capacity, inv.counted, inv.queue, reader, Or.inl ⟨⟨halted, empty⟩, stage⟩,
        fun _ impossible => by cases impossible⟩
  | wrote buf i got w pc inside took whole =>
      rw [pc] at stage
      exact ⟨taken, once, flags, inv.capacity, inv.counted, inv.queue, reader,
        wrote_stage _ stage inside took whole, fun _ impossible => by cases impossible⟩
  | failed buf i got w result err pc inside took why =>
      rw [pc] at stage
      exact ⟨taken, once, flags, inv.capacity, inv.counted, inv.queue, reader,
        failed_stage _ stage inside took why,
        fun _ impossible => by cases impossible⟩
  | written buf i pc past =>
      rw [pc] at stage
      exact ⟨taken, once, flags, inv.capacity, inv.counted, inv.queue, reader,
        written_stage _ stage past, fun _ impossible => by cases impossible⟩
  | putBack buf n pc room =>
      rw [pc] at stage
      exact ⟨taken, once, flags, inv.capacity, inv.counted, inv.queue, reader, put_stage stage,
        fun _ impossible => by cases impossible⟩
  | forget buf n pc full =>
      rw [pc] at stage
      exact ⟨taken, once, flags, inv.capacity, inv.counted, inv.queue, reader, put_stage stage,
        fun _ impossible => by cases impossible⟩
  | closeQuit pc =>
      rw [pc] at stage
      exact ⟨taken, once, flags, inv.capacity, inv.counted, inv.queue, reader, stage, fun _ impossible => by cases impossible⟩
  | waited pc done =>
      rw [pc] at stage
      exact ⟨taken, once, flags, inv.capacity, inv.counted, inv.queue, reader, stage, fun _ impossible => by cases impossible⟩
  | selectErr err rest pc reported =>
      rw [pc] at stage
      rw [reported] at reader
      refine ⟨taken, once, flags, inv.capacity, inv.counted, inv.queue, reader, stage, ?_⟩
      rintro result returned
      cases returned
      rfl
  | selectDone pc none =>
      rw [pc] at stage
      have kept := returned_reported s stage
      refine ⟨taken, once, flags, inv.capacity, inv.counted, inv.queue, by rw [kept]; exact reader, stage, ?_⟩
      rintro result returned
      cases returned
      rw [kept, none]
      rfl

theorem reachable_inv {bytesWritten : Nat} (reach : Reachable c.step (State.start w bytesWritten) s) :
    ∃ taken sent, Inv c ⟨w, [], bytesWritten⟩ s taken sent := by
  apply reachable_invariant c.step (fun s => ∃ taken sent, Inv c ⟨w, [], bytesWritten⟩ s taken sent) _ _ s
    ⟨0, 0, start_inv c w bytesWritten⟩ reach
  rintro actor s next ⟨taken, sent, inv⟩ moved
  cases actor with
  | reader => exact reader_inv inv (reader_moves moved)
  | caller =>
      obtain ⟨taken', kept⟩ := caller_inv inv (caller_moves moved)
      exact ⟨taken', sent, kept⟩

end Preserved

end URoot.Dd
