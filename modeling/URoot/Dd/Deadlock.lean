import URoot.Dd.Invariant

set_option autoImplicit false

namespace URoot.Dd

open GoLib

variable {σ : Type} (c : Call σ)

theorem reader_blocked {sink : Sink σ} {s : State σ} {taken sent : Nat} (inv : Inv c sink s taken sent)
    (blocked : c.stepReader s = none) :
    s.reader = .halted ∨
      (∃ buf n err, s.reader = .send buf n err) ∧ c.depth ≤ s.ready.length ∧ (s.caller = .recv → c.depth ≠ 0) := by
  have stage := inv.reader
  unfold Call.stepReader at blocked
  split at blocked
  case h_2 => split at blocked <;> cases blocked
  case h_4 buf n err pc =>
    refine Or.inr ⟨⟨buf, n, err, pc⟩, ?_⟩
    rw [Option.map_eq_none_iff, Call.sendReady] at blocked
    split at blocked
    · cases blocked
    · split at blocked
      · cases blocked
      · rename_i full apart
        exact ⟨by omega, fun receiving unbuffered => apart ⟨unbuffered, receiving⟩⟩
  case h_6 err pc =>
    rw [pc] at stage
    obtain ⟨last, _, _, _, empty⟩ := stage
    rw [reported_errs inv.flags (by rw [pc]; rfl)] at empty
    rw [empty, if_pos (by decide)] at blocked
    cases blocked
  case h_9 pc => exact Or.inl pc
  all_goals cases blocked

theorem caller_blocked (s : State σ) (blocked : c.stepCaller s = none) :
    (s.caller = .recv ∧ s.ready = [] ∧ s.readyClosed = false) ∨ (s.caller = .wait ∧ s.wgDone = false) ∨
      ∃ result, s.caller = .returned result := by
  unfold Call.stepCaller at blocked
  split at blocked
  case h_1 pc =>
    split at blocked
    · cases blocked
    · rename_i empty
      split at blocked
      · cases blocked
      · rename_i isOpen
        exact Or.inl ⟨pc, empty, Bool.eq_false_iff.mpr isOpen⟩
  case h_2 => split at blocked <;> cases blocked
  case h_5 pc =>
    split at blocked
    · cases blocked
    · rename_i running
      exact Or.inr (Or.inl ⟨pc, Bool.eq_false_iff.mpr running⟩)
  case h_6 => split at blocked <;> cases blocked
  case h_7 result pc => exact Or.inr (Or.inr ⟨result, pc⟩)
  all_goals cases blocked

theorem stuck_delivers {w : σ} {bytesWritten : Nat} {s : State σ}
    (reach : Reachable c.step (State.start w bytesWritten) s) (running : ∀ result, s.caller ≠ .returned result)
    (stuck : Stuck c.step s) : ∃ k, c.OutputFailsAt ⟨w, [], bytesWritten⟩ k ∧ c.Delivers (k + c.depth + 1) := by
  obtain ⟨taken, sent, inv⟩ := reachable_inv reach
  have callerStage := inv.caller
  have readerStage := inv.reader
  rcases caller_blocked c s (stuck .caller) with ⟨pc, empty, isOpen⟩ | ⟨pc, working⟩ | ⟨result, pc⟩
  · -- An empty open channel: the goroutine has not ended and can send.
    rcases reader_blocked c inv (stuck .reader) with halted | ⟨_, full, unbuffered⟩
    · rw [inv.flags.readyClosed, halted] at isOpen
      cases isOpen
    · rw [empty, List.length_nil] at full
      exact absurd (Nat.le_zero.mp full) (unbuffered pc)
  · rcases reader_blocked c inv (stuck .reader) with halted | ⟨⟨buf, n, err, at_⟩, full, _⟩
    · rw [inv.flags.wgDone, halted] at working
      cases working
    · rw [pc] at callerStage
      rw [at_] at readerStage
      obtain ⟨_, delivers, _⟩ := readerStage
      rcases callerStage with ⟨drained, _⟩ | ⟨k, e, count, fails, _⟩
      · rw [drained.1] at at_
        cases at_
      · refine ⟨k, ⟨_, e, fails⟩, c.delivers_mono _ sent delivers ?_⟩
        rw [← inv.counted, count]
        omega
  · exact absurd pc (running result)

-- The schedule that gets stuck: the two sides take turns up to block k, then the
-- reader fills the channel while the caller is still busy with that block.
section Schedule

theorem reachable_two {s mid last : State σ} {first second : Actor} (one : c.step first s = some mid)
    (two : c.step second mid = some last) : Reachable c.step s last :=
  reachable_step c.step s mid last second (reachable_step c.step s s mid first (reachable_start c.step s) one) two

theorem get_moves (s : State σ) (pc : s.reader = .get) :
    ∃ next buf, c.step .reader s = some next ∧ next.reader = .read buf ∧ next.caller = s.caller ∧ next.ready = s.ready ∧
      next.reads = s.reads := by
  cases pool : s.pool with
  | nil =>
      exact ⟨{ s with heap := Function.update s.heap s.next [], next := s.next + 1, reader := .read s.next }, s.next,
        by simp only [Call.step, Call.stepReader, pc, pool], rfl, rfl, rfl, rfl⟩
  | cons buf rest =>
      exact ⟨{ s with pool := rest, reader := .read buf }, buf, by simp only [Call.step, Call.stepReader, pc, pool], rfl,
        rfl, rfl, rfl⟩

theorem read_moves (s : State σ) (buf : Nat) (pc : s.reader = .read buf) (present : c.chunk s.reads ≠ []) :
    ∃ next, c.step .reader s = some next ∧
      next.reader = .send buf (c.chunk s.reads).length (readFrom (c.r s.reads)).2 ∧ next.caller = s.caller ∧
      next.ready = s.ready ∧ next.reads = s.reads + 1 := by
  have count := Call.read_from_count (c.r s.reads)
  have positive : 0 < (c.r s.reads).bytes.length := List.length_pos_of_ne_nil present
  exact ⟨{ s with
      heap := Function.update s.heap buf (c.r s.reads).bytes, reads := s.reads + 1,
      reader := .send buf (c.r s.reads).bytes.length (readFrom (c.r s.reads)).2 },
    by simp only [Call.step, Call.stepReader, pc, positive, if_true, count], rfl, rfl, rfl, rfl⟩

theorem reader_lap (s : State σ) (pc : s.reader = .check) (running : s.quit = false) (present : c.chunk s.reads ≠ []) :
    ∃ next buf, Reachable c.step s next ∧
      next.reader = .send buf (c.chunk s.reads).length (readFrom (c.r s.reads)).2 ∧ next.caller = s.caller ∧
      next.ready = s.ready ∧ next.reads = s.reads + 1 := by
  have turned : c.step .reader s = some { s with reader := .get } := by
    simp only [Call.step, Call.stepReader, pc, running, Bool.false_eq_true, if_false]
  obtain ⟨mid, buf, got, atRead, sameCaller, sameReady, sameReads⟩ := get_moves c { s with reader := .get } rfl
  have presentMid : c.chunk mid.reads ≠ [] := by rw [sameReads]; exact present
  obtain ⟨last, read, atSend, lastCaller, lastReady, lastReads⟩ := read_moves c mid buf atRead presentMid
  refine ⟨last, buf, ?_, ?_, lastCaller.trans sameCaller, lastReady.trans sameReady, ?_⟩
  · exact reachable_step c.step s mid last .reader (reachable_two c turned got) read
  · rw [atSend, sameReads]
  · rw [lastReads, sameReads]

theorem after_moves (s : State σ) (n : Nat) (pc : s.reader = .after n none) (positive : n ≠ 0) :
    c.step .reader s = some { s with reader := .check } := by
  simp only [Call.step, Call.stepReader, pc, positive, ne_eq, not_true_eq_false, or_false, reduceCtorEq, if_false]

theorem write_loop (s : State σ) (buf i : Nat) (pc : s.caller = .writing buf i) :
    ∃ next, Reachable c.step s next ∧ ((∃ n, next.caller = .put buf n) ∨ next.caller = .closeQuit) ∧
      next.reader = s.reader ∧ next.ready = s.ready ∧ next.reads = s.reads := by
  induction left : (s.heap buf).length - i using Nat.strongRecOn generalizing s i with
  | _ rest ih =>
      by_cases inside : i < (s.heap buf).length
      · have moved : c.step .caller s = some (c.writeChunk s buf i) := by
          simp only [Call.step, Call.stepCaller, pc, inside, if_true]
        have move := write_chunk_moves c s buf i pc inside
        generalize c.writeChunk s buf i = next at moved move
        have reach := reachable_step c.step s s next .caller (reachable_start c.step s) moved
        cases move with
        | failed held j got w result err at_ =>
            exact ⟨_, reach, Or.inr rfl, rfl, rfl, rfl⟩
        | wrote held j got w at_ within took whole =>
            cases pc.symm.trans at_
            have positive := c.outPositive
            have progress : 0 < got := by
              rw [whole, Call.outChunk, List.length_take, List.length_drop]
              omega
            obtain ⟨last, onward, outcome, sameReader, sameReady, sameReads⟩ :=
              ih ((s.heap buf).length - (i + got)) (by omega)
                { s with
                  w := w, out := s.out ++ (c.transform (c.outChunk (s.heap buf) i)).take got,
                  caller := .writing buf (i + got) } (i + got) rfl rfl
            exact ⟨last, reachable_trans c.step s _ last reach onward, outcome, sameReader, sameReady, sameReads⟩
        | written held j at_ past =>
            cases pc.symm.trans at_
            exact absurd inside past
        | _ => cases pc.symm.trans ‹s.caller = _›
      · have moved : c.step .caller s = some { s with caller := .put buf i } := by
          simp only [Call.step, Call.stepCaller, pc, inside, if_false]
        exact ⟨_, reachable_step c.step s s _ .caller (reachable_start c.step s) moved, Or.inl ⟨i, rfl⟩, rfl, rfl, rfl⟩

theorem deliver (s : State σ) (buf n : Nat) (err : Option IoError) (pc : s.reader = .send buf n err)
    (receiving : s.caller = .recv) (empty : s.ready = []) :
    ∃ next held, Reachable c.step s next ∧ next.reader = .after n err ∧ next.caller = .writing held 0 ∧ next.ready = [] ∧
      next.reads = s.reads := by
  by_cases unbuffered : c.depth = 0
  · have moved : c.step .reader s = some { s with caller := .writing buf 0, reader := .after n err } := by
      simp only [Call.step, Call.stepReader, Call.sendReady, pc, receiving, empty, unbuffered, List.length_nil,
        Nat.lt_irrefl, and_self, if_false, if_true, Option.map_some]
    exact ⟨_, buf, reachable_step c.step s s _ .reader (reachable_start c.step s) moved, rfl, rfl, empty, rfl⟩
  · have sent : c.step .reader s = some { s with ready := [buf], reader := .after n err } := by
      simp only [Call.step, Call.stepReader, Call.sendReady, pc, empty, List.length_nil, Nat.pos_of_ne_zero unbuffered,
        if_true, Option.map_some, List.nil_append]
    have taken : c.step .caller { s with ready := [buf], reader := .after n err } =
        some { s with ready := [], reader := .after n err, caller := .writing buf 0 } := by
      simp only [Call.step, Call.stepCaller, receiving]
    exact ⟨_, buf, reachable_two c sent taken, rfl, rfl, rfl, rfl⟩

variable (w : σ) (bytesWritten : Nat)

structure Idle (s : State σ) (n : Nat) : Prop where
  reach : Reachable c.step (State.start w bytesWritten) s
  reader : s.reader = .check
  caller : s.caller = .recv
  ready : s.ready = []
  reads : s.reads = n

structure Busy (s : State σ) (n m : Nat) : Prop where
  reach : Reachable c.step (State.start w bytesWritten) s
  reader : s.reader = .check
  caller : ∃ buf, s.caller = .writing buf 0
  ready : s.ready.length = m
  reads : s.reads = n + 1 + m

theorem running_quit (s : State σ) (reach : Reachable c.step (State.start w bytesWritten) s)
    (working : s.caller.quits = false) : s.quit = false := by
  obtain ⟨_, _, inv⟩ := reachable_inv reach
  rw [inv.flags.quit, working]

theorem continues_clean (n : Nat) (continues : c.Continues n) : (readFrom (c.r n)).2 = none ∧ (c.chunk n).length ≠ 0 :=
  ⟨((c.continues_iff n).mp continues).2, fun empty => continues.1 (List.length_eq_zero_iff.mp empty)⟩

theorem idle_busy (s : State σ) (n : Nat) (idle : Idle c w bytesWritten s n) (continues : c.Continues n) :
    ∃ next, Busy c w bytesWritten next n 0 := by
  obtain ⟨reach, reader, caller, ready, reads⟩ := idle
  obtain ⟨clean, positive⟩ := continues_clean c n continues
  have running := running_quit c w bytesWritten s reach (by rw [caller]; rfl)
  obtain ⟨sending, buf, lap, atSend, sameCaller, sameReady, oneMore⟩ :=
    reader_lap c s reader running (by rw [reads]; exact continues.1)
  rw [reads, clean] at atSend
  obtain ⟨handed, held, delivered, atAfter, writing, empty, sameReads⟩ :=
    deliver c sending buf _ none atSend (sameCaller.trans caller) (sameReady.trans ready)
  have back := after_moves c handed _ atAfter positive
  refine ⟨{ handed with reader := .check }, ?_, rfl, ⟨held, writing⟩, ?_, ?_⟩
  · have upToHanded := reachable_trans c.step _ _ _ (reachable_trans c.step _ _ _ reach lap) delivered
    exact reachable_step c.step _ _ _ .reader upToHanded back
  · exact List.length_eq_zero_iff.mpr empty
  · exact sameReads.trans (oneMore.trans (by rw [reads]))

theorem busy_more (s : State σ) (n m : Nat) (busy : Busy c w bytesWritten s n m) (room : m < c.depth)
    (continues : c.Continues (n + 1 + m)) : ∃ next, Busy c w bytesWritten next n (m + 1) := by
  obtain ⟨reach, reader, ⟨held, caller⟩, ready, reads⟩ := busy
  obtain ⟨clean, positive⟩ := continues_clean c _ continues
  have running := running_quit c w bytesWritten s reach (by rw [caller]; rfl)
  obtain ⟨sending, buf, lap, atSend, sameCaller, sameReady, oneMore⟩ :=
    reader_lap c s reader running (by rw [reads]; exact continues.1)
  rw [reads, clean] at atSend
  have sent : c.step .reader sending =
      some { sending with ready := sending.ready ++ [buf], reader := .after (c.chunk (n + 1 + m)).length none } := by
    simp only [Call.step, Call.stepReader, Call.sendReady, atSend, sameReady, ready, room, if_true, Option.map_some]
  have back := after_moves c
    { sending with ready := sending.ready ++ [buf], reader := .after (c.chunk (n + 1 + m)).length none } _ rfl positive
  refine ⟨{ sending with ready := sending.ready ++ [buf], reader := .check }, ?_, rfl,
    ⟨held, sameCaller.trans caller⟩, ?_, ?_⟩
  · have upToSend := reachable_trans c.step _ _ _ reach lap
    exact reachable_step c.step _ _ _ .reader (reachable_step c.step _ _ _ .reader upToSend sent) back
  · simp only [List.length_append, List.length_singleton, sameReady, ready]
  · exact oneMore.trans (by rw [reads]; rfl)

theorem busy_idle (s : State σ) (n : Nat) (busy : Busy c w bytesWritten s n 0)
    (fine : ¬ c.OutputFailsAt ⟨w, [], bytesWritten⟩ n) : ∃ next, Idle c w bytesWritten next (n + 1) := by
  obtain ⟨reach, reader, ⟨buf, caller⟩, ready, reads⟩ := busy
  obtain ⟨done, onward, outcome, sameReader, sameReady, sameReads⟩ := write_loop c s buf 0 caller
  have reachDone := reachable_trans c.step _ _ _ reach onward
  rcases outcome with ⟨count, written⟩ | failed
  · have put : c.step .caller done = some { done with
        bytesWritten := done.bytesWritten + count,
        pool := if done.pool.length < c.depth then done.pool ++ [buf] else done.pool,
        caller := .recv } := by
      simp only [Call.step, Call.stepCaller, written]
    exact ⟨_, reachable_step c.step _ _ _ .caller reachDone put, sameReader.trans reader, rfl,
      sameReady.trans (List.length_eq_zero_iff.mp ready), sameReads.trans reads⟩
  · obtain ⟨taken, sent, inv⟩ := reachable_inv reachDone
    have stage := inv.caller
    have readerStage := inv.reader
    rw [failed] at stage
    rw [sameReader, reader] at readerStage
    rcases stage with ⟨drained, _⟩ | ⟨k, e, count, fails, _⟩
    · rw [drained.1] at sameReader
      rw [reader] at sameReader
      cases sameReader
    · have counted := inv.counted
      rw [sameReady, ready] at counted
      have same : k = n := by
        have all := readerStage.1
        omega
      rw [same] at fails
      exact absurd ⟨_, e, fails⟩ fine

theorem idle_reached (n : Nat) (continues : ∀ i, i < n → c.Continues i)
    (fine : ∀ i, i < n → ¬ c.OutputFailsAt ⟨w, [], bytesWritten⟩ i) : ∃ s, Idle c w bytesWritten s n := by
  induction n with
  | zero => exact ⟨State.start w bytesWritten, reachable_start c.step _, rfl, rfl, rfl, rfl⟩
  | succ n ih =>
      obtain ⟨idle, atIdle⟩ := ih (fun i bound => continues i (by omega)) (fun i bound => fine i (by omega))
      obtain ⟨busy, atBusy⟩ := idle_busy c w bytesWritten idle n atIdle (continues n (by omega))
      exact busy_idle c w bytesWritten busy n atBusy (fine n (by omega))

theorem busy_reached (n m : Nat) (continues : ∀ i, i < n + 1 + m → c.Continues i)
    (fine : ∀ i, i < n → ¬ c.OutputFailsAt ⟨w, [], bytesWritten⟩ i) (room : m ≤ c.depth) :
    ∃ s, Busy c w bytesWritten s n m := by
  induction m with
  | zero =>
      obtain ⟨idle, atIdle⟩ := idle_reached c w bytesWritten n (fun i bound => continues i (by omega)) fine
      exact idle_busy c w bytesWritten idle n atIdle (continues n (by omega))
  | succ m ih =>
      obtain ⟨busy, atBusy⟩ := ih (fun i bound => continues i (by omega)) (by omega)
      exact busy_more c w bytesWritten busy n m atBusy room (continues (n + 1 + m) (by omega))

theorem deadlock_reached (k : Nat) (fails : c.OutputFailsAt ⟨w, [], bytesWritten⟩ k)
    (delivers : c.Delivers (k + c.depth + 1)) :
    ∃ s, Reachable c.step (State.start w bytesWritten) s ∧ s.caller = .wait ∧ Stuck c.step s := by
  have fine : ∀ i, i < k → ¬ c.OutputFailsAt ⟨w, [], bytesWritten⟩ i := by
    intro i bound earlier
    have first := c.fails_first _ i k earlier fails
    omega
  obtain ⟨busy, reach, reader, ⟨buf, caller⟩, ready, reads⟩ := busy_reached c w bytesWritten k c.depth
    (fun i bound => delivers.1 i (by omega)) fine (Nat.le_refl _)
  have running := running_quit c w bytesWritten busy reach (by rw [caller]; rfl)
  have position : busy.reads = k + c.depth + 1 := by omega
  obtain ⟨sending, held, lap, atSend, sameCaller, sameReady, oneMore⟩ :=
    reader_lap c busy reader running (by rw [position]; exact delivers.2)
  obtain ⟨done, onward, outcome, sameReader, doneReady, doneReads⟩ :=
    write_loop c sending buf 0 (sameCaller.trans caller)
  have reachDone := reachable_trans c.step _ _ _ (reachable_trans c.step _ _ _ reach lap) onward
  have full : done.ready.length = c.depth := by rw [doneReady, sameReady, ready]
  have stopped : done.caller = .closeQuit := by
    rcases outcome with ⟨n, written⟩ | failed
    · -- The invariant says that block k has been written, against the assumption.
      obtain ⟨taken, sent, inv⟩ := reachable_inv reachDone
      have stage := inv.caller
      have readerStage := inv.reader
      rw [written] at stage
      rw [sameReader, atSend] at readerStage
      obtain ⟨block, mid, count, before, _, here, _⟩ := stage
      obtain ⟨last, e, mid', before', here'⟩ := fails
      have counted := inv.counted
      have all := readerStage.1
      have same : block = k := by omega
      subst same
      rw [before] at before'
      cases before'
      rw [here] at here'
      cases here'
    · exact failed
  have quitting : c.step .caller done = some { done with quit := true, caller := .wait } := by
    simp only [Call.step, Call.stepCaller, stopped]
  have reachWait := reachable_step c.step _ _ _ .caller reachDone quitting
  refine ⟨_, reachWait, rfl, ?_⟩
  intro actor
  cases actor with
  | reader =>
      simp only [Call.step, Call.stepReader, sameReader, atSend, Call.sendReady, full, Nat.lt_irrefl, reduceCtorEq,
        and_false, if_false, Option.map_none]
  | caller =>
      obtain ⟨_, _, inv⟩ := reachable_inv reachDone
      have working := inv.flags.wgDone
      rw [sameReader, atSend] at working
      simp only [Call.step, Call.stepCaller, working, ReaderPc.signalled, Bool.false_eq_true, if_false]

end Schedule

theorem never_stuck_iff (w : σ) (bytesWritten : Nat) :
    (∀ s, Reachable c.step (State.start w bytesWritten) s → (∀ result, s.caller ≠ .returned result) →
        ∃ actor next, c.step actor s = some next) ↔
      ∀ k, c.OutputFailsAt ⟨w, [], bytesWritten⟩ k → ¬ c.Delivers (k + c.depth + 1) := by
  constructor
  · intro free k fails delivers
    obtain ⟨s, reach, waiting, stuck⟩ := deadlock_reached c w bytesWritten k fails delivers
    obtain ⟨actor, next, moved⟩ := free s reach (by
      intro result returned
      rw [waiting] at returned
      cases returned)
    rw [stuck actor] at moved
    cases moved
  · intro condition s reach running
    by_contra noStep
    have stuck : Stuck c.step s := by
      intro actor
      cases moved : c.step actor s with
      | none => rfl
      | some next => exact absurd ⟨actor, next, moved⟩ noStep
    obtain ⟨k, fails, delivers⟩ := stuck_delivers c reach running stuck
    exact condition k fails delivers

def fullDisk : IoWriter Unit where
  write w _ := (w, 0, some (.other (str "no space left on device")))

-- dd bs=1073741825: the block size leaves no room in the channel. The input comes
-- byte by byte, as from a pipe.
def hugeBlocks : Call Unit :=
  parallelChunkedCopy (fun i => if i < 2 then ⟨[0], none⟩ else ⟨[], some .eof⟩) fullDisk (2 ^ 30 + 1) (2 ^ 30 + 1) id
    (by
      intro i
      split <;> simp)
    (by decide)

theorem huge_blocks_deadlock :
    ¬ ∀ s, Reachable hugeBlocks.step (State.start () 0) s → (∀ result, s.caller ≠ .returned result) →
      ∃ actor next, hugeBlocks.step actor s = some next := by
  intro free
  have ran : (exec hugeBlocks.step (List.replicate 8 .reader ++ [.caller, .caller]) (State.start () 0)).map
      (fun s => (s.caller, (hugeBlocks.step .reader s).isSome, (hugeBlocks.step .caller s).isSome)) =
        some (.wait, false, false) := by
    decide +kernel
  obtain ⟨s, reach, stuck⟩ := Option.map_eq_some_iff.mp ran
  simp only [Prod.mk.injEq] at stuck
  obtain ⟨waiting, readerStuck, callerStuck⟩ := stuck
  obtain ⟨actor, next, moved⟩ := free s ⟨_, reach⟩ (by
    intro result returned
    rw [waiting] at returned
    cases returned)
  cases actor with
  | reader =>
      rw [moved] at readerStuck
      cases readerStuck
  | caller =>
      rw [moved] at callerStuck
      cases callerStuck

end URoot.Dd
