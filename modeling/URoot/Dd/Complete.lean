import URoot.Dd.Exact
import URoot.Dd.Deadlock

set_option autoImplicit false

namespace URoot.Dd

open GoLib

variable {σ : Type}

structure Call.Completes (c : Call σ) (w : σ) (bytesWritten : Nat) (result : Option CopyError) (out : Bytes) : Prop where
  finite : ∃ bound, ∀ schedule s, exec c.step schedule (State.start w bytesWritten) = some s → schedule.length ≤ bound
  returns : ∀ s, Reachable c.step (State.start w bytesWritten) s → Stuck c.step s → ∃ r, s.caller = .returned r
  same : ∀ s r, Reachable c.step (State.start w bytesWritten) s → s.caller = .returned r → r = result ∧ s.out = out

def Call.Reads (c : Call σ) (data : Bytes) : Prop :=
  ∃ last, (∀ i, i < last → c.Continues i) ∧ (readFrom (c.r last)).2 = some .eof ∧ c.delivered (last + 1) = data

section Work

def Call.bufferWork (c : Call σ) : Nat := c.inBufSize + 3

def Call.readerWork (c : Call σ) : ReaderPc → Nat
  | .send _ _ _ => c.bufferWork + 7
  | .after _ _ => 6
  | .check => 5
  | .get => 4
  | .read _ => 3
  | .sendErr _ => 3
  | .done => 2
  | .closing => 1
  | .halted => 0

def Call.callerWork (c : Call σ) : CallerPc → Nat
  | .writing _ i => c.inBufSize - i + 6
  | .put _ _ => 5
  | .recv => 4
  | .closeQuit => 3
  | .wait => 2
  | .select => 1
  | .returned _ => 0

def Call.work (c : Call σ) (last : Nat) (s : State σ) : Nat :=
  (c.bufferWork + 8) * (last + 1 - s.reads) + c.readerWork s.reader + c.bufferWork * s.ready.length + c.callerWork s.caller

variable (c : Call σ)

theorem heap_fits (w : σ) (bytesWritten : Nat) (s : State σ) (reach : Reachable c.step (State.start w bytesWritten) s)
    (buf : Nat) : (s.heap buf).length ≤ c.inBufSize := by
  have updated : ∀ (heap : Nat → Bytes) (at_ : Nat) (bytes : Bytes), (∀ b, (heap b).length ≤ c.inBufSize) →
      bytes.length ≤ c.inBufSize → ∀ b, (Function.update heap at_ bytes b).length ≤ c.inBufSize := by
    intro heap at_ bytes before fits b
    rw [Function.update_apply]
    split
    · exact fits
    · exact before b
  refine reachable_invariant c.step (fun s => ∀ buf, (s.heap buf).length ≤ c.inBufSize) ?_ _ s
    (fun _ => Nat.zero_le _) reach buf
  intro actor s next before moved
  cases actor with
  | reader =>
      cases reader_moves moved with
      | alloc pc empty => exact updated s.heap s.next [] before (Nat.zero_le _)
      | data buf pc present => exact updated s.heap buf _ before (c.fits s.reads)
      | noData buf pc empty => exact updated s.heap buf [] before (Nat.zero_le _)
      | _ => exact before
  | caller => cases caller_moves moved <;> exact before

variable (last : Nat) (ends : ¬ c.Continues last)

include ends

theorem reading_before_end {w : σ} {bytesWritten : Nat} {s : State σ}
    (reach : Reachable c.step (State.start w bytesWritten) s) (buf : Nat) (pc : s.reader = .read buf) : s.reads ≤ last := by
  obtain ⟨taken, sent, inv⟩ := reachable_inv reach
  have stage := inv.reader
  rw [pc] at stage
  obtain ⟨count, before, _⟩ := stage
  by_contra late
  exact ends (before last (by omega))

theorem step_loses (w : σ) (bytesWritten : Nat) (actor : Actor) (s next : State σ)
    (reach : Reachable c.step (State.start w bytesWritten) s) (moved : c.step actor s = some next) :
    c.work last next < c.work last s := by
  have fits := heap_fits c w bytesWritten s reach
  have reading := reading_before_end c last ends reach
  have positive := c.outPositive
  have oneMore (buf : Nat) (pc : s.reader = .read buf) : last + 1 - s.reads = last + 1 - (s.reads + 1) + 1 := by
    have bound := reading buf pc
    omega
  cases actor with
  | reader =>
      cases reader_moves moved with
      | data buf pc present =>
          simp only [Call.work, pc, Call.readerWork, oneMore buf pc, Nat.mul_add, Nat.mul_one]
          omega
      | noData buf pc empty =>
          simp only [Call.work, pc, Call.readerWork, oneMore buf pc, Nat.mul_add, Nat.mul_one]
          omega
      | enqueue buf n err pc room =>
          simp only [Call.work, pc, Call.readerWork, List.length_append, List.length_singleton, Nat.mul_add, Nat.mul_one]
          omega
      | handOver buf n err pc unbuffered receiving empty =>
          simp only [Call.work, pc, receiving, Call.readerWork, Call.callerWork, Call.bufferWork]
          omega
      | _ =>
          simp only [Call.work, ‹s.reader = _›, Call.readerWork]
          omega
  | caller =>
      cases caller_moves moved with
      | take buf rest pc queued =>
          simp only [Call.work, pc, queued, Call.callerWork, Call.bufferWork, List.length_cons, Nat.mul_add, Nat.mul_one]
          omega
      | wrote buf i got w' pc inside took whole =>
          have progress : 0 < got := by
            rw [whole, Call.outChunk, List.length_take, List.length_drop]
            omega
          have size := fits buf
          simp only [Call.work, pc, Call.callerWork]
          omega
      | _ =>
          simp only [Call.work, ‹s.caller = _›, Call.callerWork]
          omega

theorem schedules_end (w : σ) (bytesWritten : Nat) :
    ∃ bound, ∀ schedule s, exec c.step schedule (State.start w bytesWritten) = some s → schedule.length ≤ bound := by
  refine ⟨c.work last (State.start w bytesWritten), fun schedule s ran => ?_⟩
  have bounded := schedule_bounded_within c.step (c.work last) (Reachable c.step (State.start w bytesWritten))
    (fun a s next reach moved => reachable_step c.step _ s next a reach moved)
    (fun a s next reach moved => step_loses c last ends w bytesWritten a s next reach moved) schedule _ s
    (reachable_start c.step _) ran
  omega

theorem some_schedule_ends (w : σ) (bytesWritten : Nat) :
    ∃ s, Reachable c.step (State.start w bytesWritten) s ∧ Stuck c.step s :=
  exists_stuck_within c.step (c.work last) (Reachable c.step (State.start w bytesWritten))
    (fun a s next reach moved => reachable_step c.step _ s next a reach moved)
    (fun a s next reach moved => step_loses c last ends w bytesWritten a s next reach moved) _ (reachable_start c.step _)

end Work

section Cut

variable (c : Call σ) (last : Nat)

def Call.cut : Call σ where
  r i := if i ≤ last then c.r i else ⟨[], some .eof⟩
  w := c.w
  inBufSize := c.inBufSize
  outBufSize := c.outBufSize
  transform := c.transform
  depth := c.depth
  fits i := by
    split
    · exact c.fits i
    · exact Nat.zero_le _
  outPositive := c.outPositive

theorem cut_early (i : Nat) (early : i ≤ last) : (c.cut last).r i = c.r i := if_pos early

theorem cut_late (i : Nat) (late : last < i) : (c.cut last).chunk i = [] := by
  rw [Call.chunk, Call.cut]
  simp only [Nat.not_le.mpr late, if_false]

theorem cut_chunk (i : Nat) (early : i ≤ last) : (c.cut last).chunk i = c.chunk i := by
  rw [Call.chunk, cut_early c last i early, Call.chunk]

theorem cut_continues (i : Nat) (early : i ≤ last) : (c.cut last).Continues i ↔ c.Continues i := by
  rw [Call.Continues, Call.Continues, cut_chunk c last i early, cut_early c last i early]

theorem cut_delivered : (c.cut last).delivered (last + 1) = c.delivered (last + 1) := by
  rw [Call.delivered, Call.delivered, List.flatMap, List.flatMap]
  congr 1
  apply List.map_congr_left
  intro i member
  exact cut_chunk c last i (Nat.lt_succ_iff.mp (List.mem_range.mp member))

theorem cut_step (actor : Actor) (s : State σ) (reading : ∀ buf, s.reader = .read buf → s.reads ≤ last) :
    (c.cut last).step actor s = c.step actor s := by
  cases actor with
  | caller => rfl
  | reader =>
      cases pc : s.reader with
      | read buf => simp only [Call.step, Call.stepReader, pc, cut_early c last s.reads (reading buf pc)]
      | send buf n err =>
          simp only [Call.step, Call.stepReader, pc]
          rfl
      | _ => simp only [Call.step, Call.stepReader, pc]

theorem cut_exec (ends : ¬ c.Continues last) (w : σ) (bytesWritten : Nat) (schedule : List Actor) (s : State σ)
    (reach : Reachable c.step (State.start w bytesWritten) s) :
    exec (c.cut last).step schedule s = exec c.step schedule s := by
  induction schedule generalizing s with
  | nil => rfl
  | cons actor rest ih =>
      have same := cut_step c last actor s (reading_before_end c last ends reach)
      cases moved : c.step actor s with
      | none => rw [exec, exec, same, moved, Option.bind_none, Option.bind_none]
      | some next =>
          rw [exec, exec, same, moved, Option.bind_some, Option.bind_some,
            ih next (reachable_step c.step _ s next actor reach moved)]

theorem cut_reachable (ends : ¬ c.Continues last) (w : σ) (bytesWritten : Nat) (s : State σ)
    (reach : Reachable c.step (State.start w bytesWritten) s) :
    Reachable (c.cut last).step (State.start w bytesWritten) s := by
  obtain ⟨schedule, ran⟩ := reach
  exact ⟨schedule, (cut_exec c last ends w bytesWritten schedule _ (reachable_start c.step _)).trans ran⟩

theorem cut_stuck (ends : ¬ c.Continues last) (w : σ) (bytesWritten : Nat) (s : State σ)
    (reach : Reachable c.step (State.start w bytesWritten) s) (stuck : Stuck c.step s) : Stuck (c.cut last).step s := by
  intro actor
  rw [cut_step c last actor s (reading_before_end c last ends reach)]
  exact stuck actor

end Cut

section Ending

variable (c : Call σ) (f : UInt8 → UInt8) (good : UInt8 → Prop)
  (bytewise : ∀ bytes, (∀ b ∈ bytes, good b) → c.transform bytes = bytes.map f)
  (full : ∀ w bytes, (c.w.write w bytes).2 = (bytes.length, none)) (w : σ) (bytesWritten : Nat)

include bytewise full

theorem completes_ends (last : Nat) (e : IoError) (before : ∀ i, i < last → c.Continues i)
    (ends : (readFrom (c.r last)).2 = some e) (fine : ∀ b ∈ c.delivered (last + 1), good b) :
    c.Completes w bytesWritten (if e = .eof then none else some (.inputError (some e))) ((c.delivered (last + 1)).map f) := by
  have stops := ends_not_continues ends
  have within : ∀ i, ∀ b ∈ (c.cut last).chunk i, good b := by
    intro i b member
    by_cases early : i ≤ last
    · rw [cut_chunk c last i early] at member
      exact fine b (List.mem_flatMap.mpr ⟨i, List.mem_range.mpr (by omega), member⟩)
    · rw [cut_late c last i (by omega)] at member
      cases member
  refine ⟨schedules_end c last stops w bytesWritten, ?_, ?_⟩
  · intro s reach stuck
    by_contra running
    obtain ⟨k, fails, _⟩ := stuck_delivers (c.cut last) (cut_reachable c last stops w bytesWritten s reach)
      (fun result returned => running ⟨result, returned⟩) (cut_stuck c last stops w bytesWritten s reach stuck)
    exact never_fails (c.cut last) f good bytewise full within _ k fails
  · intro s result reach returned
    obtain ⟨out, _, same⟩ := returned_exact (c.cut last) f good bytewise full within last
      (fun i early => (cut_continues c last i (by omega)).mpr (before i early)) e
      (by rw [cut_early c last last (Nat.le_refl _)]; exact ends) w bytesWritten s
      (cut_reachable c last stops w bytesWritten s reach) result returned
    rw [cut_delivered] at out
    exact ⟨same, out⟩

theorem completes_full (data : Bytes) (reads : c.Reads data) (fine : ∀ b ∈ data, good b) :
    c.Completes w bytesWritten none (data.map f) := by
  obtain ⟨last, before, ends, rfl⟩ := reads
  exact completes_ends c f good bytewise full w bytesWritten last .eof before ends fine

end Ending

theorem completes_same {c : Call σ} {w : σ} {bytesWritten : Nat} {a b : Option CopyError} {first second : Bytes}
    (one : c.Completes w bytesWritten a first) (two : c.Completes w bytesWritten b second) : first = second := by
  obtain ⟨bound, all⟩ := one.finite
  obtain ⟨s, reach, stuck⟩ := bounded_ends c.step _ bound all
  obtain ⟨r, returned⟩ := one.returns s reach stuck
  exact (one.same s r reach returned).2.symm.trans (two.same s r reach returned).2

end URoot.Dd
