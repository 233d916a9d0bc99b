import URoot.Cp.Reachable

set_option autoImplicit false

namespace URoot.Cp

open GoLib

section Clean

variable (c : Process)

structure Clean (s : State) : Prop where
  workers : ∀ w ∈ s.workers, ∀ err, w.pc ≠ .sending (some err)
  results : ∀ call err, some err ∉ s.fail call
  main : ∀ err, s.main ≠ .returned (some err)
  opening : s.main = .opening → ∀ w ∈ s.workers, w.quiet

theorem start_clean : Clean State.start where
  workers := fun _ impossible => by cases impossible
  results := fun _ _ impossible => by cases impossible
  main := fun _ impossible => by cases impossible
  opening := fun _ _ impossible => by cases impossible

theorem clean_workers (s : State) (id : Nat) (w' : Worker) (clean : Clean s) (ok : ∀ err, w'.pc ≠ .sending (some err)) :
    ∀ w ∈ s.workers.set id w', ∀ err, w.pc ≠ .sending (some err) := by
  intro w member
  rcases List.mem_or_eq_of_mem_set member with old | rfl
  · exact clean.workers w old
  · exact ok

theorem clean_worker (s next : State) (id : Nat) (w : Worker) (outcome : Outcome) (found : s.workers[id]? = some w)
    (clean : Clean s) (well : (Label.worker id outcome).failed = false) (move : WorkerMove c s id w outcome next) :
    Clean next := by
  obtain ⟨main, call, w', workers, same⟩ := worker_move_frame c move
  constructor
  case workers =>
    cases move with
    | take | data | endOfFile | report => exact clean_workers s id _ clean (by simp)
    | wrote nb =>
        refine clean_workers s id _ clean ?_
        unfold Worker.advance
        split <;> simp
    | readFailed | writeFailed => cases well
  case results =>
    cases move with
    | report err pc =>
        intro call failure sent
        simp only [Function.update_apply] at sent
        split at sent
        · rcases List.mem_append.mp sent with old | new
          · exact clean.results _ _ old
          · rw [← List.mem_singleton.mp new] at pc
            exact clean.workers w (List.mem_of_getElem? found) failure pc
        · exact clean.results _ _ sent
    | take | data | endOfFile | readFailed | wrote | writeFailed => exact clean.results
  case main =>
    rw [main]
    exact clean.main
  case opening =>
    intro pc
    rw [main] at pc
    have quiet := clean.opening pc
    obtain ⟨err, rfl⟩ := quiet_move c (quiet w (List.mem_of_getElem? found)) move
    intro v member
    rcases List.mem_or_eq_of_mem_set member with old | rfl
    · exact quiet v old
    · rfl

theorem clean_main (s next : State) (inv : Inv c s) (clean : Clean s) (move : MainMove c s next) : Clean next := by
  cases move with
  | truncate => exact ⟨clean.workers, clean.results, by simp, by simp⟩
  | reset => exact ⟨clean.workers, clean.results, by simp, by simp⟩
  | spawn =>
      refine ⟨?_, clean.results, by simp, by simp⟩
      intro w member
      rcases List.mem_append.mp member with old | new
      · exact clean.workers w old
      · rw [List.mem_singleton.mp new]
        simp [newWorker]
  | spawned => exact ⟨clean.workers, clean.results, by simp, by simp⟩
  | collectNil i rest pc more first =>
      refine ⟨clean.workers, ?_, by simp, by simp⟩
      intro call err sent
      simp only [Function.update_apply] at sent
      split at sent
      · refine clean.results s.call err ?_
        rw [first]
        exact List.mem_cons_of_mem _ sent
      · exact clean.results _ _ sent
  | collectErr i err rest pc first =>
      refine absurd ?_ (clean.results s.call err)
      rw [first]
      exact List.mem_cons_self
  | collected => exact ⟨clean.workers, clean.results, by simp, by simp⟩
  | nextCall err pc =>
      refine ⟨clean.workers, clean.results, by simp, ?_⟩
      intro _ w member
      cases err with
      | some err => exact absurd pc (clean.main err)
      | none =>
          -- Every worker of the call has reported and ended before copyOneFile returns.
          have body := inv.body (by rw [pc]; rfl)
          rcases body.alone w member with here | quiet
          · rw [Worker.quiet, (all_ended c s body pc).2 w member here]
          · exact quiet

theorem clean_step {label : Label} {s next : State} (inv : Inv c s) (clean : Clean s) (well : label.failed = false)
    (moved : c.step label s = some next) : Inv c next ∧ Clean next := by
  refine ⟨inv_step c label s next inv (fun _ => clean.opening) moved, ?_⟩
  cases label with
  | worker id outcome =>
      obtain ⟨w, found, move⟩ := worker_moves c moved
      exact clean_worker c s next id w outcome found clean well move
  | main => exact clean_main c s next inv clean (main_moves c s next moved)

theorem error_free_exact (s : State) (some : 0 < c.nwork)
    (reach : Reachable (guarded c.step fun label _ => label.failed = false) State.start s)
    (returned : s.main = .returned none) : s.disk (c.dst s.call) = c.src s.call := by
  have kept : Inv c s ∧ Clean s := by
    refine reachable_invariant _ (fun s => Inv c s ∧ Clean s) ?_ State.start s ⟨start_inv c, start_clean⟩ reach
    rintro label s next ⟨inv, clean⟩ moved
    obtain ⟨well, moved⟩ := guarded_inv c.step label s next moved
    exact clean_step c inv clean well moved
  exact returned_exact c s (Or.inl some) kept.1 returned

end Clean

section Handed

variable (c : Process)

def HandedInOrder (s : State) : Prop :=
  ∃ k, s.off = k * buffSize ∧ s.handed.map Prod.snd = (List.range k).map (· * buffSize)

theorem handed_step (label : Label) (s next : State) (order : HandedInOrder s) (moved : c.step label s = some next) :
    HandedInOrder next := by
  cases label with
  | worker id outcome =>
      obtain ⟨w, found, move⟩ := worker_moves c moved
      cases move with
      | take =>
          obtain ⟨k, off, handed⟩ := order
          refine ⟨k + 1, by simp only [off]; rw [Nat.succ_mul], ?_⟩
          simp only [List.map_append, List.map_cons, List.map_nil, handed, off, List.range_succ]
      | data | endOfFile | readFailed | wrote | writeFailed | report => exact order
  | main =>
      cases main_moves c s next moved with
      | reset => exact ⟨0, (Nat.zero_mul _).symm, rfl⟩
      | truncate | spawn | spawned | collectNil | collectErr | collected | nextCall => exact order

theorem handed_count (s : State) (order : HandedInOrder s) (b : Nat) :
    (s.handed.map Prod.snd).count (b * buffSize) = if b * buffSize < s.off then 1 else 0 := by
  obtain ⟨k, off, handed⟩ := order
  have injective : Function.Injective (fun b => b * buffSize) :=
    fun _ _ same => Nat.eq_of_mul_eq_mul_right (by decide) same
  rw [handed, off, List.count_map_of_injective _ _ injective, List.count_range]
  simp only [Nat.mul_lt_mul_right (show 0 < buffSize by decide)]

end Handed

section InBlock

variable (c : Process)

def readInBlock (label : Label) (s : State) : Bool :=
  match label with
  | .worker id (.read n) => (s.workers[id]?).all fun w => decide ((n : Int) ≤ w.l)
  | _ => true

def InBlock (label : Label) (s : State) : Prop := label.failed = false ∧ readInBlock label s = true

instance (label : Label) (s : State) : Decidable (InBlock label s) := inferInstanceAs (Decidable (_ ∧ _))

def Within (w : Worker) : Prop :=
  match w.pc with
  | .recv => w.l = buffSize
  | .reading => 0 < w.l
  | .writing nb => (nb.length : Int) ≤ w.l
  | _ => True

theorem within_step (label : Label) (s next : State) (within : ∀ w ∈ s.workers, Within w) (allowed : InBlock label s)
    (moved : c.step label s = some next) : ∀ w ∈ next.workers, Within w := by
  cases label with
  | main =>
      cases main_moves c s next moved with
      | spawn =>
          intro w member
          rcases List.mem_append.mp member with old | new
          · exact within w old
          · rw [List.mem_singleton.mp new]
            rfl
      | truncate | reset | spawned | collectNil | collectErr | collected | nextCall => exact within
  | worker id outcome =>
      obtain ⟨w, found, move⟩ := worker_moves c moved
      have old := within w (List.mem_of_getElem? found)
      have one : ∀ w', Within w' → ∀ v ∈ s.workers.set id w', Within v := by
        intro w' ok v member
        rcases List.mem_or_eq_of_mem_set member with stays | rfl
        · exact within v stays
        · exact ok
      cases move with
      | take pc =>
          refine one _ ?_
          simp only [Within, pc] at old ⊢
          rw [old]
          decide
      | data n pc positive fits inside =>
          refine one _ ?_
          have bound := allowed.2
          simp only [readInBlock, found, Option.all_some, decide_eq_true_eq] at bound
          simp only [Within]
          rw [slice_length inside]
          exact bound
      | wrote nb pc =>
          refine one _ ?_
          simp only [Within, pc] at old
          unfold Worker.advance
          split
          · rfl
          · show 0 < w.l - nb.length
            omega
      | endOfFile | readFailed | writeFailed | report => exact one _ trivial

theorem finished_worker (s next : State) (id : Nat) (w : Worker) (outcome : Outcome) (found : s.workers[id]? = some w)
    (body : Body c s) (move : WorkerMove c s id w outcome next) (finished : Finished c next) :
    Finished c s ∨ (w.call = s.call ∧ w.pc = .reading ∧ (c.src s.call).length ≤ w.o) := by
  cases move with
  | take | data | readFailed | writeFailed => exact Or.inl (finished_same c s id _ _ _ _ (by simp) finished)
  | wrote nb =>
      refine Or.inl (finished_same c s id _ _ _ _ ?_ finished)
      unfold Worker.advance
      split <;> simp
  | report err pc =>
      refine Or.inl (finished_after c s id _ _ _ _ _ (by simp) ?_ finished)
      rw [Function.update_apply]
      split
      · rename_i here
        rw [List.mem_append, List.mem_singleton]
        rintro (sent | rfl)
        · exact Or.inr (Or.inl (here ▸ sent))
        · exact Or.inl ⟨w, List.mem_of_getElem? found, here.symm, pc⟩
      · exact fun sent => Or.inr (Or.inl sent)
  | endOfFile pc past =>
      right
      rcases body.alone w (List.mem_of_getElem? found) with here | quiet
      · refine ⟨here, pc, ?_⟩
        have ok := body.workers w (List.mem_of_getElem? found) here
        simp only [WorkerOk, pc] at ok
        have some := ok.some
        rw [← here]
        rcases past with empty | past
        · omega
        · exact past
      · simp [Worker.quiet, pc] at quiet

def Reached (s : State) : Prop := s.main.inCall → Finished c s → (c.src s.call).length ≤ s.off

theorem reached_step (label : Label) (s next : State) (inv : Inv c s) (within : ∀ w ∈ s.workers, Within w)
    (reached : Reached c s) (moved : c.step label s = some next) : Reached c next := by
  intro inCall finished
  cases label with
  | worker id outcome =>
      obtain ⟨w, found, move⟩ := worker_moves c moved
      obtain ⟨main, call, _⟩ := worker_move_frame c move
      have grows : s.off ≤ next.off := by
        cases move with
        | take => exact Nat.le_add_right _ _
        | data | endOfFile | readFailed | wrote | writeFailed | report => exact Nat.le_refl _
      rw [main] at inCall
      have body := inv.body inCall
      rw [call]
      rcases finished_worker c s next id w outcome found body move finished with earlier | ⟨here, pc, past⟩
      · exact Nat.le_trans (reached inCall earlier) grows
      · have ok := body.workers w (List.mem_of_getElem? found) here
        have left := within w (List.mem_of_getElem? found)
        simp only [WorkerOk, Within, pc] at ok left
        have stop := ok.stop
        omega
  | main =>
      have move := main_moves c s next moved
      have earlier := finished_main c s inv next move inCall finished
      cases move with
      | truncate | nextCall => cases inCall
      | reset pc =>
          obtain ⟨early, noResult⟩ := early_workers c s inv pc
          rcases earlier with ⟨w, member, here, _⟩ | sent | collected
          · exact absurd here (Nat.ne_of_lt (early w member))
          · rw [noResult] at sent
            cases sent
          · rw [pc] at collected
            exact absurd collected (Nat.lt_irrefl 0)
      | spawn i pc | spawned i pc | collectNil i rest pc | collectErr i err rest pc | collected i pc =>
          exact reached (by rw [pc]; rfl) earlier

end InBlock

structure Orderly (c : Process) (s : State) : Prop where
  inv : Inv c s
  clean : Clean s
  order : HandedInOrder s
  within : ∀ w ∈ s.workers, Within w
  reached : Reached c s

theorem start_orderly (c : Process) : Orderly c State.start where
  inv := start_inv c
  clean := start_clean
  order := ⟨0, (Nat.zero_mul _).symm, rfl⟩
  within := fun _ impossible => by cases impossible
  reached := fun impossible => by cases impossible

theorem orderly_step (c : Process) (label : Label) (s next : State) (orderly : Orderly c s) (allowed : InBlock label s)
    (moved : c.step label s = some next) : Orderly c next where
  inv := (clean_step c orderly.inv orderly.clean allowed.1 moved).1
  clean := (clean_step c orderly.inv orderly.clean allowed.1 moved).2
  order := handed_step c label s next orderly.order moved
  within := within_step c label s next orderly.within allowed moved
  reached := reached_step c label s next orderly.inv orderly.within orderly.reached moved

theorem parallel_copy_exact (c : Process) (some : 0 < c.nwork) (s : State)
    (reach : Reachable (guarded c.step InBlock) State.start s) (returned : s.main = .returned none) :
    s.disk (c.dst s.call) = c.src s.call ∧
      ∀ b, b * buffSize < (c.src s.call).length → (s.handed.map Prod.snd).count (b * buffSize) = 1 := by
  have orderly : Orderly c s := by
    refine reachable_invariant _ (Orderly c) ?_ State.start s (start_orderly c) reach
    intro label s next orderly moved
    obtain ⟨allowed, moved⟩ := guarded_inv c.step label s next moved
    exact orderly_step c label s next orderly allowed moved
  refine ⟨returned_exact c s (Or.inl some) orderly.inv returned, fun b below => ?_⟩
  have finished : Finished c s := by
    refine Or.inr (Or.inr ?_)
    rw [returned]
    exact some
  have reached := orderly.reached (by rw [returned]; rfl) finished
  rw [handed_count s orderly.order, if_pos (Nat.lt_of_lt_of_le below reached)]

def twoBytes : Process where
  nwork := 2
  jobs := fun _ => ⟨[7, 8], 0⟩

def twoBytesSchedule : List Label :=
  List.replicate 5 .main ++ [.worker 1 .go, .worker 0 .go, .worker 1 (.read 1), .worker 0 (.read 0), .worker 1 .wrote,
    .worker 1 (.read 1), .worker 1 .wrote, .worker 1 (.read 0), .worker 1 .go, .main, .worker 0 .go, .main, .main]

theorem two_bytes_exact :
    ∃ s, Reachable (guarded twoBytes.step InBlock) State.start s ∧ s.main = .returned none ∧ s.disk 0 = [7, 8] ∧
      (s.handed.map Prod.snd).count 0 = 1 := by
  have ran : (exec (guarded twoBytes.step InBlock) twoBytesSchedule State.start).map (fun s => (s.main, s.call)) =
      some (.returned none, 0) := by
    decide +kernel
  obtain ⟨s, reach, result⟩ := Option.map_eq_some_iff.mp ran
  simp only [Prod.mk.injEq] at result
  obtain ⟨copied, once⟩ := parallel_copy_exact twoBytes (by decide) s ⟨_, reach⟩ result.1
  exact ⟨s, ⟨_, reach⟩, result.1, copied, once 0 (show 0 * buffSize < 2 by decide)⟩

section ShortReads

variable (src : Bytes)

def oneWorker : Process where
  nwork := 1
  jobs := fun _ => ⟨src, 0⟩

def during (disk : Nat → Bytes) (o bp : Nat) (l : Int) (pc : WorkerPc) : State where
  off := 0 + buffSize
  disk := disk
  workers := [⟨0, o, bp, l, pc⟩]
  fail := fun _ => []
  handed := [(0, 0)]
  call := 0
  main := .collect 0

def turn (n : Nat) : List Label := [.worker 0 (.read n), .worker 0 .wrote]

theorem turn_step (disk : Nat → Bytes) (o bp : Nat) (l : Int) (n o' bp' : Nat) (l' : Int) (positive : n ≠ 0)
    (fits : n ≤ bp) (inside : o + n ≤ src.length) (unfinished : l - n ≠ 0) (offset : o + n = o')
    (rest : buffSize - n = bp') (left : l - n = l') :
    ∃ disk', exec (oneWorker src).step (turn n) (during disk o bp l .reading) =
      some (during disk' o' bp' l' .reading) := by
  subst offset rest left
  have readable : Readable src ⟨0, o, bp, l, .reading⟩ n :=
    ⟨fits, Nat.le_sub_of_add_le' inside, fun nothing => absurd nothing positive⟩
  have size : (slice src o n).length = n := slice_length inside
  have read : (oneWorker src).step (.worker 0 (.read n)) (during disk o bp l .reading) =
      some (during disk o bp l (.writing (slice src o n))) := by
    simp only [Process.step, Process.stepWorker, during, List.getElem?_cons_zero, Option.bind_some]
    rw [if_pos (show Readable ((oneWorker src).src 0) _ n from readable), if_neg positive]
    rfl
  have wrote : (oneWorker src).step (.worker 0 .wrote) (during disk o bp l (.writing (slice src o n))) =
      some (during (Function.update disk 0 (fileWrite (disk 0) (slice src o n) o)) (o + n) (buffSize - n) (l - n) .reading) := by
    simp only [Process.step, Process.stepWorker, during, List.getElem?_cons_zero, Option.bind_some, size, Worker.advance]
    rw [if_neg unfinished]
    rfl
  exact ⟨_, by rw [turn, exec_cons _ _ _ _ _ read, exec_cons _ _ _ _ _ wrote, exec]⟩

theorem end_step (disk : Nat → Bytes) (o bp : Nat) (l : Int) (past : src.length ≤ o) :
    ∃ s, exec (oneWorker src).step [.worker 0 (.read 0), .worker 0 .go, .main, .main] (during disk o bp l .reading) = some s ∧
      s.main = .returned none ∧ s.handed = [(0, 0)] := by
  have readable : Readable src ⟨0, o, bp, l, .reading⟩ 0 := ⟨Nat.zero_le _, Nat.zero_le _, fun _ => Or.inr past⟩
  have read : (oneWorker src).step (.worker 0 (.read 0)) (during disk o bp l .reading) =
      some (during disk o bp l (.sending none)) := by
    simp only [Process.step, Process.stepWorker, during, List.getElem?_cons_zero, Option.bind_some]
    rw [if_pos (show Readable ((oneWorker src).src 0) _ 0 from readable)]
    rfl
  rw [exec_cons _ _ _ _ _ read]
  exact ⟨_, rfl, rfl, rfl⟩

-- After reads of 1 and 1 the slice is as long as after the first of them, so a read of
-- 8191 takes a byte of the next block too, and l becomes -1.
def overrun : List Label :=
  (List.replicate 4 .main ++ [.worker 0 .go]) ++ (turn 1 ++ (turn 1 ++ (turn 8191 ++
    [.worker 0 (.read 0), .worker 0 .go, .main, .main])))

theorem overrun_state (size : src.length = 8193) :
    ∃ s, exec (oneWorker src).step overrun State.start = some s ∧ s.main = .returned none ∧ s.handed = [(0, 0)] := by
  have began : exec (oneWorker src).step (List.replicate 4 .main ++ [.worker 0 .go]) State.start =
      some (during (Function.update (fun _ => []) 0 []) 0 buffSize buffSize .reading) := rfl
  obtain ⟨first, one⟩ := turn_step src (Function.update (fun _ => []) 0 []) 0 buffSize buffSize 1 1 8191 8191 (by decide)
    (by decide) (by omega) (by decide) (by decide) (by decide) (by decide)
  obtain ⟨second, two⟩ := turn_step src first 1 8191 8191 1 2 8191 8190 (by decide) (by decide) (by omega) (by decide)
    (by decide) (by decide) (by decide)
  obtain ⟨third, three⟩ := turn_step src second 2 8191 8190 8191 8193 1 (-1) (by decide) (by decide) (by omega) (by decide)
    (by decide) (by decide) (by decide)
  obtain ⟨s, ended, returned, handed⟩ := end_step src third 8193 1 (-1) (Nat.le_of_eq size)
  exact ⟨s, exec_append _ _ _ _ _ _ began (exec_append _ _ _ _ _ _ one (exec_append _ _ _ _ _ _ two
    (exec_append _ _ _ _ _ _ three ended))), returned, handed⟩

end ShortReads

theorem block_never_handed :
    ∃ s, exec (oneWorker (List.replicate 8193 0)).step overrun State.start = some s ∧
      (∀ label ∈ overrun, label.failed = false) ∧ s.main = .returned none ∧
      1 * buffSize < ((oneWorker (List.replicate 8193 0)).src s.call).length ∧
      (s.handed.map Prod.snd).count (1 * buffSize) = 0 := by
  obtain ⟨s, ran, returned, handed⟩ := overrun_state (List.replicate 8193 0) List.length_replicate
  refine ⟨s, ran, by decide, returned, ?_, ?_⟩
  · show 1 * buffSize < (List.replicate 8193 0).length
    rw [List.length_replicate]
    decide
  · rw [handed]
    decide

end URoot.Cp
