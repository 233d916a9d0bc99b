import URoot.Cp.Copy

set_option autoImplicit false

namespace URoot.Cp

open GoLib

variable (c : Process)

inductive WorkerMove (s : State) (id : Nat) (w : Worker) : Outcome → State → Prop where
  | take (pc : w.pc = .recv) :
      WorkerMove s id w .go
        { s with
          off := s.off + buffSize, handed := s.handed ++ [(id, s.off)],
          workers := s.workers.set id { w with o := s.off, pc := .reading } }
  | data (n : Nat) (pc : w.pc = .reading) (positive : 0 < n) (fits : n ≤ w.bp) (inside : w.o + n ≤ (c.src w.call).length) :
      WorkerMove s id w (.read n)
        { s with workers := s.workers.set id { w with pc := .writing (slice (c.src w.call) w.o n) } }
  | endOfFile (pc : w.pc = .reading) (past : w.bp = 0 ∨ (c.src w.call).length ≤ w.o) :
      WorkerMove s id w (.read 0) { s with workers := s.workers.set id { w with pc := .sending none } }
  | readFailed (err : IoError) (pc : w.pc = .reading) :
      WorkerMove s id w (.readErr err)
        { s with workers := s.workers.set id { w with pc := .sending (some (.reading w.o err)) } }
  | wrote (nb : Bytes) (pc : w.pc = .writing nb) :
      WorkerMove s id w .wrote
        { s with
          disk := Function.update s.disk (c.dst w.call) (fileWrite (s.disk (c.dst w.call)) nb w.o),
          workers := s.workers.set id (w.advance nb.length) }
  | writeFailed (nb : Bytes) (n : Nat) (err : IoError) (pc : w.pc = .writing nb) :
      WorkerMove s id w (.writeErr n err)
        { s with
          disk := Function.update s.disk (c.dst w.call) (fileWrite (s.disk (c.dst w.call)) (nb.take n) w.o),
          workers := s.workers.set id { w with pc := .sending (some (.writing err)) } }
  | report (err : Option CopyError) (pc : w.pc = .sending err) :
      WorkerMove s id w .go
        { s with
          fail := Function.update s.fail w.call (s.fail w.call ++ [err]),
          workers := s.workers.set id { w with pc := .ended } }

inductive MainMove (s : State) : State → Prop where
  | truncate (pc : s.main = .opening) :
      MainMove s { s with disk := Function.update s.disk (c.dst s.call) [], main := .zero }
  | reset (pc : s.main = .zero) : MainMove s { s with off := 0, handed := [], main := .spawn 0 }
  | spawn (i : Nat) (pc : s.main = .spawn i) (more : i < c.nwork) :
      MainMove s { s with workers := s.workers ++ [newWorker s.call], main := .spawn (i + 1) }
  | spawned (i : Nat) (pc : s.main = .spawn i) (all : ¬ i < c.nwork) : MainMove s { s with main := .collect 0 }
  | collectNil (i : Nat) (rest : List (Option CopyError)) (pc : s.main = .collect i) (more : i < c.nwork)
      (first : s.fail s.call = none :: rest) :
      MainMove s { s with fail := Function.update s.fail s.call rest, main := .collect (i + 1) }
  | collectErr (i : Nat) (err : CopyError) (rest : List (Option CopyError)) (pc : s.main = .collect i)
      (first : s.fail s.call = some err :: rest) :
      MainMove s { s with fail := Function.update s.fail s.call rest, main := .returned (some err) }
  | collected (i : Nat) (pc : s.main = .collect i) (all : ¬ i < c.nwork) : MainMove s { s with main := .returned none }
  | nextCall (err : Option CopyError) (pc : s.main = .returned err) :
      MainMove s { s with call := s.call + 1, main := .opening }

theorem worker_moves {s next : State} {id : Nat} {outcome : Outcome} (moved : c.step (.worker id outcome) s = some next) :
    ∃ w, s.workers[id]? = some w ∧ WorkerMove c s id w outcome next := by
  obtain ⟨w, found, inner⟩ := Option.bind_eq_some_iff.mp moved
  clear moved
  refine ⟨w, found, ?_⟩
  unfold Process.stepWorker at inner
  split at inner
  case h_1 pc =>
    cases inner
    exact .take pc
  case h_2 n pc =>
    split at inner
    · rename_i readable
      obtain ⟨fits, inside, past⟩ := readable
      by_cases nothing : n = 0
      · subst nothing
        cases inner
        exact .endOfFile pc (past rfl)
      · simp only [nothing, if_false] at inner
        cases inner
        exact .data n pc (Nat.pos_of_ne_zero nothing) fits (by omega)
    · cases inner
  case h_3 err pc =>
    split at inner
    · cases inner
    · cases inner
      exact .readFailed err pc
  case h_4 nb pc =>
    cases inner
    exact .wrote nb pc
  case h_5 nb n err pc =>
    cases inner
    exact .writeFailed nb n err pc
  case h_6 err pc =>
    cases inner
    exact .report err pc
  case h_7 => cases inner

theorem main_moves (s next : State) (moved : c.stepMain s = some next) : MainMove c s next := by
  unfold Process.stepMain at moved
  split at moved
  case h_1 pc =>
    cases moved
    exact .truncate pc
  case h_2 pc =>
    cases moved
    exact .reset pc
  case h_3 i pc =>
    split at moved
    · cases moved
      exact .spawn i pc ‹_›
    · cases moved
      exact .spawned i pc ‹_›
  case h_4 i pc =>
    split at moved
    · split at moved
      · cases moved
        exact .collectNil i _ pc ‹_› ‹_›
      · cases moved
        exact .collectErr i _ _ pc ‹_›
      · cases moved
    · cases moved
      exact .collected i pc ‹_›
  case h_5 err pc =>
    cases moved
    exact .nextCall err pc

end URoot.Cp
