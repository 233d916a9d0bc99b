import URoot.Grep.Main

set_option autoImplicit false

namespace URoot.Grep

open GoLib Lines

variable (i : Invocation)

inductive GrepMove (s : State) (k : Nat) (w : Worker) : State → Prop where
  | count (pc : w.pc = .started) :
      GrepMove s k w { s with nGrep := s.nGrep + 1, workers := s.workers.set k { w with pc := .announcing } }
  | select (line rest : Bytes) (pc : w.pc = .reading) (read : readString newline w.rest = some (line, rest))
      (selected : i.re line = i.flags.match_) :
      GrepMove s k w
        { s with workers := s.workers.set k { w with rest := rest, pc := .sending ⟨i.re line, w.command.name, line⟩ } }
  | skip (line rest : Bytes) (pc : w.pc = .reading) (read : readString newline w.rest = some (line, rest))
      (other : i.re line ≠ i.flags.match_) :
      GrepMove s k w { s with workers := s.workers.set k { w with rest := rest } }
  | finish (pc : w.pc = .reading) (nothing : readString newline w.rest = none) :
      GrepMove s k w { s with workers := s.workers.set k { w with pc := .closing } }
  | send (r : GrepResult) (pc : w.pc = .sending r) (room : w.res = none) (pc' : GrepPc)
      (onward : pc' = if i.flags.noshowmatch then .closing else .reading) :
      GrepMove s k w { s with workers := s.workers.set k { w with res := some r, pc := pc' } }
  | close (pc : w.pc = .closing) : GrepMove s k w { s with workers := s.workers.set k { w with pc := .closed } }

inductive Move (s : State) : Actor → State → Prop where
  | closeNames (nothing : s.visits = []) (opened : s.namesClosed = false) : Move s .walker { s with namesClosed := true }
  | sendName (found : Found) (rest : List Visit) (first : s.visits = .send found :: rest)
      (room : s.treenames.length < treenamesSize) :
      Move s .walker { s with visits := rest, treenames := s.treenames ++ [found] }
  | crash (rest : List Visit) (first : s.visits = .panic :: rest) : Move s .walker { s with visits := rest, crashed := true }
  | open_ (name content : Bytes) (rest : List Found) (opener : s.opener = .waiting)
      (first : s.treenames = ⟨name, some content⟩ :: rest) :
      Move s .opener { s with treenames := rest, opener := .sending ⟨name, content⟩ }
  | skip (name : Bytes) (rest : List Found) (opener : s.opener = .waiting) (first : s.treenames = ⟨name, none⟩ :: rest) :
      Move s .opener { s with treenames := rest }
  | closeFiles (opener : s.opener = .waiting) (nothing : s.treenames = []) (closed : s.namesClosed = true) :
      Move s .opener { s with opener := .closed }
  | spawn (c : GrepCommand) (main : s.main = .spawning) (opener : s.opener = .sending c) :
      Move s .main { s with opener := .waiting, workers := s.workers ++ [newWorker c] }
  | spawned (main : s.main = .spawning) (opener : s.opener = .closed) : Move s .main { s with main := .receiving }
  | receive (k : Nat) (w : Worker) (found : s.workers[k]? = some w) (main : s.main = .receiving) (pc : w.pc = .announcing) :
      Move s (.receive k) { s with main := .draining k, workers := s.workers.set k { w with pc := .reading } }
  | exitEarly (k : Nat) (w : Worker) (r : GrepResult) (found : s.workers[k]? = some w) (main : s.main = .draining k)
      (full : w.res = some r) (quiet : i.flags.quiet = true) : Move s .main { s with main := .exited 0 }
  | print (k : Nat) (w : Worker) (r : GrepResult) (found : s.workers[k]? = some w) (main : s.main = .draining k)
      (full : w.res = some r) (loud : i.flags.quiet = false) :
      Move s .main
        { s with workers := s.workers.set k { w with res := none }, printed := s.printed ++ [(k, i.printmatch r)] }
  | drained (k : Nat) (w : Worker) (found : s.workers[k]? = some w) (main : s.main = .draining k) (empty : w.res = none)
      (closed : w.pc = .closed) : Move s .main { s with nGrep := s.nGrep - 1, main := .testing }
  | endLoop (main : s.main = .testing) (zero : s.nGrep = 0) (last : MainPc)
      (quiet : last = if i.flags.quiet then .exited 1 else .ended) : Move s .main { s with main := last }
  | continue_ (main : s.main = .testing) (more : s.nGrep ≠ 0) : Move s .main { s with main := .receiving }
  | grep (k : Nat) (w : Worker) (found : s.workers[k]? = some w) (next : State) (move : GrepMove i s k w next) :
      Move s (.grep k) next

theorem grep_entry {s next : State} {k : Nat} {w : Worker} (move : GrepMove i s k w next) :
    ∃ new count, next = { s with nGrep := count, workers := s.workers.set k new } ∧ new.command = w.command := by
  cases move with
  | count pc => exact ⟨_, _, rfl, rfl⟩
  | select line rest pc read selected => exact ⟨_, _, rfl, rfl⟩
  | skip line rest pc read other => exact ⟨_, _, rfl, rfl⟩
  | finish pc nothing => exact ⟨_, _, rfl, rfl⟩
  | send r pc room pc' onward => exact ⟨_, _, rfl, rfl⟩
  | close pc => exact ⟨_, _, rfl, rfl⟩

theorem step_alive (a : Actor) (s next : State) (moved : i.step a s = some next) : s.alive = true := by
  unfold Invocation.step at moved
  split at moved
  · assumption
  · cases moved

theorem walker_moves (s next : State) (moved : stepWalker s = some next) : Move i s .walker next := by
  unfold stepWalker at moved
  split at moved
  case h_1 nothing =>
    split at moved
    · cases moved
    · rename_i opened
      cases moved
      exact .closeNames nothing (Bool.not_eq_true _ ▸ opened)
  case h_2 found rest first =>
    split at moved
    · rename_i room
      cases moved
      exact .sendName found rest first room
    · cases moved
  case h_3 rest first =>
    cases moved
    exact .crash rest first

theorem opener_moves (s next : State) (moved : stepOpener s = some next) : Move i s .opener next := by
  unfold stepOpener at moved
  split at moved
  case h_1 name content rest opener first =>
    cases moved
    exact .open_ name content rest opener first
  case h_2 name rest opener first =>
    cases moved
    exact .skip name rest opener first
  case h_3 opener nothing =>
    split at moved
    · rename_i closed
      cases moved
      exact .closeFiles opener nothing closed
    · cases moved
  case h_4 => cases moved

theorem grep_moves (s next : State) (k : Nat) (w : Worker) (moved : i.stepGrep s k w = some next) : GrepMove i s k w next := by
  unfold Invocation.stepGrep at moved
  split at moved
  case h_1 pc =>
    cases moved
    exact .count pc
  case h_2 => cases moved
  case h_3 pc =>
    split at moved
    case h_1 line rest read =>
      by_cases selected : i.re line = i.flags.match_
      · simp only [if_pos selected] at moved
        cases moved
        exact .select line rest pc read selected
      · simp only [if_neg selected] at moved
        cases moved
        rw [← pc]
        exact .skip line rest pc read selected
    case h_2 nothing =>
      cases moved
      exact .finish pc nothing
  case h_4 r pc =>
    split at moved
    · rename_i room
      cases moved
      exact .send r pc room _ rfl
    · cases moved
  case h_5 pc =>
    cases moved
    exact .close pc
  case h_6 => cases moved

theorem drain_moves (s next : State) (k : Nat) (w : Worker) (found : s.workers[k]? = some w) (main : s.main = .draining k)
    (moved : i.stepDrain s k w = some next) : Move i s .main next := by
  unfold Invocation.stepDrain at moved
  split at moved
  case h_1 r full =>
    split at moved
    · rename_i quiet
      cases moved
      exact .exitEarly k w r found main full quiet
    · rename_i loud
      cases moved
      exact .print k w r found main full (Bool.not_eq_true _ ▸ loud)
  case h_2 empty =>
    split at moved
    · rename_i closed
      cases moved
      exact .drained k w found main empty closed
    · cases moved

theorem main_moves (s next : State) (moved : i.stepMain s = some next) : Move i s .main next := by
  unfold Invocation.stepMain at moved
  split at moved
  case h_1 main =>
    split at moved
    case h_1 => cases moved
    case h_2 c opener =>
      cases moved
      exact .spawn c main opener
    case h_3 opener =>
      cases moved
      exact .spawned main opener
  case h_2 => cases moved
  case h_3 k main =>
    obtain ⟨w, found, inner⟩ := Option.bind_eq_some_iff.mp moved
    exact drain_moves i s next k w found main inner
  case h_4 main =>
    split at moved
    · rename_i zero
      cases moved
      exact .endLoop main zero _ rfl
    · rename_i more
      cases moved
      exact .continue_ main more
  case h_5 => cases moved
  case h_6 => cases moved

theorem step_moves (a : Actor) (s next : State) (moved : i.step a s = some next) : Move i s a next := by
  have alive := step_alive i a s next moved
  unfold Invocation.step at moved
  rw [if_pos alive] at moved
  cases a with
  | walker => exact walker_moves i s next moved
  | opener => exact opener_moves i s next moved
  | main => exact main_moves i s next moved
  | receive k =>
      obtain ⟨w, found, inner⟩ := Option.bind_eq_some_iff.mp moved
      rw [Invocation.stepReceive] at inner
      split at inner
      · rename_i both
        cases inner
        exact .receive k w found both.1 both.2
      · cases inner
  | grep k =>
      obtain ⟨w, found, inner⟩ := Option.bind_eq_some_iff.mp moved
      exact .grep k w found next (grep_moves i s next k w inner)

section Work

def Worker.work (w : Worker) : Nat :=
  w.res.toList.length + match w.pc with
    | .started => 3 * w.rest.count newline + 7
    | .announcing => 3 * w.rest.count newline + 6
    | .reading => 3 * w.rest.count newline + 2
    | .sending _ => 3 * w.rest.count newline + 4
    | .closing => 1
    | .closed => 0

def Found.work (found : Found) : Nat :=
  match found.opens with
  | some content => 3 * content.count newline + 9
  | none => 1

def Visit.work : Visit → Nat
  | .send found => found.work + 1
  | .panic => 1

def Opener.work : Opener → Nat
  | .waiting => 1
  | .sending c => 3 * c.content.count newline + 9
  | .closed => 0

def MainPc.work : MainPc → Nat
  | .spawning => 1
  | .receiving => 0
  | .draining _ => 2
  | .testing => 1
  | .ended => 0
  | .exited _ => 0

def State.work (s : State) : Nat :=
  (s.visits.map Visit.work).sum + (s.treenames.map Found.work).sum + (if s.namesClosed then 0 else 1) + s.opener.work +
    (s.workers.map Worker.work).sum + s.main.work

theorem set_loses {s : State} {k : Nat} {w new : Worker} (count : Int) (found : s.workers[k]? = some w)
    (less : new.work < w.work) : { s with nGrep := count, workers := s.workers.set k new }.work < s.work := by
  have changed := sum_set s.workers k w new found Worker.work
  simp only [State.work]
  omega

theorem grep_loses (s next : State) (k : Nat) (w : Worker) (found : s.workers[k]? = some w) (move : GrepMove i s k w next) :
    next.work < s.work := by
  cases move with
  | count pc =>
      refine set_loses _ found ?_
      simp only [Worker.work, pc]
      omega
  | select line rest pc read selected =>
      have fewer := read_string_count newline read
      refine set_loses _ found ?_
      simp only [Worker.work, pc]
      omega
  | skip line rest pc read other =>
      have fewer := read_string_count newline read
      refine set_loses _ found ?_
      simp only [Worker.work, pc]
      omega
  | finish pc nothing =>
      refine set_loses _ found ?_
      simp only [Worker.work, pc]
      omega
  | send r pc room pc' onward =>
      refine set_loses _ found ?_
      subst onward
      cases i.flags.noshowmatch <;>
        · simp only [Worker.work, pc, room, if_true, Bool.false_eq_true, if_false, Option.toList_some, Option.toList_none,
            List.length_singleton, List.length_nil]
          omega
  | close pc =>
      refine set_loses _ found ?_
      simp only [Worker.work, pc]
      omega

theorem step_loses (a : Actor) (s next : State) (moved : i.step a s = some next) : next.work < s.work := by
  cases step_moves i a s next moved with
  | closeNames nothing opened => simp [State.work, opened]
  | sendName found rest first room =>
      simp only [State.work, first, List.map_cons, List.sum_cons, List.map_append, List.sum_append, List.map_nil, List.sum_nil,
        Visit.work]
      omega
  | crash rest first =>
      simp only [State.work, first, List.map_cons, List.sum_cons, Visit.work]
      omega
  | open_ name content rest opener first =>
      simp only [State.work, first, opener, List.map_cons, List.sum_cons, Opener.work, Found.work]
      omega
  | skip name rest opener first =>
      simp only [State.work, first, List.map_cons, List.sum_cons, Found.work]
      omega
  | closeFiles opener nothing closed =>
      simp only [State.work, opener, Opener.work]
      omega
  | spawn c main opener =>
      simp only [State.work, opener, List.map_append, List.sum_append, List.map_cons, List.map_nil, List.sum_cons, List.sum_nil,
        Opener.work, newWorker, Worker.work, Option.toList_none, List.length_nil]
      omega
  | spawned main opener =>
      simp only [State.work, main, MainPc.work]
      omega
  | receive k w found main pc =>
      have changed := sum_set s.workers k w { w with pc := .reading } found Worker.work
      simp only [Worker.work, pc] at changed
      simp only [State.work, main, MainPc.work]
      omega
  | exitEarly k w r found main full quiet =>
      simp only [State.work, main, MainPc.work]
      omega
  | print k w r found main full loud =>
      refine set_loses s.nGrep found ?_
      simp [Worker.work, full]
  | drained k w found main empty closed =>
      simp only [State.work, main, MainPc.work]
      omega
  | endLoop main zero last quiet =>
      subst quiet
      cases i.flags.quiet <;> simp [State.work, main, MainPc.work]
  | continue_ main more =>
      simp only [State.work, main, MainPc.work]
      omega
  | grep k w found next move => exact grep_loses i s next k w found move

end Work

end URoot.Grep
