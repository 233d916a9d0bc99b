import URoot.Grep.Moves

set_option autoImplicit false

namespace URoot.Grep

open GoLib Lines

variable (i : Invocation)

section Pipeline

def Found.command (found : Found) : Option GrepCommand := found.opens.map (fun content => ⟨found.name, content⟩)

def Visit.command : Visit → Option GrepCommand
  | .send found => found.command
  | .panic => none

def Opener.held : Opener → List GrepCommand
  | .sending c => [c]
  | _ => []

def Invocation.opened : List GrepCommand :=
  if i.args = [] then [⟨str "<stdin>", i.stdin⟩] else i.visits.filterMap Visit.command

-- No opened file is lost or doubled on its way to a goroutine.
structure Pipeline (s : State) : Prop where
  files : s.workers.map Worker.command ++ s.opener.held ++ s.treenames.filterMap Found.command ++
    s.visits.filterMap Visit.command = i.opened
  spawned : s.main ≠ .spawning → s.opener = .closed
  opened : s.opener = .closed → s.treenames = [] ∧ s.namesClosed = true
  walked : s.namesClosed = true → s.visits = []

theorem set_commands (workers : List Worker) (k : Nat) (old new : Worker) (found : workers[k]? = some old)
    (same : new.command = old.command) : (workers.set k new).map Worker.command = workers.map Worker.command := by
  rw [List.map_set, same]
  apply List.ext_getElem?
  intro j
  rw [List.getElem?_set]
  split
  · rename_i here
    subst here
    split
    · rw [List.getElem?_map, found, Option.map_some]
    · rename_i outside
      rw [List.getElem?_eq_none (by omega)]
  · rfl

theorem pipeline_start : Pipeline i i.start := by
  rw [Invocation.start]
  split
  · rename_i empty
    refine ⟨?_, fun _ => rfl, fun _ => ⟨rfl, rfl⟩, fun _ => rfl⟩
    rw [Invocation.opened, if_pos empty]
    rfl
  · rename_i some_
    refine ⟨?_, fun other => absurd rfl other, fun impossible => (by cases impossible), fun impossible => (by cases impossible)⟩
    rw [Invocation.opened, if_neg some_]
    rfl

theorem pipeline_step (a : Actor) (s next : State) (before : Pipeline i s) (moved : i.step a s = some next) :
    Pipeline i next := by
  obtain ⟨files, spawned, opened, walked⟩ := before
  cases step_moves i a s next moved with
  | closeNames nothing opened' => exact ⟨files, spawned, fun closed => ⟨(opened closed).1, rfl⟩, fun _ => nothing⟩
  | sendName found rest first room =>
      have open_ : s.namesClosed ≠ true := fun closed => by
        rw [walked closed] at first
        cases first
      refine ⟨?_, spawned, fun closed => absurd (opened closed).2 open_, fun closed => absurd closed open_⟩
      rw [← files, first]
      cases sent : found.command <;> simp [sent, Visit.command]
  | crash rest first =>
      have open_ : s.namesClosed ≠ true := fun closed => by
        rw [walked closed] at first
        cases first
      refine ⟨?_, spawned, opened, fun closed => absurd closed open_⟩
      rw [← files, first]
      rfl
  | open_ name content rest opener first =>
      refine ⟨?_, fun past => ?_, fun impossible => (by cases impossible), walked⟩
      · rw [← files, first, opener]
        simp [Opener.held, Found.command]
      · rw [spawned past] at opener
        cases opener
  | skip name rest opener first =>
      refine ⟨?_, spawned, fun closed => ?_, walked⟩
      · rw [← files, first]
        rfl
      · rw [closed] at opener
        cases opener
  | closeFiles opener nothing closed =>
      refine ⟨?_, fun _ => rfl, fun _ => ⟨nothing, closed⟩, walked⟩
      rw [← files, opener]
      rfl
  | spawn c main opener =>
      refine ⟨?_, fun past => absurd main past, fun impossible => (by cases impossible), walked⟩
      rw [← files, opener]
      simp [Opener.held, newWorker]
  | spawned main opener => exact ⟨files, fun _ => opener, opened, walked⟩
  | receive k w found main pc =>
      refine ⟨?_, fun _ => spawned (by rw [main]; decide), opened, walked⟩
      rw [set_commands s.workers k w { w with pc := .reading } found rfl]
      exact files
  | exitEarly k w r found main full quiet => exact ⟨files, fun _ => spawned (by rw [main]; simp), opened, walked⟩
  | print k w r found main full loud =>
      refine ⟨?_, spawned, opened, walked⟩
      rw [set_commands s.workers k w { w with res := none } found rfl]
      exact files
  | drained k w found main empty closed => exact ⟨files, fun _ => spawned (by rw [main]; simp), opened, walked⟩
  | endLoop main zero last quiet => exact ⟨files, fun _ => spawned (by rw [main]; decide), opened, walked⟩
  | continue_ main more => exact ⟨files, fun _ => spawned (by rw [main]; decide), opened, walked⟩
  | grep k w found next move =>
      obtain ⟨new, count, rfl, same⟩ := grep_entry i move
      refine ⟨?_, spawned, opened, walked⟩
      rw [set_commands s.workers k w new found same]
      exact files

end Pipeline

section Entries

def Worker.announced (w : Worker) : Bool := w.pc = .announcing

def Worker.received (w : Worker) : Bool := w.pc ≠ .started ∧ w.pc ≠ .announcing

def MainPc.holds : MainPc → Nat
  | .draining _ => 1
  | _ => 0

-- The counter is the number of channels on offer and the one main is reading.
structure Tally (s : State) : Prop where
  count : s.nGrep = s.workers.countP Worker.announced + s.main.holds
  waits : s.main = .spawning → ∀ (k : Nat) w, s.workers[k]? = some w → w.received = false
  drains : ∀ k, s.main = .draining k → ∃ w, s.workers[k]? = some w ∧ w.received = true
  others : ∀ (k : Nat) w, s.workers[k]? = some w → w.received = true →
    s.main = .draining k ∨ (w.pc = .closed ∧ w.res = none)
  loops : s.main = .receiving →
    (∀ (k : Nat) w, s.workers[k]? = some w → w.received = false) ∨ 0 < s.workers.countP Worker.announced
  leaves : s.main = .testing ∨ s.main = .ended → ∃ (k : Nat) (w : Worker), s.workers[k]? = some w ∧ w.received = true

theorem tally_start : Tally i.start := by
  rw [Invocation.start]
  split
  · have fresh : ∀ (k : Nat) w, [newWorker ⟨str "<stdin>", i.stdin⟩][k]? = some w → w.received = false := by
      intro k w found
      rw [List.mem_singleton.mp (List.mem_of_getElem? found)]
      rfl
    exact ⟨rfl, fun _ => fresh, fun k impossible => (by cases impossible),
      fun k w found taken => (by rw [fresh k w found] at taken; cases taken), fun _ => Or.inl fresh,
      fun impossible => (by simp at impossible)⟩
  · exact ⟨rfl, fun _ k w found => (by cases found), fun k impossible => (by cases impossible),
      fun k w found => (by cases found), fun impossible => (by cases impossible), fun impossible => (by simp at impossible)⟩

theorem lookup_snoc {workers : List Worker} {new w : Worker} {k : Nat} (found : (workers ++ [new])[k]? = some w) :
    w = new ∨ workers[k]? = some w := by
  rw [List.getElem?_append] at found
  split at found
  · exact Or.inr found
  · have there := List.mem_of_getElem? found
    exact Or.inl (List.mem_singleton.mp there)

section Moves

variable {s : State} (before : Tally s)

include before

section Entry

variable {k : Nat} {w : Worker} (found : s.workers[k]? = some w)

include found

theorem tally_set {new : Worker} (received : new.received = w.received) (held : w.received = true → s.main = .draining k)
    (grows : s.workers.countP Worker.announced ≤ (s.workers.set k new).countP Worker.announced) (count : Int)
    (tally : count = (s.workers.set k new).countP Worker.announced + s.main.holds) (printed : List (Nat × Bytes)) :
    Tally { s with nGrep := count, workers := s.workers.set k new, printed := printed } := by
  have still := lookup_set_same s.workers k w new found
  have fresh (all : ∀ (j : Nat) v, s.workers[j]? = some v → v.received = false) (j : Nat) (v : Worker)
      (there : (s.workers.set k new)[j]? = some v) : v.received = false := by
    rcases lookup_set there with ⟨_, rfl⟩ | ⟨_, same⟩
    · rw [received, all k w found]
    · exact all j v same
  have kept (j : Nat) (v : Worker) (there : s.workers[j]? = some v) (taken : v.received = true) :
      ∃ v', (s.workers.set k new)[j]? = some v' ∧ v'.received = true := by
    by_cases same : j = k
    · subst same
      rw [found] at there
      cases there
      exact ⟨new, still, received.trans taken⟩
    · exact ⟨v, by rw [List.getElem?_set_ne (fun equal => same equal.symm)]; exact there, taken⟩
  refine ⟨tally, fun main => fresh (before.waits main), fun j main => ?_, fun j v there taken => ?_,
    fun main => (before.loops main).imp fresh (fun some_ => Nat.lt_of_lt_of_le some_ grows), fun main => ?_⟩
  · obtain ⟨v, there, taken⟩ := before.drains j main
    exact kept j v there taken
  · rcases lookup_set there with ⟨rfl, rfl⟩ | ⟨_, same⟩
    · exact Or.inl (held (received ▸ taken))
    · exact before.others j v same taken
  · obtain ⟨j, v, there, taken⟩ := before.leaves main
    exact ⟨j, kept j v there taken⟩

theorem tally_same (new : Worker) (announced : new.announced = w.announced) (received : new.received = w.received)
    (held : w.received = true → s.main = .draining k) (printed : List (Nat × Bytes)) :
    Tally { s with workers := s.workers.set k new, printed := printed } := by
  have changed := count_set s.workers k w new found Worker.announced
  rw [announced, Nat.add_right_cancel_iff] at changed
  exact tally_set before found received held (Nat.le_of_eq changed.symm) s.nGrep (by rw [changed]; exact before.count)
    printed

theorem tally_grep {next : State} (move : GrepMove i s k w next) : Tally next := by
  -- main reads from a goroutine that it has received and that has not closed its channel
  have held (running : w.pc ≠ .closed) (taken : w.received = true) : s.main = .draining k := by
    rcases before.others k w found taken with here | ⟨closed, _⟩
    · exact here
    · exact absurd closed running
  cases move with
  | count pc =>
      have changed := count_set s.workers k w { w with pc := .announcing } found Worker.announced
      simp only [Worker.announced, pc, decide_true, if_true, reduceCtorEq, decide_false, Bool.false_eq_true, if_false] at changed
      have count := before.count
      exact tally_set before found (by simp [Worker.received, pc]) (held (by simp [pc])) (by omega) _ (by omega) s.printed
  | select line rest pc read selected =>
      exact tally_same before found _ (by simp [Worker.announced, pc]) (by simp [Worker.received, pc])
        (held (by simp [pc])) s.printed
  | skip line rest pc read other =>
      exact tally_same before found { w with rest := rest } rfl rfl (held (by simp [pc])) s.printed
  | finish pc nothing =>
      exact tally_same before found _ (by simp [Worker.announced, pc]) (by simp [Worker.received, pc])
        (held (by simp [pc])) s.printed
  | send r pc room pc' onward =>
      refine tally_same before found _ ?_ ?_ (held (by simp [pc])) s.printed
      · subst onward
        cases i.flags.noshowmatch <;> simp [Worker.announced, pc]
      · subst onward
        cases i.flags.noshowmatch <;> simp [Worker.received, pc]
  | close pc =>
      exact tally_same before found _ (by simp [Worker.announced, pc]) (by simp [Worker.received, pc])
        (held (by simp [pc])) s.printed

end Entry

theorem received_closed (idle : ∀ k, s.main ≠ .draining k) (j : Nat) (v : Worker)
    (there : s.workers[j]? = some v) (taken : v.received = true) : v.pc = .closed ∧ v.res = none := by
  rcases before.others j v there taken with here | done
  · exact absurd here (idle j)
  · exact done

theorem tally_spawn (c : GrepCommand) (main : s.main = .spawning) (opener : Opener) :
    Tally { s with opener := opener, workers := s.workers ++ [newWorker c] } := by
  have fresh (j : Nat) (v : Worker) (there : (s.workers ++ [newWorker c])[j]? = some v) : v.received = false := by
    rcases lookup_snoc there with rfl | old
    · rfl
    · exact before.waits main j v old
  refine ⟨?_, fun _ => fresh, fun k draining => ?_, fun j v there taken => ?_, fun receiving => ?_, fun leaving => ?_⟩
  · rw [List.countP_append, List.countP_singleton]
    exact before.count
  · rw [main] at draining
    cases draining
  · rw [fresh j v there] at taken
    cases taken
  · rw [main] at receiving
    cases receiving
  · rw [main] at leaving
    simp at leaving

theorem tally_spawned (main : s.main = .spawning) : Tally { s with main := .receiving } := by
  have count := before.count
  rw [main] at count
  refine ⟨count, fun impossible => (by cases impossible), fun k impossible => (by cases impossible),
    fun j v there taken => ?_, fun _ => Or.inl (before.waits main), fun impossible => (by simp at impossible)⟩
  rw [before.waits main j v there] at taken
  cases taken

theorem tally_receive {k : Nat} {w : Worker} (found : s.workers[k]? = some w) (main : s.main = .receiving)
    (pc : w.pc = .announcing) :
    Tally { s with main := .draining k, workers := s.workers.set k { w with pc := .reading } } := by
  have count := before.count
  have changed := count_set s.workers k w { w with pc := .reading } found Worker.announced
  simp only [Worker.announced, pc, decide_true, if_true, reduceCtorEq, decide_false, Bool.false_eq_true, if_false] at changed
  rw [main] at count
  simp only [MainPc.holds] at count
  refine ⟨?_, fun impossible => (by cases impossible), fun j draining => ?_, fun j v there taken => ?_,
    fun impossible => (by cases impossible), fun impossible => (by simp at impossible)⟩
  · simp only [MainPc.holds]
    omega
  · cases draining
    exact ⟨_, lookup_set_same s.workers k w _ found, rfl⟩
  · rcases lookup_set there with ⟨rfl, _⟩ | ⟨_, same⟩
    · exact Or.inl rfl
    · exact Or.inr (received_closed before (by simp [main]) j v same taken)

theorem tally_drained {k : Nat} {w : Worker} (found : s.workers[k]? = some w) (main : s.main = .draining k)
    (empty : w.res = none) (closed : w.pc = .closed) :
    Tally { s with nGrep := s.nGrep - 1, main := .testing } := by
  have count := before.count
  rw [main] at count
  simp only [MainPc.holds] at count
  refine ⟨?_, fun impossible => (by cases impossible), fun j impossible => (by cases impossible), fun j v there taken => ?_,
    fun impossible => (by cases impossible), fun _ => ⟨k, w, found, by simp [Worker.received, closed]⟩⟩
  · simp only [MainPc.holds]
    omega
  · rcases before.others j v there taken with here | done
    · rw [main] at here
      cases here
      rw [found] at there
      cases there
      exact Or.inr ⟨closed, empty⟩
    · exact Or.inr done

theorem tally_ended (main : s.main = .testing) : Tally { s with main := .ended } := by
  have count := before.count
  rw [main] at count
  exact ⟨count, fun impossible => (by cases impossible), fun j impossible => (by cases impossible),
    fun j v there taken => Or.inr (received_closed before (by simp [main]) j v there taken),
    fun impossible => (by cases impossible), fun _ => before.leaves (Or.inl main)⟩

theorem tally_continue (main : s.main = .testing) (more : s.nGrep ≠ 0) : Tally { s with main := .receiving } := by
  have count := before.count
  rw [main] at count
  simp only [MainPc.holds] at count
  exact ⟨by rw [count]; rfl, fun impossible => (by cases impossible), fun j impossible => (by cases impossible),
    fun j v there taken => Or.inr (received_closed before (by simp [main]) j v there taken),
    fun _ => Or.inr (by dsimp only; omega), fun impossible => (by simp at impossible)⟩

end Moves

theorem tally_step (loud : i.flags.quiet = false) (a : Actor) (s next : State) (before : Tally s)
    (moved : i.step a s = some next) : Tally next := by
  cases step_moves i a s next moved with
  | closeNames | sendName | crash | open_ | skip | closeFiles =>
      exact ⟨before.count, before.waits, before.drains, before.others, before.loops, before.leaves⟩
  | spawn c main opener => exact tally_spawn before c main _
  | spawned main opener => exact tally_spawned before main
  | receive k w found main pc => exact tally_receive before found main pc
  | exitEarly k w r found main full quiet =>
      rw [loud] at quiet
      cases quiet
  | print k w r found main full _ =>
      exact tally_same before found { w with res := none } rfl rfl (fun _ => main) _
  | drained k w found main empty closed => exact tally_drained before found main empty closed
  | endLoop main zero last quiet =>
      rw [loud] at quiet
      subst quiet
      exact tally_ended before main
  | continue_ main more => exact tally_continue before main more
  | grep k w found next move => exact tally_grep i before found move

end Entries

section Ledger

def Invocation.selects (text : Bytes) : List Bytes := (pieces newline text).filter (fun line => i.re line = i.flags.match_)

-- Those of them that a newline ends: the ones ReadString returns without an error.
def Invocation.taken (text : Bytes) : List Bytes := (i.selects text).filter (fun line => newline ∈ line)

def Invocation.text (name line : Bytes) : Bytes := (if i.showname then name ++ str ":" else []) ++ line

def linesOf (printed : List (Nat × Bytes)) (k : Nat) : List Bytes := (printed.filter (fun entry => entry.1 = k)).map Prod.snd

def State.printedOf (s : State) (k : Nat) : List Bytes := linesOf s.printed k

def Worker.pending (w : Worker) : List GrepResult :=
  w.res.toList ++ match w.pc with
    | .sending r => [r]
    | _ => []

theorem print_text (lists : i.flags.noshowmatch = false) (name line : Bytes) (selected : i.re line = i.flags.match_) :
    i.printmatch ⟨i.re line, name, line⟩ = i.text name line := by
  simp only [Invocation.printmatch, Invocation.text, lists, selected, Bool.false_eq_true, if_false, if_true]
  cases i.showname <;> simp

theorem selects_read {text line rest : Bytes} (read : readString newline text = some (line, rest)) :
    i.selects text = if i.re line = i.flags.match_ then line :: i.selects rest else i.selects rest := by
  rw [Invocation.selects, pieces_read newline text line rest read, List.filter_cons]
  simp only [decide_eq_true_eq]
  rfl

theorem taken_selected (text line rest : Bytes) (read : readString newline text = some (line, rest))
    (selected : i.re line = i.flags.match_) : i.taken text = line :: i.taken rest := by
  obtain ⟨front, _, rfl, _⟩ := read_string_inv newline text line rest read
  rw [Invocation.taken, selects_read i read, if_pos selected, List.filter_cons_of_pos (by simp)]
  rfl

theorem taken_skipped (text line rest : Bytes) (read : readString newline text = some (line, rest))
    (other : i.re line ≠ i.flags.match_) : i.taken text = i.taken rest := by
  rw [Invocation.taken, selects_read i read, if_neg other]
  rfl

theorem taken_end (text : Bytes) (nothing : readString newline text = none) : i.taken text = [] := by
  refine List.filter_eq_nil_iff.mpr (fun line there => ?_)
  rw [decide_eq_true_eq]
  exact pieces_unended newline text nothing line (List.mem_of_mem_filter there)

-- What main has printed for a goroutine, what the goroutine holds and what it has not read
-- make up what it reads.
structure Ledger (s : State) : Prop where
  lines : ∀ (k : Nat) w, s.workers[k]? = some w →
    s.printedOf k ++ w.pending.map i.printmatch ++ (i.taken w.rest).map (i.text w.command.name) =
      (i.taken w.command.content).map (i.text w.command.name)
  fresh : ∀ (k : Nat) w, s.workers[k]? = some w → w.received = false → w.res = none ∧ w.rest = w.command.content
  drained : ∀ (k : Nat) w, s.workers[k]? = some w → w.pc = .closing ∨ w.pc = .closed → i.taken w.rest = []
  silent : s.main = .spawning → s.printed = []

theorem new_worker_ledger (s : State) (k : Nat) (c : GrepCommand) (silent : s.printed = []) :
    s.printedOf k ++ (newWorker c).pending.map i.printmatch ++ (i.taken (newWorker c).rest).map (i.text (newWorker c).command.name) =
      (i.taken (newWorker c).command.content).map (i.text (newWorker c).command.name) := by
  rw [State.printedOf, silent]
  rfl

theorem ledger_start : Ledger i i.start := by
  rw [Invocation.start]
  split
  · -- the one goroutine of the standard input is a new one
    have only (k : Nat) (w : Worker) (found : [newWorker ⟨str "<stdin>", i.stdin⟩][k]? = some w) :
        w = newWorker ⟨str "<stdin>", i.stdin⟩ := List.mem_singleton.mp (List.mem_of_getElem? found)
    refine ⟨fun k w found => ?_, fun k w found _ => ?_, fun k w found closed => ?_, fun _ => rfl⟩
    · rw [only k w found]
      exact new_worker_ledger i _ k _ rfl
    · rw [only k w found]
      exact ⟨rfl, rfl⟩
    · rw [only k w found] at closed
      simp [newWorker] at closed
  · exact ⟨fun k w found => (by cases found), fun k w found => (by cases found), fun k w found => (by cases found), fun _ => rfl⟩

theorem ledger_set (s : State) (k : Nat) (w new : Worker) (found : s.workers[k]? = some w) (before : Ledger i s)
    (lines : s.printedOf k ++ new.pending.map i.printmatch ++ (i.taken new.rest).map (i.text new.command.name) =
      (i.taken new.command.content).map (i.text new.command.name))
    (fresh : new.received = false → new.res = none ∧ new.rest = new.command.content)
    (drained : new.pc = .closing ∨ new.pc = .closed → i.taken new.rest = []) (count : Int) (main : MainPc)
    (silent : main = .spawning → s.printed = []) :
    Ledger i { s with nGrep := count, main := main, workers := s.workers.set k new } := by
  refine ⟨fun j v there => ?_, fun j v there => ?_, fun j v there => ?_, silent⟩
  · rcases lookup_set there with ⟨rfl, rfl⟩ | ⟨_, same⟩
    · exact lines
    · exact before.lines j v same
  · rcases lookup_set there with ⟨rfl, rfl⟩ | ⟨_, same⟩
    · exact fresh
    · exact before.fresh j v same
  · rcases lookup_set there with ⟨rfl, rfl⟩ | ⟨_, same⟩
    · exact drained
    · exact before.drained j v same

theorem ledger_grep (lists : i.flags.noshowmatch = false) (s next : State) (k : Nat) (w : Worker)
    (found : s.workers[k]? = some w) (move : GrepMove i s k w next) (before : Ledger i s) : Ledger i next := by
  have lines := before.lines k w found
  have fresh := before.fresh k w found
  cases move with
  | count pc =>
      simp only [Worker.pending, pc] at lines
      exact ledger_set i s k w { w with pc := .announcing } found before lines
        (fun _ => fresh (by simp [Worker.received, pc])) (fun closed => (by simp at closed)) _ s.main before.silent
  | select line rest pc read selected =>
      refine ledger_set i s k w _ found before ?_ (fun still => (by simp [Worker.received] at still))
        (fun closed => (by simp at closed)) s.nGrep s.main before.silent
      rw [taken_selected i w.rest line rest read selected] at lines
      simp only [Worker.pending, pc, List.append_nil, List.map_cons] at lines
      simp only [Worker.pending, List.map_append, List.map_cons, List.map_nil, print_text i lists _ line selected, ← lines]
      simp
  | skip line rest pc read other =>
      rw [taken_skipped i w.rest line rest read other] at lines
      exact ledger_set i s k w { w with rest := rest } found before lines (fun still => (by simp [Worker.received, pc] at still))
        (fun closed => (by simp [pc] at closed)) s.nGrep s.main before.silent
  | finish pc nothing =>
      simp only [Worker.pending, pc] at lines
      exact ledger_set i s k w { w with pc := .closing } found before lines
        (fun still => (by simp [Worker.received] at still)) (fun _ => taken_end i w.rest nothing) s.nGrep s.main before.silent
  | send r pc room pc' onward =>
      rw [lists] at onward
      subst onward
      simp only [Worker.pending, pc, room] at lines
      exact ledger_set i s k w { w with res := some r, pc := .reading } found before lines
        (fun still => (by simp [Worker.received] at still)) (fun closed => (by simp at closed)) s.nGrep s.main before.silent
  | close pc =>
      simp only [Worker.pending, pc] at lines
      exact ledger_set i s k w { w with pc := .closed } found before lines
        (fun still => (by simp [Worker.received] at still)) (fun _ => before.drained k w found (Or.inl pc)) s.nGrep s.main
        before.silent

theorem lines_snoc (printed : List (Nat × Bytes)) (k j : Nat) (text : Bytes) :
    linesOf (printed ++ [(k, text)]) j = linesOf printed j ++ if k = j then [text] else [] := by
  simp only [linesOf, List.filter_append, List.map_append]
  by_cases same : k = j <;> simp [same]

theorem ledger_print (s : State) (k : Nat) (w : Worker) (r : GrepResult) (found : s.workers[k]? = some w)
    (full : w.res = some r) (main : s.main = .draining k) (before : Ledger i s) :
    Ledger i { s with workers := s.workers.set k { w with res := none }, printed := s.printed ++ [(k, i.printmatch r)] } := by
  refine ⟨fun j v there => ?_, fun j v there => ?_, fun j v there => ?_, fun spawning => ?_⟩
  · rw [State.printedOf, lines_snoc]
    rcases lookup_set there with ⟨rfl, rfl⟩ | ⟨other, same⟩
    · have lines := before.lines j w found
      simp only [Worker.pending, full] at lines
      rw [if_pos rfl, ← lines]
      simp [Worker.pending, State.printedOf]
    · rw [if_neg (fun equal => other equal.symm), List.append_nil]
      exact before.lines j v same
  · rcases lookup_set there with ⟨rfl, rfl⟩ | ⟨_, same⟩
    · intro still
      rw [(before.fresh j w found still).1] at full
      cases full
    · exact before.fresh j v same
  · rcases lookup_set there with ⟨rfl, rfl⟩ | ⟨_, same⟩
    · exact before.drained j w found
    · exact before.drained j v same
  · rw [main] at spawning
    cases spawning

theorem ledger_step (lists : i.flags.noshowmatch = false) (a : Actor) (s next : State) (before : Ledger i s)
    (moved : i.step a s = some next) : Ledger i next := by
  cases step_moves i a s next moved with
  | closeNames | sendName | crash | open_ | skip | closeFiles =>
      exact ⟨before.lines, before.fresh, before.drained, before.silent⟩
  | spawn c main opener =>
      refine ⟨fun j v there => ?_, fun j v there => ?_, fun j v there => ?_, before.silent⟩
      · rcases lookup_snoc there with rfl | old
        · exact new_worker_ledger i s j c (before.silent main)
        · exact before.lines j v old
      · rcases lookup_snoc there with rfl | old
        · exact fun _ => ⟨rfl, rfl⟩
        · exact before.fresh j v old
      · rcases lookup_snoc there with rfl | old
        · exact fun closed => (by simp [newWorker] at closed)
        · exact before.drained j v old
  | spawned | exitEarly | drained | continue_ =>
      exact ⟨before.lines, before.fresh, before.drained, fun impossible => (by cases impossible)⟩
  | receive k w found main pc =>
      have lines := before.lines k w found
      simp only [Worker.pending, pc] at lines
      exact ledger_set i s k w { w with pc := .reading } found before lines
        (fun still => (by simp [Worker.received] at still)) (fun closed => (by simp at closed)) s.nGrep (.draining k)
        (fun impossible => (by cases impossible))
  | print k w r found main full loud => exact ledger_print i s k w r found full main before
  | endLoop main zero last quiet =>
      refine ⟨before.lines, before.fresh, before.drained, fun impossible => ?_⟩
      subst quiet
      cases chosen : i.flags.quiet <;> simp [chosen] at impossible
  | grep k w found next move => exact ledger_grep i lists s next k w found move before

end Ledger

end URoot.Grep
