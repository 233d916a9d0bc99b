import URoot.Grep.Invariant

set_option autoImplicit false

namespace URoot.Grep

open GoLib Lines

variable (i : Invocation)

section Invariant

structure Sound (s : State) : Prop where
  pipeline : Pipeline i s
  tally : Tally s
  ledger : Ledger i s

variable (loud : i.flags.quiet = false) (lists : i.flags.noshowmatch = false)

include loud lists

theorem sound_step (a : Actor) (s next : State) (before : Sound i s) (moved : i.step a s = some next) : Sound i next :=
  ⟨pipeline_step i a s next before.pipeline moved, tally_step i loud a s next before.tally moved,
    ledger_step i lists a s next before.ledger moved⟩

theorem sound_reachable (s : State) (reach : Reachable i.step i.start s) : Sound i s :=
  reachable_invariant i.step (Sound i) (sound_step i loud lists) i.start s
    ⟨pipeline_start i, tally_start i, ledger_start i⟩ reach

end Invariant

section Crash

structure Doomed (s : State) : Prop where
  panic : s.crashed = true ∨ Visit.panic ∈ s.visits
  main : s.main = .spawning

theorem doomed_step (a : Actor) (s next : State) (pipeline : Pipeline i s) (before : Doomed s)
    (moved : i.step a s = some next) : Doomed next := by
  have alive := step_alive i a s next moved
  have ahead : Visit.panic ∈ s.visits := by
    rcases before.panic with crashed | ahead
    · rw [State.alive, crashed] at alive
      cases alive
    · exact ahead
  have walking : s.namesClosed ≠ true := fun closed => by
    rw [pipeline.walked closed] at ahead
    cases ahead
  have main := before.main
  cases step_moves i a s next moved with
  | closeNames nothing opened =>
      rw [nothing] at ahead
      cases ahead
  | sendName found rest first room =>
      rw [first] at ahead
      rcases List.mem_cons.mp ahead with same | later
      · cases same
      · exact ⟨Or.inr later, main⟩
  | crash rest first => exact ⟨Or.inl rfl, main⟩
  | closeFiles opener nothing closed => exact absurd closed walking
  | spawned _ opener => exact absurd (pipeline.opened opener).2 walking
  | grep k w found next move =>
      obtain ⟨new, count, rfl, _⟩ := grep_entry i move
      exact ⟨before.panic, main⟩
  | open_ | skip | spawn => exact ⟨before.panic, main⟩
  | receive k w found other | exitEarly k w r found other | print k w r found other | drained k w found other =>
      rw [main] at other
      cases other
  | endLoop other | continue_ other =>
      rw [main] at other
      cases other

theorem safe_step (a : Actor) (s next : State) (before : s.crashed = false ∧ Visit.panic ∉ s.visits)
    (moved : i.step a s = some next) : next.crashed = false ∧ Visit.panic ∉ next.visits := by
  cases step_moves i a s next moved with
  | sendName found rest first room =>
      refine ⟨before.1, fun ahead => before.2 ?_⟩
      rw [first]
      exact List.mem_cons_of_mem _ ahead
  | crash rest first =>
      rw [first] at before
      exact absurd List.mem_cons_self before.2
  | grep k w found next move =>
      obtain ⟨new, count, rfl, _⟩ := grep_entry i move
      exact before
  | closeNames | open_ | skip | closeFiles | spawn | spawned | receive | exitEarly | print | drained | endLoop | continue_ =>
      exact before

theorem exited_step (loud : i.flags.quiet = false) (a : Actor) (s next : State) (before : ∀ code, s.main ≠ .exited code)
    (moved : i.step a s = some next) : ∀ code, next.main ≠ .exited code := by
  cases step_moves i a s next moved with
  | exitEarly k w r found main full quiet =>
      rw [loud] at quiet
      cases quiet
  | endLoop main zero last quiet =>
      rw [loud] at quiet
      subst quiet
      simp
  | grep k w found next move =>
      obtain ⟨new, count, rfl, _⟩ := grep_entry i move
      exact before
  | spawned | receive | drained | continue_ => simp
  | closeNames | sendName | crash | open_ | skip | closeFiles | spawn | print => exact before

theorem start_visits : i.start.visits = i.visits := by
  rw [Invocation.start]
  split
  · rename_i empty
    rw [Invocation.visits, empty, List.flatMap_nil]
  · rfl

theorem start_running : i.start.crashed = false ∧ ∀ code, i.start.main ≠ .exited code := by
  rw [Invocation.start]
  split <;> exact ⟨rfl, fun code => by simp⟩

theorem safe_reachable (safe : Visit.panic ∉ i.visits) (s : State) (reach : Reachable i.step i.start s) : s.crashed = false :=
  (reachable_invariant i.step (fun s => s.crashed = false ∧ Visit.panic ∉ s.visits) (safe_step i) i.start s
    ⟨(start_running i).1, start_visits i ▸ safe⟩ reach).1

theorem doomed_reachable (panics : Visit.panic ∈ i.visits) (s : State) (reach : Reachable i.step i.start s) : Doomed s := by
  have walked : i.args ≠ [] := by
    intro empty
    rw [Invocation.visits, empty, List.flatMap_nil] at panics
    cases panics
  have start : Doomed i.start := by
    rw [Invocation.start, if_neg walked]
    exact ⟨Or.inr panics, rfl⟩
  exact (reachable_invariant i.step (fun s => Pipeline i s ∧ Doomed s)
    (fun a s next before moved => ⟨pipeline_step i a s next before.1 moved, doomed_step i a s next before.1 before.2 moved⟩)
    i.start s ⟨pipeline_start i, start⟩ reach).2

theorem stays_reachable (loud : i.flags.quiet = false) (s : State) (reach : Reachable i.step i.start s) (code : Nat) :
    s.main ≠ .exited code :=
  reachable_invariant i.step (fun s => ∀ code, s.main ≠ .exited code) (exited_step i loud) i.start s (start_running i).2
    reach code

end Crash

section Progress

variable (s : State) (alive : s.alive = true)

def Invocation.Enabled (a : Actor) : Prop := ∃ next, i.step a s = some next

include alive

theorem step_main : i.step .main s = i.stepMain s := by
  unfold Invocation.step
  rw [if_pos alive]

theorem step_walker : i.step .walker s = stepWalker s := by
  unfold Invocation.step
  rw [if_pos alive]

theorem step_opener : i.step .opener s = stepOpener s := by
  unfold Invocation.step
  rw [if_pos alive]

theorem step_grep (k : Nat) (w : Worker) (found : s.workers[k]? = some w) : i.step (.grep k) s = i.stepGrep s k w := by
  unfold Invocation.step
  rw [if_pos alive]
  dsimp only
  rw [found, Option.bind_some]

theorem step_receive (k : Nat) (w : Worker) (found : s.workers[k]? = some w) : i.step (.receive k) s = Invocation.stepReceive s k w := by
  unfold Invocation.step
  rw [if_pos alive]
  dsimp only
  rw [found, Option.bind_some]

theorem spawning_moves (main : s.main = .spawning) :
    i.Enabled s .walker ∨ i.Enabled s .opener ∨ i.Enabled s .main := by
  rw [Invocation.Enabled, Invocation.Enabled, Invocation.Enabled, step_main i s alive, step_walker i s alive,
    step_opener i s alive]
  cases opener : s.opener with
  | sending c => exact Or.inr (Or.inr (by simp [Invocation.stepMain, main, opener]))
  | closed => exact Or.inr (Or.inr (by simp [Invocation.stepMain, main, opener]))
  | waiting =>
      cases names : s.treenames with
      | cons found rest =>
          rcases found with ⟨name, _ | content⟩
          · exact Or.inr (Or.inl (by simp [stepOpener, opener, names]))
          · exact Or.inr (Or.inl (by simp [stepOpener, opener, names]))
      | nil =>
          cases closed : s.namesClosed with
          | true => exact Or.inr (Or.inl (by simp [stepOpener, opener, names, closed]))
          | false =>
              left
              cases visits : s.visits with
              | nil => simp [stepWalker, visits, closed]
              | cons first rest => cases first <;> simp [stepWalker, visits, names, treenamesSize]

theorem draining_moves (k : Nat) (main : s.main = .draining k) (tally : Tally s) :
    i.Enabled s .main ∨ i.Enabled s (.grep k) := by
  obtain ⟨w, found, taken⟩ := tally.drains k main
  rw [Invocation.Enabled, Invocation.Enabled, step_main i s alive, step_grep i s alive k w found]
  cases res : w.res with
  | some r =>
      left
      simp only [Invocation.stepMain, main, found, Option.bind_some, Invocation.stepDrain, res]
      split <;> exact ⟨_, rfl⟩
  | none =>
      cases pc : w.pc with
      | started => simp [Worker.received, pc] at taken
      | announcing => simp [Worker.received, pc] at taken
      | reading =>
          right
          simp only [Invocation.stepGrep, pc]
          split <;> exact ⟨_, rfl⟩
      | sending r => exact Or.inr (by simp [Invocation.stepGrep, pc, res])
      | closing => exact Or.inr (by simp [Invocation.stepGrep, pc])
      | closed => exact Or.inl (by simp [Invocation.stepMain, main, found, Invocation.stepDrain, res, pc])

theorem testing_moves (main : s.main = .testing) : i.Enabled s .main := by
  rw [Invocation.Enabled, step_main i s alive]
  simp only [Invocation.stepMain, main]
  split <;> exact ⟨_, rfl⟩

theorem started_moves (k : Nat) (w : Worker) (found : s.workers[k]? = some w) (pc : w.pc = .started) :
    i.Enabled s (.grep k) := by
  rw [Invocation.Enabled, step_grep i s alive k w found]
  simp [Invocation.stepGrep, pc]

theorem announcing_moves (main : s.main = .receiving) (k : Nat) (w : Worker) (found : s.workers[k]? = some w)
    (pc : w.pc = .announcing) : i.Enabled s (.receive k) := by
  rw [Invocation.Enabled, step_receive i s alive k w found]
  simp [Invocation.stepReceive, main, pc]

end Progress

section Ends

variable (s : State)

theorem alive_of (safe : s.crashed = false) (stays : ∀ code, s.main ≠ .exited code) (other : s.main ≠ .ended) :
    s.alive = true := by
  rw [State.alive, safe]
  cases main : s.main with
  | ended => exact absurd main other
  | exited code => exact absurd main (stays code)
  | spawning | receiving | testing => rfl
  | draining k => rfl

theorem stuck_disabled (stuck : Stuck i.step s) (a : Actor) : ¬ i.Enabled s a := by
  intro ⟨next, moved⟩
  rw [stuck a] at moved
  cases moved

theorem spawned_all (pipeline : Pipeline i s) (past : s.main ≠ .spawning) : s.workers.map Worker.command = i.opened := by
  have closed := pipeline.spawned past
  obtain ⟨names, namesClosed⟩ := pipeline.opened closed
  have files := pipeline.files
  rw [closed, names, pipeline.walked namesClosed] at files
  simpa [Opener.held] using files

theorem stuck_ends (sound : Sound i s) (safe : s.crashed = false) (stays : ∀ code, s.main ≠ .exited code)
    (some_ : i.opened ≠ []) (stuck : Stuck i.step s) : s.main = .ended := by
  by_contra other
  have alive := alive_of s safe stays other
  have disabled := stuck_disabled i s stuck
  have none_ : ∀ (k : Nat) w, s.workers[k]? = some w → w.pc ≠ .started :=
    fun k w found pc => disabled _ (started_moves i s alive k w found pc)
  cases main : s.main with
  | ended => exact other main
  | exited code => exact stays code main
  | spawning =>
      rcases spawning_moves i s alive main with move | move | move
      · exact disabled _ move
      · exact disabled _ move
      · exact disabled _ move
  | draining k =>
      rcases draining_moves i s alive k main sound.tally with move | move
      · exact disabled _ move
      · exact disabled _ move
  | testing => exact disabled _ (testing_moves i s alive main)
  | receiving =>
      have offered : ∀ (k : Nat) w, s.workers[k]? = some w → w.pc ≠ .announcing :=
        fun k w found pc => disabled _ (announcing_moves i s alive main k w found pc)
      rcases sound.tally.loops main with fresh | announced
      · have workers : s.workers = [] := by
          refine List.eq_nil_iff_forall_not_mem.mpr (fun w there => ?_)
          obtain ⟨k, found⟩ := List.mem_iff_getElem?.mp there
          have taken : w.received = true := by simp [Worker.received, none_ k w found, offered k w found]
          rw [fresh k w found] at taken
          cases taken
        have all := spawned_all i s sound.pipeline (by rw [main]; decide)
        rw [workers] at all
        exact some_ all.symm
      · obtain ⟨w, there, pc⟩ := List.countP_pos_iff.mp announced
        obtain ⟨k, found⟩ := List.mem_iff_getElem?.mp there
        exact offered k w found (by simpa [Worker.announced] using pc)

theorem ended_printed (sound : Sound i s) (main : s.main = .ended) (k : Nat) (c : GrepCommand)
    (file : i.opened[k]? = some c) :
    ∃ w, s.workers[k]? = some w ∧ w.command = c ∧
      ((w.received = true ∧ s.printedOf k = (i.taken c.content).map (i.text c.name)) ∨
        (w.received = false ∧ s.printedOf k = [])) := by
  rw [← spawned_all i s sound.pipeline (by rw [main]; decide), List.getElem?_map] at file
  obtain ⟨w, found, rfl⟩ := Option.map_eq_some_iff.mp file
  have lines := sound.ledger.lines k w found
  refine ⟨w, found, rfl, ?_⟩
  cases taken : w.received with
  | true =>
      rcases sound.tally.others k w found taken with draining | ⟨closed, empty⟩
      · rw [main] at draining
        cases draining
      · rw [sound.ledger.drained k w found (Or.inr closed)] at lines
        simp only [Worker.pending, closed, empty, Option.toList_none, List.append_nil, List.map_nil] at lines
        exact Or.inl ⟨rfl, lines⟩
  | false =>
      obtain ⟨_, whole⟩ := sound.ledger.fresh k w found taken
      rw [whole] at lines
      have nothing := List.append_eq_nil_iff.mp (List.self_eq_append_left.mp lines.symm)
      exact Or.inr ⟨rfl, nothing.1⟩

end Ends

-- A schedule that starts all goroutines, lets one of them finish and main count it off
-- before another has counted itself.
section Early

variable (j : Nat)

def spawnOnly (a : Actor) (s : State) : Prop := a = .walker ∨ a = .opener ∨ (a = .main ∧ s.main = .spawning)

instance (a : Actor) (s : State) : Decidable (spawnOnly a s) :=
  inferInstanceAs (Decidable (a = .walker ∨ a = .opener ∨ (a = .main ∧ s.main = .spawning)))

structure Waiting (s : State) : Prop where
  main : s.main = .spawning ∨ s.main = .receiving
  started : ∀ (k : Nat) w, s.workers[k]? = some w → w.pc = .started

theorem waiting_start : Waiting i.start := by
  rw [Invocation.start]
  split
  · refine ⟨Or.inr rfl, fun k w found => ?_⟩
    have there := List.mem_of_getElem? found
    rw [List.mem_singleton.mp there]
    rfl
  · exact ⟨Or.inl rfl, fun k w found => (by cases found)⟩

theorem waiting_step (a : Actor) (s next : State) (before : Waiting s) (moved : guarded i.step spawnOnly a s = some next) :
    Waiting next := by
  obtain ⟨only, stepped⟩ := guarded_inv i.step a s next moved
  cases step_moves i a s next stepped with
  | spawn c main opener =>
      refine ⟨before.main, fun k w found => ?_⟩
      rcases lookup_snoc found with rfl | old
      · rfl
      · exact before.started k w old
  | spawned main opener => exact ⟨Or.inr rfl, before.started⟩
  | closeNames | sendName | crash | open_ | skip | closeFiles => exact ⟨before.main, before.started⟩
  | receive | grep => simp [spawnOnly] at only
  | exitEarly k w r found main | print k w r found main | drained k w found main => simp [spawnOnly, main] at only
  | endLoop main | continue_ main => simp [spawnOnly, main] at only

def oneOnly (a : Actor) (_ : State) : Prop := a = .main ∨ a = .grep j

instance (a : Actor) (s : State) : Decidable (oneOnly j a s) := inferInstanceAs (Decidable (a = .main ∨ a = .grep j))

structure Alone (s : State) : Prop where
  main : s.main = .draining j ∨ s.main = .testing ∨ s.main = .ended
  taken : ∀ w, s.workers[j]? = some w → w.received = true
  others : ∀ (k : Nat) w, k ≠ j → s.workers[k]? = some w → w.pc = .started

theorem alone_count (s : State) (alone : Alone j s) : s.workers.countP Worker.announced = 0 := by
  rw [List.countP_eq_zero]
  intro w there
  obtain ⟨k, found⟩ := List.mem_iff_getElem?.mp there
  by_cases same : k = j
  · have taken := alone.taken w (same ▸ found)
    intro announced
    simp only [Worker.announced, decide_eq_true_eq] at announced
    simp [Worker.received, announced] at taken
  · simp [Worker.announced, alone.others k w same found]

theorem alone_set (s : State) (new : Worker) (taken : new.received = true) (before : Alone j s) (count : Int)
    (printed : List (Nat × Bytes)) : Alone j { s with nGrep := count, workers := s.workers.set j new, printed := printed } := by
  refine ⟨before.main, fun v there => ?_, fun k v other there => ?_⟩
  · rcases lookup_set there with ⟨_, rfl⟩ | ⟨apart, _⟩
    · exact taken
    · exact absurd rfl apart
  · rcases lookup_set there with ⟨same, _⟩ | ⟨_, old⟩
    · exact absurd same other
    · exact before.others k v other old

theorem alone_step (loud : i.flags.quiet = false) (a : Actor) (s next : State) (tally : Tally s) (before : Alone j s)
    (moved : guarded i.step (oneOnly j) a s = some next) : Alone j next := by
  obtain ⟨only, stepped⟩ := guarded_inv i.step a s next moved
  cases step_moves i a s next stepped with
  | closeNames | sendName | crash | open_ | skip | closeFiles => simp [oneOnly] at only
  | receive k w found main pc => simp [oneOnly] at only
  | spawn c main opener =>
      have here := before.main
      simp [main] at here
  | spawned main opener =>
      have here := before.main
      simp [main] at here
  | exitEarly k w r found main full quiet =>
      rw [loud] at quiet
      cases quiet
  | print k w r found main full _ =>
      have here := before.main
      simp only [main, MainPc.draining.injEq, reduceCtorEq, or_false] at here
      subst here
      exact alone_set k s { w with res := none } (before.taken w found) before s.nGrep _
  | drained k w found main empty closed => exact ⟨Or.inr (Or.inl rfl), before.taken, before.others⟩
  | endLoop main zero last quiet =>
      rw [loud] at quiet
      subst quiet
      exact ⟨Or.inr (Or.inr rfl), before.taken, before.others⟩
  | continue_ main more =>
      have count := tally.count
      rw [main, alone_count j s before] at count
      exact absurd count more
  | grep k w found next move =>
      have same : k = j := by simpa [oneOnly] using only
      subst same
      have taken := before.taken w found
      cases move with
      | count pc => simp [Worker.received, pc] at taken
      | select line rest pc read selected => exact alone_set k s _ rfl before s.nGrep s.printed
      | skip line rest pc read other => exact alone_set k s { w with rest := rest } taken before s.nGrep s.printed
      | finish pc nothing => exact alone_set k s _ rfl before s.nGrep s.printed
      | send r pc room pc' onward =>
          refine alone_set k s _ ?_ before s.nGrep s.printed
          subst onward
          cases i.flags.noshowmatch <;> rfl
      | close pc => exact alone_set k s _ rfl before s.nGrep s.printed

theorem guarded_loses {allowed : Actor → State → Prop} [∀ a s, Decidable (allowed a s)] (a : Actor) (s next : State)
    (moved : guarded i.step allowed a s = some next) : next.work < s.work :=
  step_loses i a s next (guarded_inv i.step a s next moved).2

theorem guarded_disabled {allowed : Actor → State → Prop} [∀ a s, Decidable (allowed a s)] (s : State)
    (stuck : Stuck (guarded i.step allowed) s) (a : Actor) (may : allowed a s) : ¬ i.Enabled s a := by
  intro ⟨next, moved⟩
  rw [guarded_stuck i.step allowed s stuck a may] at moved
  cases moved

variable (loud : i.flags.quiet = false) (lists : i.flags.noshowmatch = false)

include loud lists

omit lists in
theorem all_waiting (safe : Visit.panic ∉ i.visits) :
    ∃ s, Reachable i.step i.start s ∧ s.main = .receiving ∧ Waiting s := by
  obtain ⟨s, reach, stuck⟩ := exists_stuck (guarded i.step spawnOnly) State.work (guarded_loses i) i.start
  have reached := guarded_reachable i.step i.start s reach
  have waiting := reachable_invariant _ Waiting (waiting_step i) i.start s (waiting_start i) reach
  refine ⟨s, reached, ?_, waiting⟩
  rcases waiting.main with main | main
  · have alive := alive_of s (safe_reachable i safe s reached) (stays_reachable i loud s reached) (by rw [main]; decide)
    have disabled := guarded_disabled i s stuck
    rcases spawning_moves i s alive main with move | move | move
    · exact absurd move (disabled _ (Or.inl rfl))
    · exact absurd move (disabled _ (Or.inr (Or.inl rfl)))
    · exact absurd move (disabled _ (Or.inr (Or.inr ⟨rfl, main⟩)))
  · exact main

theorem one_received (safe : Visit.panic ∉ i.visits) (c : GrepCommand) (file : i.opened[j]? = some c) :
    ∃ s, Reachable i.step i.start s ∧ Alone j s := by
  obtain ⟨s, reach, main, waiting⟩ := all_waiting i loud safe
  have sound := sound_reachable i loud lists s reach
  rw [← spawned_all i s sound.pipeline (by rw [main]; decide), List.getElem?_map] at file
  obtain ⟨w, found, _⟩ := Option.map_eq_some_iff.mp file
  have pc := waiting.started j w found
  have alive := alive_of s (safe_reachable i safe s reach) (stays_reachable i loud s reach) (by rw [main]; decide)
  -- the goroutine counts itself, and main receives its channel
  have counted : i.step (.grep j) s =
      some { s with nGrep := s.nGrep + 1, workers := s.workers.set j { w with pc := .announcing } } := by
    rw [step_grep i s alive j w found, Invocation.stepGrep, pc]
  have second := lookup_set_same s.workers j w { w with pc := .announcing } found
  have received := step_receive i { s with nGrep := s.nGrep + 1, workers := s.workers.set j { w with pc := .announcing } } alive
    j _ second
  rw [Invocation.stepReceive, if_pos ⟨main, rfl⟩] at received
  refine ⟨_, reachable_step i.step _ _ _ _ (reachable_step i.step _ _ _ _ reach counted) received, Or.inl rfl,
    fun v there => ?_, fun k v other there => ?_⟩
  · rcases lookup_set there with ⟨_, rfl⟩ | ⟨apart, _⟩
    · rfl
    · exact absurd rfl apart
  · rcases lookup_set there with ⟨same, _⟩ | ⟨_, before⟩
    · exact absurd same other
    · rcases lookup_set before with ⟨same, _⟩ | ⟨_, old⟩
      · exact absurd same other
      · exact waiting.started k v old

theorem early_end (safe : Visit.panic ∉ i.visits) (c : GrepCommand) (file : i.opened[j]? = some c) :
    ∃ s, Reachable i.step i.start s ∧ s.main = .ended ∧ Alone j s := by
  obtain ⟨first, reach, alone⟩ := one_received i j loud lists safe c file
  obtain ⟨s, onward, stuck⟩ := exists_stuck (guarded i.step (oneOnly j)) State.work (guarded_loses i) first
  have reached := reachable_trans i.step i.start first s reach (guarded_reachable i.step first s onward)
  have both := reachable_invariant (guarded i.step (oneOnly j)) (fun s => Sound i s ∧ Alone j s)
    (fun a s next before moved => ⟨sound_step i loud lists a s next before.1 (guarded_inv i.step a s next moved).2,
      alone_step i j loud a s next before.1.tally before.2 moved⟩) first s ⟨sound_reachable i loud lists first reach, alone⟩
    onward
  refine ⟨s, reached, ?_, both.2⟩
  by_contra other
  have alive := alive_of s (safe_reachable i safe s reached) (stays_reachable i loud s reached) other
  have disabled := guarded_disabled i s stuck
  rcases both.2.main with main | main | main
  · rcases draining_moves i s alive j main both.1.tally with move | move
    · exact disabled _ (Or.inl rfl) move
    · exact disabled _ (Or.inr rfl) move
  · exact disabled _ (Or.inl rfl) (testing_moves i s alive main)
  · exact other main

end Early

section Complete

structure Invocation.Complete : Prop where
  bounded : ∃ bound, ∀ schedule s, exec i.step schedule i.start = some s → schedule.length ≤ bound
  ends : ∀ s, Reachable i.step i.start s → Stuck i.step s → s.main = .ended
  prints : ∀ s, Reachable i.step i.start s → s.main = .ended → ∀ (k : Nat) c, i.opened[k]? = some c →
    s.printedOf k = (i.selects c.content).map (i.text c.name)

theorem schedules_bounded : ∃ bound, ∀ schedule s, exec i.step schedule i.start = some s → schedule.length ≤ bound :=
  ⟨i.start.work, fun schedule s ran =>
    Nat.le_trans (Nat.le_add_right _ _) (schedule_bounded i.step State.work (step_loses i) schedule i.start s ran)⟩

variable (loud : i.flags.quiet = false) (lists : i.flags.noshowmatch = false)

include loud lists

theorem complete_of (safe : Visit.panic ∉ i.visits) (some_ : i.opened ≠ [])
    (terminated : ∀ c ∈ i.opened, ∀ line ∈ i.selects c.content, newline ∈ line)
    (few : i.opened.length = 1 ∨ ∀ c ∈ i.opened, i.selects c.content = []) : i.Complete := by
  refine ⟨schedules_bounded i, fun s reach stuck => ?_, fun s reach main k c file => ?_⟩
  · exact stuck_ends i s (sound_reachable i loud lists s reach) (safe_reachable i safe s reach) (stays_reachable i loud s reach)
      some_ stuck
  · have sound := sound_reachable i loud lists s reach
    have there := List.mem_of_getElem? file
    have all : i.taken c.content = i.selects c.content :=
      List.filter_eq_self.mpr (fun line inside => decide_eq_true (terminated c there line inside))
    obtain ⟨w, found, same, ⟨_, printed⟩ | ⟨missed, printed⟩⟩ := ended_printed i s sound main k c file
    · rw [printed, all]
    · rcases few with one | nothing
      · -- main has received from some goroutine, and there is only this one
        obtain ⟨j, v, received, taken⟩ := sound.tally.leaves (Or.inr main)
        have commands := spawned_all i s sound.pipeline (by rw [main]; decide)
        have length : s.workers.length = 1 := by rw [← List.length_map, commands, one]
        have first := (List.getElem?_eq_some_iff.mp received).1
        have second := (List.getElem?_eq_some_iff.mp found).1
        have equal : j = k := by omega
        rw [equal, found] at received
        cases received
        rw [missed] at taken
        cases taken
      · rw [printed, nothing c there, List.map_nil]

theorem complete_files (complete : i.Complete) : Visit.panic ∉ i.visits ∧ i.opened ≠ [] := by
  obtain ⟨s, reach, stuck⟩ := exists_stuck i.step State.work (step_loses i) i.start
  have main := complete.ends s reach stuck
  constructor
  · intro panics
    have spawning := (doomed_reachable i panics s reach).main
    rw [main] at spawning
    cases spawning
  · intro nothing
    have sound := sound_reachable i loud lists s reach
    obtain ⟨k, w, found, _⟩ := sound.tally.leaves (Or.inr main)
    have commands := spawned_all i s sound.pipeline (by rw [main]; decide)
    rw [nothing, List.map_eq_nil_iff] at commands
    rw [commands] at found
    cases found

theorem complete_terminated (complete : i.Complete) :
    ∀ c ∈ i.opened, ∀ line ∈ i.selects c.content, newline ∈ line := by
  intro c there line selected
  obtain ⟨s, reach, stuck⟩ := exists_stuck i.step State.work (step_loses i) i.start
  have main := complete.ends s reach stuck
  obtain ⟨k, file⟩ := List.mem_iff_getElem?.mp there
  have printed := complete.prints s reach main k c file
  obtain ⟨w, _, _, ⟨_, lines⟩ | ⟨_, lines⟩⟩ := ended_printed i s (sound_reachable i loud lists s reach) main k c file
  · have length := congrArg List.length (lines.symm.trans printed)
    rw [List.length_map, List.length_map] at length
    have all := List.length_filter_eq_length_iff.mp length line selected
    exact of_decide_eq_true all
  · rw [lines, eq_comm, List.map_eq_nil_iff] at printed
    rw [printed] at selected
    cases selected

theorem complete_few (complete : i.Complete) (safe : Visit.panic ∉ i.visits) (some_ : i.opened ≠ []) :
    i.opened.length = 1 ∨ ∀ c ∈ i.opened, i.selects c.content = [] := by
  by_cases one : i.opened.length = 1
  · exact Or.inl one
  refine Or.inr (fun c there => ?_)
  obtain ⟨k, file⟩ := List.mem_iff_getElem?.mp there
  have positive := List.length_pos_iff.mpr some_
  obtain ⟨j, inside, other⟩ : ∃ j, j < i.opened.length ∧ k ≠ j := by
    by_cases first : k = 0
    · exact ⟨1, by omega, by omega⟩
    · exact ⟨0, by omega, first⟩
  obtain ⟨s, reach, main, alone⟩ := early_end i j loud lists safe _ (List.getElem?_eq_getElem inside)
  have printed := complete.prints s reach main k c file
  obtain ⟨w, found, _, ⟨taken, _⟩ | ⟨_, nothing⟩⟩ := ended_printed i s (sound_reachable i loud lists s reach) main k c file
  · have pc := alone.others k w other found
    simp [Worker.received, pc] at taken
  · rw [nothing, eq_comm, List.map_eq_nil_iff] at printed
    exact printed

theorem grep_complete_iff : i.Complete ↔
    Visit.panic ∉ i.visits ∧ i.opened ≠ [] ∧ (∀ c ∈ i.opened, ∀ line ∈ i.selects c.content, newline ∈ line) ∧
      (i.opened.length = 1 ∨ ∀ c ∈ i.opened, i.selects c.content = []) := by
  constructor
  · intro complete
    obtain ⟨safe, some_⟩ := complete_files i loud lists complete
    exact ⟨safe, some_, complete_terminated i loud lists complete, complete_few i loud lists complete safe some_⟩
  · intro ⟨safe, some_, terminated, few⟩
    exact complete_of i loud lists safe some_ terminated few

end Complete

section Runs

def grepX (args : List (Bytes × Node)) : Invocation := ⟨⟨true, false, false, false⟩, fun line => 120 ∈ line, args, []⟩

def oneFile : Invocation := grepX [(str "a", .file (some (str "x\ny\n"))), (str "b", .file none)]

theorem one_file_complete : oneFile.Complete := (grep_complete_iff oneFile rfl rfl).mpr (by decide +kernel)

def twoFiles : Invocation := grepX [(str "a", .file (some (str "x\n"))), (str "b", .file (some (str "x\n")))]

-- The goroutine of the first file counts up, is received and read to its end, and is counted
-- off before the goroutine of the second file runs.
def earlySchedule : List Actor :=
  [.walker, .walker, .walker, .opener, .main, .opener, .main, .opener, .main, .grep 0, .receive 0, .grep 0, .grep 0, .main,
    .grep 0, .grep 0, .main, .main]

theorem second_file_lost : ¬ twoFiles.Complete := by
  intro complete
  have ran : (exec twoFiles.step earlySchedule twoFiles.start).map (fun s => (s.main, s.printed)) =
      some (.ended, [(0, str "a:x\n")]) := by decide +kernel
  obtain ⟨s, reach, result⟩ := Option.map_eq_some_iff.mp ran
  simp only [Prod.mk.injEq] at result
  have printed := complete.prints s ⟨earlySchedule, reach⟩ result.1 1 ⟨str "b", str "x\n"⟩ (by decide +kernel)
  rw [State.printedOf, result.2] at printed
  exact absurd printed (by decide +kernel)

end Runs

end URoot.Grep
