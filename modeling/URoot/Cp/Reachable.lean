import URoot.Cp.Invariant

set_option autoImplicit false

namespace URoot.Cp

open GoLib

section Leftover

variable (c : Process) (s : State) (id : Nat) (w : Worker) (err : Option CopyError)

theorem body_other_report (found : s.workers[id]? = some w) (body : Body c s) (there : w.call ≠ s.call) :
    Body c (s.after id { w with pc := .ended } s.off s.disk
      (Function.update s.fail w.call (s.fail w.call ++ [err])) s.handed) := by
  have own : Function.update s.fail w.call (s.fail w.call ++ [err]) s.call = s.fail s.call :=
    Function.update_of_ne there.symm _ _
  have stays : ∀ v ∈ s.workers, v.call = s.call → v ∈ s.workers.set id { w with pc := .ended } := by
    intro v member here
    rcases mem_set_or { w with pc := .ended } v found member with rfl | stays
    · exact absurd here there
    · exact stays
  have back : ∀ v ∈ s.workers.set id { w with pc := .ended }, v.call = s.call → v ∈ s.workers := by
    intro v member here
    rcases List.mem_or_eq_of_mem_set member with old | rfl
    · exact old
    · exact absurd here there
  constructor
  case alone =>
    intro v member
    rcases List.mem_or_eq_of_mem_set member with old | rfl
    · exact body.alone v old
    · exact Or.inr rfl
  case short => exact body.short
  case workers => exact fun v member here => body.workers v (back v member here) here
  case cover =>
    intro x bound
    rcases body.cover x bound with right | ⟨v, member, here, holds⟩ | failed
    · exact Or.inl right
    · exact Or.inr (Or.inl ⟨v, stays v member here, here, holds⟩)
    · refine Or.inr (Or.inr ?_)
      rcases failed with ⟨v, member, here, pc⟩ | ⟨failure, sent⟩ | returned
      · exact Or.inl ⟨v, stays v member here, here, pc⟩
      · exact Or.inr (Or.inl ⟨failure, (congrArg (some failure ∈ ·) own).mpr sent⟩)
      · exact Or.inr (Or.inr returned)
  case tail =>
    intro finished
    apply body.tail
    rcases finished with ⟨v, member, here, pc⟩ | sent | collected
    · exact Or.inl ⟨v, back v member here, here, pc⟩
    · exact Or.inr (Or.inl ((congrArg (none ∈ ·) own).mp sent))
    · exact Or.inr (Or.inr collected)
  case bound => exact body.bound
  case spawned =>
    have counted := count_set s.workers id w { w with pc := .ended } found (mine s.call)
    exact (Nat.add_right_cancel counted).trans body.spawned
  case ended =>
    intro running
    have counted := count_set s.workers id w { w with pc := .ended } found (mineEnded s.call)
    simp only [mineEnded, there, false_and, decide_false, Bool.false_eq_true, if_false, Nat.add_zero] at counted
    have total := body.ended running
    rw [← own] at total
    exact counted.trans total

end Leftover

section Steps

variable (c : Process)

theorem worker_move_frame {s next : State} {id : Nat} {w : Worker} {outcome : Outcome}
    (move : WorkerMove c s id w outcome next) :
    next.main = s.main ∧ next.call = s.call ∧ ∃ w', next.workers = s.workers.set id w' ∧ w'.call = w.call := by
  cases move with
  | wrote nb pc =>
      refine ⟨rfl, rfl, _, rfl, ?_⟩
      unfold Worker.advance
      split <;> rfl
  | take | data | endOfFile | readFailed | writeFailed | report => exact ⟨rfl, rfl, _, rfl, rfl⟩

theorem quiet_move {s next : State} {id : Nat} {w : Worker} {outcome : Outcome} (quiet : w.quiet)
    (move : WorkerMove c s id w outcome next) :
    ∃ err, next = s.after id { w with pc := .ended } s.off s.disk
      (Function.update s.fail w.call (s.fail w.call ++ [err])) s.handed := by
  cases move with
  | report err => exact ⟨err, rfl⟩
  | take pc | data _ pc | endOfFile pc | readFailed _ pc | wrote _ pc | writeFailed _ _ _ pc =>
      simp [Worker.quiet, pc] at quiet

theorem body_worker (s next : State) (id : Nat) (w : Worker) (outcome : Outcome) (found : s.workers[id]? = some w)
    (body : Body c s) (move : WorkerMove c s id w outcome next) : Body c next := by
  by_cases here : w.call = s.call
  · cases move with
    | take pc => exact body_take c s id w found body here pc
    | data n pc positive fits inside => exact body_data c s id w found body here n pc positive fits inside
    | endOfFile pc past => exact body_end c s id w found body here pc past
    | readFailed err pc =>
        exact body_failed c s id w found body here _ s.disk (Or.inl pc) (fun _ right => right) body.short
    | wrote nb pc =>
        have wrote := body_wrote c s id w found body here nb pc
        rw [← here] at wrote
        exact wrote
    | writeFailed nb n err pc =>
        have failed := body_write_failed c s id w found body here nb n err pc
        rw [← here] at failed
        exact failed
    | report err pc =>
        have report := body_report c s id w found body here err pc
        rw [← here] at report
        exact report
  · have quiet := (body.alone w (List.mem_of_getElem? found)).resolve_left here
    obtain ⟨err, rfl⟩ := quiet_move c quiet move
    exact body_other_report c s id w err found body here

theorem begun_worker (s next : State) (main : next.main = s.main) (call : next.call = s.call) : next.begun = s.begun := by
  rw [State.begun, State.begun, main, call]

theorem inv_worker (s next : State) (id : Nat) (w : Worker) (outcome : Outcome) (found : s.workers[id]? = some w)
    (inv : Inv c s) (move : WorkerMove c s id w outcome next) : Inv c next := by
  obtain ⟨main, call, w', workers, same⟩ := worker_move_frame c move
  have begun := begun_worker s next main call
  have early := inv.calls w (List.mem_of_getElem? found)
  constructor
  case calls =>
    intro v member
    rw [begun]
    rw [workers] at member
    rcases List.mem_or_eq_of_mem_set member with old | rfl
    · exact inv.calls v old
    · rw [same]
      exact early
  case fresh =>
    intro later bound
    rw [begun] at bound
    have old := inv.fresh later bound
    cases move with
    | report err pc =>
        show Function.update s.fail w.call _ later = []
        rw [Function.update_of_ne (by omega), old]
    | take | data | endOfFile | readFailed | wrote | writeFailed => exact old
  case zero =>
    intro pc
    rw [main] at pc
    obtain ⟨quiet, empty⟩ := inv.zero pc
    obtain ⟨err, rfl⟩ := quiet_move c (quiet w (List.mem_of_getElem? found)) move
    refine ⟨?_, empty⟩
    intro v member
    rcases List.mem_or_eq_of_mem_set member with old | rfl
    · exact quiet v old
    · rfl
  case body =>
    intro inCall
    rw [main] at inCall
    exact body_worker c s next id w outcome found (inv.body inCall) move

section MainMoves

variable (s : State) (inv : Inv c s)

include inv

theorem early_workers (pc : s.main = .zero) : (∀ w ∈ s.workers, w.call < s.call) ∧ s.fail s.call = [] := by
  have begun : s.begun = s.call := by simp [State.begun, pc, MainPc.inCall]
  exact ⟨fun w member => begun ▸ inv.calls w member, inv.fresh s.call (Nat.le_of_eq begun)⟩

theorem finished_main (next : State) (move : MainMove c s next) (inCall : next.main.inCall) (finished : Finished c next) :
    Finished c s := by
  cases move with
  | truncate => cases inCall
  | reset pc =>
      obtain ⟨early, noResult⟩ := early_workers c s inv pc
      rcases finished with ⟨w, member, here, _⟩ | sent | impossible
      · exact absurd here (Nat.ne_of_lt (early w member))
      · exact Or.inr (Or.inl sent)
      · exact absurd impossible (Nat.lt_irrefl 0)
  | spawn i pc more =>
      rcases finished with ⟨w, member, here, sending⟩ | sent | impossible
      · rcases List.mem_append.mp member with old | new
        · exact Or.inl ⟨w, old, here, sending⟩
        · rw [List.mem_singleton.mp new] at sending
          cases sending
      · exact Or.inr (Or.inl sent)
      · exact absurd impossible (Nat.lt_irrefl 0)
  | spawned =>
      rcases finished with sending | sent | impossible
      · exact Or.inl sending
      · exact Or.inr (Or.inl sent)
      · exact absurd impossible (Nat.lt_irrefl 0)
  | collectNil i rest pc more first =>
      refine Or.inr (Or.inl ?_)
      rw [first]
      exact List.mem_cons_self
  | collectErr i err rest pc first =>
      rcases finished with sending | sent | impossible
      · exact Or.inl sending
      · refine Or.inr (Or.inl ?_)
        simp only [Function.update_self] at sent
        rw [first]
        exact List.mem_cons_of_mem _ sent
      · exact absurd impossible (Nat.lt_irrefl 0)
  | collected i pc all =>
      rcases finished with sending | sent | collected
      · exact Or.inl sending
      · exact Or.inr (Or.inl sent)
      · refine Or.inr (Or.inr ?_)
        rw [pc]
        exact Nat.lt_of_lt_of_le collected (Nat.le_of_not_lt all)
  | nextCall => cases inCall

theorem inv_truncate (pc : s.main = .opening) (quiet : ∀ w ∈ s.workers, w.quiet) :
    Inv c { s with disk := Function.update s.disk (c.dst s.call) [], main := .zero } := by
  have begun : s.begun = s.call := by simp [State.begun, pc, MainPc.inCall]
  constructor
  case calls => exact fun w member => begun ▸ inv.calls w member
  case fresh => exact fun call bound => inv.fresh call (begun.symm ▸ bound)
  case zero => exact fun _ => ⟨quiet, Function.update_self _ _ _⟩
  case body => exact fun impossible => by cases impossible

theorem inv_reset (pc : s.main = .zero) : Inv c { s with off := 0, handed := [], main := .spawn 0 } := by
  have begun : s.begun = s.call := by simp [State.begun, pc, MainPc.inCall]
  obtain ⟨quiet, empty⟩ := inv.zero pc
  obtain ⟨early, noResult⟩ := early_workers c s inv pc
  constructor
  case calls => exact fun w member => Nat.lt_succ_of_lt (early w member)
  case fresh =>
    intro call bound
    apply inv.fresh call
    rw [begun]
    exact Nat.le_of_succ_le bound
  case zero => exact fun impossible => by cases impossible
  case body =>
    refine fun _ => ⟨fun w member => Or.inr (quiet w member), ?_, ?_, fun x bound => absurd bound (Nat.not_lt_zero x), ?_,
      ⟨Nat.zero_le _, Nat.zero_le _⟩, ?_, ?_⟩
    · show (s.disk (c.dst s.call)).length ≤ _
      rw [empty]
      exact Nat.zero_le _
    · intro w member here
      exact absurd here (Nat.ne_of_lt (early w member))
    · rintro (⟨w, member, here, _⟩ | sent | impossible)
      · exact absurd here (Nat.ne_of_lt (early w member))
      · rw [noResult] at sent
        cases sent
      · exact absurd impossible (Nat.lt_irrefl 0)
    · refine List.countP_eq_zero.mpr fun w member => ?_
      simp [mine, Nat.ne_of_lt (early w member)]
    · intro _
      show s.workers.countP (mineEnded s.call) = 0 + (s.fail s.call).length
      rw [noResult]
      refine List.countP_eq_zero.mpr fun w member => ?_
      simp [mineEnded, Nat.ne_of_lt (early w member)]

theorem inv_spawn (i : Nat) (pc : s.main = .spawn i) (more : i < c.nwork) :
    Inv c { s with workers := s.workers ++ [newWorker s.call], main := .spawn (i + 1) } := by
  have begun : s.begun = s.call + 1 := by simp [State.begun, pc, MainPc.inCall]
  have body := inv.body (by rw [pc]; rfl)
  constructor
  case calls =>
    intro w member
    rcases List.mem_append.mp member with old | new
    · exact Nat.lt_of_lt_of_eq (inv.calls w old) begun
    · rw [List.mem_singleton.mp new]
      exact Nat.lt_succ_self _
  case fresh => exact fun call bound => inv.fresh call (begun.symm ▸ bound)
  case zero => exact fun impossible => by cases impossible
  case body =>
    intro _
    constructor
    case alone =>
      intro w member
      rcases List.mem_append.mp member with old | new
      · exact body.alone w old
      · rw [List.mem_singleton.mp new]
        exact Or.inl rfl
    case short => exact body.short
    case workers =>
      intro w member here
      rcases List.mem_append.mp member with old | new
      · exact body.workers w old here
      · rw [List.mem_singleton.mp new]
        exact ⟨rfl, rfl⟩
    case cover =>
      intro x bound
      rcases body.cover x bound with right | ⟨w, member, here, holds⟩ | failed
      · exact Or.inl right
      · exact Or.inr (Or.inl ⟨w, List.mem_append_left _ member, here, holds⟩)
      · refine Or.inr (Or.inr ?_)
        rcases failed with ⟨w, member, here, sending⟩ | sent | ⟨err, returned⟩
        · exact Or.inl ⟨w, List.mem_append_left _ member, here, sending⟩
        · exact Or.inr (Or.inl sent)
        · rw [pc] at returned
          cases returned
    case tail => exact fun finished => body.tail (finished_main c s inv _ (.spawn i pc more) rfl finished)
    case bound => exact ⟨more, Nat.zero_le _⟩
    case spawned =>
      have old := body.spawned
      rw [pc] at old
      show (s.workers ++ [newWorker s.call]).countP (mine s.call) = i + 1
      rw [List.countP_append, old]
      simp [mine, newWorker, MainPc.spawned]
    case ended =>
      intro _
      have old := body.ended (by simp [pc])
      rw [pc] at old
      show (s.workers ++ [newWorker s.call]).countP (mineEnded s.call) = 0 + (s.fail s.call).length
      rw [List.countP_append, old]
      simp [mineEnded, newWorker, MainPc.collected]

theorem inv_inside (results : List (Option CopyError)) (main : MainPc) (before : s.main.inCall) (after : main.inCall)
    (failed : Failed s → Failed { s with fail := Function.update s.fail s.call results, main := main })
    (finished : Finished c { s with fail := Function.update s.fail s.call results, main := main } → Finished c s)
    (spawned : main.spawned c.nwork = s.main.spawned c.nwork) (bound : main.collected c.nwork ≤ c.nwork)
    (ended : (∀ err, main ≠ .returned (some err)) →
      s.workers.countP (mineEnded s.call) = main.collected c.nwork + results.length) :
    Inv c { s with fail := Function.update s.fail s.call results, main := main } := by
  have begun : s.begun = s.call + 1 := by rw [State.begun, before, if_pos rfl]
  have begunAfter : ({ s with fail := Function.update s.fail s.call results, main := main } : State).begun = s.call + 1 := by
    rw [State.begun, after, if_pos rfl]
  have body := inv.body before
  constructor
  case calls => exact fun w member => begunAfter.symm ▸ begun ▸ inv.calls w member
  case fresh =>
    intro call bound
    rw [begunAfter] at bound
    show Function.update s.fail s.call results call = []
    rw [Function.update_of_ne (by omega)]
    exact inv.fresh call (begun.symm ▸ bound)
  case zero =>
    intro pc
    change main = .zero at pc
    rw [pc] at after
    cases after
  case body =>
    intro _
    constructor
    case alone => exact body.alone
    case short => exact body.short
    case workers => exact body.workers
    case cover =>
      intro x bound
      rcases body.cover x bound with right | held | wrong
      · exact Or.inl right
      · exact Or.inr (Or.inl held)
      · exact Or.inr (Or.inr (failed wrong))
    case tail => exact fun done => body.tail (finished done)
    case bound => exact ⟨Nat.le_trans (Nat.le_of_eq spawned) body.bound.1, bound⟩
    case spawned => exact body.spawned.trans spawned.symm
    case ended =>
      intro running
      simp only [Function.update_self]
      exact ended running

theorem inv_main (main : MainPc) (before : s.main.inCall) (after : main.inCall) (running : ∀ err, s.main ≠ .returned (some err))
    (finished : Finished c { s with main := main } → Finished c s)
    (spawned : main.spawned c.nwork = s.main.spawned c.nwork)
    (collected : main.collected c.nwork = s.main.collected c.nwork) : Inv c { s with main := main } := by
  have body := inv.body before
  have whole := inv_inside c s inv (s.fail s.call) main before after
  rw [Function.update_eq_self] at whole
  apply whole
  case failed =>
    rintro (sending | sent | ⟨err, returned⟩)
    · exact Or.inl sending
    · exact Or.inr (Or.inl sent)
    · exact absurd returned (running err)
  case finished => exact finished
  case spawned => exact spawned
  case bound => exact Nat.le_trans (Nat.le_of_eq collected) body.bound.2
  case ended =>
    intro _
    rw [collected]
    exact body.ended running

theorem inv_spawned (i : Nat) (pc : s.main = .spawn i) (all : ¬ i < c.nwork) : Inv c { s with main := .collect 0 } := by
  have bound := (inv.body (by rw [pc]; rfl)).bound.1
  rw [pc] at bound
  apply inv_main c s inv _ (by rw [pc]; rfl) rfl (by simp [pc])
  case finished => exact finished_main c s inv _ (.spawned i pc all) rfl
  case spawned =>
    rw [pc]
    exact Nat.le_antisymm (Nat.le_of_not_lt all) bound
  case collected => rw [pc]; rfl

theorem inv_collect_nil (i : Nat) (rest : List (Option CopyError)) (pc : s.main = .collect i) (more : i < c.nwork)
    (first : s.fail s.call = none :: rest) :
    Inv c { s with fail := Function.update s.fail s.call rest, main := .collect (i + 1) } := by
  have body := inv.body (by rw [pc]; rfl)
  apply inv_inside c s inv _ _ (by rw [pc]; rfl) rfl
  case failed =>
    rintro (sending | ⟨err, sent⟩ | ⟨err, returned⟩)
    · exact Or.inl sending
    · refine Or.inr (Or.inl ⟨err, ?_⟩)
      rw [first, List.mem_cons] at sent
      simp only [Function.update_self]
      exact sent.resolve_left (by simp)
    · rw [pc] at returned
      cases returned
  case finished => exact finished_main c s inv _ (.collectNil i rest pc more first) rfl
  case spawned => rw [pc]; rfl
  case bound => exact more
  case ended =>
    intro _
    have old := body.ended (by simp [pc])
    rw [pc, first, List.length_cons] at old
    rw [old]
    simp only [MainPc.collected]
    omega

theorem inv_collect_err (i : Nat) (err : CopyError) (rest : List (Option CopyError)) (pc : s.main = .collect i)
    (first : s.fail s.call = some err :: rest) :
    Inv c { s with fail := Function.update s.fail s.call rest, main := .returned (some err) } := by
  apply inv_inside c s inv _ _ (by rw [pc]; rfl) rfl
  case failed => exact fun _ => Or.inr (Or.inr ⟨err, rfl⟩)
  case finished => exact finished_main c s inv _ (.collectErr i err rest pc first) rfl
  case spawned => rw [pc]; rfl
  case bound => exact Nat.zero_le _
  case ended => exact fun running => absurd rfl (running err)

theorem inv_collected (i : Nat) (pc : s.main = .collect i) (all : ¬ i < c.nwork) :
    Inv c { s with main := .returned none } := by
  have bound := (inv.body (by rw [pc]; rfl)).bound.2
  rw [pc] at bound
  apply inv_main c s inv _ (by rw [pc]; rfl) rfl (by simp [pc])
  case finished => exact finished_main c s inv _ (.collected i pc all) rfl
  case spawned => rw [pc]; rfl
  case collected =>
    rw [pc]
    exact Nat.le_antisymm (Nat.le_of_not_lt all) bound

theorem inv_next_call (err : Option CopyError) (pc : s.main = .returned err) :
    Inv c { s with call := s.call + 1, main := .opening } := by
  have begun : s.begun = s.call + 1 := by simp [State.begun, pc, MainPc.inCall]
  constructor
  case calls => exact fun w member => begun ▸ inv.calls w member
  case fresh => exact fun call bound => inv.fresh call (begun.symm ▸ bound)
  case zero => exact fun impossible => by cases impossible
  case body => exact fun impossible => by cases impossible

end MainMoves

theorem inv_step (label : Label) (s next : State) (inv : Inv c s)
    (alone : label = .main → s.main = .opening → ∀ w ∈ s.workers, w.quiet) (moved : c.step label s = some next) :
    Inv c next := by
  cases label with
  | worker id outcome =>
      obtain ⟨w, found, move⟩ := worker_moves c moved
      exact inv_worker c s next id w outcome found inv move
  | main =>
      cases main_moves c s next moved with
      | truncate pc => exact inv_truncate c s inv pc (alone rfl pc)
      | reset pc => exact inv_reset c s inv pc
      | spawn i pc more => exact inv_spawn c s inv i pc more
      | spawned i pc all => exact inv_spawned c s inv i pc all
      | collectNil i rest pc more first => exact inv_collect_nil c s inv i rest pc more first
      | collectErr i err rest pc first => exact inv_collect_err c s inv i err rest pc first
      | collected i pc all => exact inv_collected c s inv i pc all
      | nextCall err pc => exact inv_next_call c s inv err pc

theorem all_ended (s : State) (body : Body c s) (returned : s.main = .returned none) :
    s.fail s.call = [] ∧ ∀ w ∈ s.workers, w.call = s.call → w.pc = .ended := by
  have ended := body.ended (by simp [returned])
  have spawned := body.spawned
  have both : (s.workers.filter (mine s.call)).countP (mineEnded s.call) = s.workers.countP (mineEnded s.call) := by
    rw [List.countP_filter]
    refine List.countP_congr fun w _ => ?_
    simp only [mine, mineEnded, Bool.and_eq_true, decide_eq_true_eq]
    exact ⟨fun own => own.1, fun own => ⟨own, own.1⟩⟩
  have most := List.countP_le_length (p := mineEnded s.call) (l := s.workers.filter (mine s.call))
  rw [returned] at ended spawned
  rw [List.countP_eq_length_filter] at spawned
  simp only [MainPc.collected, MainPc.spawned] at ended spawned
  have empty : (s.fail s.call).length = 0 := by omega
  have all : (s.workers.filter (mine s.call)).countP (mineEnded s.call) = (s.workers.filter (mine s.call)).length := by omega
  refine ⟨List.length_eq_zero_iff.mp empty, fun w member here => ?_⟩
  have own := List.countP_eq_length.mp all w (List.mem_filter.mpr ⟨member, by simp [mine, here]⟩)
  simp only [mineEnded, decide_eq_true_eq] at own
  exact own.2

theorem returned_exact (s : State) (some : 0 < c.nwork ∨ c.src s.call = []) (inv : Inv c s)
    (returned : s.main = .returned none) : s.disk (c.dst s.call) = c.src s.call := by
  have body := inv.body (by rw [returned]; rfl)
  rcases some with workers | empty
  · obtain ⟨drained, ended⟩ := all_ended c s body returned
    have noFailure : ¬ Failed s := by
      rintro (⟨w, member, here, err, pc⟩ | ⟨err, sent⟩ | ⟨err, other⟩)
      · rw [ended w member here] at pc
        cases pc
      · rw [drained] at sent
        cases sent
      · rw [returned] at other
        cases other
    have finished : Finished c s := by
      refine Or.inr (Or.inr ?_)
      rw [returned]
      exact workers
    apply List.ext_getElem?
    intro x
    by_cases handed : x < s.off
    · rcases body.cover x handed with right | ⟨w, member, here, holds⟩ | failed
      · exact right
      · exact (not_active w x holds (by simp [ended w member here]) (by simp [ended w member here])).elim
      · exact absurd failed noFailure
    · exact body.tail finished x (Nat.le_of_not_lt handed)
  · have short := body.short
    rw [empty] at short ⊢
    exact List.length_eq_zero_iff.mp (Nat.le_zero.mp short)

end Steps

end URoot.Cp
