import URoot.Cp.Reachable

set_option autoImplicit false

namespace URoot.Cp

open GoLib

def StartsAlone (label : Label) (s : State) : Prop := label = .main → s.main = .opening → ∀ w ∈ s.workers, w.quiet

instance (label : Label) (s : State) : Decidable (StartsAlone label s) :=
  inferInstanceAs (Decidable (_ → _ → _))

section Handed

variable (c : Process)

def OwnOffsets (s : State) : Prop :=
  s.main.inCall → ∀ entry ∈ s.handed, ∃ w, s.workers[entry.1]? = some w ∧ w.call = s.call

theorem own_offsets_worker (s next : State) (id : Nat) (w : Worker) (outcome : Outcome) (found : s.workers[id]? = some w)
    (inv : Inv c s) (own : OwnOffsets s) (move : WorkerMove c s id w outcome next) : OwnOffsets next := by
  obtain ⟨main, call, w', workers, same⟩ := worker_move_frame c move
  intro inCall
  rw [main] at inCall
  have stays : ∀ entry ∈ s.handed, ∃ v, next.workers[entry.1]? = some v ∧ v.call = next.call := by
    intro entry member
    obtain ⟨v, there, here⟩ := own inCall entry member
    by_cases moved : id = entry.1
    · rw [← moved, found] at there
      cases there
      refine ⟨w', ?_, by rw [same, here, call]⟩
      rw [workers, ← moved, List.getElem?_set_self (List.getElem?_eq_some_iff.mp found).1]
    · exact ⟨v, by rw [workers, List.getElem?_set_ne moved, there], by rw [here, call]⟩
  cases move with
  | take pc =>
      intro entry member
      rcases List.mem_append.mp member with old | new
      · exact stays entry old
      · rw [List.mem_singleton.mp new]
        have here : w.call = s.call := by
          rcases (inv.body inCall).alone w (List.mem_of_getElem? found) with here | quiet
          · exact here
          · simp [Worker.quiet, pc] at quiet
        exact ⟨_, List.getElem?_set_self (List.getElem?_eq_some_iff.mp found).1, here⟩
  | data | endOfFile | readFailed | wrote | writeFailed | report => exact stays

theorem own_offsets_main (s next : State) (own : OwnOffsets s) (move : MainMove c s next) : OwnOffsets next := by
  cases move with
  | truncate => exact fun impossible => by cases impossible
  | reset => exact fun _ _ impossible => by cases impossible
  | spawn i pc =>
      intro _ entry member
      obtain ⟨w, there, here⟩ := own (by rw [pc]; rfl) entry member
      refine ⟨w, ?_, here⟩
      exact (List.getElem?_append_left (List.getElem?_eq_some_iff.mp there).1).trans there
  | spawned i pc => exact fun _ => own (by rw [pc]; rfl)
  | collectNil i rest pc => exact fun _ => own (by rw [pc]; rfl)
  | collectErr i err rest pc => exact fun _ => own (by rw [pc]; rfl)
  | collected i pc => exact fun _ => own (by rw [pc]; rfl)
  | nextCall => exact fun impossible => by cases impossible

theorem own_offsets_step (label : Label) (s next : State) (inv : Inv c s) (own : OwnOffsets s)
    (moved : c.step label s = some next) : OwnOffsets next := by
  cases label with
  | worker id outcome =>
      obtain ⟨w, found, move⟩ := worker_moves c moved
      exact own_offsets_worker c s next id w outcome found inv own move
  | main => exact own_offsets_main c s next own (main_moves c s next moved)

theorem starts_alone_inv (s : State) (reach : Reachable (guarded c.step StartsAlone) State.start s) :
    Inv c s ∧ OwnOffsets s := by
  refine reachable_invariant _ (fun s => Inv c s ∧ OwnOffsets s) ?_ State.start s
    ⟨start_inv c, fun impossible => by cases impossible⟩ reach
  rintro label s next ⟨inv, own⟩ moved
  obtain ⟨alone, moved⟩ := guarded_inv c.step label s next moved
  exact ⟨inv_step c label s next inv alone moved, own_offsets_step c label s next inv own moved⟩

end Handed

theorem later_copy_exact (c : Process) (s : State) (reach : Reachable (guarded c.step StartsAlone) State.start s)
    (some : 0 < c.nwork ∨ c.src s.call = []) :
    (s.main = .returned none → s.disk (c.dst s.call) = c.src s.call) ∧
      (s.main.inCall → ∀ entry ∈ s.handed, ∃ w, s.workers[entry.1]? = Option.some w ∧ w.call = s.call) := by
  obtain ⟨inv, own⟩ := starts_alone_inv c s reach
  exact ⟨returned_exact c s some inv, own⟩

def twoCopies (nwork : Nat) : Process where
  nwork := nwork
  jobs := fun call => if call = 0 then ⟨[1], 0⟩ else ⟨[2], 1⟩

def readError : IoError := .other (str "input/output error")

def failedCopy (nwork : Nat) : List Label :=
  List.replicate (nwork + 3) .main ++ [.worker 0 .go, .worker 0 (.readErr readError), .worker 0 .go, .main]

def nextCopy : List Label :=
  List.replicate 5 .main ++ [.worker 1 .go, .worker 1 (.read 1), .worker 1 .wrote, .worker 1 (.read 0), .worker 1 .go,
    .main, .main]

theorem later_copy_exact_two :
    ∃ s, Reachable (guarded (twoCopies 1).step StartsAlone) State.start s ∧ s.call = 1 ∧ s.main = .returned none ∧
      s.disk 1 = [2] := by
  have ran : (exec (guarded (twoCopies 1).step StartsAlone) (failedCopy 1 ++ nextCopy) State.start).map
      (fun s => (s.call, s.main)) = some (1, .returned none) := by
    decide +kernel
  obtain ⟨s, reach, result⟩ := Option.map_eq_some_iff.mp ran
  simp only [Prod.mk.injEq] at result
  obtain ⟨call, returned⟩ := result
  have copied := (later_copy_exact (twoCopies 1) s ⟨_, reach⟩ (Or.inl (by decide))).1 returned
  rw [call] at copied
  exact ⟨s, ⟨_, reach⟩, call, returned, copied⟩

-- Worker 1 belongs to the failed copy and still waits for an offset when the next one
-- starts. It gets offset 0; workers 2 and 3 find the end of the file.
def stolenCopy : List Label :=
  List.replicate 6 .main ++ [.worker 1 .go, .worker 2 .go, .worker 3 .go, .worker 2 (.read 0), .worker 3 (.read 0),
    .worker 2 .go, .worker 3 .go, .main, .main, .main]

theorem leftover_worker_steals :
    ∃ mid s err, exec (twoCopies 2).step (failedCopy 2) State.start = some mid ∧ mid.call = 0 ∧
      mid.main = .returned (some err) ∧ exec (twoCopies 2).step stolenCopy mid = some s ∧
      (∀ label ∈ stolenCopy, label.failed = false) ∧ s.call = 1 ∧ s.main = .returned none ∧
      s.disk ((twoCopies 2).dst 1) ≠ (twoCopies 2).src 1 ∧
      (1, 0) ∈ s.handed ∧ (s.workers[1]?).map Worker.call = some 0 := by
  have first : (exec (twoCopies 2).step (failedCopy 2) State.start).map (fun s => (s.call, s.main)) =
      some (0, .returned (some (.reading 0 readError))) := by
    decide +kernel
  have second : ((exec (twoCopies 2).step (failedCopy 2) State.start).bind (exec (twoCopies 2).step stolenCopy)).map
      (fun s => decide (s.call = 1 ∧ s.main = .returned none ∧ s.disk 1 = [] ∧ (1, 0) ∈ s.handed ∧
        (s.workers[1]?).map Worker.call = some 0)) = some true := by
    decide +kernel
  obtain ⟨mid, ran, failed⟩ := Option.map_eq_some_iff.mp first
  rw [ran, Option.bind_some] at second
  obtain ⟨s, ranOn, result⟩ := Option.map_eq_some_iff.mp second
  simp only [Prod.mk.injEq] at failed
  obtain ⟨call, returned, empty, handed, owner⟩ := of_decide_eq_true result
  refine ⟨mid, s, _, ran, failed.1, failed.2, ranOn, by decide, call, returned, ?_, handed, owner⟩
  show s.disk 1 ≠ [2]
  rw [empty]
  decide

end URoot.Cp
