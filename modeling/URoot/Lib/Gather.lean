import URoot.Lib.Runs
import Mathlib.Data.List.Basic

set_option autoImplicit false

namespace GoLib.Gather

variable {β : Type}

-- What a goroutine does that sends results on a channel: wg.Add(1), a call, which may never
-- return, a send, and wg.Done().
inductive Op (β : Type) where
  | add
  | call (returns : Bool)
  | send (value : β)
  | release
deriving DecidableEq, Repr

abbrev Program (β : Type) := List (Op β)

-- main starts a goroutine for each program, with wg.Add(1) in front, then one that waits for
-- the group and closes the channel, and receives until the channel is closed.
inductive MainPc where
  | looping
  | starting
  | receiving
  | ended
deriving DecidableEq, Repr

inductive CloserPc where
  | unborn
  | waiting
  | closing
  | ended
deriving DecidableEq, Repr

structure State (β : Type) where
  pending : List (Program β)
  main : MainPc
  producers : List (Program β)
  counter : Nat
  closer : CloserPc
  received : List β
  panicked : Bool

def start (programs : List (Program β)) : State β := ⟨programs, .looping, [], 0, .unborn, [], false⟩

inductive Actor where
  | main
  | closer
  | producer (k : Nat)
deriving DecidableEq, Repr

section Steps

variable (s : State β)

def mainStep : Option (State β) :=
  match s.main, s.pending with
  | .looping, [] => some { s with main := .receiving, closer := .waiting }
  | .looping, _ :: _ => some { s with main := .starting, counter := s.counter + 1 }
  | .starting, program :: rest => some { s with main := .looping, producers := s.producers ++ [program], pending := rest }
  | .starting, [] => none
  | .receiving, _ => if s.closer = .ended then some { s with main := .ended } else none
  | .ended, _ => none

def closerStep : Option (State β) :=
  match s.closer with
  | .unborn => none
  | .waiting => if s.counter = 0 then some { s with closer := .closing } else none
  | .closing => some { s with closer := .ended }
  | .ended => none

def advance (k : Nat) (rest : Program β) : State β := { s with producers := s.producers.set k rest }

def producerStep (k : Nat) : Option (State β) :=
  match s.producers[k]? with
  | none => none
  | some [] => none
  | some (.add :: rest) => some { advance s k rest with counter := s.counter + 1 }
  | some (.call returns :: rest) => if returns then some (advance s k rest) else none
  | some (.send value :: rest) =>
      if s.closer = .ended then some { s with panicked := true }
      else if s.main = .receiving then some { advance s k rest with received := s.received ++ [value] }
      else none
  | some (.release :: rest) =>
      if s.counter = 0 then some { s with panicked := true } else some { advance s k rest with counter := s.counter - 1 }

end Steps

def actorStep (s : State β) : Actor → Option (State β)
  | .main => mainStep s
  | .closer => closerStep s
  | .producer k => producerStep s k

def step (a : Actor) (s : State β) : Option (State β) := if s.panicked then none else actorStep s a

section Programs

def held : Program β → Nat
  | [] => 0
  | .add :: rest => held rest - 1
  | .call _ :: rest => held rest
  | .send _ :: rest => held rest
  | .release :: rest => held rest + 1

def Sound : Program β → Prop
  | [] => True
  | .add :: rest => 2 ≤ held rest ∧ Sound rest
  | .call _ :: rest => 1 ≤ held rest ∧ Sound rest
  | .send _ :: rest => 1 ≤ held rest ∧ Sound rest
  | .release :: rest => Sound rest

def sends : Program β → List β
  | [] => []
  | .add :: rest => sends rest
  | .call _ :: rest => sends rest
  | .send value :: rest => value :: sends rest
  | .release :: rest => sends rest

theorem sound_holds (op : Op β) (rest : Program β) (sound : Sound (op :: rest)) : 0 < held (op :: rest) := by
  cases op with
  | add =>
      have units := sound.1
      rw [held]
      omega
  | call returns => exact sound.1
  | send value => exact sound.1
  | release => exact Nat.succ_pos _

theorem sound_rest (op : Op β) (rest : Program β) (sound : Sound (op :: rest)) : Sound rest := by
  cases op with
  | add => exact sound.2
  | call returns => exact sound.2
  | send value => exact sound.2
  | release => exact sound

end Programs

inductive Moves (s : State β) : State β → Prop where
  | begin_ (main : s.main = .looping) (none : s.pending = []) : Moves s { s with main := .receiving, closer := .waiting }
  | reserve (program : Program β) (rest : List (Program β)) (main : s.main = .looping) (first : s.pending = program :: rest) :
      Moves s { s with main := .starting, counter := s.counter + 1 }
  | spawn (program : Program β) (rest : List (Program β)) (main : s.main = .starting) (first : s.pending = program :: rest) :
      Moves s { s with main := .looping, producers := s.producers ++ [program], pending := rest }
  | finish (main : s.main = .receiving) (closed : s.closer = .ended) : Moves s { s with main := .ended }
  | wake (closer : s.closer = .waiting) (zero : s.counter = 0) : Moves s { s with closer := .closing }
  | close (closer : s.closer = .closing) : Moves s { s with closer := .ended }
  | unit (k : Nat) (rest : Program β) (found : s.producers[k]? = some (.add :: rest)) :
      Moves s { advance s k rest with counter := s.counter + 1 }
  | returned (k : Nat) (rest : Program β) (found : s.producers[k]? = some (.call true :: rest)) : Moves s (advance s k rest)
  | deliver (k : Nat) (value : β) (rest : Program β) (found : s.producers[k]? = some (.send value :: rest))
      (opened : s.closer ≠ .ended) (main : s.main = .receiving) :
      Moves s { advance s k rest with received := s.received ++ [value] }
  | release (k : Nat) (rest : Program β) (found : s.producers[k]? = some (.release :: rest)) (some : s.counter ≠ 0) :
      Moves s { advance s k rest with counter := s.counter - 1 }

section Inversion

variable (s next : State β)

theorem main_moves (moved : mainStep s = some next) : Moves s next := by
  rw [mainStep] at moved
  split at moved
  · rename_i main none
    cases moved
    exact .begin_ main none
  · rename_i program rest main first
    cases moved
    exact .reserve program rest main first
  · rename_i program rest main first
    cases moved
    exact .spawn program rest main first
  · cases moved
  · rename_i main
    split at moved
    · rename_i closed
      cases moved
      exact .finish main closed
    · cases moved
  · cases moved

theorem closer_moves (moved : closerStep s = some next) : Moves s next := by
  rw [closerStep] at moved
  split at moved
  · cases moved
  · rename_i closer
    split at moved
    · rename_i zero
      cases moved
      exact .wake closer zero
    · cases moved
  · rename_i closer
    cases moved
    exact .close closer
  · cases moved

end Inversion

section Invariant

theorem sends_set {items : List (Program β)} {k : Nat} {old rest : Program β} (found : items[k]? = some old) (now : List β)
    (split : sends old = now ++ sends rest) : (now ++ (items.set k rest).flatMap sends).Perm (items.flatMap sends) := by
  obtain ⟨index, rfl⟩ := List.getElem?_eq_some_iff.mp found
  have whole : items = items.take k ++ items[k] :: items.drop (k + 1) := by simp
  rw [List.set_eq_take_append_cons_drop, if_pos index]
  conv_rhs => rw [whole]
  simp only [List.flatMap_append, List.flatMap_cons, split, List.append_assoc]
  rw [← List.append_assoc, ← List.append_assoc _ now]
  exact List.perm_append_comm.append_right _

variable (programs : List (Program β))

-- Every unit of the counter belongs to a goroutine that still has to give it back, and the
-- channel is closed only when no goroutine has anything left to do.
structure Inv (s : State β) : Prop where
  safe : s.panicked = false
  fresh : ∀ program ∈ s.pending, program ∈ programs ∧ Sound program ∧ held program = 1
  sound : ∀ left ∈ s.producers, Sound left
  origin : ∀ left ∈ s.producers, ∃ program ∈ programs, left <:+ program
  counter : s.counter = (s.producers.map held).sum + if s.main = .starting then 1 else 0
  values : (s.received ++ s.producers.flatMap sends ++ s.pending.flatMap sends).Perm (programs.flatMap sends)
  unborn : s.closer = .unborn ↔ s.main = .looping ∨ s.main = .starting
  spawned : s.closer ≠ .unborn → s.pending = []
  begun : s.main = .starting → s.pending ≠ []
  quiet : s.closer = .closing ∨ s.closer = .ended → ∀ left ∈ s.producers, left = []
  final : s.main = .ended → s.closer = .ended

theorem inv_start (sound : ∀ program ∈ programs, Sound program ∧ held program = 1) : Inv programs (start programs) where
  safe := rfl
  fresh := fun program member => ⟨member, sound program member⟩
  sound := by simp [start]
  origin := by simp [start]
  counter := rfl
  values := by simp [start]
  unborn := by simp [start]
  spawned := fun born => absurd rfl born
  begun := by simp [start]
  quiet := by simp [start]
  final := by simp [start]

section Kept

variable (s : State β) (inv : Inv programs s)

include inv

-- A goroutine with something left to do holds a unit, so the channel is open.
theorem busy_counter {k : Nat} {op : Op β} {rest : Program β} (found : s.producers[k]? = some (op :: rest)) :
    held (op :: rest) ≤ s.counter ∧ s.closer ≠ .closing ∧ s.closer ≠ .ended := by
  have member := List.mem_of_getElem? found
  have part : _ + held (op :: rest) = _ + 0 := sum_set s.producers k _ [] found held
  have total := inv.counter
  refine ⟨by omega, fun closing => ?_, fun ended => ?_⟩
  · cases inv.quiet (Or.inl closing) _ member
  · cases inv.quiet (Or.inr ended) _ member

theorem producer_moves (next : State β) (k : Nat) (moved : producerStep s k = some next) : Moves s next := by
  rw [producerStep] at moved
  split at moved
  · cases moved
  · cases moved
  · rename_i rest found
    cases moved
    exact .unit k rest found
  · rename_i returns rest found
    cases returns with
    | true =>
        cases moved
        exact .returned k rest found
    | false => cases moved
  · rename_i value rest found
    split at moved
    · rename_i closed
      exact absurd closed (busy_counter programs s inv found).2.2
    · rename_i opened
      split at moved
      · rename_i main
        cases moved
        exact .deliver k value rest found opened main
      · cases moved
  · rename_i rest found
    split at moved
    · rename_i zero
      have some := (busy_counter programs s inv found).1
      rw [held] at some
      omega
    · rename_i some
      cases moved
      exact .release k rest found some

theorem step_moves (next : State β) (a : Actor) (moved : step a s = some next) : Moves s next := by
  rw [step] at moved
  split at moved
  · cases moved
  · cases a with
    | main => exact main_moves s next moved
    | closer => exact closer_moves s next moved
    | producer k => exact producer_moves programs s inv next k moved

theorem inv_advance {k : Nat} {op : Op β} {rest : Program β} (found : s.producers[k]? = some (op :: rest)) (counter : Nat)
    (now : List β) (units : counter + held (op :: rest) = s.counter + held rest) (sent : sends (op :: rest) = now ++ sends rest) :
    Inv programs { advance s k rest with counter := counter, received := s.received ++ now } where
  safe := inv.safe
  fresh := inv.fresh
  sound := by
    intro left member
    rcases List.mem_or_eq_of_mem_set member with old | new
    · exact inv.sound left old
    · rw [new]
      exact sound_rest op rest (inv.sound _ (List.mem_of_getElem? found))
  origin := by
    intro left member
    rcases List.mem_or_eq_of_mem_set member with old | new
    · exact inv.origin left old
    · obtain ⟨program, listed, part⟩ := inv.origin _ (List.mem_of_getElem? found)
      exact ⟨program, listed, by rw [new]; exact (List.suffix_cons op rest).trans part⟩
  counter := by
    have total := inv.counter
    have moved := sum_set s.producers k _ rest found held
    change counter = ((s.producers.set k rest).map held).sum + if s.main = .starting then 1 else 0
    omega
  values := by
    refine List.Perm.trans (List.Perm.append_right _ ?_) inv.values
    rw [List.append_assoc]
    exact (sends_set found now sent).append_left _
  unborn := inv.unborn
  spawned := inv.spawned
  begun := inv.begun
  quiet := by
    obtain ⟨-, notClosing, notEnded⟩ := busy_counter programs s inv found
    rintro (closing | ended)
    · exact absurd closing notClosing
    · exact absurd ended notEnded
  final := inv.final

end Kept

theorem inv_step (a : Actor) (s next : State β) (inv : Inv programs s) (moved : step a s = some next) : Inv programs next := by
  cases step_moves programs s inv next a moved with
  | begin_ main none =>
      refine ⟨inv.safe, inv.fresh, inv.sound, inv.origin, ?_, inv.values, by simp, fun _ => none, by simp, by simp, by simp⟩
      have total := inv.counter
      rw [main] at total
      exact total
  | reserve program rest main first =>
      have unborn := inv.unborn.mpr (Or.inl main)
      refine ⟨inv.safe, inv.fresh, inv.sound, inv.origin, ?_, inv.values, by simp [unborn],
        fun born => absurd unborn born, fun _ => by rw [first]; simp, ?_, by simp⟩
      · have total := inv.counter
        rw [main] at total
        simpa using total
      · simp [unborn]
  | spawn program rest main first =>
      have unborn := inv.unborn.mpr (Or.inr main)
      have fresh := inv.fresh
      rw [first] at fresh
      obtain ⟨⟨listed, sound, one⟩, later⟩ := List.forall_mem_cons.mp fresh
      refine ⟨inv.safe, later, ?_, ?_, ?_, ?_, by simp [unborn], fun born => absurd unborn born, by simp, by simp [unborn],
        by simp⟩
      · exact List.forall_mem_append.mpr ⟨inv.sound, List.forall_mem_singleton.mpr sound⟩
      · exact List.forall_mem_append.mpr ⟨inv.origin, List.forall_mem_singleton.mpr ⟨program, listed, List.suffix_refl _⟩⟩
      · have total := inv.counter
        rw [main] at total
        simp only [List.map_append, List.map_cons, List.map_nil, List.sum_append, List.sum_singleton, one]
        simpa using total
      · have values := inv.values
        rw [first, List.flatMap_cons] at values
        simpa using values
  | finish main closed =>
      refine ⟨inv.safe, inv.fresh, inv.sound, inv.origin, ?_, inv.values, by simp [closed], inv.spawned, by simp,
        inv.quiet, fun _ => closed⟩
      have total := inv.counter
      rw [main] at total
      exact total
  | wake closer zero =>
      have main : ¬ (s.main = .looping ∨ s.main = .starting) := fun early => by
        rw [inv.unborn.mpr early] at closer
        cases closer
      refine ⟨inv.safe, inv.fresh, inv.sound, inv.origin, inv.counter, inv.values, by simp [main],
        fun _ => inv.spawned (by rw [closer]; simp), inv.begun, fun _ left member => ?_, fun ended => ?_⟩
      · -- The counter is zero, so nobody holds a unit.
        cases left with
        | nil => rfl
        | cons op rest =>
            obtain ⟨k, found⟩ := List.mem_iff_getElem?.mp member
            have some := (busy_counter programs s inv found).1
            have positive := sound_holds op rest (inv.sound _ member)
            omega
      · rw [inv.final ended] at closer
        cases closer
  | close closer =>
      have main : ¬ (s.main = .looping ∨ s.main = .starting) := fun early => by
        rw [inv.unborn.mpr early] at closer
        cases closer
      exact ⟨inv.safe, inv.fresh, inv.sound, inv.origin, inv.counter, inv.values, by simp [main],
        fun _ => inv.spawned (by rw [closer]; simp), inv.begun, fun _ => inv.quiet (Or.inl closer), fun _ => rfl⟩
  | unit k rest found =>
      have two := (inv.sound _ (List.mem_of_getElem? found)).1
      have moved := inv_advance programs s inv found (s.counter + 1) [] (by rw [held]; omega) rfl
      rwa [List.append_nil] at moved
  | returned k rest found =>
      have moved := inv_advance programs s inv found s.counter [] rfl rfl
      rwa [List.append_nil] at moved
  | deliver k value rest found opened main => exact inv_advance programs s inv found s.counter [value] rfl rfl
  | release k rest found some =>
      have moved := inv_advance programs s inv found (s.counter - 1) [] (by rw [held]; omega) rfl
      rwa [List.append_nil] at moved

end Invariant

section Ending

def MainPc.work : MainPc → Nat
  | .looping => 4
  | .starting => 3
  | .receiving => 1
  | .ended => 0

def CloserPc.work : CloserPc → Nat
  | .unborn => 0
  | .waiting => 2
  | .closing => 1
  | .ended => 0

def work (s : State β) : Nat :=
  (s.pending.map fun program => program.length + 2).sum + (s.producers.map List.length).sum + s.main.work + s.closer.work

variable (programs : List (Program β))

theorem advance_work {s : State β} {k : Nat} {op : Op β} {rest : Program β} (found : s.producers[k]? = some (op :: rest)) :
    work (advance s k rest) < work s := by
  have moved := sum_set s.producers k _ rest found List.length
  simp only [List.length_cons] at moved
  simp only [work, advance]
  omega

theorem step_loses (a : Actor) (s next : State β) (inv : Inv programs s) (moved : step a s = some next) : work next < work s := by
  cases step_moves programs s inv next a moved with
  | begin_ main none =>
      have closer := inv.unborn.mpr (Or.inl main)
      simp only [work, main, closer, MainPc.work, CloserPc.work]
      omega
  | reserve program rest main first =>
      simp only [work, main, MainPc.work]
      omega
  | spawn program rest main first =>
      simp only [work, main, first, MainPc.work, List.map_append, List.map_cons, List.map_nil, List.sum_append, List.sum_cons,
        List.sum_nil]
      omega
  | finish main closed =>
      simp only [work, main, MainPc.work]
      omega
  | wake closer zero =>
      simp only [work, closer, CloserPc.work]
      omega
  | close closer =>
      simp only [work, closer, CloserPc.work]
      omega
  | unit k rest found => exact advance_work found
  | returned k rest found => exact advance_work found
  | deliver k value rest found opened main => exact advance_work found
  | release k rest found some => exact advance_work found

def Returns (program : Program β) : Prop := ∀ op ∈ program, op ≠ .call false

theorem producer_enabled (s : State β) (k : Nat) (op : Op β) (rest : Program β) (found : s.producers[k]? = some (op :: rest))
    (returns : op ≠ .call false) (main : s.main = .receiving) : producerStep s k ≠ none := by
  rw [producerStep, found]
  cases op with
  | add => simp
  | call answered =>
      cases answered with
      | true => simp
      | false => exact absurd rfl returns
  | send value =>
      simp only [main, if_pos]
      split <;> simp
  | release =>
      simp only
      split <;> simp

theorem holder_exists (items : List (Program β)) (some : (items.map held).sum ≠ 0) : ∃ left ∈ items, 0 < held left := by
  induction items with
  | nil => exact absurd rfl some
  | cons first rest ih =>
      by_cases here : 0 < held first
      · exact ⟨first, List.mem_cons_self, here⟩
      · obtain ⟨left, member, positive⟩ := ih (by rw [List.map_cons, List.sum_cons] at some; omega)
        exact ⟨left, List.mem_cons_of_mem _ member, positive⟩

theorem stuck_ended (s : State β) (inv : Inv programs s) (returns : ∀ program ∈ programs, Returns program)
    (stuck : Stuck step s) : s.main = .ended := by
  have idle : ∀ a, actorStep s a = none := by
    intro a
    have still := stuck a
    rwa [step, inv.safe, if_neg Bool.false_ne_true] at still
  have mainIdle : mainStep s = none := idle .main
  have closerIdle : closerStep s = none := idle .closer
  cases main : s.main with
  | ended => rfl
  | looping => cases pending : s.pending <;> simp [mainStep, main, pending] at mainIdle
  | starting =>
      obtain ⟨program, rest, first⟩ := List.exists_cons_of_ne_nil (inv.begun main)
      simp [mainStep, main, first] at mainIdle
  | receiving =>
      have born : s.closer ≠ .unborn := fun unborn => by
        rcases inv.unborn.mp unborn with early | early <;> rw [main] at early <;> cases early
      cases closer : s.closer with
      | unborn => exact absurd closer born
      | ended => simp [mainStep, main, closer] at mainIdle
      | closing => simp [closerStep, closer] at closerIdle
      | waiting =>
          have some : s.counter ≠ 0 := fun zero => by simp [closerStep, closer, zero] at closerIdle
          have total := inv.counter
          rw [main] at total
          obtain ⟨left, member, positive⟩ := holder_exists s.producers (by simpa [total] using some)
          obtain ⟨k, found⟩ := List.mem_iff_getElem?.mp member
          obtain ⟨program, listed, part⟩ := inv.origin left member
          cases left with
          | nil => cases positive
          | cons op rest =>
              have answered := returns program listed op (part.subset List.mem_cons_self)
              exact absurd (idle (.producer k)) (producer_enabled s k op rest found answered main)

end Ending

section Results

variable (programs : List (Program β)) (sound : ∀ program ∈ programs, Sound program ∧ held program = 1)

include sound

theorem reachable_inv (s : State β) (reach : Reachable step (start programs) s) : Inv programs s :=
  reachable_invariant step (Inv programs) (fun a s next => inv_step programs a s next) _ s (inv_start programs sound) reach

theorem received_perm (s : State β) (reach : Reachable step (start programs) s) (ended : s.main = .ended) :
    s.received.Perm (programs.flatMap sends) := by
  have inv := reachable_inv programs sound s reach
  have closed := inv.final ended
  have values := inv.values
  have silent : s.producers.flatMap sends = [] := by
    rw [List.flatMap_eq_nil_iff]
    intro left member
    rw [inv.quiet (Or.inr closed) left member, sends]
  rwa [silent, inv.spawned (by rw [closed]; simp), List.flatMap_nil, List.append_nil, List.append_nil] at values

theorem run_bounded (schedule : List Actor) (s : State β) (ran : exec step schedule (start programs) = some s) :
    schedule.length ≤ work (start programs) := by
  have bounded := schedule_bounded_within step work (Inv programs) (fun a s next => inv_step programs a s next)
    (fun a s next => step_loses programs a s next) schedule _ s (inv_start programs sound) ran
  omega

theorem run_stops : ∃ s, Reachable step (start programs) s ∧ Stuck step s :=
  exists_stuck_within step work (Inv programs) (fun a s next => inv_step programs a s next)
    (fun a s next => step_loses programs a s next) _ (inv_start programs sound)

end Results

end GoLib.Gather
