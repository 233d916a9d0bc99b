import URoot.Lib.Codec
import URoot.Lib.Gather

set_option autoImplicit false

namespace URoot.Dhclient

open GoLib Gather

section Model

abbrev Error := Bytes

-- An interface and what the calls for it come to: the error of ifup, and the results of
-- dhclient4 and dhclient6, of which there is none when the call never returns.
structure Link where
  name : Bytes
  ifup : Option Error
  dhclient4 : Option (Option Error)
  dhclient6 : Option (Option Error)
deriving DecidableEq, Repr

structure Flags where
  ipv4 : Bool
  ipv6 : Bool
deriving DecidableEq, Repr

variable (flags : Flags)

def client (result : Option (Option Error)) : Program (Option Error) :=
  [.add, .call result.isSome, .send (result.getD none), .release]

def worker (link : Link) : Program (Option Error) :=
  .call true :: match link.ifup with
    | some err => [.send (some err), .release]
    | none =>
        (if flags.ipv4 then client link.dhclient4 else []) ++ ((if flags.ipv6 then client link.dhclient6 else []) ++ [.release])

variable (links : List Link) (ifRE : Bytes → Bool)

def matching : List Link := links.filter fun link => ifRE link.name

def start : State (Option Error) := Gather.start ((matching links ifRE).map (worker flags))

structure Output where
  stderr : List Error
  noMatch : Bool
deriving DecidableEq, Repr

def output (s : State (Option Error)) : Output := ⟨s.received.filterMap id, s.received.length == 0⟩

end Model

def results (flags : Flags) (link : Link) : List (Option Error) :=
  match link.ifup with
  | some err => [some err]
  | none => (if flags.ipv4 then [link.dhclient4.getD none] else []) ++ (if flags.ipv6 then [link.dhclient6.getD none] else [])

section Worker

variable (flags : Flags) (link : Link)

theorem worker_sends : sends (worker flags link) = results flags link := by
  rw [worker, results, sends]
  cases link.ifup with
  | some err => rfl
  | none => cases flags.ipv4 <;> cases flags.ipv6 <;> rfl

theorem worker_sound : Sound (worker flags link) ∧ held (worker flags link) = 1 := by
  rw [worker]
  cases link.ifup with
  | some err => simp [Sound, held]
  | none => cases flags.ipv4 <;> cases flags.ipv6 <;> simp [Sound, held, client]

def Answers : Prop :=
  link.ifup = none → (flags.ipv4 = true → link.dhclient4.isSome = true) ∧ (flags.ipv6 = true → link.dhclient6.isSome = true)

theorem client_returns (result : Option (Option Error)) (answered : result.isSome = true) : Returns (client result) := by
  rw [client, answered]
  simp [Returns]

theorem asked_returns {asked : Bool} {result : Option (Option Error)} (answered : asked = true → result.isSome = true) :
    Returns (if asked then client result else []) := by
  cases asked with
  | false => exact List.forall_mem_nil _
  | true => exact client_returns result (answered rfl)

theorem worker_returns (answers : Answers flags link) : Returns (worker flags link) := by
  rw [worker]
  refine List.forall_mem_cons.mpr ⟨by simp, ?_⟩
  cases up : link.ifup with
  | some err => simp
  | none =>
      obtain ⟨four, six⟩ := answers up
      refine List.forall_mem_append.mpr ⟨asked_returns four, ?_⟩
      refine List.forall_mem_append.mpr ⟨asked_returns six, ?_⟩
      simp

end Worker

section Run

variable (flags : Flags) (links : List Link) (ifRE : Bytes → Bool)

theorem workers_sound : ∀ program ∈ (matching links ifRE).map (worker flags), Sound program ∧ held program = 1 := by
  intro program member
  obtain ⟨link, -, rfl⟩ := List.mem_map.mp member
  exact worker_sound flags link

theorem worker_length (link : Link) : (worker flags link).length ≤ 10 := by
  rw [worker]
  cases link.ifup with
  | some err => simp
  | none => cases flags.ipv4 <;> cases flags.ipv6 <;> simp [client]

theorem start_work : work (start flags links ifRE) ≤ 12 * (matching links ifRE).length + 4 := by
  have sum : ∀ list : List Link, ((list.map (worker flags)).map fun program => program.length + 2).sum ≤ 12 * list.length := by
    intro list
    induction list with
    | nil => exact Nat.le_refl _
    | cons link rest ih =>
        have short := worker_length flags link
        simp only [List.map_cons, List.sum_cons, List.length_cons] at ih ⊢
        omega
  have total := sum (matching links ifRE)
  simp only [work, start, Gather.start, List.map_nil, List.sum_nil, MainPc.work, CloserPc.work]
  omega

theorem all_received (s : State (Option Error)) (reach : Reachable step (start flags links ifRE) s) (ended : s.main = .ended) :
    s.received.Perm ((matching links ifRE).flatMap (results flags)) := by
  have perm := received_perm _ (workers_sound flags links ifRE) s reach ended
  rwa [List.flatMap_map, List.flatMap_congr fun link _ => worker_sends flags link] at perm

end Run

-- Whatever the interleaving: no goroutine sends on the closed channel and the group's counter stays
-- at zero or above; main ends with every result of every interface, and it does end if the clients do.
theorem main_reports_all (flags : Flags) (links : List Link) (ifRE : Bytes → Bool) :
    (∀ s, Reachable step (start flags links ifRE) s → s.panicked = false ∧
      (s.main = .ended → s.received.Perm ((matching links ifRE).flatMap (results flags)) ∧
        (output s).stderr.Perm (((matching links ifRE).flatMap (results flags)).filterMap id) ∧
        ((output s).noMatch = true ↔ ∀ link ∈ matching links ifRE, results flags link = []))) ∧
    (∀ schedule s, exec step schedule (start flags links ifRE) = some s →
      schedule.length ≤ 12 * (matching links ifRE).length + 4) ∧
    ((∀ link ∈ matching links ifRE, Answers flags link) →
      (∃ s, Reachable step (start flags links ifRE) s ∧ Stuck step s) ∧
      ∀ s, Reachable step (start flags links ifRE) s → Stuck step s → s.main = .ended) := by
  have sound := workers_sound flags links ifRE
  refine ⟨fun s reach => ⟨(reachable_inv _ sound s reach).safe, fun ended => ?_⟩, ?_, ?_⟩
  · have perm := all_received flags links ifRE s reach ended
    refine ⟨perm, perm.filterMap id, ?_⟩
    rw [output, beq_iff_eq, perm.length_eq, List.length_eq_zero_iff, List.flatMap_eq_nil_iff]
  · intro schedule s ran
    exact (run_bounded _ sound schedule s ran).trans (start_work flags links ifRE)
  · intro answers
    refine ⟨run_stops _ sound, fun s reach stuck => stuck_ended _ s (reachable_inv _ sound s reach) ?_ stuck⟩
    intro program member
    obtain ⟨link, listed, rfl⟩ := List.mem_map.mp member
    exact worker_returns flags link (answers link listed)

-- The first interface gets an IPv4 lease only, the second does not come up, the third is not asked for.
def threeLinks : List Link :=
  [⟨str "eth0", none, some none, some (some (str "no lease"))⟩, ⟨str "eth1", some (str "not up"), none, none⟩,
    ⟨str "lo", none, none, none⟩]

def ethernet (name : Bytes) : Bool := name.take 3 = str "eth"

theorem two_links_reported :
    ∃ s, Reachable step (start ⟨true, true⟩ threeLinks ethernet) s ∧ s.main = .ended ∧
      s.received.Perm [none, some (str "no lease"), some (str "not up")] ∧ (output s).noMatch = false := by
  obtain ⟨safe, -, ends⟩ := main_reports_all ⟨true, true⟩ threeLinks ethernet
  have matched : matching threeLinks ethernet = threeLinks.take 2 := by decide
  have answers : ∀ link ∈ matching threeLinks ethernet, Answers ⟨true, true⟩ link := by
    rw [matched]
    intro link member
    rcases List.mem_pair.mp member with rfl | rfl
    · exact fun _ => ⟨fun _ => rfl, fun _ => rfl⟩
    · intro up
      cases up
  obtain ⟨⟨s, reach, stuck⟩, stops⟩ := ends answers
  have ended := stops s reach stuck
  obtain ⟨received, -, complains⟩ := (safe s reach).2 ended
  refine ⟨s, reach, ended, received, Bool.eq_false_iff.mpr fun none_ => ?_⟩
  have empty := complains.mp none_ ⟨str "eth1", some (str "not up"), none, none⟩ (by decide)
  cases empty

end URoot.Dhclient
