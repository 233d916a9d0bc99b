import Mathlib.Algebra.Order.Ring.Nat
import Mathlib.Tactic.Common

set_option autoImplicit false

namespace GoLib

-- A concurrent program as one step function per actor. A step that is not
-- enabled is none, and a run is a schedule whose steps are all enabled.
section Runs

variable {S A : Type} (step : A → S → Option S)

def exec : List A → S → Option S
  | [], s => some s
  | a :: rest, s => (step a s).bind (exec rest)

def Reachable (start s : S) : Prop := ∃ schedule, exec step schedule start = some s

def Stuck (s : S) : Prop := ∀ a, step a s = none

theorem exec_cons (a : A) (rest : List A) (s next : S) (moved : step a s = some next) :
    exec step (a :: rest) s = exec step rest next := by
  rw [exec, moved, Option.bind_some]

theorem exec_cons_inv (a : A) (rest : List A) (s last : S) (ran : exec step (a :: rest) s = some last) :
    ∃ next, step a s = some next ∧ exec step rest next = some last := by
  rw [exec] at ran
  exact Option.bind_eq_some_iff.mp ran

theorem exec_append (first second : List A) (s mid last : S) (ran : exec step first s = some mid)
    (ranOn : exec step second mid = some last) : exec step (first ++ second) s = some last := by
  induction first generalizing s with
  | nil =>
      cases ran
      exact ranOn
  | cons a rest ih =>
      obtain ⟨next, moved, ranRest⟩ := exec_cons_inv step a rest s mid ran
      rw [List.cons_append, exec_cons step a _ s next moved]
      exact ih next ranRest

theorem reachable_start (start : S) : Reachable step start start := ⟨[], rfl⟩

theorem reachable_step (start s next : S) (a : A) (reach : Reachable step start s) (moved : step a s = some next) :
    Reachable step start next := by
  obtain ⟨schedule, ran⟩ := reach
  refine ⟨schedule ++ [a], exec_append step schedule [a] start s next ran ?_⟩
  rw [exec_cons step a [] s next moved, exec]

theorem reachable_trans (start mid last : S) (reach : Reachable step start mid) (onward : Reachable step mid last) :
    Reachable step start last := by
  obtain ⟨first, ran⟩ := reach
  obtain ⟨second, ranOn⟩ := onward
  exact ⟨first ++ second, exec_append step first second start mid last ran ranOn⟩

theorem reachable_invariant (inv : S → Prop) (kept : ∀ a s next, inv s → step a s = some next → inv next)
    (start s : S) (holds : inv start) (reach : Reachable step start s) : inv s := by
  obtain ⟨schedule, ran⟩ := reach
  induction schedule generalizing start with
  | nil =>
      cases ran
      exact holds
  | cons a rest ih =>
      obtain ⟨next, moved, ranRest⟩ := exec_cons_inv step a rest start s ran
      exact ih next (kept a start next holds moved) ranRest

theorem bounded_ends (start : S) (bound : Nat) (all : ∀ schedule s, exec step schedule start = some s → schedule.length ≤ bound) :
    ∃ s, Reachable step start s ∧ Stuck step s := by
  by_contra none
  have grows : ∀ n, ∃ schedule s, exec step schedule start = some s ∧ schedule.length = n := by
    intro n
    induction n with
    | zero => exact ⟨[], start, rfl, rfl⟩
    | succ n ih =>
        obtain ⟨schedule, s, ran, size⟩ := ih
        obtain ⟨a, next, moved⟩ : ∃ a next, step a s = some next := by
          by_contra stays
          refine none ⟨s, ⟨schedule, ran⟩, fun a => Option.eq_none_iff_forall_not_mem.mpr fun next moved => ?_⟩
          exact stays ⟨a, next, moved⟩
        refine ⟨schedule ++ [a], next, exec_append step schedule [a] start s next ran (exec_cons step a [] s next moved), ?_⟩
        rw [List.length_append, size, List.length_singleton]
  obtain ⟨schedule, s, ran, size⟩ := grows (bound + 1)
  have short := all schedule s ran
  omega

def guarded (allowed : A → S → Prop) [∀ a s, Decidable (allowed a s)] (a : A) (s : S) : Option S :=
  if allowed a s then step a s else none

theorem guarded_inv {allowed : A → S → Prop} [∀ a s, Decidable (allowed a s)] (a : A) (s next : S)
    (moved : guarded step allowed a s = some next) : allowed a s ∧ step a s = some next := by
  rw [guarded] at moved
  split at moved
  · exact ⟨‹_›, moved⟩
  · cases moved

theorem guarded_reachable {allowed : A → S → Prop} [∀ a s, Decidable (allowed a s)] (start s : S)
    (reach : Reachable (guarded step allowed) start s) : Reachable step start s :=
  reachable_invariant (guarded step allowed) (Reachable step start)
    (fun a s next before moved => reachable_step step start s next a before (guarded_inv step a s next moved).2)
    start s (reachable_start step start) reach

theorem guarded_stuck (allowed : A → S → Prop) [∀ a s, Decidable (allowed a s)] (s : S)
    (stuck : Stuck (guarded step allowed) s) (a : A) (may : allowed a s) : step a s = none := by
  have still := stuck a
  rwa [guarded, if_pos may] at still

end Runs

section Ending

variable {S A : Type} (step : A → S → Option S) (work : S → Nat)

section Within

variable (inv : S → Prop) (kept : ∀ a s next, inv s → step a s = some next → inv next)
  (loses : ∀ a s next, inv s → step a s = some next → work next < work s)

include kept loses

theorem schedule_bounded_within (schedule : List A) (start s : S) (holds : inv start)
    (ran : exec step schedule start = some s) : schedule.length + work s ≤ work start := by
  induction schedule generalizing start with
  | nil =>
      cases ran
      simp
  | cons a rest ih =>
      obtain ⟨next, moved, onward⟩ := exec_cons_inv step a rest start s ran
      have lost := loses a start next holds moved
      have bounded := ih next (kept a start next holds moved) onward
      rw [List.length_cons]
      omega

theorem exists_stuck_within (start : S) (holds : inv start) : ∃ s, Reachable step start s ∧ Stuck step s := by
  induction size : work start using Nat.strong_induction_on generalizing start with
  | _ size ih =>
      by_cases moves : ∃ a next, step a start = some next
      · obtain ⟨a, next, moved⟩ := moves
        obtain ⟨s, reach, stuck⟩ :=
          ih (work next) (size ▸ loses a start next holds moved) next (kept a start next holds moved) rfl
        exact ⟨s, reachable_trans step start next s (reachable_step step start start next a (reachable_start step start) moved)
          reach, stuck⟩
      · refine ⟨start, reachable_start step start, fun a => ?_⟩
        rw [Option.eq_none_iff_forall_not_mem]
        exact fun next moved => moves ⟨a, next, moved⟩

end Within

variable (loses : ∀ a s next, step a s = some next → work next < work s)

include loses

theorem schedule_bounded (schedule : List A) (start s : S) (ran : exec step schedule start = some s) :
    schedule.length + work s ≤ work start :=
  schedule_bounded_within step work (fun _ => True) (fun _ _ _ _ _ => trivial) (fun a s next _ => loses a s next) schedule
    start s trivial ran

theorem exists_stuck (start : S) : ∃ s, Reachable step start s ∧ Stuck step s :=
  exists_stuck_within step work (fun _ => True) (fun _ _ _ _ _ => trivial) (fun a s next _ => loses a s next) start trivial

end Ending

section Replaced

variable {α : Type}

theorem lookup_set {items : List α} {id j : Nat} {new item : α} (here : (items.set id new)[j]? = some item) :
    (j = id ∧ item = new) ∨ (j ≠ id ∧ items[j]? = some item) := by
  rw [List.getElem?_set] at here
  split at here
  · rename_i same
    split at here
    · cases here
      exact Or.inl ⟨same.symm, rfl⟩
    · cases here
  · rename_i other
    exact Or.inr ⟨fun same => other same.symm, here⟩

theorem mem_set_or {items : List α} {id : Nat} {old : α} (new item : α) (found : items[id]? = some old) (member : item ∈ items) :
    item = old ∨ item ∈ items.set id new := by
  obtain ⟨k, here⟩ := List.mem_iff_getElem?.mp member
  by_cases same : id = k
  · rw [same, here] at found
    exact Or.inl (Option.some.inj found)
  · refine Or.inr (List.mem_iff_getElem?.mpr ⟨k, ?_⟩)
    rw [List.getElem?_set_ne same, here]

variable (items : List α) (id : Nat) (old new : α) (found : items[id]? = some old)

include found

theorem lookup_set_same : (items.set id new)[id]? = some new := by
  rw [List.getElem?_set_self]
  exact (List.getElem?_eq_some_iff.mp found).1

theorem mem_set_new : new ∈ items.set id new := List.mem_of_getElem? (lookup_set_same items id old new found)

theorem count_set (p : α → Bool) :
    (items.set id new).countP p + (if p old then 1 else 0) = items.countP p + (if p new then 1 else 0) := by
  induction items generalizing id with
  | nil => cases found
  | cons first rest ih =>
      cases id with
      | zero =>
          cases found
          simp only [List.set_cons_zero, List.countP_cons]
          omega
      | succ id =>
          have later := ih id found
          simp only [List.set_cons_succ, List.countP_cons]
          omega

theorem sum_set (f : α → Nat) : ((items.set id new).map f).sum + f old = (items.map f).sum + f new := by
  induction items generalizing id with
  | nil => cases found
  | cons first rest ih =>
      cases id with
      | zero =>
          cases found
          simp only [List.set_cons_zero, List.map_cons, List.sum_cons]
          omega
      | succ id =>
          have later := ih id found
          simp only [List.set_cons_succ, List.map_cons, List.sum_cons]
          omega

end Replaced

end GoLib
