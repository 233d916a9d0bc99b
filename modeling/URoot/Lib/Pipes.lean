import URoot.Lib.Runs
import Mathlib.Algebra.BigOperators.Group.Finset.Basic
import Mathlib.Algebra.Order.BigOperators.Group.Finset

set_option autoImplicit false

namespace GoLib.Pipes

-- What a goroutine does next: receive from one of its channels (none from a closed one),
-- send on its output channel, or nothing any more.
inductive Want (ι α β σ : Type) where
  | receive (i : ι) (onward : Option α → σ)
  | send (item : β) (onward : σ)
  | stop

-- The goroutine alone: all that it will receive is there, and what it sends is kept.
structure Solo (ι α β σ : Type) where
  here : σ
  scripts : ι → List α
  sent : List β

variable {ι α β σ : Type} [DecidableEq ι] (want : σ → Want ι α β σ)

def soloStep (s : Solo ι α β σ) : Option (Solo ι α β σ) :=
  match want s.here with
  | .receive i onward =>
      match s.scripts i with
      | [] => some { s with here := onward none }
      | item :: rest => some { s with here := onward (some item), scripts := Function.update s.scripts i rest }
  | .send item onward => some { s with here := onward, sent := s.sent ++ [item] }
  | .stop => none

inductive Ends : Nat → Solo ι α β σ → Solo ι α β σ → Prop where
  | stop (s : Solo ι α β σ) (stopped : soloStep want s = none) : Ends 0 s s
  | step (n : Nat) (s next last : Solo ι α β σ) (moved : soloStep want s = some next) (later : Ends n next last) :
      Ends (n + 1) s last

section Solo

variable (i : ι) (s last : Solo ι α β σ)

theorem ends_stop (stopped : want s.here = .stop) : Ends want 0 s s := by
  refine .stop s ?_
  rw [soloStep, stopped]

theorem ends_send {n : Nat} {item : β} {onward : σ} (sends : want s.here = .send item onward)
    (later : Ends want n { s with here := onward, sent := s.sent ++ [item] } last) : Ends want (n + 1) s last := by
  refine .step n s _ last ?_ later
  rw [soloStep, sends]

theorem ends_receive {n : Nat} {item : α} {rest : List α} {onward : Option α → σ} (receives : want s.here = .receive i onward)
    (first : s.scripts i = item :: rest)
    (later : Ends want n { s with here := onward (some item), scripts := Function.update s.scripts i rest } last) :
    Ends want (n + 1) s last := by
  refine .step n s _ last ?_ later
  rw [soloStep, receives]
  simp only [first]

theorem ends_receive_closed (n : Nat) (onward : Option α → σ) (receives : want s.here = .receive i onward)
    (empty : s.scripts i = []) (later : Ends want n { s with here := onward none } last) : Ends want (n + 1) s last := by
  refine .step n s _ last ?_ later
  rw [soloStep, receives]
  simp only [empty]

end Solo

section Two

def pair (a b : List α) (second : Bool) : List α := if second then b else a

variable (wantTwo : σ → Want Bool α β σ) (here : σ) (a b : List α) (sent : List β) (onward : Option α → σ) (n : Nat)
  (last : Solo Bool α β σ)

theorem ends_receive_first (receives : wantTwo here = .receive false onward)
    (later : Ends wantTwo n ⟨onward a.head?, pair a.tail b, sent⟩ last) : Ends wantTwo (n + 1) ⟨here, pair a b, sent⟩ last := by
  cases a with
  | nil => exact ends_receive_closed wantTwo false _ last n onward receives rfl later
  | cons x rest =>
      refine ends_receive wantTwo false _ last receives rfl ?_
      have moved : Function.update (pair (x :: rest) b) false rest = pair rest b := by
        funext second
        cases second <;> rfl
      rw [moved]
      exact later

theorem ends_receive_second (receives : wantTwo here = .receive true onward)
    (later : Ends wantTwo n ⟨onward b.head?, pair a b.tail, sent⟩ last) : Ends wantTwo (n + 1) ⟨here, pair a b, sent⟩ last := by
  cases b with
  | nil => exact ends_receive_closed wantTwo true _ last n onward receives rfl later
  | cons x rest =>
      refine ends_receive wantTwo true _ last receives rfl ?_
      have moved : Function.update (pair a (x :: rest)) true rest = pair a rest := by
        funext second
        cases second <;> rfl
      rw [moved]
      exact later

end Two

-- The same goroutine with a producer on each channel, which sends what it has and then
-- closes the channel, and a reader that takes what comes out.
structure Net (ι α β σ : Type) where
  here : σ
  todo : ι → List α
  queue : ι → List α
  closed : ι → Bool
  out : List β
  taken : List β

inductive Actor (ι : Type) where
  | produce (i : ι)
  | close (i : ι)
  | consume
  | take

def step (size : Nat) : Actor ι → Net ι α β σ → Option (Net ι α β σ)
  | .produce i, s =>
      match s.todo i with
      | [] => none
      | item :: rest =>
          if (s.queue i).length < size then
            some { s with todo := Function.update s.todo i rest, queue := Function.update s.queue i (s.queue i ++ [item]) }
          else none
  | .close i, s =>
      if s.todo i = [] ∧ s.closed i = false then some { s with closed := Function.update s.closed i true } else none
  | .consume, s =>
      match want s.here with
      | .receive i onward =>
          match s.queue i with
          | item :: rest => some { s with here := onward (some item), queue := Function.update s.queue i rest }
          | [] => if s.closed i then some { s with here := onward none } else none
      | .send item onward =>
          if s.out.length < size then some { s with here := onward, out := s.out ++ [item] } else none
      | .stop => none
  | .take, s =>
      match s.out with
      | [] => none
      | item :: rest => some { s with out := rest, taken := s.taken ++ [item] }

def start (here : σ) (todo : ι → List α) : Net ι α β σ := ⟨here, todo, fun _ => [], fun _ => false, [], []⟩

-- What the goroutine cannot tell apart: an item that is still to be sent and one that waits in the channel.
def Net.view (s : Net ι α β σ) : Solo ι α β σ := ⟨s.here, fun i => s.queue i ++ s.todo i, s.taken ++ s.out⟩

def Net.Sound (s : Net ι α β σ) : Prop := ∀ i, s.closed i = true → s.todo i = []

section View

variable (size : Nat) (i : ι) (s next : Net ι α β σ)

theorem produce_inv (moved : step want size (.produce i) s = some next) :
    ∃ item rest, s.todo i = item :: rest ∧
      next = { s with todo := Function.update s.todo i rest, queue := Function.update s.queue i (s.queue i ++ [item]) } := by
  rw [step] at moved
  split at moved
  · cases moved
  · rename_i item rest first
    split at moved
    · cases moved
      exact ⟨item, rest, first, rfl⟩
    · cases moved

theorem close_inv (moved : step want size (.close i) s = some next) :
    s.todo i = [] ∧ s.closed i = false ∧ next = { s with closed := Function.update s.closed i true } := by
  rw [step] at moved
  split at moved
  · rename_i ready
    cases moved
    exact ⟨ready.1, ready.2, rfl⟩
  · cases moved

theorem take_inv (moved : step want size .take s = some next) :
    ∃ item rest, s.out = item :: rest ∧ next = { s with out := rest, taken := s.taken ++ [item] } := by
  rw [step] at moved
  split at moved
  · cases moved
  · rename_i item rest first
    cases moved
    exact ⟨item, rest, first, rfl⟩

theorem produce_view (moved : step want size (.produce i) s = some next) : next.view = s.view := by
  obtain ⟨item, rest, first, rfl⟩ := produce_inv want size i s next moved
  have scripts : (fun j => Function.update s.queue i (s.queue i ++ [item]) j ++ Function.update s.todo i rest j) =
      fun j => s.queue j ++ s.todo j := by
    funext j
    by_cases same : j = i
    · subst same
      rw [Function.update_self, Function.update_self, first, List.append_assoc, List.singleton_append]
    · rw [Function.update_of_ne same, Function.update_of_ne same]
  simp only [Net.view, scripts]

theorem take_view (moved : step want size .take s = some next) : next.view = s.view := by
  obtain ⟨item, rest, first, rfl⟩ := take_inv want size s next moved
  simp only [Net.view, first, List.append_assoc, List.singleton_append]

theorem consume_view (sound : s.Sound) (moved : step want size .consume s = some next) :
    soloStep want s.view = some next.view ∧ next.todo = s.todo ∧ next.closed = s.closed ∧
      next.out.length ≤ s.out.length + 1 := by
  have here : s.view.here = s.here := rfl
  rw [step] at moved
  unfold soloStep
  rw [here]
  split at moved
  · rename_i i onward wants
    split at moved
    · rename_i item rest first
      cases moved
      have script : s.view.scripts i = item :: (rest ++ s.todo i) := by
        simp only [Net.view, first, List.cons_append]
      have scripts : Function.update s.view.scripts i (rest ++ s.todo i) =
          fun j => Function.update s.queue i rest j ++ s.todo j := by
        funext j
        by_cases same : j = i
        · subst same
          rw [Function.update_self, Function.update_self]
        · rw [Function.update_of_ne same, Function.update_of_ne same]
          rfl
      refine ⟨?_, rfl, rfl, Nat.le_succ _⟩
      simp only [script, scripts]
      rfl
    · rename_i empty
      split at moved
      · rename_i closed
        cases moved
        have script : s.view.scripts i = [] := by
          simp only [Net.view, empty, sound i closed, List.append_nil]
        refine ⟨?_, rfl, rfl, Nat.le_succ _⟩
        simp only [script]
        rfl
      · cases moved
  · rename_i item onward wants
    split at moved
    · cases moved
      refine ⟨?_, rfl, rfl, ?_⟩
      · simp only [Net.view, List.append_assoc]
      · simp only [List.length_append, List.length_singleton, Nat.le_refl]
    · cases moved
  · cases moved

theorem stuck_stops (positive : 0 < size) (stuck : Stuck (step want size) s) :
    want s.here = .stop ∧ s.out = [] := by
  have empty : s.out = [] := by
    have idle := stuck .take
    rw [step] at idle
    split at idle
    · assumption
    · cases idle
  refine ⟨?_, empty⟩
  have idle := stuck .consume
  rw [step] at idle
  split at idle
  · rename_i i onward wants
    split at idle
    · cases idle
    · rename_i nothing
      split at idle
      · cases idle
      · rename_i opened
        have waits := stuck (.produce i)
        rw [step] at waits
        split at waits
        · rename_i done
          have closes := stuck (.close i)
          rw [step, if_pos ⟨done, Bool.not_eq_true _ ▸ opened⟩] at closes
          cases closes
        · rw [nothing, if_pos (by exact positive)] at waits
          cases waits
  · rw [empty, if_pos (by exact positive)] at idle
    cases idle
  · assumption

end View

section Work

variable [Fintype ι] (size : Nat)

def work (n : Nat) (s : Net ι α β σ) : Nat :=
  2 * n + s.out.length + ∑ i, ((s.todo i).length + if s.closed i then 0 else 1)

theorem sum_lowered (f g : ι → Nat) (i : ι) (less : f i < g i) (same : ∀ j, j ≠ i → f j = g j) : ∑ j, f j < ∑ j, g j := by
  refine Finset.sum_lt_sum (fun j _ => ?_) ⟨i, Finset.mem_univ i, less⟩
  by_cases here : j = i
  · rw [here]
    exact Nat.le_of_lt less
  · rw [same j here]

theorem step_works (a : Actor ι) (s next : Net ι α β σ) (n : Nat) (last : Solo ι α β σ) (sound : s.Sound)
    (ends : Ends want n s.view last) (moved : step want size a s = some next) :
    ∃ m, Ends want m next.view last ∧ next.Sound ∧ work m next < work n s := by
  cases a with
  | produce i =>
      have view := produce_view want size i s next moved
      obtain ⟨item, rest, first, rfl⟩ := produce_inv want size i s next moved
      refine ⟨n, by rw [view]; exact ends, ?_, ?_⟩
      · intro j closed
        have empty : s.todo j = [] := sound j closed
        by_cases same : j = i
        · rw [same, first] at empty
          cases empty
        · simp only [Function.update_of_ne same, empty]
      · have fewer := sum_lowered (fun j => (Function.update s.todo i rest j).length + if s.closed j then 0 else 1)
          (fun j => (s.todo j).length + if s.closed j then 0 else 1) i
          (by simp only [Function.update_self, first, List.length_cons]; omega)
          (fun j other => by simp only [Function.update_of_ne other])
        simp only [work]
        omega
  | close i =>
      obtain ⟨empty, opened, rfl⟩ := close_inv want size i s next moved
      refine ⟨n, ends, ?_, ?_⟩
      · intro j closed
        by_cases same : j = i
        · rw [same]
          exact empty
        · simp only [Function.update_of_ne same] at closed
          exact sound j closed
      · have fewer := sum_lowered (fun j => (s.todo j).length + if Function.update s.closed i true j then 0 else 1)
          (fun j => (s.todo j).length + if s.closed j then 0 else 1) i
          (by simp [opened]) (fun j other => by simp only [Function.update_of_ne other])
        simp only [work]
        omega
  | consume =>
      obtain ⟨solo, todo, closed, out⟩ := consume_view want size s next sound moved
      cases ends with
      | stop _ stopped => cases stopped.symm.trans solo
      | step m _ mid _ stepped later =>
          cases solo.symm.trans stepped
          refine ⟨m, later, ?_, ?_⟩
          · intro j shut
            rw [todo]
            exact sound j (closed ▸ shut)
          · simp only [work, todo, closed]
            omega
  | take =>
      have view := take_view want size s next moved
      obtain ⟨item, rest, first, rfl⟩ := take_inv want size s next moved
      refine ⟨n, by rw [view]; exact ends, sound, ?_⟩
      simp only [work, first, List.length_cons]
      omega

theorem run_works (schedule : List (Actor ι)) (s final : Net ι α β σ) (n : Nat) (last : Solo ι α β σ) (sound : s.Sound)
    (ends : Ends want n s.view last) (ran : exec (step want size) schedule s = some final) :
    ∃ m, Ends want m final.view last ∧ final.Sound ∧ schedule.length + work m final ≤ work n s := by
  induction schedule generalizing s n with
  | nil =>
      cases ran
      exact ⟨n, ends, sound, by rw [List.length_nil, Nat.zero_add]⟩
  | cons a rest ih =>
      obtain ⟨next, moved, onward⟩ := exec_cons_inv (step want size) a rest s final ran
      obtain ⟨k, endsNext, soundNext, less⟩ := step_works want size a s next n last sound ends moved
      obtain ⟨m, endsFinal, soundFinal, bounded⟩ := ih next k soundNext endsNext onward
      refine ⟨m, endsFinal, soundFinal, ?_⟩
      rw [List.length_cons]
      omega

theorem reaches_stuck (s : Net ι α β σ) (n : Nat) (last : Solo ι α β σ) (sound : s.Sound) (ends : Ends want n s.view last) :
    ∃ final, Reachable (step want size) s final ∧ Stuck (step want size) final := by
  induction left : work n s using Nat.strong_induction_on generalizing s n with
  | _ left ih =>
      by_cases moves : ∃ a next, step want size a s = some next
      · obtain ⟨a, next, moved⟩ := moves
        obtain ⟨m, endsNext, soundNext, less⟩ := step_works want size a s next n last sound ends moved
        obtain ⟨final, reach, stuck⟩ := ih (work m next) (left ▸ less) next m soundNext endsNext rfl
        have first := reachable_step (step want size) s s next a (reachable_start _ s) moved
        exact ⟨final, reachable_trans _ s next final first reach, stuck⟩
      · refine ⟨s, reachable_start _ s, fun a => ?_⟩
        rw [Option.eq_none_iff_forall_not_mem]
        exact fun next moved => moves ⟨a, next, moved⟩

structure Delivers (s : Net ι α β σ) (last : σ) (items : List β) : Prop where
  bounded : ∃ bound, ∀ schedule final, exec (step want size) schedule s = some final → schedule.length ≤ bound
  same : ∀ final, Reachable (step want size) s final → Stuck (step want size) final → final.here = last ∧ final.taken = items
  ends : ∃ final, Reachable (step want size) s final ∧ Stuck (step want size) final

theorem net_delivers (positive : 0 < size) (here : σ) (todo : ι → List α) (n : Nat) (last : Solo ι α β σ)
    (ends : Ends want n ⟨here, todo, []⟩ last) : Delivers want size (start here todo) last.here last.sent := by
  let first : Net ι α β σ := start here todo
  have sound : first.Sound := by
    intro i closed
    cases closed
  refine ⟨⟨work n first, fun schedule final ran => ?_⟩, ?_, reaches_stuck want size _ n last sound ends⟩
  · obtain ⟨m, _, _, bounded⟩ := run_works want size schedule _ final n last sound ends ran
    omega
  · rintro final ⟨schedule, ran⟩ stuck
    obtain ⟨m, endsFinal, _, _⟩ := run_works want size schedule _ final n last sound ends ran
    obtain ⟨stopped, empty⟩ := stuck_stops want size final positive stuck
    cases endsFinal with
    | stop _ _ =>
        refine ⟨rfl, ?_⟩
        simp only [Net.view, empty, List.append_nil]
    | step m _ mid _ stepped _ =>
        rw [soloStep, show final.view.here = final.here from rfl, stopped] at stepped
        cases stepped

end Work

end GoLib.Pipes
