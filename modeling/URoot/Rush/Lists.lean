import URoot.Rush.Main

set_option autoImplicit false

namespace URoot.Rush

open GoLib

section Shell

-- An and-or list of sh, which associates to the left.
inductive AndOr where
  | one (i : Nat)
  | both (left : AndOr) (i : Nat)
  | either (left : AndOr) (i : Nat)

def AndOr.eval (ok : Nat → Bool) : AndOr → List Nat × Bool
  | .one i => ([i], ok i)
  | .both left i => if (left.eval ok).2 then ((left.eval ok).1 ++ [i], ok i) else left.eval ok
  | .either left i => if (left.eval ok).2 then left.eval ok else ((left.eval ok).1 ++ [i], ok i)

def AndOr.extend (left : AndOr) (op : Bytes) (i : Nat) : List Command → AndOr
  | [] => left
  | c :: rest => ((if op = str "&&" then AndOr.both left i else AndOr.either left i).extend c.link (i + 1) rest)

def shellRuns (ok : Nat → Bool) : List Command → List Nat
  | [] => []
  | c :: rest => (((AndOr.one 0).extend c.link 1 rest).eval ok).1

end Shell

section Joined

def Joined : List Command → Prop
  | [] => True
  | [c] => c.bg = false
  | c :: d :: rest => c.bg = false ∧ (c.link = str "&&" ∨ c.link = str "||") ∧ Joined (d :: rest)

def Continues (ok : Bool) (op : Bytes) : Prop := ok = true ↔ op = str "&&"

instance (ok : Bool) (op : Bytes) : Decidable (Continues ok op) := inferInstanceAs (Decidable (_ ↔ _))

-- From the first operator on that does not let the next command run, all
-- operators are the same.
def Settled (ok : Nat → Bool) : Nat → List Command → Prop
  | _, [] => True
  | i, c :: rest => if Continues (ok i) c.link then Settled ok (i + 1) rest else ∀ d ∈ rest.dropLast, d.link = c.link

variable (ok : Nat → Bool)

theorem extend_next (left : AndOr) (op : Bytes) (i : Nat) (operator : op = str "&&" ∨ op = str "||") :
    ((if op = str "&&" then AndOr.both left i else AndOr.either left i).eval ok) =
      if Continues (left.eval ok).2 op then ((left.eval ok).1 ++ [i], ok i) else left.eval ok := by
  have apart : str "||" ≠ str "&&" := by decide
  rcases operator with rfl | rfl
  · rw [if_pos rfl, AndOr.eval]
    simp only [Continues, iff_true]
  · rw [if_neg apart, AndOr.eval]
    cases (left.eval ok).2 <;> simp [Continues, apart]

theorem extend_runs (left : AndOr) (op : Bytes) (i : Nat) (cmds : List Command) (operator : op = str "&&" ∨ op = str "||")
    (joined : Joined cmds) : ∃ more, ((left.extend op i cmds).eval ok).1 = (left.eval ok).1 ++ more := by
  have node (op : Bytes) (left : AndOr) (i : Nat) (operator : op = str "&&" ∨ op = str "||") :
      ∃ more, ((if op = str "&&" then AndOr.both left i else AndOr.either left i).eval ok).1 = (left.eval ok).1 ++ more := by
    rw [extend_next ok left op i operator]
    split
    · exact ⟨[i], rfl⟩
    · exact ⟨[], (List.append_nil _).symm⟩
  induction cmds generalizing left op i with
  | nil => exact ⟨[], (List.append_nil _).symm⟩
  | cons c rest ih =>
      obtain ⟨first, ran⟩ := node op left i operator
      cases rest with
      | nil => exact ⟨first, ran⟩
      | cons d rest =>
          obtain ⟨_, next, later⟩ := joined
          obtain ⟨more, onward⟩ := ih (if op = str "&&" then AndOr.both left i else AndOr.either left i) c.link (i + 1) next later
          exact ⟨first ++ more, by rw [AndOr.extend, onward, ran, List.append_assoc]⟩

theorem extend_continues (left : AndOr) (op : Bytes) (i : Nat) (c : Command) (rest : List Command)
    (operator : op = str "&&" ∨ op = str "||") (joined : Joined (c :: rest)) (runs : Continues (left.eval ok).2 op) :
    ∃ more, ((left.extend op i (c :: rest)).eval ok).1 = (left.eval ok).1 ++ i :: more := by
  have next := extend_next ok left op i operator
  rw [if_pos runs] at next
  cases rest with
  | nil => exact ⟨[], congrArg Prod.fst next⟩
  | cons d rest =>
      obtain ⟨_, link, later⟩ := joined
      obtain ⟨more, onward⟩ := extend_runs ok (if op = str "&&" then AndOr.both left i else AndOr.either left i) c.link (i + 1)
        (d :: rest) link later
      refine ⟨more, ?_⟩
      rw [AndOr.extend, onward, next, List.append_assoc, List.singleton_append]

theorem other_continues {status : Bool} {op other : Bytes} (operator : op = str "&&" ∨ op = str "||")
    (operator' : other = str "&&" ∨ other = str "||") (apart : other ≠ op) (skips : ¬ Continues status op) :
    Continues status other := by
  have different : str "||" ≠ str "&&" := by decide
  rcases operator with rfl | rfl
  · have here : other = str "||" := operator'.resolve_left apart
    rw [Continues, here]
    exact iff_of_false (fun good => skips (iff_of_true good rfl)) different
  · have here : other = str "&&" := operator'.resolve_right apart
    rw [Continues, here]
    refine iff_of_true ?_ rfl
    by_contra bad
    exact skips (iff_of_false bad different)

theorem skipped_iff (left : AndOr) (op : Bytes) (i : Nat) (cmds : List Command) (operator : op = str "&&" ∨ op = str "||")
    (joined : Joined cmds) (skips : ¬ Continues (left.eval ok).2 op) :
    ((left.extend op i cmds).eval ok).1 = (left.eval ok).1 ↔ ∀ d ∈ cmds.dropLast, d.link = op := by
  induction cmds generalizing left i with
  | nil => exact iff_of_true rfl (fun d there => by cases there)
  | cons c rest ih =>
      have skipped := extend_next ok left op i operator
      rw [if_neg skips] at skipped
      cases rest with
      | nil => exact iff_of_true (congrArg Prod.fst skipped) (fun d there => by cases there)
      | cons d rest =>
          obtain ⟨_, next, later⟩ := joined
          rw [List.dropLast_cons_cons, List.forall_mem_cons, AndOr.extend]
          by_cases same : c.link = op
          · rw [← skipped] at skips ⊢
            rw [same, ih _ (i + 1) later skips]
            exact (and_iff_right rfl).symm
          · -- the other operator runs its command
            have runs := other_continues operator next same skips
            rw [← skipped] at runs
            obtain ⟨more, ran⟩ := extend_continues ok _ c.link (i + 1) d rest next later runs
            rw [ran, skipped]
            exact iff_of_false (fun nothing => by simp at nothing) (fun all => same all.1)

def succeeds (runit : Nat → Option Bytes) (i : Nat) : Bool := (runit i).isNone

theorem loop_next (runit : Nat → Option Bytes) (i : Nat) (c : Command) (rest : List Command) (foreground : c.bg = false)
    (operator : c.link = str "&&" ∨ c.link = str "||") :
    runCommands runit i (c :: rest) =
      i :: if Continues (succeeds runit i) c.link then runCommands runit (i + 1) rest else [] := by
  have different : str "||" ≠ str "&&" := by decide
  have quiet : command c (runit i) = runit i := if_neg (by rw [foreground]; exact Bool.false_ne_true)
  rw [runCommands, quiet, succeeds]
  cases runit i with
  | none =>
      rcases operator with link | link
      · simp [link, Continues, different.symm]
      · simp [link, Continues, different]
  | some e =>
      rcases operator with link | link
      · simp [link, Continues, different.symm]
      · simp [link, Continues, different]

theorem from_here_iff (runit : Nat → Option Bytes) (i : Nat) (c : Command) (rest : List Command) (joined : Joined (c :: rest))
    (left : AndOr) (before : List Nat) (here : left.eval (succeeds runit) = (before ++ [i], succeeds runit i)) :
    before ++ runCommands runit i (c :: rest) = ((left.extend c.link (i + 1) rest).eval (succeeds runit)).1 ↔
      Settled (succeeds runit) i (c :: rest) := by
  induction rest generalizing i c left before with
  | nil =>
      have alone : runCommands runit i [c] = [i] := by
        rw [runCommands]
        cases command c (runit i) <;> simp [runCommands]
      refine iff_of_true ?_ ?_
      · rw [alone, AndOr.extend, here]
      · rw [Settled]
        split
        · trivial
        · exact fun d there => by cases there
  | cons d rest ih =>
      obtain ⟨foreground, operator, later⟩ := joined
      rw [loop_next runit i c (d :: rest) foreground operator, Settled]
      have status : (left.eval (succeeds runit)).2 = succeeds runit i := by rw [here]
      have ran : (left.eval (succeeds runit)).1 = before ++ [i] := by rw [here]
      by_cases continues : Continues (succeeds runit i) c.link
      · have next := extend_next (succeeds runit) left c.link (i + 1) operator
        rw [status, if_pos continues, ran] at next
        rw [if_pos continues, if_pos continues, AndOr.extend, ← ih (i + 1) d later _ (before ++ [i]) next,
          List.append_assoc, List.singleton_append]
      · have skipped := skipped_iff (succeeds runit) left c.link (i + 1) (d :: rest) operator later
          (by rwa [status])
        rw [if_neg continues, if_neg continues, ← skipped, ran]
        exact eq_comm

theorem lists_like_shell_iff (runit : Nat → Option Bytes) (cmds : List Command) (joined : Joined cmds) :
    runCommands runit 0 cmds = shellRuns (succeeds runit) cmds ↔ Settled (succeeds runit) 0 cmds := by
  cases cmds with
  | nil => exact iff_of_true rfl trivial
  | cons c rest => exact from_here_iff runit 0 c rest joined (.one 0) [] rfl

end Joined

def lineCommands (line : Bytes) : List Command :=
  match (getCommand (fun _ => .error []) line.length).run (newReader line) with
  | (.ok result, _) => result.cmds
  | (.error _, _) => []

def failing (failed : List Nat) (i : Nat) : Option Bytes := if i ∈ failed then some (str "wait: exit status 1") else none

theorem plain_and_list_runs :
    runCommands (failing [1]) 0 (lineCommands (str "a && b && c\n")) =
      shellRuns (succeeds (failing [1])) (lineCommands (str "a && b && c\n")) := by
  have parsed : lineCommands (str "a && b && c\n") = [⟨[⟨str "a", .ARG⟩], [], str "&&", false⟩,
      ⟨[⟨str "b", .ARG⟩], [], str "&&", false⟩, ⟨[⟨str "c", .ARG⟩], [], [], false⟩] := by decide +kernel
  have joined : Joined (lineCommands (str "a && b && c\n")) := by
    rw [parsed]
    exact ⟨rfl, Or.inl rfl, rfl, Or.inl rfl, rfl⟩
  refine (lists_like_shell_iff (failing [1]) _ joined).mpr ?_
  rw [parsed, Settled, if_pos (by decide), Settled, if_neg (by decide)]
  intro d there
  cases there

-- In a && b || c with a failing, sh runs c and the loop does not.
theorem mixed_list_stops :
    (lineCommands (str "a && b || c\n")).map Command.link = [str "&&", str "||", []] ∧
      runCommands (failing [0]) 0 (lineCommands (str "a && b || c\n")) = [0] ∧
      shellRuns (succeeds (failing [0])) (lineCommands (str "a && b || c\n")) = [0, 2] := by
  decide +kernel

end URoot.Rush
