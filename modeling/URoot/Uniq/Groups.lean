import URoot.Lib.Digits
import URoot.Lib.Lines
import Mathlib.Data.List.SplitBy

set_option autoImplicit false

namespace URoot.Uniq

open GoLib Lines

structure Flags where
  uniques : Bool
  duplicates : Bool
  count : Bool
deriving DecidableEq, Repr

section Loop

variable (flags : Flags)

def printed (cnt : Nat) (line : Bytes) : Bytes :=
  if cnt > 1 ∧ flags.uniques then [] else if cnt = 1 ∧ flags.duplicates then [] else line

def printGroup (cnt : Nat) (oline : Bytes) : Bytes :=
  if flags.count then Digits.numeral 10 cnt ++ 9 :: oline else printed flags cnt oline

def loop (oline : Bytes) (cnt : Nat) : List Bytes → Bytes → Bytes
  | [], line =>
      if line ≠ oline then printGroup flags cnt oline ++ printed flags 1 line else printed flags (cnt + 1) line
  | line :: lines, last =>
      if line ≠ oline then printGroup flags cnt oline ++ loop line 1 lines last else loop oline (cnt + 1) lines last

-- The first line that is read only becomes oline. When it came with the end of file, nothing is read after it.
def uniq (data : Bytes) : Bytes :=
  match ended newline data with
  | ([], line) => loop flags line 1 [] []
  | (line :: lines, last) => loop flags line 1 lines last

end Loop

section Groups

inductive Setting where
  | plain
  | uniques
  | duplicates
  | count
deriving DecidableEq, Repr

def Setting.flags : Setting → Flags
  | .plain => ⟨false, false, false⟩
  | .uniques => ⟨true, false, false⟩
  | .duplicates => ⟨false, true, false⟩
  | .count => ⟨false, false, true⟩

variable (setting : Setting)

def Setting.shown (line : Bytes) (n : Nat) : Bytes :=
  match setting with
  | .plain => line
  | .uniques => if n = 1 then line else []
  | .duplicates => if 2 ≤ n then line else []
  | .count => Digits.numeral 10 n ++ 9 :: line

def groups (lines : List Bytes) : List (List Bytes) := lines.splitBy (· == ·)

def Setting.shownAll (lines : List Bytes) : Bytes := (groups lines).flatMap fun g => setting.shown (g.headD []) g.length

theorem groups_run (n : Nat) (line : Bytes) (rest : List Bytes) (other : rest.head? ≠ some line) :
    groups (List.replicate (n + 1) line ++ rest) = List.replicate (n + 1) line :: groups rest := by
  have run : groups (List.replicate (n + 1) line) = [List.replicate (n + 1) line] := by
    refine List.splitBy_of_isChain (by simp) ?_
    exact List.isChain_replicate_of_rel (n + 1) (by simp)
  rw [groups, List.splitBy_append]
  · exact congrArg (· ++ rest.splitBy (· == ·)) run
  · intro x last y first
    have same : x = line := List.eq_of_mem_replicate (List.mem_of_getLast? last)
    subst same
    rw [beq_eq_false_iff_ne]
    rintro rfl
    exact other first

theorem shown_run (n : Nat) (line : Bytes) (rest : List Bytes) (other : rest.head? ≠ some line) :
    setting.shownAll (List.replicate (n + 1) line ++ rest) = setting.shown line (n + 1) ++ setting.shownAll rest := by
  rw [Setting.shownAll, groups_run n line rest other, List.flatMap_cons, List.length_replicate]
  rfl

theorem shown_snoc (lines : List Bytes) (last : Bytes) (new : last ∉ lines) :
    setting.shownAll (lines ++ [last]) = setting.shownAll lines ++ setting.shown last 1 := by
  have apart : groups (lines ++ [last]) = groups lines ++ [[last]] := by
    refine List.splitBy_append (fun x there y first => ?_)
    have same : y = last := by simpa using first.symm
    subst same
    rw [beq_eq_false_iff_ne]
    rintro rfl
    exact new (List.mem_of_getLast? there)
  rw [Setting.shownAll, apart, List.flatMap_append]
  simp [Setting.shownAll]

theorem print_group_shown (cnt : Nat) (line : Bytes) (positive : 0 < cnt) :
    printGroup setting.flags cnt line = setting.shown line cnt := by
  cases setting with
  | plain => simp [printGroup, printed, Setting.flags, Setting.shown]
  | uniques =>
      by_cases one : cnt = 1
      · simp [printGroup, printed, Setting.flags, Setting.shown, one]
      · have more : 1 < cnt := by omega
        simp [printGroup, printed, Setting.flags, Setting.shown, one, more]
  | duplicates =>
      by_cases one : cnt = 1
      · simp [printGroup, printed, Setting.flags, Setting.shown, one]
      · have more : 2 ≤ cnt := by omega
        simp [printGroup, printed, Setting.flags, Setting.shown, one, more]
  | count => simp [printGroup, Setting.flags, Setting.shown]

theorem printed_empty (flags : Flags) (cnt : Nat) : printed flags cnt [] = [] := by
  rw [printed]
  split
  · rfl
  · split <;> rfl

theorem loop_shown (oline : Bytes) (n : Nat) (lines : List Bytes) (last : Bytes) (new : last ∉ oline :: lines) :
    loop setting.flags oline (n + 1) lines last =
      setting.shownAll (List.replicate (n + 1) oline ++ lines) ++ printed setting.flags 1 last := by
  induction lines generalizing oline n with
  | nil =>
      have other : last ≠ oline := fun same => new (same ▸ List.mem_cons_self)
      rw [loop, if_pos other, print_group_shown setting (n + 1) oline (Nat.succ_pos n), shown_run setting n oline [] (by simp)]
      simp [Setting.shownAll, groups]
  | cons line lines ih =>
      by_cases same : line = oline
      · subst same
        have later := ih line (n + 1) (fun there => new (List.mem_cons_of_mem _ there))
        rw [loop, if_neg (not_not.mpr rfl), later, List.replicate_succ', List.append_assoc]
        rfl
      · have later := ih line 0 (fun there => new (List.mem_cons_of_mem _ there))
        rw [loop, if_pos same, later, print_group_shown setting (n + 1) oline (Nat.succ_pos n),
          shown_run setting n oline (line :: lines) (by simpa using same), List.append_assoc]
        rfl

end Groups

theorem uniq_ended (setting : Setting) (data : Bytes) : uniq setting.flags data =
    if (ended newline data).1 = [] then setting.shownAll (pieces newline data)
    else setting.shownAll (ended newline data).1 ++ printed setting.flags 1 (ended newline data).2 := by
  have parts := ended_lines newline data
  rw [uniq, ended_pieces]
  generalize ended newline data = read at parts
  obtain ⟨lines, last⟩ := read
  cases lines with
  | nil =>
      rw [if_pos rfl, List.nil_append]
      by_cases empty : last = []
      · subst empty
        simp only [loop, ne_eq, not_true_eq_false, if_false, if_true, printed_empty]
        rfl
      · have shown := loop_shown setting last 0 [] [] (by simpa using Ne.symm empty)
        simp only [if_neg empty]
        rw [shown, printed_empty, List.append_nil]
        rfl
  | cons line lines =>
      have new : last ∉ line :: lines := fun there => parts.2 (parts.1 last there)
      rw [if_neg (List.cons_ne_nil _ _)]
      exact loop_shown setting line 0 lines last new

-- A last line without a newline is printed without its count, unless it is the only line.
theorem groups_printed_iff (setting : Setting) (data : Bytes) :
    uniq setting.flags data = setting.shownAll (pieces newline data) ↔
      (setting = .count → newline ∉ data ∨ data.getLast? = some newline) := by
  have parts := ended_lines newline data
  rw [uniq_ended]
  by_cases none : (ended newline data).1 = []
  · rw [if_pos none]
    exact iff_of_true rfl (fun _ => Or.inl ((ended_none_iff newline data).mp none))
  · have inside : newline ∈ data := not_not.mp fun apart => none ((ended_none_iff newline data).mpr apart)
    have some_ : data ≠ [] := List.ne_nil_of_mem inside
    rw [if_neg none, ended_pieces]
    by_cases whole : (ended newline data).2 = []
    · have last := (((ended_whole_iff newline data).mp whole).resolve_left some_)
      rw [whole, if_pos rfl, printed_empty, List.append_nil, List.append_nil]
      exact iff_of_true rfl (fun _ => Or.inr last)
    · have new : (ended newline data).2 ∉ (ended newline data).1 := fun there => parts.2 (parts.1 _ there)
      have open_ : data.getLast? ≠ some newline := fun last => whole ((ended_whole_iff newline data).mpr (Or.inr last))
      rw [if_neg whole, shown_snoc setting _ _ new, List.append_right_inj]
      cases setting with
      | plain => exact iff_of_true (by simp [printed, Setting.flags, Setting.shown]) (fun impossible => by cases impossible)
      | uniques => exact iff_of_true (by simp [printed, Setting.flags, Setting.shown]) (fun impossible => by cases impossible)
      | duplicates => exact iff_of_true (by simp [printed, Setting.flags, Setting.shown]) (fun impossible => by cases impossible)
      | count =>
          refine iff_of_false (fun same => ?_) (fun ends => ?_)
          · have length := congrArg List.length same
            simp only [printed, Setting.flags, Setting.shown, Bool.false_eq_true, and_false, if_false, List.length_append,
              List.length_cons] at length
            omega
          · rcases ends rfl with apart | last
            · exact apart inside
            · exact open_ last

theorem uncounted_line :
    uniq Setting.count.flags (str "a\nb") = str "1\ta\nb" ∧
      uniq Setting.count.flags (str "a\nb") ≠ Setting.count.shownAll (pieces newline (str "a\nb")) := by
  decide +kernel

end URoot.Uniq
