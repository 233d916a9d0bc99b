import URoot.Comm.Outer
import Mathlib.Data.List.Sort

set_option autoImplicit false

namespace URoot.Sort

open GoLib Lines

section Model

-- The strings that readInput keeps of one file: a separator if its last line is not ended.
def fileContents (s : Bytes) : List Bytes := if s ≠ [] ∧ s.getLast? ≠ some newline then [s, [newline]] else [s]

def readInput (files : List Bytes) : Bytes := (files.flatMap fileContents).flatten

-- sort.Reverse swaps the arguments of the comparison.
def le (reverse : Bool) (a b : Bytes) : Bool := if reverse then decide (b ≤ a) else decide (a ≤ b)

-- sort.Strings and sort.Sort. Equal strings are the same, so there is one sorted slice.
def sorted (reverse : Bool) (lines : List Bytes) : List Bytes := lines.mergeSort (le reverse)

def sortAlgorithm (reverse : Bool) (s : Bytes) : Bytes :=
  if s = [] then []
  else [newline].intercalate (sorted reverse ((if s.getLast? = some newline then s.dropLast else s).splitOn newline)) ++ [newline]

def output (reverse : Bool) (files : List Bytes) : Bytes := sortAlgorithm reverse (readInput files)

end Model

section Texts

def text (lines : List Bytes) : Bytes := lines.flatMap (· ++ [newline])

def linesOf (s : Bytes) : List Bytes := (pieces newline s).map fun line => line.takeWhile (· ≠ newline)

def Clear (lines : List Bytes) : Prop := ∀ line ∈ lines, newline ∉ line

theorem take_clear (line rest : Bytes) (clear : newline ∉ line) : (line ++ newline :: rest).takeWhile (· ≠ newline) = line := by
  rw [List.takeWhile_append_of_pos, List.takeWhile_cons_of_neg (by simp), List.append_nil]
  intro byte member
  simpa using ne_of_mem_of_not_mem member clear

theorem ended_text (lines : List Bytes) (clear : Clear lines) : ended newline (text lines) = (lines.map (· ++ [newline]), []) := by
  induction lines with
  | nil => rfl
  | cons line rest ih =>
      obtain ⟨here, later⟩ := List.forall_mem_cons.mp clear
      rw [text, List.flatMap_cons, List.append_assoc, List.singleton_append, ended_front newline _ here, ← text, ih later,
        List.map_cons]

theorem pieces_text (lines : List Bytes) (clear : Clear lines) : pieces newline (text lines) = lines.map (· ++ [newline]) := by
  rw [ended_pieces, ended_text lines clear, if_pos rfl, List.append_nil]

theorem lines_of_text (lines : List Bytes) (clear : Clear lines) : linesOf (text lines) = lines := by
  rw [linesOf, pieces_text lines clear, List.map_map]
  refine (List.map_congr_left fun line member => ?_).trans (List.map_id lines)
  exact take_clear line [] (clear line member)

theorem lines_clear (s : Bytes) : Clear (linesOf s) := by
  intro line member inside
  obtain ⟨piece, -, rfl⟩ := List.mem_map.mp member
  simpa using List.mem_takeWhile_imp inside

theorem lines_front (front rest : Bytes) (clear : newline ∉ front) :
    linesOf (front ++ newline :: rest) = front :: linesOf rest := by
  rw [linesOf, pieces_front newline front rest clear, List.map_cons, take_clear front [] clear, ← linesOf]

theorem contents_text (s : Bytes) : (fileContents s).flatten = text (linesOf s) := by
  induction s using lines_induction newline with
  | last s apart =>
      by_cases none : s = []
      · rw [none]
        rfl
      · have open_ : s.getLast? ≠ some newline := fun last => apart (List.mem_of_getLast? last)
        have whole : s.takeWhile (· ≠ newline) = s :=
          List.takeWhile_eq_self_iff.mpr fun byte member => by simpa using ne_of_mem_of_not_mem member apart
        rw [fileContents, if_pos ⟨none, open_⟩, linesOf, pieces_last newline s apart, if_neg none, List.map_singleton, whole]
        simp [text]
  | line front rest apart ih =>
      rw [lines_front front rest apart, text, List.flatMap_cons, ← text, ← ih]
      by_cases none : rest = []
      · simp [none, fileContents]
      · have last : (front ++ newline :: rest).getLast? = rest.getLast? := by
          rw [List.getLast?_append_of_ne_nil _ (List.cons_ne_nil _ _), List.getLast?_cons_of_ne_nil none]
        simp only [fileContents, last, none, ne_eq, not_false_eq_true, true_and, List.append_eq_nil_iff, List.cons_ne_nil, and_false]
        split <;> simp

theorem read_input_text (files : List Bytes) : readInput files = text (files.flatMap linesOf) := by
  induction files with
  | nil => rfl
  | cons s rest ih =>
      rw [readInput, List.flatMap_cons, List.flatten_append, contents_text, ← readInput, ih, List.flatMap_cons, text, text, text,
        List.flatMap_append]

theorem text_joined (lines : List Bytes) (some : lines ≠ []) : text lines = [newline].intercalate lines ++ [newline] := by
  induction lines with
  | nil => exact absurd rfl some
  | cons line rest ih =>
      cases rest with
      | nil => simp [text]
      | cons next more =>
          rw [text, List.flatMap_cons, ← text, ih (List.cons_ne_nil _ _), List.intercalate_cons_cons]
          simp

end Texts

section Sorted

variable (reverse : Bool) (lines : List Bytes)

theorem sorted_perm : (sorted reverse lines).Perm lines := List.mergeSort_perm lines (le reverse)

theorem le_trans_total : (∀ a b c, le reverse a b = true → le reverse b c = true → le reverse a c = true) ∧
    ∀ a b, (le reverse a b || le reverse b a) = true := by
  cases reverse with
  | false =>
      simp only [le, Bool.false_eq_true, if_false, decide_eq_true_eq, Bool.or_eq_true]
      exact ⟨fun _ _ _ => List.le_trans, List.le_total⟩
  | true =>
      simp only [le, if_true, decide_eq_true_eq, Bool.or_eq_true]
      exact ⟨fun _ _ _ below above => List.le_trans above below, fun a b => List.le_total b a⟩

theorem le_antisymm (a b : Bytes) (below : le reverse a b = true) (above : le reverse b a = true) : a = b := by
  cases reverse with
  | false => exact List.le_antisymm (of_decide_eq_true below) (of_decide_eq_true above)
  | true => exact List.le_antisymm (of_decide_eq_true above) (of_decide_eq_true below)

theorem sorted_ordered : (sorted reverse lines).Pairwise (fun a b => le reverse a b = true) :=
  List.pairwise_mergeSort (le_trans_total reverse).1 (le_trans_total reverse).2 lines

theorem sorted_unique (others : List Bytes) (same : others.Perm lines) (ordered : others.Pairwise (fun a b => le reverse a b = true)) :
    others = sorted reverse lines :=
  List.Perm.eq_of_pairwise (fun a b _ _ => le_antisymm reverse a b) ordered (sorted_ordered reverse lines)
    (same.trans (sorted_perm reverse lines).symm)

theorem sorted_clear (clear : Clear lines) : Clear (sorted reverse lines) :=
  fun line member => clear line ((sorted_perm reverse lines).mem_iff.mp member)

theorem sort_text (clear : Clear lines) : sortAlgorithm reverse (text lines) = text (sorted reverse lines) := by
  by_cases none : lines = []
  · rw [none, sorted, List.mergeSort_nil]
    rfl
  · have some : sorted reverse lines ≠ [] := fun empty => none (List.nil_perm.mp (empty ▸ sorted_perm reverse lines))
    rw [text_joined _ none, text_joined _ some, sortAlgorithm, if_neg (by simp), List.getLast?_concat, if_pos rfl, List.dropLast_concat,
      List.splitOn_intercalate newline clear none]

end Sorted

section Output

variable (reverse : Bool) (files : List Bytes)

theorem files_clear : Clear (files.flatMap linesOf) := by
  intro line member
  obtain ⟨s, -, inside⟩ := List.mem_flatMap.mp member
  exact lines_clear s line inside

theorem output_text : output reverse files = text (sorted reverse (files.flatMap linesOf)) := by
  rw [output, read_input_text, sort_text reverse _ (files_clear files)]

theorem output_lines : linesOf (output reverse files) = sorted reverse (files.flatMap linesOf) := by
  rw [output_text, lines_of_text _ (sorted_clear reverse _ (files_clear files))]

end Output

-- The lines of all files, none of them joined with another or lost, in order and ended; which file
-- a line stands in and where does not matter, and -r prints the same lines backwards.
theorem sort_lines (reverse : Bool) (files : List Bytes) :
    (linesOf (output reverse files)).Perm (files.flatMap linesOf) ∧
    (linesOf (output reverse files)).Pairwise (fun a b => le reverse a b = true) ∧
    output reverse files = text (linesOf (output reverse files)) ∧
    linesOf (output true files) = (linesOf (output false files)).reverse ∧
    output reverse [output false files] = output reverse files ∧
    ∀ others, (others.flatMap linesOf).Perm (files.flatMap linesOf) → output reverse others = output reverse files := by
  have alike : ∀ others, (others.flatMap linesOf).Perm (files.flatMap linesOf) → output reverse others = output reverse files := by
    intro others same
    rw [output_text, output_text, sorted_unique reverse (files.flatMap linesOf) _ ((sorted_perm reverse _).trans same)
      (sorted_ordered reverse _)]
  refine ⟨?_, ?_, ?_, ?_, alike _ ?_, alike⟩
  · rw [output_lines]
    exact sorted_perm reverse _
  · rw [output_lines]
    exact sorted_ordered reverse _
  · rw [output_lines, output_text]
  · rw [output_lines, output_lines]
    refine (sorted_unique true _ _ ((List.reverse_perm _).trans (sorted_perm false _)) ?_).symm
    rw [List.pairwise_reverse]
    exact (sorted_ordered false _).imp (by simp [le])
  · rw [List.flatMap_singleton, output_lines]
    exact sorted_perm false _

section Pipeline

def Kept (line : Bytes) : Prop := line ≠ [] ∧ Comm.trimRight line = line

theorem comm_lines (lines : List Bytes) (clear : Clear lines) (kept : ∀ line ∈ lines, Kept line) : Comm.lines (text lines) = lines := by
  rw [Comm.lines, pieces_text lines clear, List.map_map]
  refine (List.map_congr_left fun line member => ?_).trans (List.map_id lines)
  have trimmed : Comm.trimRight (line ++ [newline]) = Comm.trimRight line :=
    List.rdropWhile_concat_pos _ _ _ (by decide)
  exact trimmed.trans (kept line member).2

theorem compared_perm (as bs cs ds : List Bytes) (records : List Comm.Out) (left : as.Perm cs) (right : bs.Perm ds)
    (compared : Comm.Compared as bs records) : Comm.Compared cs ds records := by
  refine ⟨fun x some => ?_, fun x some => ?_, fun x some => ?_, compared.one, compared.sorted⟩
  · rw [← left.count_eq, ← right.count_eq, compared.column3 x some]
  · rw [← left.count_eq, ← right.count_eq, compared.column1 x some]
  · rw [← left.count_eq, ← right.count_eq, compared.column2 x some]

end Pipeline

-- comm on two outputs of sort, whatever the order of its goroutines' steps: the lines of the two
-- sets of files by their multiplicities, however they were ordered and divided into files.
theorem sort_then_comm (left right : List Bytes) (keptLeft : ∀ line ∈ left.flatMap linesOf, Kept line)
    (keptRight : ∀ line ∈ right.flatMap linesOf, Kept line) :
    ∃ records, Comm.Sends (output false left) (output false right) records ∧
      Comm.Compared (left.flatMap linesOf) (right.flatMap linesOf) (records.filter (· ≠ ⟨[], [], []⟩)) := by
  have one : ∀ files : List Bytes, (∀ line ∈ files.flatMap linesOf, Kept line) →
      Comm.lines (output false files) = sorted false (files.flatMap linesOf) ∧
        ∀ line ∈ sorted false (files.flatMap linesOf), line ≠ [] := by
    intro files kept
    have keeps : ∀ line ∈ sorted false (files.flatMap linesOf), Kept line :=
      fun line member => kept line ((sorted_perm false _).mem_iff.mp member)
    rw [output_text]
    exact ⟨comm_lines _ (sorted_clear false _ (files_clear files)) keeps, fun line member => (keeps line member).1⟩
  obtain ⟨linesLeft, fullLeft⟩ := one left keptLeft
  obtain ⟨linesRight, fullRight⟩ := one right keptRight
  refine ⟨_, Comm.sends_tagged _ _, compared_perm _ _ _ _ _ (sorted_perm false _) (sorted_perm false _) ?_⟩
  rw [Comm.records_full _ _ (by rw [linesLeft]; exact fullLeft) (by rw [linesRight]; exact fullRight), linesLeft, linesRight]
  have ordered : ∀ lines, (sorted false lines).Pairwise (· ≤ ·) :=
    fun lines => (sorted_ordered false lines).imp (by simp [le])
  exact Comm.tagged_compared _ _ fullLeft fullRight (ordered _) (ordered _)

theorem shuffled_compared : ∃ records,
    Comm.Sends (output false [str "b\na", str "a\n"]) (output false [str "c\na"]) records ∧
      Comm.Compared [str "b", str "a", str "a"] [str "c", str "a"] (records.filter (· ≠ ⟨[], [], []⟩)) :=
  sort_then_comm [str "b\na", str "a\n"] [str "c\na"] (by unfold Kept; decide) (by unfold Kept; decide)

end URoot.Sort
