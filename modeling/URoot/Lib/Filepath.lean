import URoot.Lib.Codec
import Mathlib.Algebra.BigOperators.Group.List.Basic

set_option autoImplicit false

namespace GoLib.Filepath

def separator : UInt8 := 47

def isAbs (path : Bytes) : Bool := path.head? = some separator

-- path/filepath.Clean by its documented rules. The stack holds the words kept
-- so far, last word first; ".." removes an ordinary word, disappears at the
-- root and is kept in front of a relative path.
def cleanStep (rooted : Bool) (stack : List Bytes) (word : Bytes) : List Bytes :=
  if word = [] ∨ word = str "." then stack
  else if word = str ".." then
    match stack with
    | [] => if rooted then [] else [word]
    | top :: rest => if top = str ".." then word :: top :: rest else rest
  else word :: stack

def cleanWords (path : Bytes) : List Bytes :=
  ((path.splitOn separator).foldl (cleanStep (isAbs path)) []).reverse

def join (words : List Bytes) : Bytes := List.intercalate [separator] words

def clean (path : Bytes) : Bytes :=
  if isAbs path then separator :: join (cleanWords path)
  else if cleanWords path = [] then str "." else join (cleanWords path)

-- filepath.Rel("/", target). Both sides are cleaned; the scan for the first
-- differing element stops after the leading separator of a rooted target, and
-- a target without one cannot be made relative.
def relRoot (target : Bytes) : Option Bytes :=
  if clean target = [separator] then some (str ".")
  else if isAbs (clean target) then some ((clean target).drop 1)
  else none

def weight (words : List Bytes) : Nat := (words.map (fun word => word.length + 1)).sum

theorem clean_step_weight (rooted : Bool) (stack : List Bytes) (word : Bytes) :
    weight (cleanStep rooted stack word) ≤ weight stack + (word.length + 1) := by
  unfold cleanStep
  split
  · omega
  · split
    · cases stack with
      | nil => cases rooted <;> simp [weight]
      | cons top rest =>
          simp only
          split <;> simp only [weight, List.map_cons, List.sum_cons] <;> omega
    · simp only [weight, List.map_cons, List.sum_cons]
      omega

theorem clean_fold_weight (rooted : Bool) (words stack : List Bytes) :
    weight (words.foldl (cleanStep rooted) stack) ≤ weight stack + weight words := by
  induction words generalizing stack with
  | nil => simp [weight]
  | cons word rest ih =>
      have head := clean_step_weight rooted stack word
      have tail := ih (cleanStep rooted stack word)
      simp only [List.foldl_cons, weight, List.map_cons, List.sum_cons] at head tail ⊢
      omega

theorem split_weight (path : Bytes) : weight (path.splitOn separator) = path.length + 1 := by
  induction path with
  | nil => rfl
  | cons byte rest ih =>
      simp only [List.splitOn, List.splitOnP_cons_eq_if_modifyHead] at ih ⊢
      split
      · simp only [weight, List.map_cons, List.sum_cons, List.length_nil, List.length_cons] at ih ⊢
        omega
      · cases parts : List.splitOnP (fun b => b == separator) rest with
        | nil => exact absurd parts (List.splitOnP_ne_nil _ _)
        | cons word tail =>
            rw [parts] at ih
            simp only [List.modifyHead_cons, weight, List.map_cons, List.sum_cons, List.length_cons] at ih ⊢
            omega

theorem join_length (words : List Bytes) : (join words).length = weight words - 1 := by
  induction words with
  | nil => rfl
  | cons word rest ih =>
      cases rest with
      | nil => simp [join, weight]
      | cons next tail =>
          simp only [join, List.intercalate_cons_cons, weight, List.map_cons, List.sum_cons,
            List.length_append, List.length_singleton] at ih ⊢
          omega

theorem clean_step_empty (rooted : Bool) (stack : List Bytes) : cleanStep rooted stack [] = stack := by
  simp [cleanStep]

theorem split_fold_weight (rooted : Bool) (path : Bytes) :
    weight ((path.splitOn separator).foldl (cleanStep rooted) []).reverse ≤ path.length + 1 := by
  have bound := clean_fold_weight rooted (path.splitOn separator) []
  rw [split_weight, show weight [] = 0 from rfl, Nat.zero_add] at bound
  rw [weight, List.map_reverse, List.sum_reverse]
  exact bound

theorem split_fold_rooted (rooted : Bool) (rest : Bytes) :
    ((separator :: rest).splitOn separator).foldl (cleanStep rooted) [] =
      (rest.splitOn separator).foldl (cleanStep rooted) [] := by
  have parts : (separator :: rest).splitOn separator = [] :: rest.splitOn separator := by
    simp [List.splitOn, List.splitOnP_cons_eq_if_modifyHead]
  rw [parts, List.foldl_cons, clean_step_empty]

theorem rooted_words_weight (rest : Bytes) : weight (cleanWords (separator :: rest)) ≤ rest.length + 1 := by
  rw [cleanWords, split_fold_rooted]
  exact split_fold_weight _ rest

theorem clean_rooted (rest : Bytes) :
    clean (separator :: rest) = separator :: join (cleanWords (separator :: rest)) := by
  simp [clean, isAbs]

theorem rel_root_absolute (path : Bytes) (absolute : isAbs path = true) :
    ∃ rel, relRoot path = some rel ∧ rel.length ≤ path.length := by
  cases path with
  | nil => simp [isAbs] at absolute
  | cons first rest =>
      have slash : first = separator := by simpa [isAbs] using absolute
      subst first
      by_cases root : clean (separator :: rest) = [separator]
      · exact ⟨str ".", by rw [relRoot, if_pos root], by simp [str]⟩
      · have rooted : isAbs (clean (separator :: rest)) = true := by
          rw [clean_rooted]
          simp [isAbs]
        refine ⟨join (cleanWords (separator :: rest)), ?_, ?_⟩
        · rw [relRoot, if_neg root, if_pos rooted, clean_rooted]
          rfl
        · have bound := rooted_words_weight rest
          rw [join_length, List.length_cons]
          omega

end GoLib.Filepath
