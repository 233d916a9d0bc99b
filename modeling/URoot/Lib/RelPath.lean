import URoot.Lib.CleanPath

set_option autoImplicit false

namespace GoLib.Filepath

-- filepath.Abs, and more generally what a path names from a directory.
def abs (cwd path : Bytes) : Bytes := if isAbs path then clean path else joinTwo cwd path

def cutCommon : List Bytes → List Bytes → List Bytes × List Bytes
  | b :: base, t :: targ => if b = t then cutCommon base targ else (b :: base, t :: targ)
  | base, targ => (base, targ)

def relText (words : List Bytes) : Bytes := if words = [] then str "." else join words

-- filepath.Rel. It fails when only one of the paths is rooted, and when the working
-- directory would have to be known to get out of the base.
def rel (base targ : Bytes) : Option Bytes :=
  if isAbs base ≠ isAbs targ then none
  else
    let left := cutCommon (cleanWords base) (cleanWords targ)
    if left.1.all (fun word => word ≠ str "..") then some (relText (left.1.map (fun _ => str "..") ++ left.2)) else none

def resolve (dir words : List Bytes) : List Bytes := (words.foldl (cleanStep true) dir.reverse).reverse

theorem cut_common_spec (base targ : List Bytes) : ∃ common, base = common ++ (cutCommon base targ).1 ∧
    targ = common ++ (cutCommon base targ).2 ∧
      ∀ word, (cutCommon base targ).1.head? = some word → (cutCommon base targ).2.head? ≠ some word := by
  induction base, targ using cutCommon.induct with
  | case1 base word targ ih =>
      obtain ⟨common, first, second, apart⟩ := ih
      rw [cutCommon, if_pos rfl]
      exact ⟨word :: common, congrArg (word :: ·) first, congrArg (word :: ·) second, apart⟩
  | case2 b base t targ different =>
      rw [cutCommon, if_neg different]
      refine ⟨[], rfl, rfl, fun word first second => different ?_⟩
      exact (Option.some.inj first).trans (Option.some.inj second).symm
  | case3 base targ missing =>
      have whole : cutCommon base targ = (base, targ) := by
        cases base with
        | nil => cases targ <;> rfl
        | cons b base =>
            cases targ with
            | nil => rfl
            | cons t targ => exact absurd rfl (missing b base t targ rfl)
      rw [whole]
      refine ⟨[], rfl, rfl, fun word first second => ?_⟩
      cases base with
      | nil => cases first
      | cons b base =>
          cases targ with
          | nil => cases second
          | cons t targ => exact absurd rfl (missing b base t targ rfl)

section Resolve

variable (dir : List Bytes)

theorem resolve_append (first second : List Bytes) : resolve dir (first ++ second) = resolve (resolve dir first) second := by
  rw [resolve, resolve, resolve, List.foldl_append, List.reverse_reverse]

theorem resolve_plain (words : List Bytes) (plain : ∀ word ∈ words, word ≠ [] ∧ word ≠ str "." ∧ word ≠ str "..") :
    resolve dir words = dir ++ words := by
  induction words generalizing dir with
  | nil => rw [resolve, List.foldl_nil, List.reverse_reverse, List.append_nil]
  | cons word words ih =>
      obtain ⟨⟨notEmpty, notDot, notUp⟩, later⟩ := List.forall_mem_cons.mp plain
      have pushed : resolve dir [word] = dir ++ [word] := by
        simp only [resolve, List.foldl_cons, List.foldl_nil, cleanStep, if_neg (not_or.mpr ⟨notEmpty, notDot⟩), if_neg notUp,
          List.reverse_cons, List.reverse_reverse]
      rw [← List.singleton_append, resolve_append, pushed, ih _ later, List.append_assoc]

theorem resolve_up (clear : str ".." ∉ dir) : resolve dir [str ".."] = dir.dropLast := by
  have neither : ¬ (str ".." = [] ∨ str ".." = str ".") := by decide
  cases dir using List.reverseRecOn with
  | nil => decide
  | append_singleton dir last =>
      have other : last ≠ str ".." := fun same => clear (by simp [same])
      rw [resolve, List.reverse_append, List.reverse_singleton, List.singleton_append, List.foldl_cons, List.foldl_nil, cleanStep,
        if_neg neither, if_pos rfl]
      simp only [if_neg other, List.reverse_reverse, List.dropLast_concat]

theorem resolve_ups (count : Nat) (clear : str ".." ∉ dir) :
    resolve dir (List.replicate count (str "..")) = dir.take (dir.length - count) := by
  induction count generalizing dir with
  | zero => rw [List.replicate_zero, resolve, List.foldl_nil, List.reverse_reverse, Nat.sub_zero, List.take_length]
  | succ count ih =>
      have shorter : str ".." ∉ dir.dropLast := fun inside => clear ((List.dropLast_sublist dir).subset inside)
      rw [List.replicate_succ, ← List.singleton_append, resolve_append, resolve_up dir clear, ih _ shorter, List.length_dropLast,
        List.dropLast_eq_take, List.take_take]
      congr 1
      omega

theorem resolve_text (words : List Bytes) (clear : ∀ word ∈ words, separator ∉ word) :
    resolve dir ((relText words).splitOn separator) = resolve dir words := by
  rw [relText]
  split
  · rename_i none
    have dot : (str ".").splitOn separator = [str "."] := by decide
    have skipped : cleanStep true dir.reverse (str ".") = dir.reverse := if_pos (Or.inr rfl)
    rw [none, dot, resolve, List.foldl_cons, skipped]
    rfl
  · rename_i some
    rw [join, List.splitOn_intercalate separator clear some]

end Resolve

section Words

theorem rooted_join_words {words : List Bytes} (cleaned : Cleaned true words) :
    isAbs (separator :: join words) = true ∧ cleanWords (separator :: join words) = words := by
  refine ⟨by simp [isAbs], ?_⟩
  by_cases none : words = []
  · rw [none]
    decide
  · have form := join_empty_first words none
    have kept := clean_words_trimmed words true [[]] [] (by simp) cleaned (by simp)
      (by rw [List.append_nil, List.singleton_append, form]; simp [isAbs])
    rwa [List.append_nil, List.singleton_append, form] at kept

theorem relative_text_words {words : List Bytes} (cleaned : Cleaned false words) :
    isAbs (relText words) = false ∧ cleanWords (relText words) = words := by
  rw [relText]
  by_cases none : words = []
  · rw [if_pos none, none]
    decide
  · have relative := cleaned_relative words false [] none cleaned
    have kept := clean_words_trimmed words false [] [] (by simp) cleaned (by simpa using none) relative
    rw [List.append_nil] at relative
    rw [List.nil_append, List.append_nil] at kept
    rw [if_neg none]
    exact ⟨relative, kept⟩

theorem unrooted_words (path : Bytes) : Cleaned false (cleanWords path) := by
  have cleaned := cleaned_words path
  cases rooted : isAbs path with
  | false => rwa [rooted] at cleaned
  | true => exact (cleaned_unrooted _ (rooted ▸ cleaned)).1

theorem clean_words_clean (path : Bytes) : cleanWords (clean path) = cleanWords path ∧ isAbs (clean path) = isAbs path := by
  have cleaned := cleaned_words path
  rw [clean]
  cases rooted : isAbs path with
  | true =>
      rw [rooted] at cleaned
      rw [if_pos rfl]
      exact (rooted_join_words cleaned).symm
  | false =>
      rw [rooted] at cleaned
      rw [if_neg (by decide)]
      exact (relative_text_words cleaned).symm

theorem clean_rooted_inj (a b : Bytes) (first : isAbs a = true) (second : isAbs b = true) :
    clean a = clean b ↔ cleanWords a = cleanWords b := by
  refine ⟨fun same => ?_, fun same => ?_⟩
  · rw [← (clean_words_clean a).1, same, (clean_words_clean b).1]
  · rw [clean, clean, if_pos first, if_pos second, same]

theorem clean_relative_text (path : Bytes) (relative : isAbs path = false) (fixed : clean path = path) :
    path = relText (cleanWords path) := by
  rw [← fixed, (clean_words_clean path).1, clean, relative, relText]
  rfl

theorem words_join_two (a b : Bytes) (rooted : isAbs a = true) :
    isAbs (a ++ separator :: b) = true ∧ joinTwo a b = clean (a ++ separator :: b) ∧
      cleanWords (a ++ separator :: b) = resolve (cleanWords a) (b.splitOn separator) := by
  have some : a ≠ [] := by
    rintro rfl
    cases rooted
  have still : isAbs (a ++ separator :: b) = true := by
    cases a with
    | nil => exact absurd rfl some
    | cons byte rest => exact rooted
  refine ⟨still, by rw [joinTwo, if_pos some], ?_⟩
  rw [cleanWords, still, List.splitOn_append_cons_self, List.foldl_append, resolve, cleanWords, rooted, List.reverse_reverse]

theorem joined_words (dir word : Bytes) (plain : Plain word) : cleanWords (joinTwo dir word) = cleanWords dir ++ [word] := by
  cases dir with
  | nil =>
      rw [joinTwo, if_neg (by simp), if_pos plain.some, (clean_words_clean word).1, cleanWords,
        List.splitOn_eq_singleton plain.clear, List.foldl_cons, clean_step_plain _ _ word plain]
      rfl
  | cons byte rest =>
      have same : isAbs (byte :: rest ++ separator :: word) = isAbs (byte :: rest) := by simp [isAbs]
      rw [joinTwo, if_pos (by simp), (clean_words_clean _).1, cleanWords, same, List.splitOn_append_cons_self,
        List.splitOn_eq_singleton plain.clear, List.foldl_append, List.foldl_cons, clean_step_plain _ _ word plain,
        List.foldl_nil, List.reverse_cons, cleanWords]

theorem abs_relative (cwd path : Bytes) (rooted : isAbs cwd = true) (relative : isAbs path = false) :
    isAbs (abs cwd path) = true ∧ clean (abs cwd path) = abs cwd path ∧
      cleanWords (abs cwd path) = resolve (cleanWords cwd) (path.splitOn separator) := by
  obtain ⟨still, joined, words⟩ := words_join_two cwd path rooted
  have form : abs cwd path = clean (cwd ++ separator :: path) := by rw [abs, relative, ← joined]; rfl
  rw [form, clean_idempotent, (clean_words_clean _).1, (clean_words_clean _).2]
  exact ⟨still, rfl, words⟩

theorem dir_words (path : Bytes) (fixed : clean path = path) :
    isAbs (dir path) = isAbs path ∧ cleanWords (dir path) = (cleanWords path).dropLast := by
  have cleaned := cleaned_words path
  cases rooted : isAbs path with
  | true =>
      rw [rooted] at cleaned
      have form : path = separator :: join (cleanWords path) := by
        rw [← fixed, (clean_words_clean path).1, clean, if_pos rooted]
      generalize cleanWords path = words at cleaned form
      subst form
      cases words using List.reverseRecOn with
      | nil => decide
      | append_singleton front last =>
          rw [dir_rooted front last cleaned, List.dropLast_concat]
          exact rooted_join_words (cleaned_init true cleaned).1
  | false =>
      rw [rooted] at cleaned
      have form := clean_relative_text path rooted fixed
      generalize cleanWords path = words at cleaned form
      subst form
      cases words using List.reverseRecOn with
      | nil => decide
      | append_singleton front last =>
          have parent : dir (relText (front ++ [last])) = relText front := by
            rw [relText, if_neg (by simp), dir_relative front last cleaned, relText]
          rw [parent, List.dropLast_concat]
          exact relative_text_words (cleaned_init false cleaned).1

theorem abs_words (cwd path : Bytes) (rooted : isAbs cwd = true) (fixed : clean path = path) :
    isAbs (abs cwd path) = true ∧ clean (abs cwd path) = abs cwd path ∧
      cleanWords (abs cwd path) = if isAbs path then cleanWords path else resolve (cleanWords cwd) (cleanWords path) := by
  cases kind : isAbs path with
  | true =>
      rw [abs, kind, if_pos rfl, if_pos rfl, fixed]
      exact ⟨kind, fixed, rfl⟩
  | false =>
      obtain ⟨still, same, words⟩ := abs_relative cwd path rooted kind
      refine ⟨still, same, ?_⟩
      have cleaned := cleaned_words path
      have text := resolve_text (cleanWords cwd) (cleanWords path) (fun word there => (cleaned.plain word there).2.2)
      rw [words, clean_relative_text path kind fixed, text, ← clean_relative_text path kind fixed]
      rfl

theorem rel_text_relative (words : List Bytes) (plain : ∀ word ∈ words, word ≠ [] ∧ separator ∉ word) : isAbs (relText words) = false := by
  cases words with
  | nil => decide
  | cons word words =>
      obtain ⟨some, clear⟩ := plain word List.mem_cons_self
      rw [relText, if_neg (by simp)]
      exact join_relative words some clear

end Words

theorem ups_front (words : List Bytes) (cleaned : Cleaned false (words ++ [str ".."])) :
    words = List.replicate words.length (str "..") := by
  induction words using List.reverseRecOn with
  | nil => rfl
  | append_singleton words last ih =>
      obtain ⟨front, pushed⟩ := cleaned_init false cleaned
      have neither : ¬ (str ".." = [] ∨ str ".." = str ".") := by decide
      have up : last = str ".." := by
        by_contra other
        rw [List.reverse_append, List.reverse_singleton, List.singleton_append] at pushed
        simp only [cleanStep, if_neg neither, if_pos, if_neg other] at pushed
        have length := congrArg List.length pushed
        simp only [List.length_cons] at length
        omega
      subst up
      rw [List.length_append, List.length_singleton, List.replicate_succ', ← ih front]

section Rel

variable (base targ : Bytes)

def relWords : List Bytes :=
  List.replicate (cutCommon (cleanWords base) (cleanWords targ)).1.length (str "..") ++ (cutCommon (cleanWords base) (cleanWords targ)).2

theorem no_ups_iff (words : List Bytes) : words.all (fun word => word ≠ str "..") = true ↔ str ".." ∉ words := by
  rw [List.all_eq_true]
  refine ⟨fun other there => of_decide_eq_true (other _ there) rfl, fun absent word there => decide_eq_true ?_⟩
  rintro rfl
  exact absent there

theorem rel_mixed (different : isAbs base ≠ isAbs targ) : rel base targ = none := by
  rw [rel, if_pos different]

theorem rel_stuck (stuck : str ".." ∈ (cutCommon (cleanWords base) (cleanWords targ)).1) : rel base targ = none := by
  have up := fun free => (no_ups_iff _).mp free stuck
  rw [rel]
  simp only [if_neg up, ite_self]

theorem rel_some (kind : isAbs base = isAbs targ) (free : str ".." ∉ (cutCommon (cleanWords base) (cleanWords targ)).1) :
    rel base targ = some (relText (relWords base targ)) := by
  rw [rel, if_neg (not_not.mpr kind)]
  simp only [if_pos ((no_ups_iff _).mpr free), List.map_const', relWords]

theorem rel_words_plain : ∀ word ∈ relWords base targ, word ≠ [] ∧ separator ∉ word := by
  intro word there
  obtain ⟨common, -, split, -⟩ := cut_common_spec (cleanWords base) (cleanWords targ)
  rcases List.mem_append.mp there with up | rest
  · rw [List.eq_of_mem_replicate up]
    decide
  · have inside : word ∈ cleanWords targ := by
      rw [split]
      exact List.mem_append_right _ rest
    have plain := (cleaned_words targ).plain word inside
    exact ⟨plain.1, plain.2.2⟩

theorem rel_words_name {dir : Bytes} (rooted : isAbs dir = true) :
    isAbs (abs dir (relText (relWords base targ))) = true ∧
      clean (abs dir (relText (relWords base targ))) = abs dir (relText (relWords base targ)) ∧
        cleanWords (abs dir (relText (relWords base targ))) = resolve (cleanWords dir) (relWords base targ) := by
  have plain := rel_words_plain base targ
  obtain ⟨still, same, words⟩ := abs_relative dir _ rooted (rel_text_relative _ plain)
  refine ⟨still, same, ?_⟩
  rw [words, resolve_text _ _ (fun word there => (plain word there).2)]

end Rel

end GoLib.Filepath
