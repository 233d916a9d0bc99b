import URoot.Lib.RelPath

set_option autoImplicit false

namespace URoot.Ln

open GoLib Filepath

-- none is an error. The working directory is known, so Abs does not fail.
def relLink (cwd target linkName : Bytes) : Option Bytes :=
  match rel (dir linkName) target with
  | some newTarget => some newTarget
  | none => rel (abs cwd linkName) target

def holder (cwd linkName : Bytes) : Bytes := abs cwd (dir linkName)

def PointsAt (cwd target linkName : Bytes) : Prop :=
  ∃ text, relLink cwd target linkName = some text ∧ abs (holder cwd linkName) text = abs cwd target

-- A relative link to a rooted target goes through the fallback, which starts from the link and not from its directory.
def FallbackRight (cwd target linkName : Bytes) : Prop :=
  cleanWords linkName = [] ∨
    ∃ last, (cleanWords linkName).getLast? = some last ∧
      if last = str ".." then (cleanWords cwd).length < (cleanWords linkName).length
      else (cleanWords (abs cwd linkName)).head? ≠ (cleanWords target).head?

def Right (cwd target linkName : Bytes) : Prop :=
  if isAbs linkName then isAbs target = true
  else if isAbs target then FallbackRight cwd target linkName
  else str ".." ∉ (cutCommon (cleanWords (dir linkName)) (cleanWords target)).1

section Words

variable {cwd target linkName : Bytes} (rooted : isAbs cwd = true) (targetClean : clean target = target)
  (linkClean : clean linkName = linkName)

include rooted linkClean

theorem holder_words : isAbs (holder cwd linkName) = true ∧ Cleaned true (cleanWords (holder cwd linkName)) ∧
    cleanWords (holder cwd linkName) =
      if isAbs linkName then (cleanWords linkName).dropLast else resolve (cleanWords cwd) (cleanWords linkName).dropLast := by
  obtain ⟨still, same, words⟩ := abs_words cwd (dir linkName) rooted (clean_idempotent _)
  obtain ⟨kind, front⟩ := dir_words linkName linkClean
  have cleaned := cleaned_words (holder cwd linkName)
  rw [holder, still] at cleaned
  refine ⟨still, cleaned, ?_⟩
  rw [holder, words, kind, front]

include targetClean

theorem leads_iff (base : Bytes) :
    abs (holder cwd linkName) (relText (relWords base target)) = abs cwd target ↔
      resolve (cleanWords (holder cwd linkName)) (relWords base target) =
        if isAbs target then cleanWords target else resolve (cleanWords cwd) (cleanWords target) := by
  obtain ⟨still, -, -⟩ := holder_words rooted linkClean
  obtain ⟨first, sameFirst, wordsFirst⟩ := rel_words_name base target still
  obtain ⟨second, sameSecond, wordsSecond⟩ := abs_words cwd target rooted targetClean
  rw [← wordsFirst, ← wordsSecond, ← clean_rooted_inj _ _ first second, sameFirst, sameSecond]

end Words

section Lists

variable (dir common left rest : List Bytes)

-- Going up as often as the child is deep below the common words ends one word too high, unless the root absorbs it.
theorem take_child_iff (last : Bytes) (split : dir ++ [last] = common ++ left) :
    dir.take (dir.length - left.length) = common ↔ common = [] := by
  have sizes := congrArg List.length split
  simp only [List.length_append, List.length_singleton] at sizes
  refine ⟨fun same => ?_, fun empty => ?_⟩
  · have length := congrArg List.length same
    rw [List.length_take] at length
    exact List.length_eq_zero_iff.mp (by omega)
  · rw [empty, List.length_nil, Nat.zero_add] at sizes
    rw [empty, show dir.length - left.length = 0 by omega, List.take_zero]

theorem take_parent_iff (split : dir.dropLast = common ++ left) : dir.take (dir.length - left.length) = common ↔ dir = [] := by
  have sizes := congrArg List.length split
  rw [List.length_append, List.length_dropLast] at sizes
  refine ⟨fun same => ?_, fun empty => ?_⟩
  · have length := congrArg List.length same
    rw [List.length_take] at length
    exact List.length_eq_zero_iff.mp (by omega)
  · rw [empty, List.length_nil] at sizes
    rw [empty, List.take_nil, List.length_eq_zero_iff.mp (show common.length = 0 by omega)]

theorem heads_apart_iff (some_ : common ++ left ≠ []) (apart : ∀ word, left.head? = some word → rest.head? ≠ some word) :
    common = [] ↔ (common ++ left).head? ≠ (common ++ rest).head? := by
  cases common with
  | nil =>
      obtain ⟨word, others, form⟩ := List.exists_cons_of_ne_nil some_
      rw [List.nil_append] at form
      refine iff_of_true rfl ?_
      rw [List.nil_append, List.nil_append, form]
      exact (apart word (by rw [form]; rfl)).symm
  | cons word common => exact iff_of_false (List.cons_ne_nil _ _) (not_not.mpr rfl)

theorem up_right_iff (cwd front : List Bytes) (cleaned : Cleaned true cwd) (ups : Cleaned false (front ++ [str ".."]))
    (split : resolve (resolve cwd front) [str ".."] = common ++ left) :
    (resolve cwd front).take ((resolve cwd front).length - left.length) = common ↔ cwd.length < (front ++ [str ".."]).length := by
  have clear := (cleaned_unrooted cwd cleaned).2
  rw [ups_front front ups, resolve_ups cwd _ clear] at split ⊢
  rw [resolve_up _ (fun inside => clear (List.mem_of_mem_take inside))] at split
  rw [take_parent_iff _ common left split, List.take_eq_nil_iff, List.length_append, List.length_replicate, List.length_singleton]
  refine ⟨?_, fun less => Or.inl (by omega)⟩
  rintro (none_ | none_)
  · omega
  · rw [none_, List.length_nil]
    exact Nat.succ_pos _

theorem name_right_iff (last : Bytes) (plain : last ≠ [] ∧ last ≠ str "." ∧ last ≠ str "..")
    (apart : ∀ word, left.head? = some word → rest.head? ≠ some word) (split : resolve dir [last] = common ++ left) :
    dir.take (dir.length - left.length) = common ↔ (common ++ left).head? ≠ (common ++ rest).head? := by
  rw [resolve_plain dir [last] (fun word there => by rw [List.mem_singleton.mp there]; exact plain)] at split
  rw [take_child_iff dir common left last split]
  exact heads_apart_iff common left rest (by rw [← split]; simp) apart

end Lists

section Cases

variable {cwd target linkName : Bytes} (rooted : isAbs cwd = true) (targetClean : clean target = target)
  (linkClean : clean linkName = linkName)

theorem points_none (failed : relLink cwd target linkName = none) : ¬ PointsAt cwd target linkName := by
  rintro ⟨text, found, -⟩
  rw [failed] at found
  cases found

theorem points_some {text : Bytes} (found : relLink cwd target linkName = some text) :
    PointsAt cwd target linkName ↔ abs (holder cwd linkName) text = abs cwd target := by
  refine ⟨?_, fun leads => ⟨text, found, leads⟩⟩
  rintro ⟨other, same, leads⟩
  rw [found] at same
  cases same
  exact leads

theorem rel_words_resolve {dir : List Bytes} {base : Bytes} (cleaned : Cleaned true dir) (targetRooted : isAbs target = true) :
    resolve dir (relWords base target) =
      dir.take (dir.length - (cutCommon (cleanWords base) (cleanWords target)).1.length) ++
        (cutCommon (cleanWords base) (cleanWords target)).2 := by
  obtain ⟨common, -, split, -⟩ := cut_common_spec (cleanWords base) (cleanWords target)
  have words := cleaned_words target
  rw [targetRooted] at words
  rw [relWords, resolve_append, resolve_ups dir _ (cleaned_unrooted dir cleaned).2, resolve_plain]
  intro word there
  have inside : word ∈ cleanWords target := by
    rw [split]
    exact List.mem_append_right _ there
  have plain := words.plain word inside
  exact ⟨plain.1, plain.2.1, fun up => (cleaned_unrooted _ words).2 (up ▸ inside)⟩

theorem no_ups_left (target base : Bytes) (cleaned : Cleaned true (cleanWords base)) :
    str ".." ∉ (cutCommon (cleanWords base) (cleanWords target)).1 := by
  obtain ⟨common, first, -, -⟩ := cut_common_spec (cleanWords base) (cleanWords target)
  intro up
  refine (cleaned_unrooted _ cleaned).2 ?_
  rw [first]
  exact List.mem_append_right _ up

include rooted linkClean targetClean

theorem both_rooted (link : isAbs linkName = true) (targ : isAbs target = true) : PointsAt cwd target linkName := by
  obtain ⟨kind, front⟩ := dir_words linkName linkClean
  obtain ⟨-, cleaned, words⟩ := holder_words rooted linkClean
  rw [link, if_pos rfl, ← front] at words
  obtain ⟨common, first, second, -⟩ := cut_common_spec (cleanWords (dir linkName)) (cleanWords target)
  have free := no_ups_left target (dir linkName) (words ▸ cleaned)
  have found : relLink cwd target linkName = some (relText (relWords (dir linkName) target)) := by
    rw [relLink, rel_some _ _ (by rw [kind, link, targ]) free]
  rw [points_some found, leads_iff rooted targetClean linkClean, targ, if_pos rfl, rel_words_resolve cleaned targ, words]
  generalize (cutCommon (cleanWords (dir linkName)) (cleanWords target)).1 = base' at first
  generalize (cutCommon (cleanWords (dir linkName)) (cleanWords target)).2 = targ' at second
  rw [first, second, List.length_append, Nat.add_sub_cancel, List.take_left]

omit targetClean in
theorem rooted_link (link : isAbs linkName = true) (targ : isAbs target = false) : ¬ PointsAt cwd target linkName := by
  refine points_none ?_
  obtain ⟨kind, -⟩ := dir_words linkName linkClean
  obtain ⟨still, -⟩ := abs_words cwd linkName rooted linkClean
  rw [relLink, rel_mixed _ _ (by rw [kind, link, targ]; decide), rel_mixed _ _ (by rw [still, targ]; decide)]

theorem both_relative (link : isAbs linkName = false) (targ : isAbs target = false) :
    PointsAt cwd target linkName ↔ str ".." ∉ (cutCommon (cleanWords (dir linkName)) (cleanWords target)).1 := by
  obtain ⟨kind, front⟩ := dir_words linkName linkClean
  by_cases stuck : str ".." ∈ (cutCommon (cleanWords (dir linkName)) (cleanWords target)).1
  · obtain ⟨still, -⟩ := abs_words cwd linkName rooted linkClean
    refine iff_of_false (points_none ?_) (not_not.mpr stuck)
    rw [relLink, rel_stuck _ _ stuck, rel_mixed _ _ (by rw [still, targ]; decide)]
  · refine iff_of_true ?_ stuck
    obtain ⟨-, cleaned, words⟩ := holder_words rooted linkClean
    rw [link, if_neg (by decide), ← front] at words
    have found : relLink cwd target linkName = some (relText (relWords (dir linkName) target)) := by
      rw [relLink, rel_some _ _ (by rw [kind, link, targ]) stuck]
    rw [points_some found, leads_iff rooted targetClean linkClean, targ, if_neg (by decide)]
    have plain := (cleaned_words (dir linkName)).plain
    obtain ⟨common, first, second, -⟩ := cut_common_spec (cleanWords (dir linkName)) (cleanWords target)
    rw [relWords, resolve_append, resolve_ups _ _ (cleaned_unrooted _ cleaned).2, words]
    generalize (cutCommon (cleanWords (dir linkName)) (cleanWords target)).1 = base' at first stuck
    generalize (cutCommon (cleanWords (dir linkName)) (cleanWords target)).2 = targ' at second
    -- What is left of the base only adds words to where the common ones lead.
    have pushed : resolve (cleanWords cwd) (cleanWords (dir linkName)) = resolve (cleanWords cwd) common ++ base' := by
      rw [first, resolve_append, resolve_plain]
      intro word there
      have inside : word ∈ cleanWords (dir linkName) := by
        rw [first]
        exact List.mem_append_right _ there
      exact ⟨(plain word inside).1, (plain word inside).2.1, fun up => stuck (up ▸ there)⟩
    rw [pushed, List.length_append, Nat.add_sub_cancel, List.take_left, second, resolve_append]

theorem fallback_leads (link : isAbs linkName = false) (targ : isAbs target = true) (common left rest : List Bytes)
    (cut : cutCommon (cleanWords (abs cwd linkName)) (cleanWords target) = (left, rest)) (split : cleanWords target = common ++ rest) :
    PointsAt cwd target linkName ↔
      (cleanWords (holder cwd linkName)).take ((cleanWords (holder cwd linkName)).length - left.length) = common := by
  obtain ⟨kind, -⟩ := dir_words linkName linkClean
  obtain ⟨still, -⟩ := abs_words cwd linkName rooted linkClean
  obtain ⟨-, cleaned, -⟩ := holder_words rooted linkClean
  have words := cleaned_words (abs cwd linkName)
  rw [still] at words
  have free := no_ups_left target _ words
  have found : relLink cwd target linkName = some (relText (relWords (abs cwd linkName) target)) := by
    rw [relLink, rel_mixed _ _ (by rw [kind, link, targ]; decide), rel_some _ _ (by rw [still, targ]) free]
  rw [points_some found, leads_iff rooted targetClean linkClean, targ, if_pos rfl, rel_words_resolve cleaned targ, cut, split, List.append_left_inj]

theorem fallback_iff (link : isAbs linkName = false) (targ : isAbs target = true) :
    PointsAt cwd target linkName ↔ FallbackRight cwd target linkName := by
  obtain ⟨-, -, named⟩ := abs_words cwd linkName rooted linkClean
  obtain ⟨-, -, held⟩ := holder_words rooted linkClean
  have cwdWords := cleaned_words cwd
  have linkWords := cleaned_words linkName
  rw [rooted] at cwdWords
  rw [link] at linkWords
  rw [link, if_neg (by decide)] at named held
  obtain ⟨common, first, second, apart⟩ := cut_common_spec (cleanWords (abs cwd linkName)) (cleanWords target)
  rcases cut : cutCommon (cleanWords (abs cwd linkName)) (cleanWords target) with ⟨left, rest⟩
  rw [cut] at first second apart
  rw [fallback_leads rooted targetClean linkClean link targ common left rest cut second, FallbackRight]
  generalize cleanWords linkName = words at *
  cases words using List.reverseRecOn with
  | nil =>
      refine iff_of_true ?_ (Or.inl rfl)
      rw [held, List.dropLast_nil, ← named, first, List.length_append, Nat.add_sub_cancel, List.take_left]
  | append_singleton front last =>
      rw [List.dropLast_concat] at held
      rw [resolve_append, first] at named
      have ends : (front ++ [last]).getLast? = some last := by simp
      have some_ : ¬ front ++ [last] = [] := by simp
      simp only [some_, false_or, ends, Option.some.injEq, exists_eq_left']
      rw [held]
      by_cases up : last = str ".."
      · subst up
        rw [if_pos rfl]
        exact up_right_iff common left _ front cwdWords linkWords named.symm
      · have plain := linkWords.plain last (by simp)
        rw [if_neg up, first, second]
        exact name_right_iff _ common left rest last ⟨plain.1, plain.2.1, up⟩ apart named.symm

end Cases

theorem rel_link_points_iff (cwd target linkName : Bytes) (rooted : isAbs cwd = true) (targetClean : clean target = target)
    (linkClean : clean linkName = linkName) : PointsAt cwd target linkName ↔ Right cwd target linkName := by
  rw [Right]
  cases link : isAbs linkName with
  | true =>
      rw [if_pos rfl]
      cases targ : isAbs target with
      | true => exact iff_of_true (both_rooted rooted targetClean linkClean link targ) rfl
      | false => exact iff_of_false (rooted_link rooted linkClean link targ) Bool.false_ne_true
  | false =>
      rw [if_neg Bool.false_ne_true]
      cases targ : isAbs target with
      | true =>
          rw [if_pos rfl]
          exact fallback_iff rooted targetClean linkClean link targ
      | false =>
          rw [if_neg Bool.false_ne_true]
          exact both_relative rooted targetClean linkClean link targ

theorem sibling_pointed_at : PointsAt (str "/home") (str "a/f") (str "b/l") := by
  refine (rel_link_points_iff (str "/home") (str "a/f") (str "b/l") (by decide) (by decide) (by decide)).mpr ?_
  rw [Right, if_neg (by decide), if_neg (by decide)]
  decide

-- The link /home/l would lead to /x instead of /home/x.
theorem link_left_as_directory : relLink (str "/home") (str "/home/x") (str "l") = some (str "../x") ∧
    abs (holder (str "/home") (str "l")) (str "../x") = str "/x" ∧ ¬ PointsAt (str "/home") (str "/home/x") (str "l") := by
  have text : relLink (str "/home") (str "/home/x") (str "l") = some (str "../x") := by decide
  refine ⟨text, by decide, ?_⟩
  rw [points_some text]
  decide

end URoot.Ln
