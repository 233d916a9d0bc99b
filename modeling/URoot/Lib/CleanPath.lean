import URoot.Lib.Filepath
import URoot.Lib.Split
import Mathlib.Data.List.Induction

set_option autoImplicit false

namespace GoLib.Filepath

-- filepath.Dir: what stands up to and including the last separator, cleaned.
def dirPart (path : Bytes) : Bytes := (path.reverse.dropWhile (fun byte => byte != separator)).reverse

def dir (path : Bytes) : Bytes := clean (dirPart path)

-- filepath.Join of two elements: the empty ones are left out.
def joinTwo (a b : Bytes) : Bytes :=
  if a ≠ [] then clean (a ++ separator :: b) else if b ≠ [] then clean b else []

-- filepath.Base: the last element, without the separators after it.
def base (path : Bytes) : Bytes :=
  if path = [] then str "."
  else
    let last := ((path.reverse.dropWhile (fun byte => byte == separator)).takeWhile (fun byte => byte != separator)).reverse
    if last = [] then [separator] else last

section Words

structure Cleaned (rooted : Bool) (words : List Bytes) : Prop where
  fixed : words.foldl (cleanStep rooted) [] = words.reverse
  plain : ∀ word ∈ words, word ≠ [] ∧ word ≠ str "." ∧ separator ∉ word

variable (rooted : Bool)

theorem clean_step_cases (stack : List Bytes) (word : Bytes) :
    ((word = [] ∨ word = str ".") ∧ cleanStep rooted stack word = stack) ∨
      cleanStep rooted stack word = word :: stack ∨
      (stack = [] ∧ rooted = true ∧ cleanStep rooted stack word = []) ∨
      ∃ top rest, stack = top :: rest ∧ cleanStep rooted stack word = rest := by
  by_cases skipped : word = [] ∨ word = str "."
  · exact Or.inl ⟨skipped, by simp only [cleanStep, if_pos skipped]⟩
  refine Or.inr ?_
  by_cases up : word = str ".."
  · cases stack with
    | nil =>
        cases rooted with
        | true => exact Or.inr (Or.inl ⟨rfl, rfl, by simp only [cleanStep, if_neg skipped, if_pos up, if_true]⟩)
        | false => exact Or.inl (by simp only [cleanStep, if_neg skipped, if_pos up, Bool.false_eq_true, if_false])
    | cons top rest =>
        by_cases kept : top = str ".."
        · exact Or.inl (by simp only [cleanStep, if_neg skipped, if_pos up, if_pos kept])
        · exact Or.inr (Or.inr ⟨top, rest, rfl, by simp only [cleanStep, if_neg skipped, if_pos up, if_neg kept]⟩)
  · exact Or.inl (by simp only [cleanStep, if_neg skipped, if_neg up])

theorem clean_step_length (stack : List Bytes) (word : Bytes) :
    (cleanStep rooted stack word).length ≤ stack.length + 1 := by
  rcases clean_step_cases rooted stack word with ⟨-, same⟩ | pushed | ⟨rfl, -, emptied⟩ | ⟨top, rest, rfl, popped⟩
  · rw [same]
    exact Nat.le_succ _
  · rw [pushed, List.length_cons]
  · rw [emptied]
    exact Nat.zero_le _
  · rw [popped, List.length_cons]
    omega

theorem clean_fold_length (words stack : List Bytes) :
    (words.foldl (cleanStep rooted) stack).length ≤ stack.length + words.length := by
  induction words generalizing stack with
  | nil => exact Nat.le_refl _
  | cons word rest ih =>
      have head := clean_step_length rooted stack word
      have tail := ih (cleanStep rooted stack word)
      simp only [List.foldl_cons, List.length_cons]
      omega

theorem cleaned_push {stack : List Bytes} {word : Bytes} (cleaned : Cleaned rooted stack.reverse)
    (pushed : cleanStep rooted stack word = word :: stack)
    (plain : word ≠ [] ∧ word ≠ str "." ∧ separator ∉ word) : Cleaned rooted (word :: stack).reverse := by
  rw [List.reverse_cons]
  refine ⟨?_, ?_⟩
  · rw [List.foldl_append, cleaned.fixed, List.reverse_reverse, List.foldl_cons, pushed, List.foldl_nil,
      List.reverse_append, List.reverse_reverse]
    rfl
  · intro other member
    rcases List.mem_append.mp member with old | new
    · exact cleaned.plain other old
    · cases List.mem_singleton.mp new
      exact plain

theorem cleaned_init {words : List Bytes} {last : Bytes} (cleaned : Cleaned rooted (words ++ [last])) :
    Cleaned rooted words ∧ cleanStep rooted words.reverse last = last :: words.reverse := by
  obtain ⟨notEmpty, notDot, -⟩ := cleaned.plain last (by simp)
  have short := clean_fold_length rooted words []
  have fixed := cleaned.fixed
  rw [List.foldl_append, List.foldl_cons, List.foldl_nil, List.reverse_append, List.reverse_singleton,
    List.singleton_append] at fixed
  have plain : ∀ word ∈ words, word ≠ [] ∧ word ≠ str "." ∧ separator ∉ word :=
    fun word member => cleaned.plain word (List.mem_append_left _ member)
  suffices same : words.foldl (cleanStep rooted) [] = words.reverse by
    refine ⟨⟨same, plain⟩, ?_⟩
    rw [same] at fixed
    exact fixed
  generalize words.foldl (cleanStep rooted) [] = stack at fixed short
  rcases clean_step_cases rooted stack last with ⟨skipped, -⟩ | pushed | ⟨-, -, emptied⟩ | ⟨top, rest, rfl, popped⟩
  · exact absurd skipped (by simp [notEmpty, notDot])
  · exact (List.cons.inj (pushed.symm.trans fixed)).2
  · cases emptied.symm.trans fixed
  · have length := congrArg List.length (popped.symm.trans fixed)
    simp only [List.length_cons, List.length_reverse, List.length_nil] at length short
    omega

theorem cleaned_pop (top : Bytes) (rest : List Bytes) (cleaned : Cleaned rooted (top :: rest).reverse) :
    Cleaned rooted rest.reverse := by
  rw [List.reverse_cons] at cleaned
  exact (cleaned_init rooted cleaned).1

theorem cleaned_step (stack : List Bytes) (word : Bytes) (cleaned : Cleaned rooted stack.reverse)
    (noSeparator : separator ∉ word) : Cleaned rooted (cleanStep rooted stack word).reverse := by
  by_cases skipped : word = [] ∨ word = str "."
  · rw [show cleanStep rooted stack word = stack by simp only [cleanStep, if_pos skipped]]
    exact cleaned
  rcases clean_step_cases rooted stack word with ⟨skip, -⟩ | pushed | ⟨rfl, -, emptied⟩ | ⟨top, rest, rfl, popped⟩
  · exact absurd skip skipped
  · rw [not_or] at skipped
    rw [pushed]
    exact cleaned_push rooted cleaned pushed ⟨skipped.1, skipped.2, noSeparator⟩
  · rw [emptied]
    exact cleaned
  · rw [popped]
    exact cleaned_pop rooted top rest cleaned

theorem cleaned_fold (words stack : List Bytes) (cleaned : Cleaned rooted stack.reverse)
    (noSeparator : ∀ word ∈ words, separator ∉ word) :
    Cleaned rooted (words.foldl (cleanStep rooted) stack).reverse := by
  induction words generalizing stack with
  | nil => exact cleaned
  | cons word rest ih =>
      rw [List.foldl_cons]
      exact ih _ (cleaned_step rooted stack word cleaned (noSeparator word List.mem_cons_self))
        fun other member => noSeparator other (List.mem_cons_of_mem _ member)

theorem cleaned_nil : Cleaned rooted [] := ⟨rfl, by simp⟩

end Words

section Join

theorem join_snoc {words : List Bytes} (last : Bytes) (some : words ≠ []) :
    join (words ++ [last]) = join words ++ separator :: last := by
  induction words with
  | nil => exact absurd rfl some
  | cons word rest ih =>
      cases rest with
      | nil => simp [join]
      | cons next tail =>
          have inner := ih (by simp)
          simp only [join, List.cons_append, List.intercalate_cons_cons, List.append_assoc] at inner ⊢
          rw [inner]

theorem join_empty_first (words : List Bytes) (some : words ≠ []) : join ([] :: words) = separator :: join words := by
  cases words with
  | nil => exact absurd rfl some
  | cons word rest => simp [join, List.intercalate_cons_cons]

theorem clean_words_join (words : List Bytes) (noSeparator : ∀ word ∈ words, separator ∉ word) (some : words ≠ []) :
    cleanWords (join words) = (words.foldl (cleanStep (isAbs (join words))) []).reverse := by
  rw [cleanWords, join, List.splitOn_intercalate separator noSeparator some]

theorem join_relative {word : Bytes} (rest : List Bytes) (notEmpty : word ≠ []) (noSeparator : separator ∉ word) :
    isAbs (join (word :: rest)) = false := by
  cases word with
  | nil => exact absurd rfl notEmpty
  | cons byte tail =>
      have different : byte ≠ separator := fun same => noSeparator (by simp [same])
      cases rest with
      | nil => simpa [join, isAbs] using different
      | cons next more => simpa [join, List.intercalate_cons_cons, isAbs] using different

end Join

section Clean

variable (words : List Bytes)

theorem clean_fold_empties (rooted : Bool) (empties stack : List Bytes) (empty : ∀ word ∈ empties, word = []) :
    empties.foldl (cleanStep rooted) stack = stack := by
  induction empties with
  | nil => rfl
  | cons word rest ih =>
      rw [List.foldl_cons, empty word List.mem_cons_self, clean_step_empty]
      exact ih fun other member => empty other (List.mem_cons_of_mem _ member)

theorem clean_words_trimmed (rooted : Bool) (front back : List Bytes) (empty : ∀ word ∈ front ++ back, word = [])
    (cleaned : Cleaned rooted words) (some : front ++ words ++ back ≠ [])
    (abs : isAbs (join (front ++ words ++ back)) = rooted) : cleanWords (join (front ++ words ++ back)) = words := by
  have frontEmpty : ∀ word ∈ front, word = [] := fun word member => empty word (List.mem_append_left _ member)
  have backEmpty : ∀ word ∈ back, word = [] := fun word member => empty word (List.mem_append_right _ member)
  have noSeparator : ∀ word ∈ front ++ words ++ back, separator ∉ word := by
    intro word member
    rcases List.mem_append.mp member with inner | last
    · rcases List.mem_append.mp inner with first | old
      · rw [frontEmpty word first]
        exact List.not_mem_nil
      · exact (cleaned.plain word old).2.2
    · rw [backEmpty word last]
      exact List.not_mem_nil
  rw [clean_words_join _ noSeparator some, abs, List.foldl_append, List.foldl_append,
    clean_fold_empties rooted front [] frontEmpty, cleaned.fixed, clean_fold_empties rooted back _ backEmpty,
    List.reverse_reverse]

theorem cleaned_relative (rooted : Bool) (back : List Bytes) (some : words ≠ []) (cleaned : Cleaned rooted words) :
    isAbs (join (words ++ back)) = false := by
  cases words with
  | nil => exact absurd rfl some
  | cons word rest =>
      obtain ⟨notEmpty, -, noSeparator⟩ := cleaned.plain word List.mem_cons_self
      exact join_relative (rest ++ back) notEmpty noSeparator

theorem cleaned_join_some (rooted : Bool) (some : words ≠ []) (cleaned : Cleaned rooted words) : join words ≠ [] := by
  cases words with
  | nil => exact absurd rfl some
  | cons word rest =>
      have notEmpty := (cleaned.plain word List.mem_cons_self).1
      cases rest with
      | nil => simpa [join] using notEmpty
      | cons next more => simp [join, List.intercalate_cons_cons]

theorem clean_relative_join (some : words ≠ []) (cleaned : Cleaned false words) :
    clean (join words) = join words ∧ clean (join words ++ [separator]) = join words := by
  have relative : ∀ back, isAbs (join ([] ++ words ++ back)) = false :=
    fun back => cleaned_relative words false back some cleaned
  have kept : ∀ back, (∀ word ∈ back, word = []) → clean (join ([] ++ words ++ back)) = join words := by
    intro back empty
    rw [clean, relative back, clean_words_trimmed words false [] back empty cleaned (by simp [some]) (relative back)]
    simp [some]
  have plain := kept [] (by simp)
  have trailing := kept [[]] (by simp)
  rw [List.nil_append, List.append_nil] at plain
  rw [List.nil_append, join_snoc [] some] at trailing
  exact ⟨plain, trailing⟩

theorem clean_rooted_join (cleaned : Cleaned true words) :
    clean (separator :: join words) = separator :: join words ∧
      (words ≠ [] → clean (separator :: (join words ++ [separator])) = separator :: join words) := by
  have rooted : ∀ rest : Bytes, isAbs (separator :: rest) = true := by simp [isAbs]
  have kept : ∀ back text, (∀ word ∈ back, word = []) → join ([[]] ++ words ++ back) = separator :: text →
      clean (separator :: text) = separator :: join words := by
    intro back text empty same
    have trimmed := clean_words_trimmed words true [[]] back (by simpa using empty) cleaned (by simp)
      (by rw [same]; exact rooted text)
    rw [same] at trimmed
    rw [clean, if_pos (rooted text), trimmed]
  refine ⟨?_, fun some => ?_⟩
  · by_cases none : words = []
    · rw [none]
      decide
    · exact kept [] _ (by simp) (by rw [List.append_nil]; exact join_empty_first words none)
  · refine kept [[]] _ (by simp) ?_
    rw [List.append_assoc, List.singleton_append, join_empty_first _ (by simp), join_snoc [] some]

theorem cleaned_words (path : Bytes) : Cleaned (isAbs path) (cleanWords path) :=
  cleaned_fold _ _ [] (cleaned_nil _) (split_clear)

theorem clean_form (path : Bytes) :
    (∃ kept, Cleaned true kept ∧ clean path = separator :: join kept) ∨ clean path = str "." ∨
      ∃ kept, kept ≠ [] ∧ Cleaned false kept ∧ clean path = join kept := by
  have cleaned := cleaned_words path
  by_cases rooted : isAbs path = true
  · rw [rooted] at cleaned
    exact Or.inl ⟨_, cleaned, by rw [clean, if_pos rooted]⟩
  · rw [Bool.not_eq_true] at rooted
    rw [rooted] at cleaned
    by_cases none : cleanWords path = []
    · exact Or.inr (Or.inl (by rw [clean, rooted, none]; rfl))
    · exact Or.inr (Or.inr ⟨_, none, cleaned, by rw [clean, rooted]; simp [none]⟩)

theorem clean_idempotent (path : Bytes) : clean (clean path) = clean path := by
  rcases clean_form path with ⟨kept, cleaned, form⟩ | form | ⟨kept, some, cleaned, form⟩
  · rw [form, (clean_rooted_join kept cleaned).1]
  · rw [form]
    decide
  · rw [form, (clean_relative_join kept some cleaned).1]

end Clean

section Dir

theorem tail_skipped (last : Bytes) (noSeparator : separator ∉ last) :
    ∀ byte ∈ last.reverse, (byte != separator) = true := by
  intro byte member
  rw [bne_iff_ne]
  rintro rfl
  exact noSeparator (List.mem_reverse.mp member)

theorem dir_part_slash (before last : Bytes) (noSeparator : separator ∉ last) :
    dirPart (before ++ separator :: last) = before ++ [separator] := by
  rw [dirPart, List.reverse_append, List.reverse_cons, List.append_assoc,
    List.dropWhile_append_of_pos (tail_skipped last noSeparator)]
  simp

theorem dir_part_word (word : Bytes) (noSeparator : separator ∉ word) : dirPart word = [] := by
  rw [dirPart, ← List.append_nil word.reverse, List.dropWhile_append_of_pos (tail_skipped word noSeparator),
    List.dropWhile_nil, List.reverse_nil]

theorem dir_part_cases (path : Bytes) :
    dirPart path = [] ∨ ∃ before, dirPart path = before ++ [separator] ∧ before.length < path.length := by
  by_cases slash : separator ∈ path
  · obtain ⟨back, front, split, noSeparator⟩ := List.eq_append_cons_of_mem (List.mem_reverse.mpr slash)
    have forward : path = front.reverse ++ separator :: back.reverse := by
      rw [← List.reverse_reverse path, split]
      simp
    refine Or.inr ⟨front.reverse, ?_, ?_⟩
    · rw [forward, dir_part_slash _ _ (fun member => noSeparator (List.mem_reverse.mp member))]
    · rw [forward, List.length_append, List.length_cons]
      omega
  · exact Or.inl (dir_part_word path slash)

variable (words : List Bytes) (last : Bytes)

theorem dir_relative (cleaned : Cleaned false (words ++ [last])) :
    dir (join (words ++ [last])) = if words = [] then str "." else join words := by
  have noSeparator := (cleaned.plain last (by simp)).2.2
  by_cases none : words = []
  · rw [if_pos none, none, dir, List.nil_append, show join [last] = last by simp [join], dir_part_word last noSeparator]
    decide
  · rw [if_neg none, dir, join_snoc last none, dir_part_slash _ last noSeparator,
      (clean_relative_join words none (cleaned_init false cleaned).1).2]

theorem dir_rooted (cleaned : Cleaned true (words ++ [last])) :
    dir (separator :: join (words ++ [last])) = separator :: join words := by
  have noSeparator := (cleaned.plain last (by simp)).2.2
  by_cases none : words = []
  · have part := dir_part_slash [] last noSeparator
    rw [List.nil_append, List.nil_append] at part
    rw [none, dir, List.nil_append, show join [last] = last by simp [join], part]
    decide
  · have part := dir_part_slash (separator :: join words) last noSeparator
    rw [dir, join_snoc last none, ← List.cons_append, part, List.cons_append,
      (clean_rooted_join words (cleaned_init true cleaned).1).2 none]

theorem cleaned_unrooted (cleaned : Cleaned true words) : Cleaned false words ∧ str ".." ∉ words := by
  induction words using List.reverseRecOn with
  | nil => exact ⟨cleaned_nil false, List.not_mem_nil⟩
  | append_singleton words last ih =>
      obtain ⟨front, pushed⟩ := cleaned_init true cleaned
      obtain ⟨frontFalse, noUp⟩ := ih front
      have plain := cleaned.plain last (by simp)
      have notUp : last ≠ str ".." := by
        intro up
        cases reversed : words.reverse with
        | nil =>
            rw [reversed, up] at pushed
            exact absurd pushed (by decide)
        | cons top rest =>
            have normal : top ≠ str ".." := by
              intro same
              apply noUp
              rw [← same, ← List.mem_reverse, reversed]
              exact List.mem_cons_self
            rw [reversed] at pushed
            have length := congrArg List.length pushed
            simp only [cleanStep, if_neg (not_or.mpr ⟨plain.1, plain.2.1⟩), if_pos up, if_neg normal,
              List.length_cons] at length
            omega
      have pushedFalse : cleanStep false words.reverse last = last :: words.reverse := by
        simp only [cleanStep, if_neg (not_or.mpr ⟨plain.1, plain.2.1⟩), if_neg notUp]
      have whole := cleaned_push false (by rw [List.reverse_reverse]; exact frontFalse) pushedFalse plain
      rw [List.reverse_cons, List.reverse_reverse] at whole
      refine ⟨whole, ?_⟩
      rw [List.mem_append, List.mem_singleton, not_or]
      exact ⟨noUp, notUp.symm⟩

end Dir

section Shorter

variable (before : Bytes)

theorem trailing_words : cleanWords (before ++ [separator]) =
    ((before.splitOn separator).foldl (cleanStep (isAbs (before ++ [separator]))) []).reverse := by
  rw [cleanWords, List.splitOn_append_cons_self, List.splitOn_nil, List.foldl_append, List.foldl_cons,
    clean_step_empty, List.foldl_nil]

theorem trailing_words_weight : weight (cleanWords (before ++ [separator])) ≤ before.length + 1 := by
  rw [trailing_words]
  exact split_fold_weight _ before

theorem rooted_trailing_weight (rest : Bytes) :
    weight (cleanWords ((separator :: rest) ++ [separator])) ≤ rest.length + 1 := by
  rw [trailing_words, split_fold_rooted]
  exact split_fold_weight _ rest

theorem dir_shorter (path : Bytes) (notDot : dir path ≠ str ".") (notRoot : dir path ≠ [separator]) :
    (dir path).length < path.length := by
  rcases dir_part_cases path with none | ⟨before, part, shorter⟩
  · exact absurd (by rw [dir, none]; decide) notDot
  rw [dir, part] at notDot notRoot ⊢
  have weights := trailing_words_weight before
  cases rooted : isAbs (before ++ [separator]) with
  | false =>
      rw [clean, rooted, if_neg Bool.false_ne_true] at notDot ⊢
      by_cases none : cleanWords (before ++ [separator]) = []
      · exact absurd (if_pos none) notDot
      · rw [if_neg none, join_length]
        omega
  | true =>
      cases before with
      | nil => exact absurd (by decide) notRoot
      | cons byte rest =>
          have slash : byte = separator := by simpa [isAbs] using rooted
          subst slash
          have lighter := rooted_trailing_weight rest
          rw [clean, if_pos rooted, List.length_cons, join_length]
          simp only [List.length_cons] at shorter
          omega

end Shorter

section Plain

structure Plain (word : Bytes) : Prop where
  some : word ≠ []
  notDot : word ≠ str "."
  notUp : word ≠ str ".."
  clear : separator ∉ word

theorem clean_step_plain (rooted : Bool) (stack : List Bytes) (word : Bytes) (plain : Plain word) :
    cleanStep rooted stack word = word :: stack := by
  simp only [cleanStep, if_neg (not_or.mpr ⟨plain.some, plain.notDot⟩), if_neg plain.notUp]

theorem join_last (words : List Bytes) (last : Bytes) :
    join (words ++ [last]) = words.flatMap (· ++ [separator]) ++ last := by
  induction words with
  | nil => simp [join]
  | cons word rest ih =>
      rw [List.cons_append, List.flatMap_cons, List.append_assoc, ← ih]
      cases rest with
      | nil => simp [join]
      | cons next tail => simp [join, List.intercalate_cons_cons]

theorem clean_plain (word : Bytes) (plain : Plain word) : clean word = word := by
  have words : cleanWords word = [word] := by
    rw [cleanWords, List.splitOn_eq_singleton plain.clear, List.foldl_cons, clean_step_plain _ _ word plain]
    rfl
  have relative : isAbs word = false := by
    have form := join_relative [] plain.some plain.clear
    simpa [join] using form
  rw [clean, if_neg (by simp [relative]), words, if_neg (by simp)]
  simp [join]

theorem join_two_plain (dir : Bytes) : ∃ before, ∀ word, Plain word → joinTwo dir word = before ++ word := by
  cases dir with
  | nil =>
      refine ⟨[], fun word plain => ?_⟩
      rw [joinTwo, if_neg (by simp), if_pos plain.some, clean_plain word plain, List.nil_append]
  | cons byte rest =>
      let kept := (((byte :: rest).splitOn separator).foldl (cleanStep (isAbs (byte :: rest))) []).reverse
      refine ⟨(if isAbs (byte :: rest) then [separator] else []) ++ kept.flatMap (· ++ [separator]), fun word plain => ?_⟩
      have same : isAbs (byte :: rest ++ separator :: word) = isAbs (byte :: rest) := by simp [isAbs]
      have words : cleanWords (byte :: rest ++ separator :: word) = kept ++ [word] := by
        rw [cleanWords, same, List.splitOn_append_cons_self, List.splitOn_eq_singleton plain.clear, List.foldl_append,
          List.foldl_cons, clean_step_plain _ _ word plain, List.foldl_nil, List.reverse_cons]
      rw [joinTwo, if_pos (by simp), clean, same, words, join_last]
      cases isAbs (byte :: rest) with
      | true => rw [if_pos rfl, if_pos rfl, List.append_assoc, List.singleton_append]
      | false => rw [if_neg Bool.false_ne_true, if_neg Bool.false_ne_true, if_neg (by simp), List.nil_append]

theorem join_two_injective (dir a b : Bytes) (first : Plain a) (second : Plain b) (same : joinTwo dir a = joinTwo dir b) :
    a = b := by
  obtain ⟨before, joined⟩ := join_two_plain dir
  rw [joined a first, joined b second] at same
  exact List.append_cancel_left same

end Plain

theorem rel_root_join (words : List Bytes) (notRoot : words ≠ []) (cleaned : Cleaned true words) :
    relRoot (separator :: join words) = some (join words) := by
  have form := (clean_rooted_join words cleaned).1
  have text := cleaned_join_some words true notRoot cleaned
  rw [relRoot, form, if_neg (by simpa using text), if_pos (by simp [isAbs]), List.drop_one, List.tail_cons]

end GoLib.Filepath
