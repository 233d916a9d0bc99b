import URoot.Rush.Parse

set_option autoImplicit false

namespace URoot.Rush

open GoLib Fuel Act

section Items

-- The bytes next delivers one after the other, each with what is left behind it.
def items : Bytes → List (UInt8 × Bytes)
  | [] => []
  | [c] => if c = 92 then [] else [(c, [])]
  | c :: d :: rest => if c = 92 then (d, rest) :: items rest else (c, d :: rest) :: items (d :: rest)

theorem items_plain (c : UInt8) (rest : Bytes) (plain : c ≠ 92) : items (c :: rest) = (c, rest) :: items rest := by
  cases rest with
  | nil => simp only [items, if_neg plain]
  | cons d rest => rw [items, if_neg plain]

theorem items_escaped (d : UInt8) (rest : Bytes) : items (92 :: d :: rest) = (d, rest) :: items rest := by
  rw [items, if_pos rfl]

theorem items_cases (l : Bytes) :
    (items l = [] ∧ (l = [] ∨ l = [92])) ∨
      ∃ c rest, items l = (c, rest) :: items rest ∧ ((l = c :: rest ∧ c ≠ 92) ∨ l = 92 :: c :: rest) := by
  cases l with
  | nil => exact Or.inl ⟨rfl, Or.inl rfl⟩
  | cons c rest =>
      by_cases escape : c = 92
      · subst escape
        cases rest with
        | nil => exact Or.inl ⟨rfl, Or.inr rfl⟩
        | cons d rest => exact Or.inr ⟨d, rest, items_escaped d rest, Or.inr rfl⟩
      · exact Or.inr ⟨c, rest, items_plain c rest escape, Or.inl ⟨rfl, escape⟩⟩

theorem items_tail (l rest : Bytes) (c : UInt8) (more : List (UInt8 × Bytes)) (found : items l = (c, rest) :: more) :
    more = items rest ∧ rest.length < l.length := by
  rcases items_cases l with ⟨none, _⟩ | ⟨d, left, some, shape⟩
  · rw [none] at found
    cases found
  · rw [some] at found
    cases found
    refine ⟨rfl, ?_⟩
    rcases shape with ⟨rfl, _⟩ | rfl
    · exact Nat.lt_succ_self _
    · exact Nat.lt_succ_of_lt (Nat.lt_succ_self _)

theorem items_length (l : Bytes) : (items l).length ≤ l.length := by
  induction size : l.length using Nat.strong_induction_on generalizing l with
  | _ size ih =>
      rcases items_cases l with ⟨none, _⟩ | ⟨c, rest, some, _⟩
      · rw [none]
        exact Nat.zero_le _
      · obtain ⟨_, shorter⟩ := items_tail l rest c _ some
        have tail := ih rest.length (by omega) rest rfl
        rw [some, List.length_cons]
        omega

theorem next_item {r : Reader} {c : UInt8} {rest : Bytes} {more : List (UInt8 × Bytes)}
    (found : items r.rest = (c, rest) :: more) : next.run r = (.ok c, ⟨some c, rest⟩) := by
  obtain ⟨last, l⟩ := r
  rcases items_cases l with ⟨none, _⟩ | ⟨d, left, some, shape⟩
  · rw [none] at found
    cases found
  · rw [some] at found
    cases found
    rcases shape with ⟨rfl, plain⟩ | rfl
    · rw [next, run_bind_ok rfl, if_neg plain, run_pure]
    · rw [next, run_bind_ok rfl, if_pos rfl]
      rfl

theorem next_end (r : Reader) (none : items r.rest = []) : ∃ last, next.run r = (.ok 0, ⟨last, []⟩) := by
  obtain ⟨last, l⟩ := r
  rcases items_cases l with ⟨_, rfl | rfl⟩ | ⟨d, left, some, _⟩
  · exact ⟨last, rfl⟩
  · exact ⟨some 92, rfl⟩
  · rw [some] at none
    cases none

end Items

section Words

def word : List (UInt8 × Bytes) → Bytes × Bytes
  | [] => ([], [])
  | (c, rest) :: more =>
      if c = 0 then ([], rest)
      else if c ∈ punct then ([], c :: rest)
      else (utf8 c ++ (word more).1, (word more).2)

def quote : List (UInt8 × Bytes) → Option (Bytes × Bytes)
  | [] => none
  | (c, rest) :: more =>
      if c = 39 then some ([], rest)
      else
        match quote more with
        | some (s, left) => some (utf8 c ++ s, left)
        | none => none

def Current (r : Reader) (c : UInt8) : List (UInt8 × Bytes) → Prop
  | [] => c = 0 ∧ r.rest = []
  | (d, rest) :: more => d = c ∧ rest = r.rest ∧ more = items r.rest ∧ r.last = some c

theorem next_current (r : Reader) : ∃ c mid, next.run r = (.ok c, mid) ∧ Current mid c (items r.rest) := by
  cases found : items r.rest with
  | nil =>
      obtain ⟨last, read⟩ := next_end r found
      exact ⟨0, _, read, rfl, rfl⟩
  | cons item more =>
      obtain ⟨c, rest⟩ := item
      exact ⟨c, _, next_item found, rfl, rfl, (items_tail _ _ _ _ found).1, rfl⟩

theorem run_pushback (r : Reader) (c : UInt8) (last : r.last = some c) : pushback.run r = (.ok (), ⟨none, c :: r.rest⟩) := by
  simp only [pushback, last]

theorem gather_word (list : List (UInt8 × Bytes)) (n : Nat) (r : Reader) (c : UInt8) (arg : Bytes)
    (current : Current r c list) (enough : list.length < n) :
    ∃ last, (gather n c arg).run r = (.ok (arg ++ (word list).1), ⟨last, (word list).2⟩) := by
  induction list generalizing n r c arg with
  | nil =>
      obtain ⟨rfl, rest⟩ := current
      cases n with
      | zero => exact absurd enough (Nat.not_lt_zero _)
      | succ n =>
          refine ⟨r.last, ?_⟩
          rw [gather, if_pos rfl, run_pure, word, List.append_nil, ← rest]
  | cons item more ih =>
      obtain ⟨d, rest⟩ := item
      obtain ⟨rfl, rfl, behind, last⟩ := current
      cases n with
      | zero => exact absurd enough (Nat.not_lt_zero _)
      | succ n =>
          rw [gather, word]
          by_cases zero : d = 0
          · rw [if_pos zero, if_pos zero, run_pure, List.append_nil]
            exact ⟨r.last, rfl⟩
          · rw [if_neg zero, if_neg zero]
            by_cases stop : d ∈ punct
            · refine ⟨none, ?_⟩
              rw [if_pos stop, if_pos stop, run_bind_ok (run_pushback r d last), run_pure, List.append_nil]
            · obtain ⟨c', mid, read, current⟩ := next_current r
              rw [← behind] at current
              obtain ⟨last', done⟩ := ih n mid c' (arg ++ utf8 d) current (Nat.lt_of_succ_lt_succ enough)
              refine ⟨last', ?_⟩
              rw [if_neg stop, if_neg stop, run_bind_ok read, done, List.append_assoc]

theorem quoted_closed (list : List (UInt8 × Bytes)) (n : Nat) (r : Reader) (arg s left : Bytes) (here : items r.rest = list)
    (closed : quote list = some (s, left)) (enough : list.length < n) :
    (quoted n arg).run r = (.ok (arg ++ s), ⟨some 39, left⟩) := by
  induction list generalizing n r arg s with
  | nil => cases closed
  | cons item more ih =>
      obtain ⟨c, rest⟩ := item
      cases n with
      | zero => exact absurd enough (Nat.not_lt_zero _)
      | succ n =>
          rw [quoted, run_bind_ok (next_item here)]
          rw [quote] at closed
          by_cases stop : c = 39
          · rw [if_pos stop] at closed ⊢
            cases closed
            rw [run_pure, List.append_nil, stop]
          · rw [if_neg stop] at closed ⊢
            cases later : quote more with
            | none =>
                rw [later] at closed
                cases closed
            | some pair =>
                obtain ⟨s', left'⟩ := pair
                rw [later] at closed
                cases closed
                rw [ih n ⟨some c, rest⟩ (arg ++ utf8 c) s' (items_tail _ _ _ _ here).1.symm later
                  (Nat.lt_of_succ_lt_succ enough), List.append_assoc]

-- Without a closing quote the loop reads the 0 of the end for ever.
theorem quoted_unclosed (n : Nat) (r : Reader) (arg : Bytes) (unclosed : quote (items r.rest) = none) :
    ((quoted n arg).run r).1 = .error .fuel := by
  induction n generalizing r arg with
  | zero => rfl
  | succ n ih =>
      rw [quoted]
      cases found : items r.rest with
      | nil =>
          obtain ⟨last, read⟩ := next_end r found
          rw [run_bind_ok read, if_neg (by decide)]
          exact ih ⟨last, []⟩ _ rfl
      | cons item more =>
          obtain ⟨c, rest⟩ := item
          rw [found, quote] at unclosed
          by_cases stop : c = 39
          · rw [if_pos stop] at unclosed
            cases unclosed
          · rw [if_neg stop] at unclosed
            rw [run_bind_ok (next_item found), if_neg stop]
            apply ih ⟨some c, rest⟩
            rw [← (items_tail _ _ _ _ found).1]
            cases later : quote more with
            | none => rfl
            | some pair =>
                rw [later] at unclosed
                cases unclosed

end Words

section Scan

def scanLink (c : UInt8) (rest : Bytes) : Token × Bytes :=
  match rest with
  | [] => (if c = 38 then ⟨.BG, TokType.EOL.text⟩ else ⟨.LINK, utf8 c⟩, [c])
  | d :: left =>
      if d = c then (⟨.LINK, utf8 c ++ utf8 c⟩, left)
      else (if c = 38 then ⟨.BG, if d = 0 then TokType.EOL.text else TokType.BG.text⟩ else ⟨.LINK, utf8 c⟩, d :: left)

def scan (l : Bytes) : Option (Token × Bytes) :=
  match items l with
  | [] => some (⟨.EOF, []⟩, [])
  | (c, rest) :: more =>
      if c = 0 then some (⟨.EOF, []⟩, rest)
      else if c = 62 then some (⟨.FD, str "1"⟩, rest)
      else if c = 60 then some (⟨.FD, str "0"⟩, rest)
      else if c = 36 then some (⟨.ENV, (word more).1⟩, (word more).2)
      else if c = 39 then
        match quote more with
        | some (s, left) => some (⟨.ARG, s⟩, left)
        | none => none
      else if c = 32 ∨ c = 9 then some (⟨.white, utf8 c⟩, rest)
      else if c = 10 then some (⟨.EOL, []⟩, rest)
      else if c = 124 ∨ c = 38 then some (scanLink c rest)
      else some (⟨.ARG, (word ((c, rest) :: more)).1⟩, (word ((c, rest) :: more)).2)

theorem run_link (c : UInt8) (rest : Bytes) (nonzero : c ≠ 0) :
    ∃ last, (link c).run ⟨some c, rest⟩ = (.ok (scanLink c rest).1, ⟨last, (scanLink c rest).2⟩) := by
  cases rest with
  | nil =>
      refine ⟨none, ?_⟩
      rw [link, run_bind_ok rfl, if_neg (Ne.symm nonzero),
        run_bind_ok (run_pushback _ c rfl), scanLink]
      split <;> rfl
  | cons d left =>
      rw [link, run_bind_ok rfl, scanLink]
      by_cases same : d = c
      · rw [if_pos same, if_pos same]
        exact ⟨some d, rfl⟩
      · refine ⟨none, ?_⟩
        rw [if_neg same, if_neg same, run_bind_ok (run_pushback _ d rfl)]
        split <;> rfl

theorem mem_punct (c : UInt8) :
    c ∈ punct ↔ c = 60 ∨ c = 62 ∨ c = 124 ∨ c = 38 ∨ c = 36 ∨ c = 32 ∨ c = 9 ∨ c = 10 := by
  have bytes : punct = [60, 62, 124, 38, 36, 32, 9, 10] := by decide
  rw [bytes]
  simp only [List.mem_cons, List.not_mem_nil, or_false]

inductive Lead (rest : Bytes) (more : List (UInt8 × Bytes)) : UInt8 → Option (Token × Bytes) → Prop
  | nul : Lead rest more 0 (some (⟨.EOF, []⟩, rest))
  | greater : Lead rest more 62 (some (⟨.FD, str "1"⟩, rest))
  | less : Lead rest more 60 (some (⟨.FD, str "0"⟩, rest))
  | dollar : Lead rest more 36 (some (⟨.ENV, (word more).1⟩, (word more).2))
  | closed (s left : Bytes) (closed : quote more = some (s, left)) : Lead rest more 39 (some (⟨.ARG, s⟩, left))
  | unclosed (unclosed : quote more = none) : Lead rest more 39 none
  | white (c : UInt8) (blank : c = 32 ∨ c = 9) : Lead rest more c (some (⟨.white, utf8 c⟩, rest))
  | newline : Lead rest more 10 (some (⟨.EOL, []⟩, rest))
  | link (c : UInt8) (bar : c = 124 ∨ c = 38) : Lead rest more c (some (scanLink c rest))
  | plain (c : UInt8) (nonzero : c ≠ 0) (plain : c ∉ punct) (unquoted : c ≠ 39) :
      Lead rest more c (some (⟨.ARG, (word ((c, rest) :: more)).1⟩, (word ((c, rest) :: more)).2))

theorem scan_plain {l rest : Bytes} {c : UInt8} {more : List (UInt8 × Bytes)} (here : items l = (c, rest) :: more)
    (nonzero : c ≠ 0) (plain : c ∉ punct) (unquoted : c ≠ 39) :
    scan l = some (⟨.ARG, (word ((c, rest) :: more)).1⟩, (word ((c, rest) :: more)).2) := by
  rw [mem_punct] at plain
  push Not at plain
  obtain ⟨less, greater, bar, ampersand, dollar, space, tab, newline⟩ := plain
  rw [scan, here]
  simp only [if_neg nonzero, if_neg greater, if_neg less, if_neg dollar, if_neg unquoted, if_neg newline]
  rw [if_neg (not_or.mpr ⟨space, tab⟩), if_neg (not_or.mpr ⟨bar, ampersand⟩)]

theorem scan_lead {l rest : Bytes} {c : UInt8} {more : List (UInt8 × Bytes)} (here : items l = (c, rest) :: more) :
    Lead rest more c (scan l) := by
  by_cases punctuation : c ∈ punct
  · rw [scan, here]
    rw [mem_punct] at punctuation
    rcases punctuation with rfl | rfl | rfl | rfl | rfl | rfl | rfl | rfl
    · exact .less
    · exact .greater
    · exact .link 124 (Or.inl rfl)
    · exact .link 38 (Or.inr rfl)
    · exact .dollar
    · exact .white 32 (Or.inl rfl)
    · exact .white 9 (Or.inr rfl)
    · exact .newline
  by_cases zero : c = 0
  · subst zero
    rw [scan, here]
    exact .nul
  by_cases mark : c = 39
  · subst mark
    cases found : quote more with
    | none =>
        have value : scan l = none := by simp only [scan, here, found]; rfl
        rw [value]
        exact .unclosed found
    | some pair =>
        have value : scan l = some (⟨.ARG, pair.1⟩, pair.2) := by simp only [scan, here, found]; rfl
        rw [value]
        exact .closed pair.1 pair.2 found
  · rw [scan_plain here zero punctuation mark]
    exact .plain c zero punctuation mark

theorem tok_scan {n : Nat} {r : Reader} {t : Token} {left : Bytes} (found : scan r.rest = some (t, left))
    (enough : r.rest.length < n) : ∃ last, (tok n).run r = (.ok t, ⟨last, left⟩) := by
  have room := items_length r.rest
  cases list : items r.rest with
  | nil =>
      rw [scan, list] at found
      cases found
      obtain ⟨last, read⟩ := next_end r list
      refine ⟨last, ?_⟩
      rw [tok, run_bind_ok read, if_pos rfl, run_pure]
  | cons item more =>
      obtain ⟨c, rest⟩ := item
      obtain ⟨behind, _⟩ := items_tail _ _ _ _ list
      rw [list, List.length_cons] at room
      rw [tok, run_bind_ok (next_item list)]
      have lead := scan_lead list
      rw [found] at lead
      generalize out : some (t, left) = token at lead
      cases lead with
      | nul | greater | less | newline =>
          cases out
          exact ⟨some _, rfl⟩
      | dollar =>
          cases out
          obtain ⟨c', mid, read, current⟩ := next_current ⟨some 36, rest⟩
          rw [← behind] at current
          obtain ⟨last, gathered⟩ := gather_word more n mid c' [] current (by omega)
          rw [if_neg (by decide), if_neg (by decide), if_neg (by decide), if_pos rfl, run_bind_ok read,
            run_bind_ok gathered]
          exact ⟨last, rfl⟩
      | closed s left closed =>
          cases out
          have taken := quoted_closed more n ⟨some 39, rest⟩ [] s left behind.symm closed (by omega)
          rw [if_neg (by decide), if_neg (by decide), if_neg (by decide), if_neg (by decide), if_pos rfl,
            run_bind_ok taken]
          exact ⟨some 39, rfl⟩
      | unclosed => cases out
      | white c blank =>
          cases out
          rcases blank with rfl | rfl
          · exact ⟨some 32, rfl⟩
          · exact ⟨some 9, rfl⟩
      | link c bar =>
          obtain ⟨last, linked⟩ := run_link c rest (by rcases bar with rfl | rfl <;> decide)
          rw [← Option.some.inj out] at linked
          refine ⟨last, ?_⟩
          rcases bar with rfl | rfl
          · exact linked
          · exact linked
      | plain c nonzero plain unquoted =>
          cases out
          rw [mem_punct] at plain
          push Not at plain
          obtain ⟨less, greater, bar, ampersand, dollar, space, tab, newline⟩ := plain
          obtain ⟨last, gathered⟩ := gather_word ((c, rest) :: more) n ⟨some c, rest⟩ c [] ⟨rfl, rfl, behind, rfl⟩
            (by rw [List.length_cons]; omega)
          rw [if_neg nonzero, if_neg greater, if_neg less, if_neg dollar, if_neg unquoted,
            if_neg (not_or.mpr ⟨space, tab⟩), if_neg newline, if_neg (not_or.mpr ⟨bar, ampersand⟩),
            run_bind_ok gathered]
          exact ⟨last, rfl⟩

theorem scan_none (l : Bytes) (unclosed : scan l = none) : ∃ rest more, items l = (39, rest) :: more ∧ quote more = none := by
  rcases items_cases l with ⟨none, _⟩ | ⟨c, rest, here, _⟩
  · rw [scan, none] at unclosed
    cases unclosed
  · have lead := scan_lead here
    rw [unclosed] at lead
    cases lead with
    | unclosed open_ => exact ⟨rest, _, here, open_⟩

inductive Scanned : Bytes → Token → Bytes → Prop
  | ended (l : Bytes) (none : items l = []) : Scanned l ⟨.EOF, []⟩ []
  | nul (l rest : Bytes) (here : items l = (0, rest) :: items rest) : Scanned l ⟨.EOF, []⟩ rest
  | redirect (l rest s : Bytes) (c : UInt8) (here : items l = (c, rest) :: items rest) (number : s = str "0" ∨ s = str "1") :
      Scanned l ⟨.FD, s⟩ rest
  | env (l rest : Bytes) (here : items l = (36, rest) :: items rest) :
      Scanned l ⟨.ENV, (word (items rest)).1⟩ (word (items rest)).2
  | quoted (l rest s left : Bytes) (here : items l = (39, rest) :: items rest) (closed : quote (items rest) = some (s, left)) :
      Scanned l ⟨.ARG, s⟩ left
  | white (l rest : Bytes) (c : UInt8) (here : items l = (c, rest) :: items rest) (blank : c = 32 ∨ c = 9) :
      Scanned l ⟨.white, utf8 c⟩ rest
  | newline (l rest : Bytes) (here : items l = (10, rest) :: items rest) : Scanned l ⟨.EOL, []⟩ rest
  | link (l rest : Bytes) (c : UInt8) (here : items l = (c, rest) :: items rest) (bar : c = 124 ∨ c = 38) :
      Scanned l (scanLink c rest).1 (scanLink c rest).2
  | word (l rest : Bytes) (c : UInt8) (here : items l = (c, rest) :: items rest) (nonzero : c ≠ 0) (plain : c ∉ punct)
      (unquoted : c ≠ 39) :
      Scanned l ⟨.ARG, (word ((c, rest) :: items rest)).1⟩ (word ((c, rest) :: items rest)).2

theorem scan_scanned {l left : Bytes} {t : Token} (found : scan l = some (t, left)) : Scanned l t left := by
  rcases items_cases l with ⟨none, _⟩ | ⟨c, rest, here, _⟩
  · rw [scan, none] at found
    cases found
    exact .ended l none
  · have lead := scan_lead here
    rw [found] at lead
    generalize out : some (t, left) = token at lead
    cases lead with
    | unclosed => cases out
    | link c bar =>
        have linked := Scanned.link l rest c here bar
        rwa [← Option.some.inj out] at linked
    | nul =>
        cases out
        exact .nul l left here
    | greater =>
        cases out
        exact .redirect l left _ 62 here (Or.inr rfl)
    | less =>
        cases out
        exact .redirect l left _ 60 here (Or.inl rfl)
    | dollar =>
        cases out
        exact .env l rest here
    | closed s left closed =>
        cases out
        exact .quoted l rest s left here closed
    | white c blank =>
        cases out
        exact .white l left c here blank
    | newline =>
        cases out
        exact .newline l left here
    | plain c nonzero plain unquoted =>
        cases out
        exact .word l rest c here nonzero plain unquoted

theorem utf8_bytes (c b : UInt8) (there : b ∈ utf8 c) : b = c ∨ 0x80 ≤ b := by
  rw [utf8] at there
  split at there
  · exact Or.inl (List.mem_singleton.mp there)
  · right
    simp only [List.mem_cons, List.not_mem_nil, or_false] at there
    rcases there with rfl | rfl
    · rw [UInt8.le_iff_toNat_le, UInt8.toNat_or]
      exact Nat.le_trans (by decide) Nat.left_le_or
    · rw [UInt8.le_iff_toNat_le, UInt8.toNat_or]
      exact Nat.left_le_or

theorem high_not_punct (b : UInt8) (high : 0x80 ≤ b) : b ∉ punct := by
  rw [mem_punct]
  intro member
  rcases member with rfl | rfl | rfl | rfl | rfl | rfl | rfl | rfl <;> exact absurd high (by decide)

theorem utf8_plain (c b : UInt8) (plain : c ∉ punct) (there : b ∈ utf8 c) : b ∉ punct := by
  rcases utf8_bytes c b there with rfl | high
  · exact plain
  · exact high_not_punct b high

theorem word_plain (list : List (UInt8 × Bytes)) (b : UInt8) (there : b ∈ (word list).1) : b ∉ punct := by
  induction list with
  | nil => cases there
  | cons item more ih =>
      obtain ⟨c, rest⟩ := item
      rw [word] at there
      split at there
      · cases there
      · split at there
        · cases there
        · rename_i plain
          rcases List.mem_append.mp there with first | later
          · exact utf8_plain c b plain first
          · exact ih later

theorem word_length (l : Bytes) : (word (items l)).2.length ≤ l.length := by
  induction size : l.length using Nat.strong_induction_on generalizing l with
  | _ size ih =>
      rcases items_cases l with ⟨none, _⟩ | ⟨c, rest, here, _⟩
      · rw [none]
        exact Nat.zero_le _
      · obtain ⟨_, shorter⟩ := items_tail l rest c _ here
        have tail := ih rest.length (by omega) rest rfl
        rw [here, word]
        split
        · exact Nat.le_trans (Nat.le_of_lt shorter) (Nat.le_of_eq size)
        · split
          · rw [List.length_cons]
            omega
          · exact Nat.le_trans tail (by omega)

theorem quote_length (l s left : Bytes) (closed : quote (items l) = some (s, left)) : left.length < l.length := by
  induction size : l.length using Nat.strong_induction_on generalizing l s with
  | _ size ih =>
      rcases items_cases l with ⟨none, _⟩ | ⟨c, rest, here, _⟩
      · rw [none] at closed
        cases closed
      · obtain ⟨_, shorter⟩ := items_tail l rest c _ here
        rw [here, quote] at closed
        split at closed
        · cases closed
          omega
        · split at closed
          · rename_i s' left' later
            cases closed
            exact Nat.lt_trans (ih rest.length (by omega) rest s' later rfl) (by omega)
          · cases closed

theorem quote_none_iff (list : List (UInt8 × Bytes)) : quote list = none ↔ ∀ item ∈ list, item.1 ≠ 39 := by
  induction list with
  | nil => exact ⟨fun _ _ there => absurd there List.not_mem_nil, fun _ => rfl⟩
  | cons item more ih =>
      obtain ⟨c, rest⟩ := item
      rw [quote, List.forall_mem_cons, ← ih]
      by_cases mark : c = 39
      · rw [if_pos mark]
        exact ⟨fun closed => (nomatch closed), fun both => absurd mark both.1⟩
      · rw [if_neg mark]
        cases quote more with
        | none => exact ⟨fun _ => ⟨mark, rfl⟩, fun _ => rfl⟩
        | some pair => exact ⟨fun closed => (nomatch closed), fun both => (nomatch both.2)⟩

theorem scan_link_type (c : UInt8) (rest : Bytes) : (scanLink c rest).1.type = .LINK ∨ (scanLink c rest).1.type = .BG := by
  cases rest with
  | nil =>
      simp only [scanLink]
      split
      · exact Or.inr rfl
      · exact Or.inl rfl
  | cons d left =>
      simp only [scanLink]
      split
      · exact Or.inl rfl
      · split
        · exact Or.inr rfl
        · exact Or.inl rfl

theorem scan_number (l left : Bytes) (t : Token) (found : scan l = some (t, left)) (type : t.type = .FD) :
    t.s = str "0" ∨ t.s = str "1" := by
  cases scan_scanned found with
  | redirect rest s c here number => exact number
  | link rest c here bar =>
      rcases scan_link_type c rest with linked | linked
      · rw [linked] at type
        cases type
      · rw [linked] at type
        cases type
  | ended | nul | env | quoted | white | newline | word => cases type

theorem tok_unclosed (n : Nat) (r : Reader) (unclosed : scan r.rest = none) : ((tok n).run r).1 = .error .fuel := by
  obtain ⟨rest, more, list, open_⟩ := scan_none r.rest unclosed
  obtain ⟨behind, _⟩ := items_tail _ _ _ _ list
  have stuck := quoted_unclosed n ⟨some 39, rest⟩ [] (by rw [← behind]; exact open_)
  rw [tok, run_bind_ok (next_item list), if_neg (by decide), if_neg (by decide),
    if_neg (by decide), if_neg (by decide), if_pos rfl]
  rcases ran : (quoted n []).run ⟨some 39, rest⟩ with ⟨result, last⟩
  rw [ran] at stuck
  rw [run_bind_error (by rw [ran]; exact congrArg (·, last) stuck)]

end Scan

section Tok

theorem gather_approx (n : Nat) (c : UInt8) (arg : Bytes) : Act.Approx (gather n c arg) (gather (n + 1) c arg) := by
  induction n generalizing c arg with
  | zero => exact approx_fuel _
  | succ n ih =>
      rw [gather, gather]
      apply approx_ite _ _ _ _ _ (approx_refl _)
      apply approx_ite _ _ _ _ _ (approx_refl _)
      exact approx_bind (approx_refl _) (fun c' => ih c' _)

theorem quoted_approx (n : Nat) (arg : Bytes) : Act.Approx (quoted n arg) (quoted (n + 1) arg) := by
  induction n generalizing arg with
  | zero => exact approx_fuel _
  | succ n ih =>
      rw [quoted, quoted]
      apply approx_bind (approx_refl _)
      intro nc
      exact approx_ite _ _ _ _ _ (approx_refl _) (ih _)

theorem tok_mono : Mono tok := by
  intro n
  rw [tok, tok]
  apply approx_bind (approx_refl _)
  intro c
  iterate 3 apply approx_ite _ _ _ _ _ (approx_refl _)
  apply approx_ite
  · apply approx_bind (approx_refl _)
    intro c'
    exact approx_bind (gather_approx n c' []) (fun _ => approx_refl _)
  apply approx_ite
  · exact approx_bind (quoted_approx n []) (fun _ => approx_refl _)
  iterate 3 apply approx_ite _ _ _ _ _ (approx_refl _)
  exact approx_bind (gather_approx n c []) (fun _ => approx_refl _)

theorem tok_ends (r : Reader) (t : Token) (left : Bytes) (found : scan r.rest = some (t, left)) :
    ∃ last, Ends tok r (.ok t) ⟨last, left⟩ := by
  obtain ⟨last, done⟩ := tok_scan found (Nat.lt_succ_self _)
  exact ⟨last, ok_ended t, _, done⟩

theorem tok_ends_inv (r last : Reader) (out : Except (Stop Bytes) Token) (ended : Ends tok r out last) :
    ∃ t, out = .ok t ∧ scan r.rest = some (t, last.rest) := by
  cases found : scan r.rest with
  | none =>
      obtain ⟨stopped, n, done⟩ := ended
      have stuck := tok_unclosed n r found
      rw [done] at stuck
      exact absurd stuck stopped
  | some pair =>
      obtain ⟨t, left⟩ := pair
      obtain ⟨mid, here⟩ := tok_ends r t left found
      obtain ⟨rfl, rfl⟩ := ends_unique tok tok_mono r _ _ _ _ ended here
      exact ⟨t, rfl, rfl⟩

end Tok

end URoot.Rush
