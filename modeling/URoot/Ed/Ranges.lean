import URoot.Ed.Unsaved
import URoot.Lib.Digits

set_option autoImplicit false

namespace URoot.Ed

open GoLib Lines Digits Act

section Parsing

def IsDigit (c : UInt8) : Prop := 48 ≤ c ∧ c ≤ 57

def rangeLine (a b : Nat) (c : Bytes) : Bytes := numeral 10 a ++ 44 :: (numeral 10 b ++ c)

theorem numeral_decimal (n : Nat) (c : UInt8) (there : c ∈ numeral 10 n) :
    48 ≤ c ∧ c ≤ 57 := by
  have digit := decimal_digit c (numeral_digits 10 (by decide) (by decide) n c there)
  exact ⟨digit.1, digit.2.1⟩

theorem digits_numeral (n : Nat) (rest : Bytes) (stop : ∀ c, rest.head? = some c → ¬ IsDigit c) :
    digits (numeral 10 n ++ rest) = numeral 10 n := by
  have inside : ∀ c ∈ numeral 10 n, decide (48 ≤ c ∧ c ≤ 57) = true := by
    intro c there
    exact decide_eq_true (numeral_decimal n c there)
  have ended : digits rest = [] := by
    cases rest with
    | nil => rfl
    | cons c rest => exact List.takeWhile_cons_of_neg (by simpa [IsDigit] using stop c rfl)
  rw [digits, List.takeWhile_append_of_pos inside]
  rw [digits] at ended
  rw [ended, List.append_nil]

theorem atoi_numeral (n : Nat) (small : n < 2 ^ 63) : atoi (numeral 10 n) = .ok (Int64.ofNat n) := by
  have number := Strconv.atoi_decimal (numeral 10 n) (numeral_decimal n) (numeral_some 10 n)
  rw [value_numeral 10 (by decide) (by decide) n, if_pos small] at number
  simp only [atoi, number]
  rfl

theorem numeral_start (n : Nat) (rest : Bytes) : ∃ c, (numeral 10 n ++ rest).head? = some c ∧ c ≠ 46 ∧ c ≠ 36 ∧
    startsearch (numeral 10 n ++ rest) = [] := by
  cases text : numeral 10 n with
  | nil => exact absurd text (numeral_some 10 n)
  | cons c more =>
      have digit := numeral_decimal n c (by rw [text]; exact List.mem_cons_self)
      have plain : ∀ other : UInt8, other < 48 → c ≠ other := by
        rintro _ less rfl
        exact absurd digit.1 (UInt8.not_le.mpr less)
      refine ⟨c, rfl, plain 46 (by decide), plain 36 (by decide), ?_⟩
      rw [List.cons_append, startsearch]
      exact fun _ same => plain 47 (by decide) (List.cons.inj same).1

variable (f : File) (n : Nat) (rest : Bytes) (small : n < 2 ^ 63) (stop : ∀ c, rest.head? = some c → ¬ IsDigit c)

include small stop

theorem start_address_numeral :
    startAddress f (numeral 10 n ++ rest) = .ok (Int64.ofNat n, f.move (Int64.ofNat n), rest) := by
  obtain ⟨c, head, dot, dollar, search⟩ := numeral_start n rest
  rw [startAddress, head, if_neg (by simpa using dot), if_neg (by simpa using dollar), search, if_neg (by simp),
    digits_numeral n rest stop, if_pos (numeral_some 10 n), atoi_numeral n small, List.drop_left]
  rfl

theorem end_address_numeral : endAddress f (44 :: (numeral 10 n ++ rest)) = .ok (Int64.ofNat n, rest) := by
  obtain ⟨c, head, dot, dollar, search⟩ := numeral_start n rest
  have some_ : numeral 10 n ++ rest ≠ [] := fun empty => numeral_some 10 n (List.append_eq_nil_iff.mp empty).1
  rw [endAddress, List.head?_cons, if_pos rfl, List.tail_cons]
  dsimp only
  rw [if_neg some_, head, if_neg (by simpa using dot), if_neg (by simpa using dollar), search, if_neg (by simp),
    digits_numeral n rest stop, if_pos (numeral_some 10 n), atoi_numeral n small, List.drop_left]
  rfl

omit small stop

theorem parse_range (a b : Nat) (c : Bytes) (smallA : a < 2 ^ 63) (smallB : b < 2 ^ 63)
    (stop : ∀ first, c.head? = some first → ¬ IsDigit first) :
    parseLine f (rangeLine a b c) = (f.move (Int64.ofNat a), .ok (c, Int64.ofNat a, Int64.ofNat b + 1)) := by
  have comma : ∀ first, (44 :: (numeral 10 b ++ c)).head? = some first → ¬ IsDigit first := by
    intro first same
    cases same
    exact fun digit => absurd digit.1 (by decide)
  rw [parseLine, rangeLine, start_address_numeral f a _ smallA comma]
  dsimp only
  rw [end_address_numeral _ b c smallB stop]

theorem run_range (host : Host) (a b : Nat) (c : Bytes) (smallA : a < 2 ^ 63) (smallB : b < 2 ^ 63)
    (stop : ∀ first, c.head? = some first → ¬ IsDigit first) :
    (doCommand host (rangeLine a b c)).run f =
      (command host c (Int64.ofNat a) (Int64.ofNat b + 1)).run (f.move (Int64.ofNat a)) := by
  have some_ : rangeLine a b c ≠ [] := fun empty => numeral_some 10 a (List.append_eq_nil_iff.mp empty).1
  rw [run_do_command host f _ some_, parse_range f a b c smallA smallB stop]

end Parsing

section Selection

def File.text (f : File) : List Bytes := pieces newline f.bytes

variable (f : File)

theorem text_flatten : f.text.flatten = f.bytes := pieces_flatten newline f.bytes

theorem text_length (indexed : f.Indexed) : f.lines.length = f.text.length := by
  rw [indexed, File.text, pieces_starts_length]

theorem take_lines (k : Nat) : f.bytes.take (f.text.take k).flatten.length = (f.text.take k).flatten := by
  rw [← text_flatten]
  nth_rewrite 2 [← List.take_append_drop k f.text]
  rw [List.flatten_append, List.take_left]

theorem drop_lines (k : Nat) : f.bytes.drop (f.text.take k).flatten.length = (f.text.drop k).flatten := by
  rw [← text_flatten]
  nth_rewrite 2 [← List.take_append_drop k f.text]
  rw [List.flatten_append, List.drop_left]

theorem offset_line (indexed : f.Indexed) (line : Int64) (positive : 0 < line.toInt) (inside : line.toInt ≤ f.text.length) :
    f.offset line = (f.text.take (line.toInt.toNat - 1)).flatten.length := by
  have start := offsets_get 0 (line.toInt.toNat - 1) f.text (by omega)
  rw [File.text, offsets_pieces, ← indexed, ← File.text] at start
  rw [File.offset, start, Option.getD_some, Nat.zero_add]

-- How far a range up to line b goes: SliceX takes the rest of the text as soon
-- as the line behind it is the last one.
def reach (n b : Nat) : Nat := if b + 1 < n then b else n

theorem line_number (k : Nat) (small : k < 2 ^ 63) : (Int64.ofNat k).toInt = k := Int64.toInt_ofNat_of_lt small

theorem line_after (k : Nat) (small : k + 1 < 2 ^ 63) : (Int64.ofNat k + 1).toInt = k + 1 := by
  have number := line_number k (by omega)
  have below : Int64.ofNat k ≠ Int64.maxValue := by
    intro same
    rw [same, Int64.toInt_maxValue] at number
    omega
  rw [line_succ _ below, number]

structure Ranged (a b start stop : Nat) : Prop where
  found : f.sliceX (Int64.ofNat a) (Int64.ofNat b + 1) = some (start, stop)
  sliced : f.Sliced start stop
  front : f.bytes.take start = (f.text.take (a - 1)).flatten
  back : f.bytes.drop stop = (f.text.drop (reach f.text.length b)).flatten

theorem range_sliced (indexed : f.Indexed) (a b : Nat) (first : 1 ≤ a) (order : a ≤ b) (last : b ≤ f.text.length)
    (small : b + 1 < 2 ^ 63) : ∃ start stop, Ranged f a b start stop := by
  have count := text_length f indexed
  have numberA := line_number a (by omega)
  have numberB := line_after b small
  have placeA := offset_line f indexed (Int64.ofNat a) (by omega) (by omega)
  rw [numberA, Int.toNat_natCast] at placeA
  have natural : ¬ f.Underflows (Int64.ofNat a) (Int64.ofNat b + 1) := by
    intro underflows
    have negative : (Int64.ofNat b + 1).toInt ≤ (0 : Int64).toInt := Int64.le_iff_toInt_le.mp underflows.2.1
    have zero : (0 : Int64).toInt = 0 := rfl
    omega
  obtain ⟨start, stop, found, sliced⟩ := slice_x_returns f indexed _ _ natural
  by_cases inner : b + 1 < f.text.length
  · have placeB := offset_line f indexed (Int64.ofNat b + 1) (by omega) (by omega)
    rw [numberB, show ((b : Int) + 1).toNat - 1 = b by omega] at placeB
    have range := slice_x_range f indexed _ _ (show (Int64.ofNat a).toInt < (Int64.ofNat b + 1).toInt by omega)
      (by omega) (by omega)
    rw [found, placeA, placeB] at range
    cases range
    exact ⟨_, _, found, sliced, take_lines f _, by rw [reach, if_pos inner]; exact drop_lines f b⟩
  · have rest := slice_x_rest f indexed _ _ (show (Int64.ofNat a).toInt ≤ f.lines.length by omega)
      (show (Int64.ofNat a).toInt < (Int64.ofNat b + 1).toInt by omega) (by omega)
    rw [found, placeA] at rest
    cases rest
    refine ⟨_, _, found, sliced, take_lines f _, ?_⟩
    rw [reach, if_neg inner, List.drop_length, List.drop_length, List.flatten_nil]

theorem lines_split (k m : Nat) (le : k ≤ m) : f.text = f.text.take k ++ (f.text.take m).drop k ++ f.text.drop m := by
  rw [List.drop_take, take_drop_take f.text k m le, List.take_append_drop]

theorem ranged_text (a b start stop : Nat) (ranged : Ranged f a b start stop) (order : a ≤ b) (last : b ≤ f.text.length) :
    (f.bytes.drop start).take (stop - start) = ((f.text.take (reach f.text.length b)).drop (a - 1)).flatten := by
  have le : a - 1 ≤ reach f.text.length b := by
    rw [reach]
    split <;> omega
  have lines := lines_split f (a - 1) (reach f.text.length b) le
  have bytes : f.bytes = f.bytes.take start ++ (f.bytes.drop start).take (stop - start) ++ f.bytes.drop stop := by
    rw [take_drop_take f.bytes start stop ranged.sliced.order, List.take_append_drop]
  rw [ranged.front, ranged.back, ← text_flatten] at bytes
  nth_rewrite 1 [lines] at bytes
  rw [List.flatten_append, List.flatten_append, List.append_cancel_right_eq, List.append_cancel_left_eq] at bytes
  rw [← text_flatten]
  exact bytes.symm

end Selection

section Commands

variable (host : Host) (f : File)

theorem run_delete {a b : Int64} {start stop : Nat} {data : Bytes} (held : f.data = some data)
    (found : f.sliceX a b = some (start, stop)) (sliced : f.Sliced start stop) :
    ∃ next, (command host (str "d") a b).run f = (.ok none, next) ∧
      next.bytes = f.bytes.take start ++ f.bytes.drop stop := by
  have replaced := run_replace_some f (some []) a b data held
  rw [splice_some f _ a b start stop found sliced] at replaced
  have entered := run_command host f 100 [] a b (by simp [verb])
  refine ⟨{ f with data := bufferBytes (f.bytes.take start ++ [] ++ f.bytes.drop stop) }.fixLines, ?_, ?_⟩
  · exact entered.trans (run_bind_ok replaced)
  · rw [fix_lines_bytes]
    refine (buffer_bytes _).trans ?_
    rw [List.append_nil]

theorem run_write_lines {a b : Int64} {start stop : Nat} (order : a ≤ b) (first : 1 ≤ a)
    (last : b.toInt ≤ f.lines.length + 1) (found : f.sliceX a b = some (start, stop)) (sliced : f.Sliced start stop) :
    (command host (str "w") a b).run f =
      (.ok ((host.stdout ((f.bytes.drop start).take (stop - start))).2.map .output), f) := by
  have text := go_slice_inside sliced.order sliced.inside
  have valid : ¬ (b < a ∨ a < 1 ∨ b.toInt > f.lines.length + 1) := by
    rw [not_or, not_or]
    exact ⟨Int64.not_lt.mpr order, Int64.not_lt.mpr first, by omega⟩
  have wrote : f.write host.stdout a b = some ((host.stdout ((f.bytes.drop start).take (stop - start))).1,
      (host.stdout ((f.bytes.drop start).take (stop - start))).2.map .output) := by
    rw [File.write, if_neg valid]
    simp only [found, text, Option.bind_eq_bind, Option.bind_some]
  have ran : (write host.stdout a b).run f = (.ok ((host.stdout ((f.bytes.drop start).take (stop - start))).1,
      (host.stdout ((f.bytes.drop start).take (stop - start))).2.map .output), f) := by
    rw [write, run_get_bind, wrote]
    rfl
  exact (run_command host f 119 [] a b (by simp [verb])).trans (run_bind_ok ran)

theorem sub_args_slashes (re new opt : Bytes) (plainRe : 47 ∉ re) (plainNew : 47 ∉ new) :
    subArgs (47 :: (re ++ 47 :: (new ++ 47 :: opt))) = some (re, new, opt) := by
  have stops : ∀ front rest : Bytes, 47 ∉ front →
      (front ++ 47 :: rest).takeWhile (· ≠ 47) = front ∧ (front ++ 47 :: rest).dropWhile (· ≠ 47) = 47 :: rest := by
    intro front rest plain
    have all : ∀ c ∈ front, decide (c ≠ 47) = true := by
      intro c there
      exact decide_eq_true (fun same => plain (same ▸ there))
    rw [List.takeWhile_append_of_pos all, List.dropWhile_append_of_pos all]
    simp
  obtain ⟨firstTake, firstDrop⟩ := stops re (new ++ 47 :: opt) plainRe
  obtain ⟨secondTake, secondDrop⟩ := stops new opt plainNew
  simp only [subArgs, splitN, List.mem_append, List.mem_cons, true_or, or_true, if_true, firstTake, firstDrop, List.tail_cons,
    secondTake, secondDrop]

theorem subst_slices (r : Regexp) (n opt : Bytes) (a b : Int64) (start stop : Nat)
    (found : f.sliceX a b = some (start, stop)) (sliced : f.Sliced start stop) :
    f.subst r n opt a b = some none ∨ ∃ next middle, f.subst r n opt a b = some (some next) ∧
      next.Indexed ∧ next.bytes = f.bytes.take start ++ middle ++ f.bytes.drop stop := by
  have text := slice_some f found sliced
  have front := go_slice_front (Nat.le_trans sliced.order sliced.inside)
  have back := go_slice_back sliced.inside
  rw [File.subst]
  simp only [text, front, back, Option.bind_eq_bind, Option.bind_some]
  split
  · exact Or.inl rfl
  · exact Or.inr ⟨_, _, rfl, fix_lines_indexed _, fix_lines_bytes _⟩

theorem run_substitute (re new opt : Bytes) (a b : Int64) (start stop : Nat) (plainRe : 47 ∉ re) (plainNew : 47 ∉ new)
    (found : f.sliceX a b = some (start, stop)) (sliced : f.Sliced start stop) :
    ∃ err next middle, (command host (115 :: 47 :: (re ++ 47 :: (new ++ 47 :: opt))) a b).run f = (.ok err, next) ∧
      next.bytes = f.bytes.take start ++ middle ++ f.bytes.drop stop := by
  have parsed := sub_args_slashes re new opt plainRe plainNew
  have entered := run_command host f 115 (47 :: (re ++ 47 :: (new ++ 47 :: opt))) a b (by simp [verb])
  rw [parsed] at entered
  have same : f.bytes = f.bytes.take start ++ (f.bytes.drop start).take (stop - start) ++ f.bytes.drop stop := by
    rw [take_drop_take f.bytes start stop sliced.order, List.take_append_drop]
  rw [entered, show verb 115 = .s from rfl]
  dsimp only
  rw [run_of_option_bind]
  dsimp only
  by_cases empty : re = []
  · exact ⟨some .emptyRE, f, _, by rw [sub, if_pos empty]; rfl, same⟩
  cases compiled : host.compile re with
  | error text =>
      refine ⟨some (.regexp text), f, _, ?_, same⟩
      rw [sub, if_neg empty, compiled]
      rfl
  | ok r =>
      rw [run_sub_compiled f new opt a b empty r compiled]
      rcases subst_slices f r new opt a b start stop found sliced with nothing | ⟨next, middle, done, indexed, spliced⟩
      · rw [nothing]
        exact ⟨none, f, _, rfl, same⟩
      · rw [done]
        dsimp only
        obtain ⟨printed, wrote⟩ := run_write next indexed host.stdout a b
        split
        · exact ⟨printed.2, next, middle, by rw [run_bind_ok wrote]; rfl, spliced⟩
        · exact ⟨none, next, middle, rfl, spliced⟩

end Commands

section Exact

structure RangeExact (f : File) (a b : Nat) : Prop where
  deleted : ∀ host, ∃ next, (doCommand host (rangeLine a b (str "d"))).run f = (.ok none, next) ∧
    next.bytes = (f.text.take (a - 1) ++ f.text.drop b).flatten
  written : ∀ host, ∃ next, (doCommand host (rangeLine a b (str "w"))).run f =
    (.ok ((host.stdout ((f.text.take b).drop (a - 1)).flatten).2.map .output), next)
  substituted : ∀ host re new, 47 ∉ re → 47 ∉ new → ∃ err next middle,
    (doCommand host (rangeLine a b (str "s/" ++ re ++ str "/" ++ new ++ str "/g"))).run f = (.ok err, next) ∧
      next.bytes = (f.text.take (a - 1)).flatten ++ middle ++ (f.text.drop b).flatten

variable (f : File) (a b : Nat)

theorem text_fits (fits : f.bytes.length < 2 ^ 63) : f.text.length < 2 ^ 63 :=
  Nat.lt_of_le_of_lt (pieces_length_le newline f.bytes) fits

theorem text_held (some_ : 0 < f.text.length) : ∃ data, f.data = some data := by
  cases held : f.data with
  | some data => exact ⟨data, rfl⟩
  | none =>
      rw [File.text, File.bytes, held] at some_
      cases some_

theorem command_letter {c : Bytes} {letter : UInt8} (begins : c.head? = some letter) (plain : 57 < letter) :
    ∀ first, c.head? = some first → ¬ IsDigit first := by
  intro first same digit
  cases begins.symm.trans same
  exact absurd digit.2 (UInt8.not_le.mpr plain)

theorem lines_some (lines : List Bytes) (some_ : lines ≠ []) (inside : ∀ line ∈ lines, line ∈ f.text) : lines.flatten ≠ [] := by
  intro empty
  obtain ⟨line, rest, rfl⟩ := List.exists_cons_of_ne_nil some_
  rw [List.flatten_cons, List.append_eq_nil_iff] at empty
  exact pieces_some newline f.bytes line (inside line List.mem_cons_self) empty.1

section Range

variable {f a b} (indexed : f.Indexed) (first : 1 ≤ a) (order : a ≤ b) (last : b ≤ f.text.length)

include indexed first order last

theorem range_deletes (small : b + 1 < 2 ^ 63) (host : Host) :
    ∃ next, (doCommand host (rangeLine a b (str "d"))).run f = (.ok none, next) ∧
      next.bytes = (f.text.take (a - 1)).flatten ++ (f.text.drop (reach f.text.length b)).flatten := by
  obtain ⟨start, stop, ranged⟩ := range_sliced (f.move (Int64.ofNat a)) indexed a b first order last small
  obtain ⟨data, held⟩ := text_held f (by omega)
  obtain ⟨next, done, bytes⟩ := run_delete host (f.move (Int64.ofNat a)) held ranged.found ranged.sliced
  have entered := run_range f host a b (str "d") (by omega) (by omega) (command_letter rfl (by decide))
  rw [ranged.front, ranged.back] at bytes
  exact ⟨next, entered.trans done, bytes⟩

theorem range_writes (small : b + 1 < 2 ^ 63) (host : Host) :
    ∃ next, (doCommand host (rangeLine a b (str "w"))).run f =
      (.ok ((host.stdout ((f.text.take (reach f.text.length b)).drop (a - 1)).flatten).2.map .output), next) := by
  have count := text_length f indexed
  have numberA := line_number a (by omega)
  have numberB := line_after b small
  have one : (1 : Int64).toInt = 1 := rfl
  have inside : (Int64.ofNat b + 1).toInt ≤ ((f.move (Int64.ofNat a)).lines.length : Int) + 1 := by
    rw [numberB, show (f.move (Int64.ofNat a)).lines = f.lines from rfl]
    omega
  obtain ⟨start, stop, ranged⟩ := range_sliced (f.move (Int64.ofNat a)) indexed a b first order last small
  have wrote := run_write_lines host (f.move (Int64.ofNat a))
    (Int64.le_iff_toInt_le.mpr (by omega)) (Int64.le_iff_toInt_le.mpr (by omega)) inside ranged.found ranged.sliced
  rw [ranged_text (f.move (Int64.ofNat a)) a b start stop ranged order last] at wrote
  have entered := run_range f host a b (str "w") (by omega) (by omega) (command_letter rfl (by decide))
  exact ⟨_, entered.trans wrote⟩

theorem range_substitutes (small : b + 1 < 2 ^ 63) (host : Host) (re new : Bytes) (plainRe : 47 ∉ re) (plainNew : 47 ∉ new) :
    ∃ err next middle, (doCommand host (rangeLine a b (str "s/" ++ re ++ str "/" ++ new ++ str "/g"))).run f = (.ok err, next) ∧
      next.bytes = (f.text.take (a - 1)).flatten ++ middle ++ (f.text.drop (reach f.text.length b)).flatten := by
  obtain ⟨start, stop, ranged⟩ := range_sliced (f.move (Int64.ofNat a)) indexed a b first order last small
  obtain ⟨err, next, middle, done, bytes⟩ := run_substitute host (f.move (Int64.ofNat a)) re new (str "g") _ _ start stop
    plainRe plainNew ranged.found ranged.sliced
  have line : str "s/" ++ re ++ str "/" ++ new ++ str "/g" = 115 :: 47 :: (re ++ 47 :: (new ++ 47 :: str "g")) := by
    rw [show str "s/" = [115, 47] by decide, show str "/" = [47] by decide, show str "/g" = 47 :: str "g" by decide]
    simp only [List.append_assoc, List.cons_append, List.nil_append]
  have entered := run_range f host a b (115 :: 47 :: (re ++ 47 :: (new ++ 47 :: str "g"))) (by omega) (by omega)
    (command_letter rfl (by decide))
  rw [ranged.front, ranged.back] at bytes
  refine ⟨err, next, middle, ?_, bytes⟩
  rw [line]
  exact entered.trans done

theorem range_exact (apart : b + 1 ≠ f.text.length) (small : b + 1 < 2 ^ 63) : RangeExact f a b := by
  have reached : reach f.text.length b = b := by
    rw [reach]
    split <;> omega
  constructor
  · intro host
    have deletes := range_deletes indexed first order last small host
    rwa [reached, ← List.flatten_append] at deletes
  · intro host
    have writes := range_writes indexed first order last small host
    rwa [reached] at writes
  · intro host re new plainRe plainNew
    have substitutes := range_substitutes indexed first order last small host re new plainRe plainNew
    rwa [reached] at substitutes

-- The largest line number has no successor: the range is empty.
theorem last_number_keeps (largest : b + 1 = 2 ^ 63) (host : Host) :
    ∃ next, (doCommand host (rangeLine a b (str "d"))).run f = (.ok none, next) ∧ next.bytes = f.bytes := by
  have count : f.lines.length = f.text.length := text_length f indexed
  have numberA := line_number a (by omega)
  have wraps : (Int64.ofNat b + 1).toInt = -2 ^ 63 := by
    rw [show b = 2 ^ 63 - 1 by omega]
    decide
  have point := slice_x_point (f.move (Int64.ofNat a)) indexed (Int64.ofNat a) (Int64.ofNat b + 1)
    (by rw [numberA]; show (a : Int) ≤ f.lines.length; omega) (by omega)
  obtain ⟨start, stop, found, sliced⟩ := slice_x_returns (f.move (Int64.ofNat a)) indexed (Int64.ofNat a) (Int64.ofNat b + 1)
    (fun underflows => by have less := Int64.lt_iff_toInt_lt.mp underflows.1; omega)
  obtain ⟨data, held⟩ := text_held f (by omega)
  obtain ⟨next, done, bytes⟩ := run_delete host (f.move (Int64.ofNat a)) held found sliced
  have entered := run_range f host a b (str "d") (by omega) (by omega) (command_letter rfl (by decide))
  refine ⟨next, entered.trans done, ?_⟩
  rw [found] at point
  cases point
  rw [bytes, List.take_append_drop]
  rfl

end Range

theorem range_exact_iff (indexed : f.Indexed) (fits : f.bytes.length < 2 ^ 63) (first : 1 ≤ a) (order : a ≤ b)
    (last : b ≤ f.text.length) : RangeExact f a b ↔ b + 1 ≠ f.text.length ∧ b + 1 < 2 ^ 63 := by
  have count := text_fits f fits
  refine ⟨fun exact_ => ?_, fun right => range_exact indexed first order last right.1 right.2⟩
  obtain ⟨next, done, bytes⟩ := exact_.deleted bareHost
  rw [List.flatten_append] at bytes
  constructor
  · intro before
    -- the last line is deleted too, and it is not empty
    obtain ⟨other, ran, left⟩ := range_deletes indexed first order last (by omega) bareHost
    rw [ran] at done
    cases done
    rw [left, List.append_cancel_left_eq, reach, if_neg (by omega), List.drop_length, List.flatten_nil] at bytes
    refine lines_some f (f.text.drop b) (fun nothing => ?_) (fun line there => List.mem_of_mem_drop there) bytes.symm
    have none_ := List.drop_eq_nil_iff.mp nothing
    omega
  · by_contra large
    obtain ⟨other, ran, left⟩ := last_number_keeps indexed first order last (by omega) bareHost
    rw [ran] at done
    cases done
    have lines := congrArg List.flatten (lines_split f (a - 1) b (by omega))
    rw [text_flatten, ← left, bytes, List.flatten_append, List.flatten_append, List.append_cancel_right_eq] at lines
    refine lines_some f ((f.text.take b).drop (a - 1)) (fun nothing => ?_)
      (fun line there => List.mem_of_mem_take (List.mem_of_mem_drop there)) (List.self_eq_append_right.mp lines)
    have none_ := List.drop_eq_nil_iff.mp nothing
    rw [List.length_take] at none_
    omega

end Exact

def threeLines : File := { newFile with data := some (str "x\ny\nz\n") }.fixLines

theorem first_line_exact : RangeExact threeLines 1 1 :=
  (range_exact_iff threeLines 1 1 (fix_lines_indexed _) (by decide) (by decide) (by decide) (by decide)).mpr (by decide)

-- "2,2d" leaves only the first of the three lines.
theorem line_before_last_lost :
    ((doCommand bareHost (str "2,2d")).run threeLines).2.bytes = str "x\n" ∧
      (threeLines.text.take 1 ++ threeLines.text.drop 2).flatten = str "x\nz\n" := by
  decide +kernel

end URoot.Ed
