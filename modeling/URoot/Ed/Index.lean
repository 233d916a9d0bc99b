import URoot.Ed.Text
import URoot.Lib.Runs

set_option autoImplicit false

namespace URoot.Ed

open GoLib Lines Act

section Scanners

theorem count_fold (positions : List Nat) (count : Nat) (table : List Nat) :
    positions.foldl (fun state i => (state.1 + 1, state.2 ++ [i])) (count, table) =
      (count + positions.length, table ++ positions) := by
  induction positions generalizing count table with
  | nil => simp
  | cons i rest ih => rw [List.foldl_cons, ih, List.append_assoc, List.length_cons, List.singleton_append, Nat.add_assoc,
      Nat.add_comm 1]

def File.Indexed (f : File) : Prop := f.lines = starts newline f.bytes

theorem fix_lines_bytes (f : File) : f.fixLines.bytes = f.bytes := by
  rw [File.fixLines]
  split <;> rfl

theorem fix_lines_dirty (f : File) : f.fixLines.dirty = f.dirty := by
  rw [File.fixLines]
  split <;> rfl

theorem fix_lines_indexed (f : File) : f.fixLines.Indexed := by
  rw [File.Indexed, fix_lines_bytes, File.fixLines]
  split
  · rename_i empty
    rw [List.length_eq_zero_iff.mp empty, starts_nil]
  · rename_i some_
    rw [starts_breaks newline (fun empty => some_ (List.length_eq_zero_iff.mpr empty)), scan_breaks, count_fold]
    rfl

theorem cut_breaks (n : Bytes) :
    let last := scan newline (cutStep n) ([], 0) n
    last.1.flatten = n.take last.2 ∧ offsets 0 last.1 ++ [last.2] = 0 :: breaks newline n ∧
      last.2 ∈ 0 :: breaks newline n := by
  rw [scan_breaks]
  refine cut_fold (breaks_sorted newline n) (fun i there => ⟨?_, breaks_inside newline n i there⟩)
  simp only [breaks, List.mem_filter, decide_eq_true_eq] at there
  omega

theorem cut_inside (n : Bytes) (some_ : n ≠ []) : (scan newline (cutStep n) ([], 0) n).2 < n.length := by
  have positive := List.length_pos_iff.mpr some_
  obtain ⟨_, _, met⟩ := cut_breaks n
  rcases List.mem_cons.mp met with zero | there
  · omega
  · exact breaks_inside newline n _ there

theorem make_lines_empty : makeLines [] = [] := rfl

theorem make_lines_some (n : Bytes) (some_ : n ≠ []) :
    let last := scan newline (cutStep n) ([], 0) n
    makeLines n = last.1 ++ [n.drop last.2] := by
  have positive := List.length_pos_iff.mpr some_
  have inside : (scan newline (cutStep n) ([], 0) n).2 ≤ n.length - 1 := by
    have := cut_inside n some_
    omega
  simp only [makeLines, if_neg (Nat.ne_of_gt positive), if_pos inside]

theorem make_lines_flatten (n : Bytes) : (makeLines n).flatten = n := by
  by_cases empty : n = []
  · rw [empty, make_lines_empty, List.flatten_nil]
  · obtain ⟨whole, _, _⟩ := cut_breaks n
    rw [make_lines_some n empty, List.flatten_append, List.flatten_singleton, whole, List.take_append_drop]

end Scanners

section Addresses

theorem line_succ (a : Int64) (below : a ≠ Int64.maxValue) : (a + 1).toInt = a.toInt + 1 := by
  have bound := a.toInt_lt
  have low := a.le_toInt
  have other : a.toInt ≠ 2 ^ 63 - 1 := by
    rw [← Int64.toInt_maxValue]
    exact fun same => below (Int64.toInt_inj.mp same)
  rw [Int64.toInt_add]
  exact Int.bmod_eq_of_le (by simp; omega) (by simp; omega)

theorem line_pred (a b : Int64) (above : b < a) : (a - 1).toInt = a.toInt - 1 := by
  have bound := a.toInt_lt
  have low := b.le_toInt
  have less := Int64.lt_iff_toInt_lt.mp above
  rw [Int64.toInt_sub]
  exact Int.bmod_eq_of_le (by simp; omega) (by simp; omega)

def File.offset (f : File) (line : Int64) : Nat := (f.lines[line.toInt.toNat - 1]?).getD 0

theorem go_index_inside (l : List Nat) (a : Int64) (positive : 0 < a) (inside : a.toInt ≤ l.length) :
    goIndex l (a - 1) = some ((l[a.toInt.toNat - 1]?).getD 0) := by
  have pred := line_pred a 0 positive
  have above := Int64.lt_iff_toInt_lt.mp positive
  have zero : (0 : Int64).toInt = 0 := rfl
  have index : (a - 1).toInt.toNat = a.toInt.toNat - 1 := by omega
  rw [goIndex, if_neg (fun below => by have := Int64.lt_iff_toInt_lt.mp below; omega), index,
    List.getElem?_eq_getElem (by omega), Option.getD_some]

theorem go_index_negative (l : List Nat) (a b : Int64) (above : b < a) (negative : a ≤ 0) : goIndex l (a - 1) = none := by
  have pred := line_pred a b above
  have below := Int64.le_iff_toInt_le.mp negative
  have zero : (0 : Int64).toInt = 0 := rfl
  rw [goIndex, if_pos (Int64.lt_iff_toInt_lt.mpr (by omega))]

end Addresses

section Slices

variable (f : File)

def File.Boundary (i : Nat) : Prop := i = 0 ∨ i = f.bytes.length ∨ i ∈ f.lines

structure File.Sliced (start stop : Nat) : Prop where
  order : start ≤ stop
  inside : stop ≤ f.bytes.length
  first : f.Boundary start
  last : f.Boundary stop

def File.Underflows (a b : Int64) : Prop := a < b ∧ b ≤ 0 ∧ b.toInt < f.lines.length

theorem slice_x_past (a b : Int64) (past : f.lines.length < a.toInt) :
    f.sliceX a b = some (f.bytes.length, f.bytes.length) := by
  rw [File.sliceX, if_pos past]

theorem natural_returns {a b : Int64} (natural : 0 ≤ a ∧ 0 ≤ b) : ¬ f.Underflows a b := by
  intro ⟨less, negative, _⟩
  have low := Int64.le_iff_toInt_le.mp natural.1
  have first := Int64.lt_iff_toInt_lt.mp less
  have second := Int64.le_iff_toInt_le.mp negative
  omega

theorem go_slice_inside {b : Bytes} {start stop : Nat} (order : start ≤ stop) (inside : stop ≤ b.length) :
    goSlice b start stop = some ((b.drop start).take (stop - start)) := by
  rw [goSlice, if_pos ⟨order, inside⟩]

variable (indexed : f.Indexed)

include indexed

theorem first_offset (line : Int64) (low : line.toInt ≤ 1) : f.offset line = 0 := by
  have first : line.toInt.toNat - 1 = 0 := by omega
  rw [File.offset, first, indexed]
  by_cases empty : f.bytes = []
  · rw [empty, starts_nil]
    rfl
  · rw [starts_breaks newline empty]
    rfl

theorem slice_start (a : Int64) (inside : a.toInt ≤ f.lines.length) :
    (if a > 0 then goIndex f.lines (a - 1) else some 0) = some (f.offset a) := by
  by_cases positive : a > 0
  · rw [if_pos positive, go_index_inside f.lines a positive inside, File.offset]
  · have low := Int64.le_iff_toInt_le.mp (Int64.not_lt.mp positive)
    have zero : (0 : Int64).toInt = 0 := rfl
    rw [if_neg positive, first_offset f indexed a (by omega)]

theorem slice_x_point (a b : Int64) (inside : a.toInt ≤ f.lines.length) (le : b.toInt ≤ a.toInt) :
    f.sliceX a b = some (f.offset a, f.offset a) := by
  have same : (if b < a then a else b) = a := by
    split
    · rfl
    · rename_i other
      have ge := Int64.le_iff_toInt_le.mp (Int64.not_lt.mp other)
      exact Int64.toInt_inj.mp (by omega)
  simp only [File.sliceX, if_neg (show ¬ a.toInt > f.lines.length by omega), slice_start f indexed a inside, Option.bind_eq_bind,
    Option.bind_some, same, ne_eq, not_true, if_false]

theorem slice_x_later (a b : Int64) (inside : a.toInt ≤ f.lines.length) (less : a.toInt < b.toInt) :
    f.sliceX a b = if b.toInt ≥ f.lines.length then some (f.offset a, f.bytes.length)
      else (goIndex f.lines (b - 1)).map (fun stop => (f.offset a, stop)) := by
  have same : (if b < a then a else b) = b := if_neg (fun below => by have := Int64.lt_iff_toInt_lt.mp below; omega)
  have other : b ≠ a := fun equal => by rw [equal] at less; omega
  simp only [File.sliceX, if_neg (show ¬ a.toInt > f.lines.length by omega), slice_start f indexed a inside, Option.bind_eq_bind,
    Option.bind_some, same, ne_eq, other, not_false_iff, if_true]
  split
  · rfl
  · rw [Option.map_eq_bind]
    rfl

theorem slice_x_rest (a b : Int64) (inside : a.toInt ≤ f.lines.length) (less : a.toInt < b.toInt)
    (beyond : (f.lines.length : Int) ≤ b.toInt) : f.sliceX a b = some (f.offset a, f.bytes.length) := by
  rw [slice_x_later f indexed a b inside less, if_pos beyond]

theorem slice_x_range (a b : Int64) (less : a.toInt < b.toInt)
    (below : b.toInt < f.lines.length) (positive : 0 < b.toInt) : f.sliceX a b = some (f.offset a, f.offset b) := by
  rw [slice_x_later f indexed a b (by omega) less, if_neg (by omega),
    go_index_inside f.lines b (Int64.lt_iff_toInt_lt.mpr positive) (by omega), Option.map_some]
  rfl

theorem slice_x_panic (a b : Int64) (less : a.toInt < b.toInt) (below : b.toInt < f.lines.length)
    (negative : b.toInt ≤ 0) : f.sliceX a b = none := by
  rw [slice_x_later f indexed a b (by omega) less, if_neg (by omega),
    go_index_negative f.lines b a (Int64.lt_iff_toInt_lt.mpr less) (Int64.le_iff_toInt_le.mpr negative), Option.map_none]

theorem offset_boundary (line : Int64) (inside : line.toInt ≤ f.lines.length) :
    f.offset line = 0 ∨ f.offset line ∈ f.lines := by
  by_cases low : line.toInt ≤ 1
  · exact Or.inl (first_offset f indexed line low)
  · right
    rw [File.offset, List.getElem?_eq_getElem (by omega), Option.getD_some]
    exact List.getElem_mem _

theorem offset_inside (line : Int64) (inside : line.toInt ≤ f.lines.length) :
    f.offset line ≤ f.bytes.length := by
  rcases offset_boundary f indexed line inside with zero | there
  · omega
  · rw [indexed, mem_starts] at there
    exact Nat.le_of_lt there.1

theorem offset_mono (a b : Int64) (less : a.toInt < b.toInt) (inside : b.toInt ≤ f.lines.length) :
    f.offset a ≤ f.offset b := by
  by_cases low : a.toInt ≤ 1
  · rw [first_offset f indexed a low]
    exact Nat.zero_le _
  · have sorted := starts_sorted newline f.bytes
    rw [← indexed] at sorted
    rw [File.offset, File.offset, List.getElem?_eq_getElem (by omega), List.getElem?_eq_getElem (by omega), Option.getD_some,
      Option.getD_some]
    exact Nat.le_of_lt (List.pairwise_iff_getElem.mp sorted _ _ _ _ (by omega))

theorem offset_place (line : Int64) (inside : line.toInt ≤ f.lines.length) :
    f.Boundary (f.offset line) := (offset_boundary f indexed line inside).imp id Or.inr

theorem slice_x_underflows (a b : Int64) (underflows : f.Underflows a b) : f.sliceX a b = none :=
  slice_x_panic f indexed a b (Int64.lt_iff_toInt_lt.mp underflows.1) underflows.2.2
    (Int64.le_iff_toInt_le.mp underflows.2.1)

theorem slice_x_returns (a b : Int64) (returns : ¬ f.Underflows a b) :
    ∃ start stop, f.sliceX a b = some (start, stop) ∧ f.Sliced start stop := by
  by_cases past : f.lines.length < a.toInt
  · exact ⟨_, _, slice_x_past f a b past, Nat.le_refl _, Nat.le_refl _, Or.inr (Or.inl rfl), Or.inr (Or.inl rfl)⟩
  have here : a.toInt ≤ f.lines.length := by omega
  have place := offset_place f indexed a here
  have inside := offset_inside f indexed a here
  by_cases point : b.toInt ≤ a.toInt
  · exact ⟨_, _, slice_x_point f indexed a b here point, Nat.le_refl _, inside, place, place⟩
  have less : a.toInt < b.toInt := by omega
  by_cases beyond : (f.lines.length : Int) ≤ b.toInt
  · exact ⟨_, _, slice_x_rest f indexed a b here less beyond, inside, Nat.le_refl _, place, Or.inr (Or.inl rfl)⟩
  have below : b.toInt < f.lines.length := by omega
  by_cases positive : 0 < b.toInt
  · exact ⟨_, _, slice_x_range f indexed a b less below positive, offset_mono f indexed a b less (by omega),
      offset_inside f indexed b (by omega), place, offset_place f indexed b (by omega)⟩
  · have negative : b.toInt ≤ (0 : Int64).toInt := Int.not_lt.mp positive
    exact absurd ⟨Int64.lt_iff_toInt_lt.mpr less, Int64.le_iff_toInt_le.mpr negative, below⟩ returns

theorem write_returns (w : Bytes → Int64 × Option Bytes) (a b : Int64) :
    ∃ result, f.write w a b = some result := by
  rw [File.write]
  split
  · exact ⟨_, rfl⟩
  · rename_i valid
    rw [not_or, not_or] at valid
    have order := Int64.le_iff_toInt_le.mp (Int64.not_lt.mp valid.1)
    have positive := Int64.le_iff_toInt_le.mp (Int64.not_lt.mp valid.2.1)
    have one : (1 : Int64).toInt = 1 := rfl
    have zero : (0 : Int64).toInt = 0 := rfl
    obtain ⟨start, stop, found, sliced⟩ := slice_x_returns f indexed a b
      (natural_returns f ⟨Int64.le_iff_toInt_le.mpr (by omega), Int64.le_iff_toInt_le.mpr (by omega)⟩)
    have text := go_slice_inside sliced.order sliced.inside
    simp only [found, text, Option.bind_eq_bind, Option.bind_some]
    exact ⟨_, rfl⟩

theorem run_write (w : Bytes → Int64 × Option Bytes) (a b : Int64) :
    ∃ result, (write w a b).run f = (.ok result, f) := by
  obtain ⟨result, done⟩ := write_returns f indexed w a b
  refine ⟨result, ?_⟩
  rw [write, run_get_bind, done]
  rfl

end Slices

section Replace

variable (f : File)

theorem go_slice_front {b : Bytes} {stop : Nat} (inside : stop ≤ b.length) : goSlice b 0 stop = some (b.take stop) := by
  rw [go_slice_inside (Nat.zero_le _) inside, List.drop_zero, Nat.sub_zero]

theorem go_slice_back {b : Bytes} {start : Nat} (inside : start ≤ b.length) : goSlice b start b.length = some (b.drop start) := by
  rw [go_slice_inside inside (Nat.le_refl _), ← List.length_drop, List.take_length]

theorem splice_some (n : Bytes) (a b : Int64) (start stop : Nat) (found : f.sliceX a b = some (start, stop))
    (sliced : f.Sliced start stop) : f.splice n a b = some (f.bytes.take start ++ n ++ f.bytes.drop stop) := by
  have front := go_slice_front (Nat.le_trans sliced.order sliced.inside)
  have back := go_slice_back sliced.inside
  simp only [File.splice, found, front, back, Option.bind_eq_bind, Option.bind_some]

theorem splice_none (n : Bytes) (a b : Int64) (panics : f.sliceX a b = none) : f.splice n a b = none := by
  simp only [File.splice, panics, Option.bind_eq_bind, Option.bind_none]

theorem buffer_bytes (b : Bytes) : (bufferBytes b).getD [] = b := by
  rw [bufferBytes]
  split
  · rename_i empty
    rw [empty, Option.getD_none]
  · rw [Option.getD_some]

theorem run_replace_nil (n : Option Bytes) (a b : Int64) (nothing : f.data = none) :
    (replace n a b).run f = (.ok (Int64.ofNat (n.getD []).length), { f with data := n }.fixLines) := by
  rw [replace, run_get_bind]
  simp only [nothing]
  rfl

theorem run_replace_some (n : Option Bytes) (a b : Int64) (data : Bytes) (there : f.data = some data) :
    (replace n a b).run f = match f.splice (n.getD []) a b with
      | some spliced => (.ok (Int64.ofNat (n.getD []).length), { f with data := bufferBytes spliced }.fixLines)
      | none => (.error .panic, f) := by
  rw [replace, run_get_bind]
  simp only [there]
  cases f.splice (n.getD []) a b <;> rfl

def File.addressed (a b : Int64) : Bytes := ((f.slice a b).map Prod.fst).getD []

theorem slice_some {a b : Int64} {start stop : Nat} (found : f.sliceX a b = some (start, stop)) (sliced : f.Sliced start stop) :
    f.slice a b = some ((f.bytes.drop start).take (stop - start), start, stop) := by
  have text := go_slice_inside sliced.order sliced.inside
  simp only [File.slice, found, text, Option.bind_eq_bind, Option.bind_some]

theorem slice_none (a b : Int64) (panics : f.sliceX a b = none) : f.slice a b = none := by
  simp only [File.slice, panics, Option.bind_eq_bind, Option.bind_none]

structure Replaced (n : Bytes) (a b : Int64) (next : File) : Prop where
  indexed : next.Indexed
  clean : next.dirty = f.dirty
  spliced : ∃ before after, f.bytes = before ++ f.addressed a b ++ after ∧ next.bytes = before ++ n ++ after

theorem spliced_parts {a b : Int64} {start stop : Nat} (found : f.sliceX a b = some (start, stop))
    (sliced : f.Sliced start stop) : f.bytes = f.bytes.take start ++ f.addressed a b ++ f.bytes.drop stop := by
  rw [File.addressed, slice_some f found sliced, Option.map_some, Option.getD_some,
    take_drop_take f.bytes start stop sliced.order, List.take_append_drop]

variable (indexed : f.Indexed)

include indexed

theorem addressed_empty (a b : Int64) (empty : f.bytes = []) : f.addressed a b = [] := by
  by_cases underflows : f.Underflows a b
  · rw [File.addressed, slice_none f a b (slice_x_underflows f indexed a b underflows)]
    rfl
  · obtain ⟨start, stop, found, sliced⟩ := slice_x_returns f indexed a b underflows
    have whole := spliced_parts f found sliced
    rw [empty, eq_comm, List.append_eq_nil_iff, List.append_eq_nil_iff] at whole
    exact whole.1.2

theorem replace_panics (n : Option Bytes) (a b : Int64) (there : f.data ≠ none)
    (underflows : f.Underflows a b) : (replace n a b).run f = (.error .panic, f) := by
  obtain ⟨data, held⟩ := Option.ne_none_iff_exists'.mp there
  rw [run_replace_some f n a b data held, splice_none f _ a b (slice_x_underflows f indexed a b underflows)]

theorem replace_returns (n : Option Bytes) (a b : Int64)
    (returns : f.data = none ∨ ¬ f.Underflows a b) :
    ∃ amt next, (replace n a b).run f = (.ok amt, next) ∧ Replaced f (n.getD []) a b next := by
  cases held : f.data with
  | none =>
      have empty : f.bytes = [] := by rw [File.bytes, held, Option.getD_none]
      refine ⟨_, _, run_replace_nil f n a b held, fix_lines_indexed _, fix_lines_dirty _, [], [], ?_, ?_⟩
      · rw [empty, addressed_empty f indexed a b empty]
        rfl
      · rw [fix_lines_bytes, List.nil_append, List.append_nil]
        rfl
  | some data =>
      rcases returns with nothing | valid
      · rw [held] at nothing
        cases nothing
      · obtain ⟨start, stop, found, sliced⟩ := slice_x_returns f indexed a b valid
        have run := run_replace_some f n a b data held
        rw [splice_some f _ a b start stop found sliced] at run
        refine ⟨_, _, run, fix_lines_indexed _, fix_lines_dirty _, _, _, spliced_parts f found sliced, ?_⟩
        rw [fix_lines_bytes]
        exact buffer_bytes _

theorem replace_inv (n : Option Bytes) (a b amt : Int64) (next : File)
    (done : (replace n a b).run f = (.ok amt, next)) : Replaced f (n.getD []) a b next := by
  by_cases returns : f.data = none ∨ ¬ f.Underflows a b
  · obtain ⟨amt', next', run, replaced⟩ := replace_returns f indexed n a b returns
    rw [run] at done
    cases done
    exact replaced
  · rw [not_or, not_not] at returns
    rw [replace_panics f indexed n a b returns.1 returns.2] at done
    cases done

end Replace

section Sub

variable (f : File)

def File.substituted (r : Regexp) (n opt : Bytes) (a b : Int64) : List Bytes × Bool :=
  (makeLines (f.addressed a b)).foldl (subLine r n (103 ∈ opt)) ([], f.dirty)

structure Substituted (r : Regexp) (n opt : Bytes) (a b : Int64) (next : File) : Prop where
  indexed : next.Indexed
  flag : next.dirty = (f.substituted r n opt a b).2
  spliced : ∃ before after, f.bytes = before ++ f.addressed a b ++ after ∧
    next.bytes = before ++ (f.substituted r n opt a b).1.flatten ++ after

theorem run_sub_compiled {host : Host} {re : Bytes} (n opt : Bytes) (a b : Int64) (some_ : re ≠ []) (r : Regexp)
    (compiled : host.compile re = .ok r) :
    (sub host re n opt a b).run f = match f.subst r n opt a b with
      | none => (.error .panic, f)
      | some none => (.ok none, f)
      | some (some next) => if 112 ∈ opt then (write host.stdout a b >>= fun result => pure result.2 : Edit _).run next
          else (.ok none, next) := by
  rw [sub, if_neg some_]
  simp only [compiled]
  rw [run_get_bind]
  cases f.subst r n opt a b with
  | none => rfl
  | some result =>
      cases result with
      | none => rfl
      | some next =>
          rw [run_of_option_bind]
          dsimp only
          rw [run_set_bind]
          split <;> rfl

variable (indexed : f.Indexed)

include indexed

theorem subst_panics (r : Regexp) (n opt : Bytes) (a b : Int64) (underflows : f.Underflows a b) :
    f.subst r n opt a b = none := by
  have panics := slice_none f a b (slice_x_underflows f indexed a b underflows)
  simp only [File.subst, panics, Option.bind_eq_bind, Option.bind_none]

theorem subst_returns (r : Regexp) (n opt : Bytes) (a b : Int64) (returns : ¬ f.Underflows a b) :
    f.subst r n opt a b = some none ∨
      ∃ next, f.subst r n opt a b = some (some next) ∧ Substituted f r n opt a b next := by
  obtain ⟨start, stop, found, sliced⟩ := slice_x_returns f indexed a b returns
  have text := slice_some f found sliced
  have addressed : f.addressed a b = (f.bytes.drop start).take (stop - start) := by
    rw [File.addressed, text, Option.map_some, Option.getD_some]
  have front := go_slice_front (Nat.le_trans sliced.order sliced.inside)
  have back := go_slice_back sliced.inside
  rw [File.subst]
  simp only [text, front, back, Option.bind_eq_bind, Option.bind_some, ← addressed]
  split
  · exact Or.inl rfl
  · exact Or.inr ⟨_, rfl, fix_lines_indexed _, fix_lines_dirty _, _, _, spliced_parts f found sliced,
      fix_lines_bytes _⟩

theorem sub_returns (host : Host) (re n opt : Bytes) (a b : Int64) (returns : ¬ f.Underflows a b) :
    ∃ err next, (sub host re n opt a b).run f = (.ok err, next) ∧
      (next = f ∨ ∃ r, host.compile re = .ok r ∧ Substituted f r n opt a b next) := by
  by_cases empty : re = []
  · exact ⟨_, f, by rw [sub, if_pos empty]; rfl, Or.inl rfl⟩
  cases compiled : host.compile re with
  | error text =>
      refine ⟨some (.regexp text), f, ?_, Or.inl rfl⟩
      rw [sub, if_neg empty]
      simp only [compiled]
      rfl
  | ok r =>
      rw [run_sub_compiled f n opt a b empty r compiled]
      rcases subst_returns f indexed r n opt a b returns with nothing | ⟨next, result, substituted⟩
      · rw [nothing]
        exact ⟨none, f, rfl, Or.inl rfl⟩
      · rw [result]
        dsimp only
        obtain ⟨printed, wrote⟩ := run_write next substituted.indexed host.stdout a b
        by_cases printing : 112 ∈ opt
        · refine ⟨printed.2, next, ?_, Or.inr ⟨r, rfl, substituted⟩⟩
          rw [if_pos printing, run_bind_ok wrote]
          rfl
        · exact ⟨none, next, if_neg printing, Or.inr ⟨r, rfl, substituted⟩⟩

theorem sub_inv (host : Host) (re n opt : Bytes) (a b : Int64) (err : Option EdError) (next : File)
    (done : (sub host re n opt a b).run f = (.ok err, next)) :
    next = f ∨ ∃ r, host.compile re = .ok r ∧ Substituted f r n opt a b next := by
  by_cases underflows : f.Underflows a b
  · rw [sub] at done
    split at done
    · cases done
      exact Or.inl rfl
    · rename_i some_
      cases compiled : host.compile re with
      | error text =>
          simp only [compiled] at done
          cases done
          exact Or.inl rfl
      | ok r =>
          have ran := run_sub_compiled f n opt a b some_ r compiled
          rw [sub, if_neg some_, done, subst_panics f indexed r n opt a b underflows] at ran
          cases ran
  · obtain ⟨err', next', run, result⟩ := sub_returns f indexed host re n opt a b underflows
    rw [run] at done
    cases done
    exact result

end Sub

section Calls

inductive Call where
  | replace (n : Option Bytes) (startLine endLine : Int64)
  | read (r : Except Bytes Bytes) (startLine endLine : Int64)
  | sub (host : Host) (re n opt : Bytes) (startLine endLine : Int64)

def Call.Natural : Call → Prop
  | .replace _ startLine endLine => 0 ≤ startLine ∧ 0 ≤ endLine
  | .read _ startLine endLine => 0 ≤ startLine ∧ 0 ≤ endLine
  | .sub _ _ _ _ startLine endLine => 0 ≤ startLine ∧ 0 ≤ endLine

instance : (c : Call) → Decidable c.Natural
  | .replace _ startLine endLine => inferInstanceAs (Decidable (0 ≤ startLine ∧ 0 ≤ endLine))
  | .read _ startLine endLine => inferInstanceAs (Decidable (0 ≤ startLine ∧ 0 ≤ endLine))
  | .sub _ _ _ _ startLine endLine => inferInstanceAs (Decidable (0 ≤ startLine ∧ 0 ≤ endLine))

def call : Call → File → Option File
  | .replace n startLine endLine, f => after ((replace n startLine endLine).run f)
  | .read r startLine endLine, f => after ((read r startLine endLine).run f)
  | .sub host re n opt startLine endLine, f => after ((sub host re n opt startLine endLine).run f)
where
  after {α : Type} : Except Halt α × File → Option File
    | (.ok _, next) => some next
    | (.error _, _) => none

def Overflows (c : Call) (f : File) : Prop := ∃ d, c = .read (.ok d) Int64.maxValue 0 ∧ f.bytes ≠ []

theorem run_read_ok (f : File) (d : Bytes) (a b : Int64) :
    (read (.ok d) a b).run f = (replace (some d) (a + 1) b >>= fun amt => pure (amt, none) : Edit _).run f := rfl

theorem read_returns (f : File) (indexed : f.Indexed) (r : Except Bytes Bytes) (a b : Int64)
    (returns : f.data = none ∨ ¬ f.Underflows (a + 1) b) :
    ∃ result next, (read r a b).run f = (.ok result, next) ∧
      (next = f ∨ ∃ d, r = .ok d ∧ Replaced f d (a + 1) b next) := by
  cases r with
  | error text => exact ⟨_, f, rfl, Or.inl rfl⟩
  | ok d =>
      obtain ⟨amt, next, run, replaced⟩ := replace_returns f indexed (some d) (a + 1) b returns
      refine ⟨(amt, none), next, ?_, Or.inr ⟨d, rfl, replaced⟩⟩
      rw [run_read_ok, run_bind_ok run, run_pure]

theorem lines_nil_iff (f : File) (indexed : f.Indexed) : f.lines = [] ↔ f.bytes = [] := by
  rw [indexed]
  constructor
  · intro nothing
    by_contra some_
    rw [starts_breaks newline some_] at nothing
    cases nothing
  · intro empty
    rw [empty, starts_nil]

theorem read_underflows (f : File) (indexed : f.Indexed) (a b : Int64) (natural : 0 ≤ a ∧ 0 ≤ b)
    (underflows : f.Underflows (a + 1) b) : a = Int64.maxValue ∧ b = 0 ∧ f.bytes ≠ [] := by
  have zero : (0 : Int64).toInt = 0 := rfl
  have low := Int64.le_iff_toInt_le.mp natural.1
  have last : a = Int64.maxValue := by
    by_contra below
    have succ := line_succ a below
    exact natural_returns f ⟨Int64.le_iff_toInt_le.mpr (by omega), natural.2⟩ underflows
  obtain ⟨_, negative, below⟩ := underflows
  have first : b = 0 := Int64.le_antisymm negative natural.2
  refine ⟨last, first, fun empty => ?_⟩
  rw [(lines_nil_iff f indexed).mpr empty, first] at below
  exact absurd below (by decide)

theorem call_returns (f : File) (indexed : f.Indexed) (c : Call) (natural : c.Natural) (safe : ¬ Overflows c f) :
    ∃ next, call c f = some next ∧ next.Indexed := by
  cases c with
  | replace n a b =>
      obtain ⟨amt, next, run, replaced⟩ := replace_returns f indexed n a b (Or.inr (natural_returns f natural))
      exact ⟨next, by rw [call, run]; rfl, replaced.indexed⟩
  | read r a b =>
      cases r with
      | error text => exact ⟨f, rfl, indexed⟩
      | ok d =>
          have returns : ¬ f.Underflows (a + 1) b := by
            intro underflows
            obtain ⟨rfl, rfl, some_⟩ := read_underflows f indexed a b natural underflows
            exact safe ⟨d, rfl, some_⟩
          obtain ⟨result, next, run, same | ⟨_, _, replaced⟩⟩ := read_returns f indexed (.ok d) a b (Or.inr returns)
          · exact ⟨next, by rw [call, run]; rfl, same ▸ indexed⟩
          · exact ⟨next, by rw [call, run]; rfl, replaced.indexed⟩
  | sub host re n opt a b =>
      obtain ⟨err, next, run, same | ⟨_, _, substituted⟩⟩ :=
        sub_returns f indexed host re n opt a b (natural_returns f natural)
      · exact ⟨next, by rw [call, run]; rfl, same ▸ indexed⟩
      · exact ⟨next, by rw [call, run]; rfl, substituted.indexed⟩

theorem call_overflows (f : File) (indexed : f.Indexed) (c : Call) (overflows : Overflows c f) : call c f = none := by
  obtain ⟨d, rfl, some_⟩ := overflows
  have there : f.data ≠ none := by
    intro nothing
    rw [File.bytes, nothing] at some_
    exact some_ rfl
  have lines : 0 < f.lines.length := by
    rw [List.length_pos_iff]
    exact fun nothing => some_ ((lines_nil_iff f indexed).mp nothing)
  have zero : (0 : Int64).toInt = 0 := rfl
  have underflows : f.Underflows (Int64.maxValue + 1) 0 := ⟨by decide, Int64.le_refl 0, by omega⟩
  rw [call, run_read_ok, run_bind_error (replace_panics f indexed (some d) _ _ there underflows)]
  rfl

abbrev step : Call → File → Option File := guarded call (fun c _ => c.Natural)

theorem step_indexed (c : Call) (f next : File) (indexed : f.Indexed) (moved : step c f = some next) : next.Indexed := by
  obtain ⟨natural, done⟩ := guarded_inv call c f next moved
  by_cases overflows : Overflows c f
  · rw [call_overflows f indexed c overflows] at done
    cases done
  · obtain ⟨other, returned, kept⟩ := call_returns f indexed c natural overflows
    rw [returned] at done
    cases done
    exact kept

theorem arg_returns (host : Host) (arg : EditorArg) (f : File) (indexed : f.Indexed) :
    ∃ err next, (arg.apply host).run f = (.ok err, next) ∧ next.Indexed := by
  have first (r : Except Bytes Bytes) :
      ∃ err next, (read r 0 0 >>= fun result => pure result.2 : Edit _).run f = (.ok err, next) ∧ next.Indexed := by
    obtain ⟨result, next, run, kept⟩ := read_returns f indexed r 0 0 (Or.inr (natural_returns f (by decide)))
    refine ⟨result.2, next, by rw [run_bind_ok run, run_pure], ?_⟩
    rcases kept with same | ⟨_, _, replaced⟩
    · exact same ▸ indexed
    · exact replaced.indexed
  cases arg with
  | readerio r => exact first r
  | readFile n =>
      rw [EditorArg.apply]
      cases host.openFile n with
      | error text => exact ⟨_, f, rfl, indexed⟩
      | ok r => exact first r

theorem args_return (host : Host) (args : List EditorArg) (f : File) (indexed : f.Indexed) :
    ∃ err next, (applyArgs host args).run f = (.ok err, next) ∧ next.Indexed := by
  induction args generalizing f with
  | nil => exact ⟨none, f, rfl, indexed⟩
  | cons arg rest ih =>
      obtain ⟨err, next, run, kept⟩ := arg_returns host arg f indexed
      rw [applyArgs, run_bind_ok run]
      cases err with
      | none => exact ih next kept
      | some err => exact ⟨some err, next, rfl, kept⟩

theorem new_file_indexed : newFile.Indexed := rfl

theorem new_text_editor_returns (host : Host) (args : List EditorArg) :
    (∃ err, newTextEditor host args = .ok (.error err)) ∨ ∃ f, newTextEditor host args = .ok (.ok f) ∧ f.Indexed := by
  obtain ⟨err, next, run, kept⟩ := args_return host args newFile new_file_indexed
  cases err with
  | none => exact Or.inr ⟨{ next with dot := 1 }, by simp only [newTextEditor, run], kept⟩
  | some err => exact Or.inl ⟨err, by simp only [newTextEditor, run]⟩

theorem made_indexed {host : Host} {args : List EditorArg} {f : File} (made : newTextEditor host args = .ok (.ok f)) :
    f.Indexed := by
  rcases new_text_editor_returns host args with ⟨err, failed⟩ | ⟨other, done, indexed⟩
  · rw [failed] at made
    cases made
  · rw [done] at made
    cases made
    exact indexed

theorem line_index_exact (host : Host) (args : List EditorArg) (f s : File) (made : newTextEditor host args = .ok (.ok f))
    (reach : Reachable step f s) :
    s.lines = starts newline s.bytes ∧
      (∀ a b : Int64, 0 ≤ a → 0 ≤ b → ∃ start stop, s.sliceX a b = some (start, stop) ∧ s.Sliced start stop) ∧
      (∀ w a b, ∃ result, s.write w a b = some result) ∧
      ∀ c : Call, c.Natural → ((∃ next, call c s = some next) ↔ ¬ Overflows c s) := by
  have indexed : s.Indexed := reachable_invariant step File.Indexed step_indexed f s (made_indexed made) reach
  refine ⟨indexed, ?_, write_returns s indexed, ?_⟩
  · intro a b first second
    exact slice_x_returns s indexed a b (natural_returns s ⟨first, second⟩)
  · intro c natural
    constructor
    · intro ⟨next, returned⟩ overflows
      rw [call_overflows s indexed c overflows] at returned
      cases returned
    · intro safe
      obtain ⟨next, returned, _⟩ := call_returns s indexed c natural safe
      exact ⟨next, returned⟩

theorem inserted_line_indexed : (⟨1, false, [0, 2], some (str "a\nb")⟩ : File).lines = starts newline (str "a\nb") :=
  (line_index_exact bareHost [.readerio (.ok (str "a\n"))] ⟨1, false, [0], some (str "a\n")⟩
    ⟨1, false, [0, 2], some (str "a\nb")⟩ rfl ⟨[.replace (some (str "b")) 2 2], rfl⟩).1

-- The line after the largest one wraps around, and the end is looked up below the first line.
theorem read_after_largest_panics :
    newTextEditor bareHost [.readerio (.ok (str "a\n"))] = .ok (.ok ⟨1, false, [0], some (str "a\n")⟩) ∧
      (Call.read (.ok (str "b\n")) Int64.maxValue 0).Natural ∧
      call (.read (.ok (str "b\n")) Int64.maxValue 0) ⟨1, false, [0], some (str "a\n")⟩ = none :=
  ⟨rfl, by decide, rfl⟩

end Calls

end URoot.Ed
