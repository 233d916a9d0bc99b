import URoot.Ed.Ranges

set_option autoImplicit false

namespace URoot.Ed

open GoLib Lines

section Reload

variable (host : Host) (f : File)

theorem replaced_whole_iff (n : Bytes) (a b : Int64) (next : File) (replaced : Replaced f n a b next) :
    next.bytes = n ↔ f.addressed a b = f.bytes := by
  obtain ⟨before, after, whole, spliced⟩ := replaced.spliced
  have lengths : next.bytes.length = before.length + n.length + after.length := by
    rw [spliced, List.length_append, List.length_append]
  constructor
  · intro same
    rw [same] at lengths
    have front : before = [] := List.length_eq_zero_iff.mp (by omega)
    have back : after = [] := List.length_eq_zero_iff.mp (by omega)
    rw [whole, front, back, List.nil_append, List.append_nil]
  · intro same
    have parts := congrArg List.length whole
    rw [List.length_append, List.length_append, same] at parts
    have front : before = [] := List.length_eq_zero_iff.mp (by omega)
    have back : after = [] := List.length_eq_zero_iff.mp (by omega)
    rw [spliced, front, back, List.nil_append, List.append_nil]

theorem last_line (indexed : f.Indexed) (fits : f.bytes.length < 2 ^ 63) : f.range.2.toInt = f.text.length := by
  have count := text_length f indexed
  rw [File.range]
  split
  · rename_i none_
    rw [← count, none_]
    rfl
  · rw [count]
    exact line_number _ (text_fits f fits)

-- e reads in place of the lines from 1 up to the last one, which is a point when
-- there is one line only.
theorem range_addressed_iff (indexed : f.Indexed) (fits : f.bytes.length < 2 ^ 63) :
    f.addressed 1 f.range.2 = f.bytes ↔ f.text.length ≠ 1 := by
  have count := text_length f indexed
  have last := last_line f indexed fits
  have one : (1 : Int64).toInt = 1 := rfl
  have begins := first_offset f indexed 1 (by omega)
  rcases Nat.lt_trichotomy f.text.length 1 with empty | single | many
  · have nothing : f.bytes = [] := by
      rw [← text_flatten, List.length_eq_zero_iff.mp (Nat.lt_one_iff.mp empty), List.flatten_nil]
    rw [addressed_empty f indexed _ _ nothing, nothing]
    exact iff_of_true rfl (by omega)
  · have point := slice_x_point f indexed 1 f.range.2 (by omega) (by omega)
    have addressed : f.addressed 1 f.range.2 = [] := by
      rw [File.addressed, slice_some f point ⟨Nat.le_refl _, offset_inside f indexed 1 (by omega),
        offset_place f indexed 1 (by omega), offset_place f indexed 1 (by omega)⟩, Nat.sub_self]
      rfl
    refine iff_of_false (fun same => ?_) (by omega)
    exact absurd single (by rw [File.text, ← same, addressed]; decide)
  · have rest := slice_x_rest f indexed 1 f.range.2 (by omega) (by omega) (by omega)
    rw [begins] at rest
    rw [File.addressed, slice_some f rest ⟨Nat.zero_le _, Nat.le_refl _, Or.inl rfl, Or.inr (Or.inl rfl)⟩]
    exact iff_of_true (by simp) (by omega)

theorem reload_iff (indexed : f.Indexed) (clean : f.dirty = false) (fits : f.bytes.length < 2 ^ 63) (arg d : Bytes)
    (opened : host.openFile (trimLeft arg) = .ok (.ok d)) :
    ∃ next, (doCommand host (101 :: arg)).run f = (.ok none, next) ∧ (next.bytes = d ↔ f.text.length ≠ 1) := by
  have last := last_line f indexed fits
  have natural : ¬ f.Underflows (0 + 1) f.range.2 :=
    natural_returns f ⟨by decide, Int64.le_iff_toInt_le.mpr (by rw [last]; exact Int.natCast_nonneg _)⟩
  obtain ⟨amt, next, ran, replaced⟩ := replace_returns f indexed (some d) (0 + 1) f.range.2 (Or.inr natural)
  have parsed : parseLine f (101 :: arg) = (f, .ok (101 :: arg, f.dot, f.dot + 1)) := rfl
  have entered := run_command host f 101 arg f.dot (f.dot + 1) (by simp [clean])
  refine ⟨next, ?_, ?_⟩
  · rw [run_do_command host f _ (List.cons_ne_nil _ _), parsed]
    refine entered.trans ?_
    rw [show verb 101 = .e from rfl]
    dsimp only
    rw [readCommand, opened]
    dsimp only
    rw [Act.run_bind_ok (Act.run_bind_ok ran)]
    rfl
  · exact (replaced_whole_iff f d _ _ next replaced).trans (range_addressed_iff f indexed fits)

end Reload

def shelf (d : Bytes) : Host := { bareHost with openFile := fun _ => .ok (.ok d) }

theorem three_lines_replaced :
    ∃ next, (doCommand (shelf (str "new\n")) (str "e f")).run threeLines = (.ok none, next) ∧
      (next.bytes = str "new\n" ↔ threeLines.text.length ≠ 1) :=
  reload_iff (shelf (str "new\n")) threeLines (fix_lines_indexed _) rfl (by decide) (str " f") (str "new\n") rfl

-- The one line of the old buffer stays behind the new text.
theorem single_line_remains :
    ((doCommand (shelf (str "new\n")) (str "e f")).run { newFile with data := some (str "old\n") }.fixLines).2.bytes =
      str "new\nold\n" := by
  decide +kernel

end URoot.Ed
