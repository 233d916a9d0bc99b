import URoot.Sort.Main
import URoot.Uniq.Groups
import Mathlib.Data.List.Dedup

set_option autoImplicit false

namespace URoot.Sort

open GoLib Lines

section Runs

variable (lines distinct : List Bytes)

def copies : List Bytes := distinct.flatMap fun line => List.replicate (lines.count line) line

variable (apart : distinct.Nodup)

include apart

theorem copies_count (x : Bytes) : (copies lines distinct).count x = if x ∈ distinct then lines.count x else 0 := by
  induction distinct with
  | nil => rfl
  | cons line rest ih =>
      obtain ⟨new, later⟩ := List.nodup_cons.mp apart
      rw [copies, List.flatMap_cons, List.count_append, ← copies, ih later, List.count_replicate]
      by_cases same : line = x
      · subst same
        simp [new]
      · simp [same, Ne.symm same]

theorem copies_perm (all : ∀ x, x ∈ distinct ↔ x ∈ lines) : (copies lines distinct).Perm lines := by
  rw [List.perm_iff_count]
  intro x
  rw [copies_count lines distinct apart x]
  split
  · rfl
  · rename_i absent
    exact (List.count_eq_zero_of_not_mem fun member => absent ((all x).mpr member)).symm

theorem copies_shown (setting : Uniq.Setting) (some : ∀ x ∈ distinct, 0 < lines.count x) :
    setting.shownAll ((copies lines distinct).map (· ++ [newline])) =
      distinct.flatMap fun line => setting.shown (line ++ [newline]) (lines.count line) := by
  induction distinct with
  | nil => rfl
  | cons line rest ih =>
      obtain ⟨new, later⟩ := List.nodup_cons.mp apart
      obtain ⟨here, others⟩ := List.forall_mem_cons.mp some
      obtain ⟨n, count⟩ := Nat.exists_eq_add_one_of_ne_zero here.ne'
      have head : ((copies lines rest).map (· ++ [newline])).head? ≠ Option.some (line ++ [newline]) := by
        intro first
        obtain ⟨other, member, same⟩ := List.mem_map.mp (List.mem_of_head? first)
        obtain ⟨distinct, listed, copy⟩ := List.mem_flatMap.mp member
        rw [List.append_cancel_right same] at copy
        exact new (List.eq_of_mem_replicate copy ▸ listed)
      rw [copies, List.flatMap_cons, List.map_append, List.map_replicate, ← copies, count, Uniq.shown_run setting n _ _ head,
        ih later others, List.flatMap_cons, count]

end Runs

theorem sorted_copies (lines : List Bytes) : sorted false lines = copies lines (sorted false lines.dedup) := by
  have distinct := sorted_perm false lines.dedup
  refine (sorted_unique false lines _ (copies_perm lines _ (distinct.nodup_iff.mpr lines.nodup_dedup)
    fun x => distinct.mem_iff.trans List.mem_dedup) ?_).symm
  rw [copies, List.pairwise_flatMap]
  refine ⟨fun line _ => List.pairwise_replicate.mpr (Or.inr (by simp [le])), (sorted_ordered false _).imp ?_⟩
  intro a b below x left y right
  rwa [List.eq_of_mem_replicate left, List.eq_of_mem_replicate right]

theorem sort_then_uniq (setting : Uniq.Setting) (files : List Bytes) :
    Uniq.uniq setting.flags (output false files) =
      (sorted false (files.flatMap linesOf).dedup).flatMap fun line =>
        setting.shown (line ++ [newline]) ((files.flatMap linesOf).count line) := by
  have clear := sorted_clear false _ (files_clear files)
  have distinct := sorted_perm false (files.flatMap linesOf).dedup
  rw [output_text, Uniq.uniq_ended, ended_text _ clear, pieces_text _ clear,
    Uniq.printed_empty, List.append_nil, ite_self, sorted_copies (files.flatMap linesOf)]
  refine copies_shown _ _ (distinct.nodup_iff.mpr (List.nodup_dedup _)) setting fun x member => ?_
  exact List.count_pos_iff.mpr (List.mem_dedup.mp (distinct.mem_iff.mp member))

end URoot.Sort
