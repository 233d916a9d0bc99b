import URoot.Lib.Codec
import Mathlib.Data.List.Basic

set_option autoImplicit false

namespace GoLib

-- strings.Split with a separator of one byte is List.splitOn.
theorem split_clear {sep : UInt8} {s : Bytes} : ∀ word ∈ s.splitOn sep, sep ∉ word := by
  induction s with
  | nil => simp
  | cons byte rest ih =>
      rw [List.splitOn_cons_eq_if_modifyHead]
      by_cases here : (byte == sep) = true
      · rw [if_pos here, List.forall_mem_cons]
        exact ⟨List.not_mem_nil, ih⟩
      · rw [if_neg here]
        cases parts : rest.splitOn sep with
        | nil => simp
        | cons word tail =>
            rw [parts, List.forall_mem_cons] at ih
            rw [List.modifyHead_cons, List.forall_mem_cons]
            refine ⟨?_, ih.2⟩
            rw [List.mem_cons, not_or]
            exact ⟨fun same => here (beq_iff_eq.mpr same.symm), ih.1⟩

theorem split_ended (sep : UInt8) (words : List Bytes) (clear : ∀ word ∈ words, sep ∉ word) :
    (words.flatMap (· ++ [sep])).splitOn sep = words ++ [[]] := by
  induction words with
  | nil => rfl
  | cons word rest ih =>
      obtain ⟨here, later⟩ := List.forall_mem_cons.mp clear
      rw [List.flatMap_cons, List.append_assoc, List.singleton_append, List.splitOn_append_cons_self_of_not_mem here, ih later]
      rfl

end GoLib
