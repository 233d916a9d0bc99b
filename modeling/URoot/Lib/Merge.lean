import Mathlib.Algebra.Order.Ring.Nat
import Mathlib.Tactic.Common

set_option autoImplicit false

namespace GoLib.Merge

inductive Side where
  | left
  | right
  | both
deriving DecidableEq, Repr

section Tagged

variable {α : Type} [LT α] [DecidableLT α]

def tagged : List α → List α → List (Side × α)
  | [], ys => ys.map (Prod.mk .right)
  | x :: xs, [] => (x :: xs).map (Prod.mk .left)
  | x :: xs, y :: ys =>
      if x < y then (.left, x) :: tagged xs (y :: ys)
      else if y < x then (.right, y) :: tagged (x :: xs) ys
      else (.both, y) :: tagged xs ys
termination_by xs ys => xs.length + ys.length

theorem tagged_left (xs : List α) : tagged xs [] = xs.map (Prod.mk .left) := by
  cases xs with
  | nil => rw [tagged, List.map_nil, List.map_nil]
  | cons x xs => rw [tagged]

theorem mem_tagged {xs ys : List α} {z : α} (there : z ∈ (tagged xs ys).map Prod.snd) : z ∈ xs ∨ z ∈ ys := by
  induction xs, ys using tagged.induct with
  | case1 ys =>
      rw [tagged, List.map_map] at there
      exact Or.inr (by simpa using there)
  | case2 x xs =>
      rw [tagged, List.map_map] at there
      exact Or.inl (by simpa using there)
  | case3 x xs y ys less ih =>
      rw [tagged, if_pos less, List.map_cons, List.mem_cons] at there
      rcases there with rfl | later
      · exact Or.inl List.mem_cons_self
      · exact (ih later).imp_left (List.mem_cons_of_mem x)
  | case4 x xs y ys notLess more ih =>
      rw [tagged, if_neg notLess, if_pos more, List.map_cons, List.mem_cons] at there
      rcases there with rfl | later
      · exact Or.inr List.mem_cons_self
      · exact (ih later).imp_right (List.mem_cons_of_mem y)
  | case5 x xs y ys notLess notMore ih =>
      rw [tagged, if_neg notLess, if_neg notMore, List.map_cons, List.mem_cons] at there
      rcases there with rfl | later
      · exact Or.inr List.mem_cons_self
      · exact (ih later).imp (List.mem_cons_of_mem x) (List.mem_cons_of_mem y)

end Tagged

section Counted

variable {α : Type} [BEq α] [LawfulBEq α]

structure Counted (xs ys : List α) (items : List (Side × α)) (z : α) : Prop where
  both : items.count (.both, z) = min (xs.count z) (ys.count z)
  left : items.count (.left, z) = xs.count z - ys.count z
  right : items.count (.right, z) = ys.count z - xs.count z

theorem count_side (side other : Side) (items : List α) (z : α) :
    (items.map (Prod.mk side)).count (other, z) = if side = other then items.count z else 0 := by
  induction items with
  | nil => simp
  | cons item rest ih =>
      have head : ((side, item) == (other, z)) = (side == other && item == z) := rfl
      rw [List.map_cons, List.count_cons, ih, List.count_cons, head]
      by_cases same : side = other
      · subst same
        rw [if_pos rfl, if_pos rfl, beq_self_eq_true, Bool.true_and]
      · simp [same]

variable (xs ys : List α) (items : List (Side × α)) (x z : α) (counted : Counted xs ys items z)

include counted

theorem counted_left (absent : x = z → ys.count z = 0) : Counted (x :: xs) ys ((.left, x) :: items) z := by
  obtain ⟨both, left, right⟩ := counted
  by_cases same : x = z
  · have none := absent same
    refine ⟨?_, ?_, ?_⟩ <;> simp [same, none, both, left, right]
  · refine ⟨?_, ?_, ?_⟩ <;> simp [same, both, left, right]

theorem counted_right (absent : x = z → xs.count z = 0) : Counted xs (x :: ys) ((.right, x) :: items) z := by
  obtain ⟨both, left, right⟩ := counted
  by_cases same : x = z
  · have none := absent same
    refine ⟨?_, ?_, ?_⟩ <;> simp [same, none, both, left, right]
  · refine ⟨?_, ?_, ?_⟩ <;> simp [same, both, left, right]

theorem counted_both : Counted (x :: xs) (x :: ys) ((.both, x) :: items) z := by
  obtain ⟨both, left, right⟩ := counted
  by_cases same : x = z
  · refine ⟨?_, ?_, ?_⟩
    · simp [same, both]
    · simp [same, left]
    · simp [same, right]
  · refine ⟨?_, ?_, ?_⟩ <;> simp [same, both, left, right]

end Counted

section Sorted

variable {α : Type} [LE α] [LT α] [DecidableLT α] [BEq α] [LawfulBEq α] [Std.IsLinearOrder α] [Std.LawfulOrderLT α]

omit [DecidableLT α] [BEq α] [LawfulBEq α] in
theorem less_all {x y : α} {ys : List α} (sorted : (y :: ys).Pairwise (· ≤ ·)) (less : x < y) : ∀ item ∈ y :: ys, x < item := by
  intro item there
  rcases List.mem_cons.mp there with rfl | later
  · exact less
  · exact Std.lt_of_lt_of_le less ((List.pairwise_cons.mp sorted).1 item later)

omit [DecidableLT α] in
theorem count_below (x y z : α) (ys : List α) (sorted : (y :: ys).Pairwise (· ≤ ·)) (less : x < y) (same : x = z) :
    (y :: ys).count z = 0 := by
  subst same
  rw [List.count_eq_zero]
  intro there
  exact Std.lt_irrefl (less_all sorted less x there)

omit [DecidableLT α] [BEq α] [LawfulBEq α] in
theorem eq_of_neither (x y : α) (notLess : ¬ x < y) (notMore : ¬ y < x) : x = y :=
  Std.le_antisymm (Std.not_lt.mp notMore) (Std.not_lt.mp notLess)

theorem tagged_counted (xs ys : List α) (first : xs.Pairwise (· ≤ ·)) (second : ys.Pairwise (· ≤ ·)) (z : α) :
    Counted xs ys (tagged xs ys) z := by
  induction xs, ys using tagged.induct with
  | case1 ys =>
      rw [tagged]
      refine ⟨?_, ?_, ?_⟩ <;> simp [count_side]
  | case2 x xs =>
      rw [tagged]
      refine ⟨?_, ?_, ?_⟩ <;> rw [count_side] <;> simp
  | case3 x xs y ys less ih =>
      rw [tagged, if_pos less]
      exact counted_left xs (y :: ys) _ x z (ih first.tail second) (count_below x y z ys second less)
  | case4 x xs y ys notLess more ih =>
      rw [tagged, if_neg notLess, if_pos more]
      exact counted_right (x :: xs) ys _ y z (ih first second.tail) (count_below y x z xs first more)
  | case5 x xs y ys notLess notMore ih =>
      have same := eq_of_neither x y notLess notMore
      subst same
      rw [tagged, if_neg notLess, if_neg notMore]
      exact counted_both xs ys _ x z (ih first.tail second.tail)

omit [BEq α] [LawfulBEq α] in
theorem tagged_sorted (xs ys : List α) (first : xs.Pairwise (· ≤ ·)) (second : ys.Pairwise (· ≤ ·)) :
    ((tagged xs ys).map Prod.snd).Pairwise (· ≤ ·) := by
  induction xs, ys using tagged.induct with
  | case1 ys =>
      rw [tagged, List.map_map]
      simpa using second
  | case2 x xs =>
      rw [tagged, List.map_map]
      simpa using first
  | case3 x xs y ys less ih =>
      rw [tagged, if_pos less, List.map_cons, List.pairwise_cons]
      refine ⟨fun z there => ?_, ih first.tail second⟩
      rcases mem_tagged there with left | right
      · exact (List.pairwise_cons.mp first).1 z left
      · exact Std.le_of_lt (less_all second less z right)
  | case4 x xs y ys notLess more ih =>
      rw [tagged, if_neg notLess, if_pos more, List.map_cons, List.pairwise_cons]
      refine ⟨fun z there => ?_, ih first second.tail⟩
      rcases mem_tagged there with left | right
      · exact Std.le_of_lt (less_all first more z left)
      · exact (List.pairwise_cons.mp second).1 z right
  | case5 x xs y ys notLess notMore ih =>
      have same := eq_of_neither x y notLess notMore
      subst same
      rw [tagged, if_neg notLess, if_neg notMore, List.map_cons, List.pairwise_cons]
      refine ⟨fun z there => ?_, ih first.tail second.tail⟩
      rcases mem_tagged there with left | right
      · exact (List.pairwise_cons.mp first).1 z left
      · exact (List.pairwise_cons.mp second).1 z right

end Sorted

section Trailing

variable {α : Type} [LE α] [LT α] [DecidableLT α] [DecidableEq α] [Std.LawfulOrderLT α] (low : α)

def Trails (last : List α) : Prop := last = [] ∨ last = [low]

omit [DecidableLT α] in
theorem filter_side (side : Side) (items last : List α) (above : ∀ item ∈ items, low < item) (trails : Trails low last) :
    (((items ++ last).map (Prod.mk side)).filter fun item => item.2 ≠ low) = items.map (Prod.mk side) := by
  have kept : ((items.map (Prod.mk side)).filter fun item => item.2 ≠ low) = items.map (Prod.mk side) := by
    rw [List.filter_eq_self]
    intro item there
    obtain ⟨value, member, rfl⟩ := List.mem_map.mp there
    exact decide_eq_true (Std.ne_of_lt (above value member)).symm
  rw [List.map_append, List.filter_append, kept]
  rcases trails with rfl | rfl
  · simp
  · simp

theorem tagged_trailing {xs ys lastX lastY : List α} (first : ∀ x ∈ xs, low < x) (second : ∀ y ∈ ys, low < y)
    (trailsX : Trails low lastX) (trailsY : Trails low lastY) :
    ((tagged (xs ++ lastX) (ys ++ lastY)).filter fun item => item.2 ≠ low) = tagged xs ys := by
  induction xs, ys using tagged.induct with
  | case1 ys =>
      rw [tagged, List.nil_append]
      rcases trailsX with rfl | rfl
      · rw [tagged]
        exact filter_side low .right ys lastY second trailsY
      · cases ys with
        | nil =>
            rcases trailsY with rfl | rfl
            · rw [List.append_nil, tagged_left]
              simp
            · rw [List.nil_append, tagged, if_neg Std.lt_irrefl, if_neg Std.lt_irrefl, tagged]
              simp
        | cons y ys =>
            have less : low < y := second y List.mem_cons_self
            rw [List.cons_append, tagged, if_pos less, tagged, List.filter_cons_of_neg (by simp)]
            exact filter_side low .right (y :: ys) lastY second trailsY
  | case2 x xs =>
      have less : low < x := first x List.mem_cons_self
      rw [tagged, List.nil_append]
      rcases trailsY with rfl | rfl
      · rw [tagged_left]
        exact filter_side low .left (x :: xs) lastX first trailsX
      · rw [List.cons_append, tagged, if_neg (Std.not_gt_of_lt less), if_pos less, tagged_left,
          List.filter_cons_of_neg (by simp)]
        exact filter_side low .left (x :: xs) lastX first trailsX
  | case3 x xs y ys less ih =>
      have kept : x ≠ low := (Std.ne_of_lt (first x List.mem_cons_self)).symm
      have later := ih (fun z there => first z (List.mem_cons_of_mem x there)) second
      rw [List.cons_append] at later
      rw [List.cons_append, List.cons_append, tagged, tagged, if_pos less, if_pos less,
        List.filter_cons_of_pos (by simpa using kept), later]
  | case4 x xs y ys notLess more ih =>
      have kept : y ≠ low := (Std.ne_of_lt (second y List.mem_cons_self)).symm
      have later := ih first (fun z there => second z (List.mem_cons_of_mem y there))
      rw [List.cons_append] at later
      rw [List.cons_append, List.cons_append, tagged, tagged, if_neg notLess, if_pos more, if_neg notLess, if_pos more,
        List.filter_cons_of_pos (by simpa using kept), later]
  | case5 x xs y ys notLess notMore ih =>
      have kept : y ≠ low := (Std.ne_of_lt (second y List.mem_cons_self)).symm
      have later := ih (fun z there => first z (List.mem_cons_of_mem x there))
        (fun z there => second z (List.mem_cons_of_mem y there))
      rw [List.cons_append, List.cons_append, tagged, tagged, if_neg notLess, if_neg notMore, if_neg notLess, if_neg notMore,
        List.filter_cons_of_pos (by simpa using kept), later]

end Trailing

end GoLib.Merge
