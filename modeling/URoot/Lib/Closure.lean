import Mathlib.Algebra.Order.Ring.Nat
import Mathlib.Data.Finset.Card
import Mathlib.Logic.Relation

set_option autoImplicit false

namespace GoLib.Closure

open Relation

section Walked

variable {α : Type} (edge : α → α → Prop) (root : α → Prop)

def Reached (p : α) : Prop := ∃ r, root r ∧ ReflTransGen edge r p

theorem reached_root (r : α) (start : root r) : Reached edge root r := ⟨r, start, .refl⟩

theorem reached_next (p q : α) (here : Reached edge root p) (step : edge p q) : Reached edge root q := by
  obtain ⟨r, start, path⟩ := here
  exact ⟨r, start, path.tail step⟩

-- A search in depth marks a place before it looks at the places behind it. Only a
-- place it is still at may lead to one that is not marked.
structure Walked (marked isOpen : α → Prop) : Prop where
  inside : ∀ p, marked p → Reached edge root p
  closed : ∀ p, marked p → ¬ isOpen p → ∀ q, edge p q → marked q

variable (marked isOpen : α → Prop)

theorem walked_enter (p : α) (reached : Reached edge root p) (walked : Walked edge root marked isOpen) :
    Walked edge root (fun q => q = p ∨ marked q) (fun q => q = p ∨ isOpen q) where
  inside q here := by
    rcases here with rfl | before
    · exact reached
    · exact walked.inside q before
  closed q here left q' step := by
    rw [not_or] at left
    rcases here with same | before
    · exact absurd same left.1
    · exact Or.inr (walked.closed q before left.2 q' step)

theorem walked_leave (p : α) (behind : ∀ q, edge p q → marked q)
    (walked : Walked edge root marked (fun q => q = p ∨ isOpen q)) : Walked edge root marked isOpen where
  inside := walked.inside
  closed q here left q' step := by
    by_cases same : q = p
    · exact behind q' (same ▸ step)
    · exact walked.closed q here (not_or.mpr ⟨same, left⟩) q' step

theorem walked_all (walked : Walked edge root marked (fun _ => False)) (roots : ∀ r, root r → marked r) (p : α) :
    marked p ↔ Reached edge root p := by
  constructor
  · exact walked.inside p
  · rintro ⟨r, start, path⟩
    induction path with
    | refl => exact roots r start
    | tail _ step ih => exact walked.closed _ ih not_false _ step

end Walked

section Unmarked

variable {α : Type} (all : Finset α)

def unmarked (marked : α → Bool) : Nat := (all.filter (fun p => marked p = false)).card

theorem unmarked_grows (marked next : α → Bool) (grows : ∀ p, marked p = true → next p = true) :
    unmarked all next ≤ unmarked all marked := by
  apply Finset.card_le_card
  intro p member
  obtain ⟨inside, free⟩ := Finset.mem_filter.mp member
  refine Finset.mem_filter.mpr ⟨inside, Bool.eq_false_iff.mpr fun before => ?_⟩
  rw [grows p before] at free
  cases free

theorem unmarked_mark [DecidableEq α] (marked : α → Bool) (p : α) (inside : p ∈ all) (free : marked p = false) :
    unmarked all (Function.update marked p true) < unmarked all marked := by
  apply Finset.card_lt_card
  rw [Finset.ssubset_iff_of_subset]
  · refine ⟨p, Finset.mem_filter.mpr ⟨inside, free⟩, fun member => ?_⟩
    have clash := (Finset.mem_filter.mp member).2
    rw [Function.update_self] at clash
    cases clash
  · intro q member
    obtain ⟨there, clear⟩ := Finset.mem_filter.mp member
    have other : q ≠ p := by
      rintro rfl
      rw [Function.update_self] at clear
      cases clear
    rw [Function.update_of_ne other] at clear
    exact Finset.mem_filter.mpr ⟨there, clear⟩

end Unmarked

end GoLib.Closure
