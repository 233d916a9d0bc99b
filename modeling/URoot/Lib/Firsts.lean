import Mathlib.Algebra.Order.Ring.Nat
import Mathlib.Data.List.Basic
import Mathlib.Data.List.Induction

set_option autoImplicit false

namespace GoLib

variable {α κ : Type} [DecidableEq κ]

def firsts (key : α → κ) (items : List α) : List α :=
  items.zipIdx.filterMap (fun (item, i) => if key item ∈ (items.take i).map key then none else some item)

def fresh (key : α → κ) : List κ → List α → List α
  | _, [] => []
  | seen, item :: rest =>
      if key item ∈ seen then fresh key seen rest else item :: fresh key (key item :: seen) rest

variable (key : α → κ) (seen : List κ) (items : List α)

theorem fresh_congr (a b : List κ) (items : List α) (same : ∀ k, k ∈ a ↔ k ∈ b) :
    fresh key a items = fresh key b items := by
  induction items generalizing a b with
  | nil => rfl
  | cons item rest ih =>
      have extended : ∀ k, k ∈ key item :: a ↔ k ∈ key item :: b := by simp [same]
      simp only [fresh, same, ih a b same, ih _ _ extended]

theorem fresh_key_congr (first second : α → κ) (seen : List κ) (items : List α)
    (same : ∀ item ∈ items, first item = second item) : fresh first seen items = fresh second seen items := by
  induction items generalizing seen with
  | nil => rfl
  | cons item rest ih =>
      have later : ∀ other ∈ rest, first other = second other := fun other member => same other (List.mem_cons_of_mem _ member)
      simp only [fresh, same item List.mem_cons_self, ih _ later]

theorem fresh_append (seen : List κ) (a b : List α) :
    fresh key seen (a ++ b) = fresh key seen a ++ fresh key (a.map key ++ seen) b := by
  induction a generalizing seen with
  | nil => rfl
  | cons item rest ih =>
      by_cases old : key item ∈ seen
      · have same : ∀ k, k ∈ rest.map key ++ seen ↔ k ∈ (item :: rest).map key ++ seen := by
          intro k
          simp only [List.map_cons, List.cons_append, List.mem_cons, List.mem_append]
          constructor
          · exact Or.inr
          · rintro (eq | other)
            · exact Or.inr (eq ▸ old)
            · exact other
        simp only [List.cons_append, fresh, if_pos old, ih, fresh_congr key _ _ b same]
      · have same : ∀ k, k ∈ rest.map key ++ key item :: seen ↔ k ∈ (item :: rest).map key ++ seen := by
          intro k
          simp only [List.map_cons, List.cons_append, List.mem_cons, List.mem_append]
          tauto
        simp only [List.cons_append, fresh, if_neg old, ih, fresh_congr key _ _ b same]

theorem fresh_map {β : Type} (f : β → α) (seen : List κ) (items : List β) :
    fresh key seen (items.map f) = (fresh (key ∘ f) seen items).map f := by
  induction items generalizing seen with
  | nil => rfl
  | cons item rest ih =>
      simp only [List.map_cons, fresh, ih, Function.comp_apply]
      split <;> rfl

theorem fresh_keep (before after : List α) (item : α) (new : key item ∉ before.map key) :
    fresh key [] (before ++ item :: after) =
      fresh key [] before ++ item :: fresh key (key item :: before.map key) after := by
  rw [fresh_append, List.append_nil, fresh, if_neg new]

theorem fresh_split (seen : List κ) (items before after : List α) (item : α)
    (kept : fresh key seen items = before ++ item :: after) :
    ∃ front back, items = front ++ item :: back ∧ fresh key seen front = before ∧
      key item ∉ front.map key ∧ key item ∉ seen := by
  induction items generalizing seen before with
  | nil => cases before <;> cases kept
  | cons first rest ih =>
      rw [fresh] at kept
      split at kept
      · rename_i old
        obtain ⟨front, back, rfl, same, new, unseen⟩ := ih seen before kept
        refine ⟨first :: front, back, rfl, by rw [fresh, if_pos old, same], ?_, unseen⟩
        rw [List.map_cons, List.mem_cons, not_or]
        exact ⟨fun eq => unseen (eq ▸ old), new⟩
      · rename_i unseenFirst
        cases before with
        | nil =>
            simp only [List.nil_append, List.cons.injEq] at kept
            obtain ⟨rfl, _⟩ := kept
            exact ⟨[], rest, rfl, rfl, List.not_mem_nil, unseenFirst⟩
        | cons head before =>
            simp only [List.cons_append, List.cons.injEq] at kept
            obtain ⟨rfl, kept⟩ := kept
            obtain ⟨front, back, rfl, same, new, unseen⟩ := ih _ before kept
            rw [List.mem_cons, not_or] at unseen
            refine ⟨first :: front, back, rfl, by rw [fresh, if_neg unseenFirst, same], ?_, unseen.2⟩
            rw [List.map_cons, List.mem_cons, not_or]
            exact ⟨unseen.1, new⟩

theorem firsts_append_one (items : List α) (last : α) :
    firsts key (items ++ [last]) = firsts key items ++ (if key last ∈ items.map key then [] else [last]) := by
  have early : ∀ p ∈ items.zipIdx, (items ++ [last]).take p.2 = items.take p.2 := by
    intro p member
    have bound := (List.mem_zipIdx member).2.1
    exact List.take_append_of_le_length (by omega)
  have unchanged : items.zipIdx.filterMap
      (fun (item, i) => if key item ∈ ((items ++ [last]).take i).map key then none else some item) =
      firsts key items := by
    apply List.filterMap_congr
    intro p member
    simp only [early p member]
  rw [firsts, List.zipIdx_append, List.filterMap_append, unchanged]
  by_cases old : key last ∈ items.map key
  · rw [if_pos old]
    simp [List.zipIdx, List.filterMap, old]
  · rw [if_neg old]
    simp [List.zipIdx, List.filterMap, old]

theorem fresh_firsts (items : List α) : fresh key [] items = firsts key items := by
  induction items using List.reverseRecOn with
  | nil => rfl
  | append_singleton items last ih =>
      rw [fresh_append, firsts_append_one, ih]
      simp [fresh]

theorem fresh_mem (item : α)
    (kept : item ∈ fresh key seen items) : item ∈ items := by
  induction items generalizing seen with
  | nil => simp [fresh] at kept
  | cons first rest ih =>
      rw [fresh] at kept
      split at kept
      · exact List.mem_cons_of_mem _ (ih _ kept)
      · rcases List.mem_cons.mp kept with here | later
        · exact List.mem_cons.mpr (Or.inl here)
        · exact List.mem_cons_of_mem _ (ih _ later)

theorem fresh_length : (fresh key seen items).length ≤ items.length := by
  induction items generalizing seen with
  | nil => exact Nat.le_refl 0
  | cons item rest ih =>
      rw [fresh]
      split
      · exact Nat.le_succ_of_le (ih seen)
      · exact Nat.succ_le_succ (ih _)

theorem fresh_all (new : ∀ item ∈ items, key item ∉ seen)
    (distinct : items.Pairwise fun a b => key a ≠ key b) : fresh key seen items = items := by
  induction items generalizing seen with
  | nil => rfl
  | cons item rest ih =>
      obtain ⟨here, later⟩ := List.forall_mem_cons.mp new
      obtain ⟨apart, pairs⟩ := List.pairwise_cons.mp distinct
      rw [fresh, if_neg here, ih (key item :: seen) (fun other member => ?_) pairs]
      rw [List.mem_cons, not_or]
      exact ⟨(apart other member).symm, later other member⟩

section Keys

variable (keys more : List κ) (k : κ)

theorem mem_firsts : k ∈ firsts id keys ↔ k ∈ keys := by
  induction keys using List.reverseRecOn with
  | nil => rfl
  | append_singleton keys last ih =>
      rw [firsts_append_one, List.map_id, List.mem_append, List.mem_append, ih, List.mem_singleton]
      by_cases old : last ∈ keys
      · rw [id, if_pos old]
        constructor
        · rintro (there | impossible)
          · exact Or.inl there
          · cases impossible
        · rintro (there | rfl)
          · exact Or.inl there
          · exact Or.inl old
      · rw [id, if_neg old, List.mem_singleton]

theorem firsts_append_keys : firsts id (keys ++ more) = firsts id keys ++ fresh id keys more := by
  rw [← fresh_firsts, fresh_append, fresh_firsts, List.map_id, List.append_nil]

theorem index_firsts_old (old : k ∈ keys) : (firsts id (keys ++ more)).idxOf k = (firsts id keys).idxOf k := by
  rw [firsts_append_keys, List.idxOf_append_of_mem ((mem_firsts keys k).mpr old)]

theorem index_firsts_new (new : k ∉ keys) : (firsts id (keys ++ k :: more)).idxOf k = (firsts id keys).length := by
  rw [firsts_append_keys, fresh, id, if_neg new, List.idxOf_append_of_notMem (mt (mem_firsts keys k).mp new),
    List.idxOf_cons_self, Nat.add_zero]

end Keys

end GoLib
