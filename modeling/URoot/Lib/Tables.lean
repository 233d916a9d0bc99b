import Mathlib.Algebra.Order.Ring.Nat
import Mathlib.Data.List.Basic
import Mathlib.Logic.Function.Basic

set_option autoImplicit false

namespace GoLib.Tables

-- A range over a Go map visits the entries in any order. What holds after a whole
-- pass is said of the pass over any list of entries.
section Fold

variable {σ ι β : Type} (put : σ → ι → σ)

theorem pass_keeps {good : σ → Prop} {order : List ι} (keeps : ∀ j ∈ order, ∀ s, good s → good (put s j)) (s : σ)
    (holds : good s) : good (order.foldl put s) := by
  induction order generalizing s with
  | nil => exact holds
  | cons j rest ih =>
      obtain ⟨here, later⟩ := List.forall_mem_cons.mp keeps
      exact ih later (put s j) (here s holds)

theorem pass_sets (good : σ → Prop) (order : List ι) (i : ι) (member : i ∈ order) (sets : ∀ s, good (put s i))
    (keeps : ∀ j ∈ order, ∀ s, good s → good (put s j)) (s : σ) : good (order.foldl put s) := by
  obtain ⟨before, after, rfl⟩ := List.append_of_mem member
  rw [List.foldl_append, List.foldl_cons]
  refine pass_keeps put (fun j later => keeps j ?_) _ (sets _)
  exact List.mem_append_right before (List.mem_cons_of_mem i later)

theorem pass_same (observe : σ → β) (order : List ι) (same : ∀ j ∈ order, ∀ s, observe (put s j) = observe s) (s : σ) :
    observe (order.foldl put s) = observe s :=
  pass_keeps put (fun j member next before => (same j member next).trans before) s rfl

end Fold

section Fill

variable {κ α β : Type} [DecidableEq κ]

def fill (value : κ × α → β) (start : κ → β) (order : List (κ × α)) : κ → β :=
  order.foldl (fun filled e => Function.update filled e.1 (value e)) start

theorem fill_entry (value : κ × α → β) (start : κ → β) (order : List (κ × α)) (e : κ × α) (member : e ∈ order)
    (distinct : ∀ j ∈ order, j.1 = e.1 → j = e) : fill value start order e.1 = value e := by
  apply pass_sets _ (fun filled : κ → β => filled e.1 = value e) order e member
  · intro filled
    exact Function.update_self ..
  · intro j other filled before
    by_cases same : e.1 = j.1
    · rw [distinct j other same.symm]
      exact Function.update_self ..
    · exact (Function.update_of_ne same ..).trans before

theorem fill_zip (start : κ → β) (keys : List κ) (values : List β) (distinct : keys.Nodup) (i : Nat) (k : κ) (v : β)
    (key : keys[i]? = some k) (value : values[i]? = some v) : fill Prod.snd start (keys.zip values) k = v := by
  have member : (k, v) ∈ keys.zip values := by
    apply List.mem_of_getElem? (i := i)
    rw [List.getElem?_zip_eq_some]
    exact ⟨key, value⟩
  refine fill_entry Prod.snd start (keys.zip values) (k, v) member ?_
  intro j other same
  obtain ⟨n, found⟩ := List.mem_iff_getElem?.mp other
  obtain ⟨atKey, atValue⟩ := List.getElem?_zip_eq_some.mp found
  have alike : n = i := by
    apply (List.getElem?_inj (List.getElem?_eq_some_iff.mp atKey).1 distinct).mp
    rw [atKey, key, same]
  rw [alike, value] at atValue
  exact Prod.ext same (Option.some.inj atValue).symm

end Fill

end GoLib.Tables
