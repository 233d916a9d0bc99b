import Mathlib.Algebra.Order.Ring.Nat
import Mathlib.Data.List.Basic
import Mathlib.Data.Nat.Find

set_option autoImplicit false

namespace GoLib.Search

variable {α : Type} [DecidableEq α] (pat : List α)

def OccursAt (data : List α) (i : Nat) : Prop := (data.drop i).take pat.length = pat

instance (data : List α) (i : Nat) : Decidable (OccursAt pat data i) := inferInstanceAs (Decidable (_ = _))

def index : List α → Option Nat
  | [] => if pat = [] then some 0 else none
  | c :: rest => if OccursAt pat (c :: rest) 0 then some 0 else (index rest).map (· + 1)

-- bytes.Count: the search goes on behind each place found, so overlapping
-- places count once. Every round takes at least one item from a non-empty pattern.
def countLoop : Nat → List α → Nat
  | 0, _ => 0
  | rounds + 1, data =>
      match index pat data with
      | none => 0
      | some i => countLoop rounds (data.drop (i + pat.length)) + 1

def count (data : List α) : Nat := countLoop pat (data.length + 1) data

section Index

variable (data : List α)

omit [DecidableEq α] in
theorem occurs_drop (n i : Nat) : OccursAt pat (data.drop n) i ↔ OccursAt pat data (n + i) := by
  rw [OccursAt, OccursAt, List.drop_drop]

omit [DecidableEq α] in
theorem occurs_inside (i : Nat) (nonempty : pat ≠ []) (here : OccursAt pat data i) : i + pat.length ≤ data.length := by
  have size := congrArg List.length here
  have positive := List.length_pos_iff.mpr nonempty
  rw [List.length_take, List.length_drop] at size
  omega

theorem index_some_iff (i : Nat) :
    index pat data = some i ↔ OccursAt pat data i ∧ ∀ j < i, ¬ OccursAt pat data j := by
  induction data generalizing i with
  | nil =>
      have everywhere : ∀ j, OccursAt pat [] j ↔ pat = [] := by
        intro j
        rw [OccursAt, List.drop_nil, List.take_nil, eq_comm]
      simp only [index, everywhere]
      constructor
      · intro found
        split at found
        · rename_i empty
          cases found
          exact ⟨empty, fun j before => absurd before (Nat.not_lt_zero j)⟩
        · cases found
      · rintro ⟨empty, first⟩
        have zero : i = 0 := Nat.eq_zero_of_not_pos fun positive => first 0 positive empty
        rw [if_pos empty, zero]
  | cons c rest ih =>
      have later : ∀ j, OccursAt pat (c :: rest) (j + 1) ↔ OccursAt pat rest j := fun _ => Iff.rfl
      rw [index]
      by_cases here : OccursAt pat (c :: rest) 0
      · rw [if_pos here]
        constructor
        · intro found
          cases found
          exact ⟨here, fun j before => absurd before (Nat.not_lt_zero j)⟩
        · rintro ⟨_, first⟩
          have zero : i = 0 := Nat.eq_zero_of_not_pos fun positive => first 0 positive here
          rw [zero]
      · rw [if_neg here, Option.map_eq_some_iff]
        constructor
        · rintro ⟨k, found, rfl⟩
          obtain ⟨there, first⟩ := (ih k).mp found
          refine ⟨there, fun j before => ?_⟩
          cases j with
          | zero => exact here
          | succ j => exact first j (Nat.lt_of_succ_lt_succ before)
        · rintro ⟨there, first⟩
          cases i with
          | zero => exact absurd there here
          | succ i => exact ⟨i, (ih i).mpr ⟨there, fun j before => first (j + 1) (Nat.succ_lt_succ before)⟩, rfl⟩

theorem index_none (missing : ∀ i, ¬ OccursAt pat data i) : index pat data = none := by
  cases found : index pat data with
  | none => rfl
  | some i => exact absurd ((index_some_iff pat data i).mp found).1 (missing i)

end Index

section Once

variable (data : List α) (i : Nat) (here : OccursAt pat data i) (only : ∀ j, OccursAt pat data j → j = i)

include here only

theorem index_once : index pat data = some i := by
  rw [index_some_iff]
  exact ⟨here, fun j before there => absurd (only j there) (Nat.ne_of_lt before)⟩

theorem count_once (nonempty : pat ≠ []) : count pat data = 1 := by
  have behind : index pat (data.drop (i + pat.length)) = none := by
    apply index_none
    intro j there
    have positive := List.length_pos_iff.mpr nonempty
    have same := only _ ((occurs_drop pat data _ j).mp there)
    omega
  have rest : ∀ rounds, countLoop pat rounds (data.drop (i + pat.length)) = 0 := by
    intro rounds
    cases rounds with
    | zero => rfl
    | succ rounds => rw [countLoop, behind]
  rw [count, countLoop, index_once pat data i here only]
  simp only [rest]

end Once

section Overlap

variable (data : List α)

omit [DecidableEq α] in
theorem occurs_overlap (p k : Nat) (here : OccursAt pat data p) (there : OccursAt pat data (p + k)) :
    pat.drop k = pat.take (pat.length - k) := by
  calc
    pat.drop k = ((data.drop p).take pat.length).drop k := by rw [here]
    _ = (data.drop (p + k)).take (pat.length - k) := by rw [List.drop_take, List.drop_drop]
    _ = ((data.drop (p + k)).take pat.length).take (pat.length - k) := by
      rw [List.take_take, Nat.min_eq_left (Nat.sub_le _ _)]
    _ = pat.take (pat.length - k) := by rw [there]

theorem index_before (p : Nat) (here : OccursAt pat data p) : ∃ i, index pat data = some i ∧ i ≤ p := by
  cases found : index pat data with
  | none =>
      have first := Nat.find_spec ⟨p, here⟩
      have least : index pat data = some (Nat.find ⟨p, here⟩) :=
        (index_some_iff pat data _).mpr ⟨first, fun j before => Nat.find_min ⟨p, here⟩ before⟩
      rw [found] at least
      cases least
  | some i =>
      refine ⟨i, rfl, Nat.le_of_not_lt fun before => ?_⟩
      exact ((index_some_iff pat data i).mp found).2 p before here

theorem count_loop_positive (rounds : Nat) : 0 < countLoop pat (rounds + 1) data ↔ ∃ p, OccursAt pat data p := by
  rw [countLoop]
  constructor
  · intro positive
    cases found : index pat data with
    | none =>
        rw [found] at positive
        exact absurd positive (Nat.lt_irrefl 0)
    | some i => exact ⟨i, ((index_some_iff pat data i).mp found).1⟩
  · rintro ⟨p, here⟩
    obtain ⟨i, found, _⟩ := index_before pat data p here
    rw [found]
    exact Nat.succ_pos _

theorem two_le_count_iff (nonempty : pat ≠ []) :
    2 ≤ count pat data ↔ ∃ p q, OccursAt pat data p ∧ OccursAt pat data q ∧ p + pat.length ≤ q := by
  have positive := List.length_pos_iff.mpr nonempty
  constructor
  · intro twice
    rw [count, countLoop] at twice
    cases found : index pat data with
    | none =>
        rw [found] at twice
        cases twice
    | some i =>
        have here := ((index_some_iff pat data i).mp found).1
        have inside := occurs_inside pat data i nonempty here
        rw [found] at twice
        obtain ⟨rounds, size⟩ := Nat.exists_eq_succ_of_ne_zero (n := data.length) (by omega)
        rw [size] at twice
        have again := Nat.lt_of_succ_le (Nat.le_of_succ_le_succ twice)
        obtain ⟨j, there⟩ := (count_loop_positive pat (data.drop (i + pat.length)) rounds).mp again
        exact ⟨i, _, here, (occurs_drop pat data _ j).mp there, Nat.le_add_right _ _⟩
  · rintro ⟨p, q, here, there, apart⟩
    obtain ⟨i, found, early⟩ := index_before pat data p here
    have inside := occurs_inside pat data p nonempty here
    obtain ⟨rounds, size⟩ := Nat.exists_eq_succ_of_ne_zero (n := data.length) (by omega)
    have behind : OccursAt pat (data.drop (i + pat.length)) (q - (i + pat.length)) := by
      rw [occurs_drop, Nat.add_sub_cancel' (by omega)]
      exact there
    have more := (count_loop_positive pat (data.drop (i + pat.length)) rounds).mpr ⟨_, behind⟩
    rw [count, countLoop, found, size]
    exact Nat.succ_le_succ more

end Overlap

end GoLib.Search
