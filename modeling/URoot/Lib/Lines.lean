import Mathlib.Algebra.Order.Ring.Nat
import Mathlib.Data.List.Induction
import Mathlib.Tactic.Common

set_option autoImplicit false

namespace GoLib.Lines

def newline : UInt8 := 10

-- Where the lines of a text begin. A line is ended by a newline, which belongs
-- to it; what follows the last newline is a line when it is not empty.
section Starts

variable {α : Type} [DecidableEq α] (nl : α)

def starts (text : List α) : List Nat :=
  (List.range text.length).filter (fun i => i = 0 ∨ text[i - 1]? = some nl)

def breaks (text : List α) : List Nat :=
  (List.range text.length).filter (fun i => i ≠ 0 ∧ text[i - 1]? = some nl)

theorem mem_starts (text : List α) (i : Nat) :
    i ∈ starts nl text ↔ i < text.length ∧ (i = 0 ∨ text[i - 1]? = some nl) := by
  simp only [starts, List.mem_filter, List.mem_range, decide_eq_true_eq]

theorem starts_sorted (text : List α) : (starts nl text).Pairwise (· < ·) := List.pairwise_lt_range.filter _

theorem starts_nil : starts nl ([] : List α) = [] := rfl

theorem breaks_sorted (text : List α) : (breaks nl text).Pairwise (· < ·) := List.pairwise_lt_range.filter _

theorem breaks_inside (text : List α) (i : Nat) (there : i ∈ breaks nl text) : i < text.length := by
  simp only [breaks, List.mem_filter, List.mem_range] at there
  exact there.1

theorem breaks_snoc (text : List α) (b : α) :
    breaks nl (text ++ [b]) = breaks nl text ++ if text.getLast? = some nl then [text.length] else [] := by
  have earlier : (List.range text.length).filter (fun i => decide (i ≠ 0 ∧ (text ++ [b])[i - 1]? = some nl)) =
      breaks nl text := by
    refine List.filter_congr (fun i there => ?_)
    rw [List.getElem?_append_left (by have := List.mem_range.mp there; omega)]
  rw [breaks, List.length_append, List.length_singleton, List.range_succ, List.filter_append, earlier]
  congr 1
  cases text using List.reverseRecOn with
  | nil => rfl
  | append_singleton front last =>
      by_cases newline : last = nl <;> simp [newline]

theorem starts_breaks {text : List α} (some_ : text ≠ []) : starts nl text = 0 :: breaks nl text := by
  obtain ⟨n, length⟩ := Nat.exists_eq_succ_of_ne_zero (fun empty => some_ (List.length_eq_zero_iff.mp empty))
  rw [starts, breaks, length, Nat.succ_eq_add_one, List.range_succ_eq_map, List.filter_cons_of_pos (by simp),
    List.filter_cons_of_neg (by simp)]
  congr 1
  refine List.filter_congr (fun i there => ?_)
  obtain ⟨j, _, rfl⟩ := List.mem_map.mp there
  simp

end Starts

section Scan

variable {α σ : Type} [DecidableEq α] (nl : α) (act : σ → Nat → σ)

def scanStep (state : σ × Bool) (item : α × Nat) : σ × Bool :=
  let (s, sawnl) := if state.2 then (act state.1 item.2, false) else state
  if item.1 = nl then (s, true) else (s, sawnl)

def scan (s : σ) (text : List α) : σ := (text.zipIdx.foldl (scanStep nl act) (s, false)).1

theorem scan_step_eq (state : σ × Bool) (item : α × Nat) :
    scanStep nl act state item = (if state.2 then act state.1 item.2 else state.1, decide (item.1 = nl)) := by
  rcases state with ⟨s, sawnl⟩
  cases sawnl <;> by_cases newline : item.1 = nl <;> simp [scanStep, newline]

theorem scan_fold (s : σ) (text : List α) :
    text.zipIdx.foldl (scanStep nl act) (s, false) = ((breaks nl text).foldl act s, decide (text.getLast? = some nl)) := by
  induction text using List.reverseRecOn with
  | nil => simp [breaks]
  | append_singleton text b ih =>
      rw [List.zipIdx_append, List.foldl_append, ih, breaks_snoc, List.foldl_append]
      simp only [List.zipIdx_singleton, List.foldl_cons, List.foldl_nil, scan_step_eq, Nat.zero_add,
        List.getLast?_append, List.getLast?_singleton]
      by_cases newline : text.getLast? = some nl <;> simp [newline]

theorem scan_breaks (s : σ) (text : List α) : scan nl act s text = (breaks nl text).foldl act s := by
  rw [scan, scan_fold]

end Scan

section Pieces

variable {α : Type} [DecidableEq α] (nl : α)

def pieces : List α → List (List α)
  | [] => []
  | b :: rest =>
      if b = nl then [b] :: pieces rest
      else
        match pieces rest with
        | [] => [[b]]
        | line :: lines => (b :: line) :: lines

def readString : List α → Option (List α × List α)
  | [] => none
  | b :: rest => if b = nl then some ([b], rest) else (readString rest).map (fun (line, left) => (b :: line, left))

theorem read_string_inv (text line rest : List α) (read : readString nl text = some (line, rest)) :
    ∃ front, nl ∉ front ∧ line = front ++ [nl] ∧ text = front ++ nl :: rest := by
  induction text generalizing line with
  | nil => cases read
  | cons b text ih =>
      rw [readString] at read
      by_cases newline : b = nl
      · rw [if_pos newline] at read
        cases read
        exact ⟨[], List.not_mem_nil, by rw [newline]; rfl, by rw [newline]; rfl⟩
      · rw [if_neg newline] at read
        obtain ⟨⟨found, left⟩, later, same⟩ := Option.map_eq_some_iff.mp read
        cases same
        obtain ⟨front, apart, rfl, rfl⟩ := ih found later
        exact ⟨b :: front, List.not_mem_cons_of_ne_of_not_mem (Ne.symm newline) apart, rfl, rfl⟩

theorem read_string_none (text : List α) (nothing : readString nl text = none) : nl ∉ text := by
  induction text with
  | nil => exact List.not_mem_nil
  | cons b text ih =>
      rw [readString] at nothing
      by_cases newline : b = nl
      · rw [if_pos newline] at nothing
        cases nothing
      · rw [if_neg newline] at nothing
        exact List.not_mem_cons_of_ne_of_not_mem (Ne.symm newline) (ih (Option.map_eq_none_iff.mp nothing))

theorem pieces_flatten (text : List α) : (pieces nl text).flatten = text := by
  induction text with
  | nil => rfl
  | cons b text ih =>
      rw [pieces]
      split
      · rw [List.flatten_cons, ih, List.singleton_append]
      · cases later : pieces nl text with
        | nil =>
            rw [later] at ih
            rw [← ih]
            rfl
        | cons line lines =>
            rw [later] at ih
            rw [← ih]
            rfl

theorem pieces_front (front rest : List α) (apart : nl ∉ front) :
    pieces nl (front ++ nl :: rest) = (front ++ [nl]) :: pieces nl rest := by
  induction front with
  | nil => simp [pieces]
  | cons b front ih =>
      have other : b ≠ nl := fun same => apart (same ▸ List.mem_cons_self)
      have later := ih (fun inside => apart (List.mem_cons_of_mem _ inside))
      simp only [List.cons_append, pieces, if_neg other, later]

theorem pieces_unended (text : List α) (nothing : readString nl text = none) : ∀ line ∈ pieces nl text, nl ∉ line := by
  intro line there inside
  apply read_string_none nl text nothing
  rw [← pieces_flatten nl text]
  exact List.mem_flatten_of_mem there inside

theorem pieces_read (text line rest : List α) (read : readString nl text = some (line, rest)) :
    pieces nl text = line :: pieces nl rest := by
  obtain ⟨front, apart, rfl, rfl⟩ := read_string_inv nl text line rest read
  exact pieces_front nl front rest apart

theorem read_string_count {text line rest : List α} (read : readString nl text = some (line, rest)) :
    text.count nl = rest.count nl + 1 := by
  obtain ⟨front, apart, _, rfl⟩ := read_string_inv nl text line rest read
  rw [List.count_append, List.count_cons_self, List.count_eq_zero_of_not_mem apart, Nat.zero_add]

end Pieces

section Ended

variable {α : Type} [DecidableEq α] (nl : α)

def ended : List α → List (List α) × List α
  | [] => ([], [])
  | b :: rest =>
      if b = nl then ([b] :: (ended rest).1, (ended rest).2)
      else
        match ended rest with
        | ([], left) => ([], b :: left)
        | (line :: lines, left) => ((b :: line) :: lines, left)

theorem ended_front {front : List α} (rest : List α) (apart : nl ∉ front) :
    ended nl (front ++ nl :: rest) = ((front ++ [nl]) :: (ended nl rest).1, (ended nl rest).2) := by
  induction front with
  | nil => simp [ended]
  | cons b front ih =>
      have other : b ≠ nl := fun same => apart (same ▸ List.mem_cons_self)
      have later := ih (fun inside => apart (List.mem_cons_of_mem _ inside))
      simp only [List.cons_append, ended, if_neg other, later]

theorem ended_last {text : List α} (apart : nl ∉ text) : ended nl text = ([], text) := by
  induction text with
  | nil => rfl
  | cons b text ih =>
      have other : b ≠ nl := fun same => apart (same ▸ List.mem_cons_self)
      have later := ih (fun inside => apart (List.mem_cons_of_mem _ inside))
      simp only [ended, if_neg other, later]

theorem lines_induction {motive : List α → Prop} (last : ∀ text, nl ∉ text → motive text)
    (line : ∀ front rest, nl ∉ front → motive rest → motive (front ++ nl :: rest)) (text : List α) : motive text := by
  induction size : text.length using Nat.strong_induction_on generalizing text with
  | _ size ih =>
      cases read : readString nl text with
      | none => exact last text (read_string_none nl text read)
      | some found =>
          obtain ⟨front, apart, _, rfl⟩ := read_string_inv nl text found.1 found.2 read
          refine line front found.2 apart (ih found.2.length ?_ found.2 rfl)
          rw [← size, List.length_append, List.length_cons]
          omega

theorem pieces_last (text : List α) (apart : nl ∉ text) : pieces nl text = if text = [] then [] else [text] := by
  induction text with
  | nil => rfl
  | cons b text ih =>
      have other : b ≠ nl := fun same => apart (same ▸ List.mem_cons_self)
      have later := ih (fun inside => apart (List.mem_cons_of_mem _ inside))
      rw [pieces, if_neg other, later]
      cases text with
      | nil => rfl
      | cons c text => rfl

theorem ended_pieces (text : List α) :
    pieces nl text = (ended nl text).1 ++ if (ended nl text).2 = [] then [] else [(ended nl text).2] := by
  induction text using lines_induction nl with
  | last text apart => rw [ended_last nl apart, pieces_last nl text apart, List.nil_append]
  | line front rest apart ih =>
      rw [ended_front nl rest apart, pieces_front nl front rest apart, ih, List.cons_append]

theorem ended_lines (data : List α) : (∀ line ∈ (ended nl data).1, nl ∈ line) ∧ nl ∉ (ended nl data).2 := by
  induction data using lines_induction nl with
  | last text apart =>
      rw [ended_last nl apart]
      exact ⟨fun _ there => absurd there List.not_mem_nil, apart⟩
  | line front rest apart ih =>
      rw [ended_front nl rest apart]
      refine ⟨fun line there => ?_, ih.2⟩
      rcases List.mem_cons.mp there with rfl | later
      · simp
      · exact ih.1 line later

theorem ended_none_iff (data : List α) : (ended nl data).1 = [] ↔ nl ∉ data := by
  induction data using lines_induction nl with
  | last text apart =>
      rw [ended_last nl apart]
      exact iff_of_true rfl apart
  | line front rest apart ih =>
      rw [ended_front nl rest apart]
      exact iff_of_false (List.cons_ne_nil _ _) (by simp)

theorem ended_whole_iff (data : List α) : (ended nl data).2 = [] ↔ data = [] ∨ data.getLast? = some nl := by
  induction data using lines_induction nl with
  | last text apart =>
      rw [ended_last nl apart]
      constructor
      · exact Or.inl
      · rintro (empty | last)
        · exact empty
        · exact absurd (List.mem_of_getLast? last) apart
  | line front rest apart ih =>
      rw [ended_front nl rest apart, ih]
      cases rest with
      | nil => simp
      | cons b rest => simp [List.getLast?_cons_cons]

end Ended

section Cut

variable {α : Type}

def cutStep (text : List α) (state : List (List α) × Nat) (i : Nat) : List (List α) × Nat :=
  (state.1 ++ [(text.drop state.2).take (i - state.2)], i)

def offsets : Nat → List (List α) → List Nat
  | _, [] => []
  | at_, piece :: rest => at_ :: offsets (at_ + piece.length) rest

theorem offsets_snoc (at_ : Nat) (pieces : List (List α)) (piece : List α) :
    offsets at_ (pieces ++ [piece]) = offsets at_ pieces ++ [at_ + pieces.flatten.length] := by
  induction pieces generalizing at_ with
  | nil => simp [offsets]
  | cons first rest ih => simp [offsets, ih, Nat.add_assoc]

theorem offsets_shift (at_ by_ : Nat) (pieces : List (List α)) :
    offsets (at_ + by_) pieces = (offsets at_ pieces).map (· + by_) := by
  induction pieces generalizing at_ with
  | nil => rfl
  | cons piece rest ih => rw [offsets, offsets, List.map_cons, ← ih, Nat.add_right_comm]

theorem offsets_length (at_ : Nat) (pieces : List (List α)) : (offsets at_ pieces).length = pieces.length := by
  induction pieces generalizing at_ with
  | nil => rfl
  | cons piece rest ih => rw [offsets, List.length_cons, ih, List.length_cons]

theorem offsets_get (at_ k : Nat) (pieces : List (List α)) (inside : k < pieces.length) :
    (offsets at_ pieces)[k]? = some (at_ + (pieces.take k).flatten.length) := by
  induction pieces generalizing at_ k with
  | nil => cases inside
  | cons piece rest ih =>
      cases k with
      | zero => simp [offsets]
      | succ k =>
          rw [offsets, List.getElem?_cons_succ, ih _ k (Nat.lt_of_succ_lt_succ inside), List.take_succ_cons,
            List.flatten_cons, List.length_append, Nat.add_assoc]

theorem take_drop_take (text : List α) (pos i : Nat) (le : pos ≤ i) :
    text.take pos ++ (text.drop pos).take (i - pos) = text.take i := by
  conv_rhs => rw [← Nat.add_sub_cancel' le, List.take_add]

-- The pieces cut so far are the text before the next piece, and begin where the
-- loop began and at every position met except the last.
theorem cut_fold {text : List α} {positions : List Nat} (sorted : positions.Pairwise (· < ·))
    (inside : ∀ i ∈ positions, 0 < i ∧ i < text.length) :
    let last := positions.foldl (cutStep text) ([], 0)
    last.1.flatten = text.take last.2 ∧ offsets 0 last.1 ++ [last.2] = 0 :: positions ∧ last.2 ∈ 0 :: positions := by
  induction positions using List.reverseRecOn with
  | nil => exact ⟨rfl, rfl, List.mem_cons_self⟩
  | append_singleton positions i ih =>
      obtain ⟨front, _, before⟩ := List.pairwise_append.mp sorted
      obtain ⟨whole, begun, met⟩ := ih front (fun j there => inside j (List.mem_append_left _ there))
      have le : (positions.foldl (cutStep text) ([], 0)).2 ≤ i := by
        rcases List.mem_cons.mp met with zero | there
        · omega
        · exact Nat.le_of_lt (before _ there i List.mem_cons_self)
      obtain ⟨_, bound⟩ := inside i (List.mem_append_right _ List.mem_cons_self)
      dsimp only
      rw [List.foldl_append, List.foldl_cons, List.foldl_nil]
      refine ⟨?_, ?_, List.mem_cons_of_mem _ (List.mem_append_right _ List.mem_cons_self)⟩
      · rw [cutStep, List.flatten_append, List.flatten_singleton, whole, take_drop_take text _ i le]
      · rw [cutStep, offsets_snoc, whole, List.length_take, Nat.zero_add, Nat.min_eq_left (by omega), begun]
        rfl

end Cut

section PieceOffsets

variable {α : Type} [DecidableEq α] (nl : α)

theorem starts_cons_newline (text : List α) : starts nl (nl :: text) = 0 :: (starts nl text).map (· + 1) := by
  rw [starts, List.length_cons, List.range_succ_eq_map, List.filter_cons_of_pos (by simp), List.filter_map, starts]
  congr 2
  refine List.filter_congr (fun i _ => ?_)
  cases i with
  | zero => simp
  | succ i => simp

theorem starts_cons_other (b : α) (text : List α) (other : b ≠ nl) :
    starts nl (b :: text) = 0 :: (breaks nl text).map (· + 1) := by
  rw [starts, List.length_cons, List.range_succ_eq_map, List.filter_cons_of_pos (by simp), List.filter_map, breaks]
  congr 2
  refine List.filter_congr (fun i _ => ?_)
  cases i with
  | zero => simp [other]
  | succ i => simp

theorem pieces_nil_iff (text : List α) : pieces nl text = [] ↔ text = [] := by
  constructor
  · intro nothing
    rw [← pieces_flatten nl text, nothing, List.flatten_nil]
  · intro empty
    rw [empty, pieces]

theorem offsets_pieces (text : List α) : offsets 0 (pieces nl text) = starts nl text := by
  induction text with
  | nil => rfl
  | cons b text ih =>
      rw [pieces]
      by_cases newline : b = nl
      · rw [if_pos newline, newline, offsets, starts_cons_newline, ← ih]
        exact congrArg _ (offsets_shift 0 1 _)
      · rw [if_neg newline, starts_cons_other nl b text newline]
        cases later : pieces nl text with
        | nil =>
            rw [(pieces_nil_iff nl text).mp later]
            rfl
        | cons line lines =>
            have some_ : text ≠ [] := fun empty => by rw [(pieces_nil_iff nl text).mpr empty] at later; cases later
            rw [later, starts_breaks nl some_] at ih
            have tail : offsets line.length lines = breaks nl text := by
              simpa [offsets] using ih
            rw [← tail, offsets, Nat.zero_add, List.length_cons, offsets_shift]

theorem pieces_some (text line : List α) (there : line ∈ pieces nl text) : line ≠ [] := by
  induction text generalizing line with
  | nil => cases there
  | cons b text ih =>
      rw [pieces] at there
      split at there
      · rcases List.mem_cons.mp there with rfl | later
        · exact List.cons_ne_nil _ _
        · exact ih line later
      · split at there
        · rw [List.mem_singleton.mp there]
          exact List.cons_ne_nil _ _
        · rename_i first lines found
          rcases List.mem_cons.mp there with rfl | later
          · exact List.cons_ne_nil _ _
          · exact ih line (by rw [found]; exact List.mem_cons_of_mem _ later)

theorem pieces_starts_length (text : List α) : (pieces nl text).length = (starts nl text).length := by
  rw [← offsets_pieces, offsets_length]

theorem pieces_length_le (text : List α) : (pieces nl text).length ≤ text.length := by
  rw [pieces_starts_length, starts]
  exact (List.length_filter_le _ _).trans_eq List.length_range

end PieceOffsets

end GoLib.Lines
