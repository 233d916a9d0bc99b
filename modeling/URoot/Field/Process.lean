import URoot.Field.Lexer
import URoot.Lib.Scanner

set_option autoImplicit false

namespace URoot.Field

open GoLib Scanner

section Process

-- Split(s, -1) of a compiled regular expression. Between two bytes there is at most one match.
structure Delim where
  split : Bytes → List Bytes
  bound : ∀ s, (split s).length ≤ s.length + 1

def split (s : Bytes) (delim : Delim) (collapse : Bool) : List Bytes :=
  if collapse then (delim.split s).filter (· ≠ []) else delim.split s

structure Output where
  nuloutsep : Bool
  outsep : Bytes

variable (o : Output)

def pprefix (pfx : Bytes) : Bytes := if pfx = [] then [] else if o.nuloutsep then [0] else pfx

structure Printed where
  pfx : Bytes
  printed : Bool
  out : Bytes

def Printed.item (st : Printed) (text : Bytes) : Printed := ⟨o.outsep, true, st.out ++ pprefix o st.pfx ++ text⟩

def fieldLoop (end_ : Int) (fields : List Bytes) : Nat → Nat → Printed → Printed
  | 0, _, st => st
  | rounds + 1, i, st =>
      match fields[i]? with
      | none => st
      | some field => if i < end_ then fieldLoop end_ fields rounds (i + 1) (st.item o field) else st

def beginIndex (fields : List Bytes) (begin_ : Int) : Int :=
  if begin_ = 0 then begin_
  else if begin_ = lastField then fields.length - 1
  else if begin_ < 0 then begin_ + fields.length
  else begin_ - 1

def endIndex (fields : List Bytes) (end_ : Int) : Int := if end_ < 0 then end_ + (fields.length + 1) else end_

def printRange (line : Bytes) (fields : List Bytes) (st : Printed) (r : Frange) : Printed :=
  let st := if r.begin_ = 0 then st.item o line else st
  let begin_ := beginIndex fields r.begin_
  let end_ := endIndex fields r.end_
  if begin_ < 0 ∨ end_ < 0 ∨ end_ < begin_ ∨ fields.length < begin_ then st
  else fieldLoop o end_ fields fields.length begin_.toNat st

def processLine (rv : List Frange) (delim : Delim) (collapse : Bool) (line : Bytes) : Bytes :=
  let st := rv.foldl (printRange o line (split line delim collapse)) ⟨[], false, []⟩
  st.out ++ if st.printed = true ∨ collapse = false then [10] else []

def process (file : Bytes) (rv : List Frange) (delim : Delim) (collapse : Bool) : Bytes × Bytes :=
  ((scanLines file).flatMap (processLine o rv delim collapse),
    if tooLong file then str "bufio.Scanner: token too long\n" else [])

end Process

section Selection

-- A number counts from the left, or from the right when it is negative.
def position (k : Nat) (n : Int) : Int := if n < 0 then k + 1 + n else n

def lower (k : Nat) (begin_ : Int) : Int := if begin_ = lastField then k else position k begin_

def upper (k : Nat) (end_ : Int) : Option Int := if end_ = lastField then none else some (position k end_)

def Frange.selects (r : Frange) (k i : Nat) : Bool :=
  1 ≤ lower k r.begin_ ∧ lower k r.begin_ ≤ i ∧ (upper k r.end_).all (fun hi => (i : Int) ≤ hi)

-- What a range asks for: the whole line for a bare 0, or the fields from one index to another, the first being 1.
def Frange.items (line : Bytes) (fields : List Bytes) (r : Frange) : List Bytes :=
  if r.begin_ = 0 then [line]
  else ((fields.zipIdx 1).filter (fun field => r.selects fields.length field.2)).map Prod.fst

def Frange.Bare (r : Frange) : Prop := r.begin_ = 0 ↔ r.end_ = 0

def separator (o : Output) : Bytes := if o.nuloutsep then [0] else o.outsep

def selected (o : Output) (rv : List Frange) (collapse : Bool) (line : Bytes) (fields : List Bytes) : Bytes :=
  let items := rv.flatMap (Frange.items line fields)
  (separator o).intercalate items ++ if items ≠ [] ∨ collapse = false then [10] else []

end Selection

section Print

variable (o : Output)

theorem field_loop_items (end_ : Int) (fields : List Bytes) (rounds i : Nat) (st : Printed) (enough : fields.length ≤ i + rounds) :
    fieldLoop o end_ fields rounds i st = ((fields.take end_.toNat).drop i).foldl (Printed.item o) st := by
  induction rounds generalizing i st with
  | zero =>
      rw [fieldLoop, List.drop_eq_nil_of_le (by rw [List.length_take]; omega), List.foldl_nil]
  | succ rounds ih =>
      rw [fieldLoop]
      cases found : fields[i]? with
      | none =>
          have outside := List.getElem?_eq_none_iff.mp found
          rw [List.drop_eq_nil_of_le (by rw [List.length_take]; omega), List.foldl_nil]
      | some field =>
          obtain ⟨inside, same⟩ := List.getElem?_eq_some_iff.mp found
          by_cases before : (i : Int) < end_
          · have within_ : i < (fields.take end_.toNat).length := by
              rw [List.length_take]
              omega
            simp only [if_pos before]
            rw [ih (i + 1) _ (by omega), List.drop_eq_getElem_cons within_, List.foldl_cons, List.getElem_take, same]
          · simp only [if_neg before]
            rw [List.drop_eq_nil_of_le (by rw [List.length_take]; omega), List.foldl_nil]

theorem slice_indexed (items : List Bytes) (n a b : Nat) :
    ((items.zipIdx n).filter (fun item => decide (a ≤ item.2 ∧ item.2 < b))).map Prod.fst = (items.take (b - n)).drop (a - n) := by
  induction items generalizing n with
  | nil => simp
  | cons x items ih =>
      have later := ih (n + 1)
      rw [List.zipIdx_cons]
      by_cases past : b ≤ n
      · rw [show b - (n + 1) = 0 by omega, List.take_zero, List.drop_nil] at later
        rw [List.filter_cons_of_neg (by simp; omega), later, show b - n = 0 by omega, List.take_zero, List.drop_nil]
      · rw [show b - n = (b - (n + 1)) + 1 by omega, List.take_succ_cons]
        by_cases early : n < a
        · rw [List.filter_cons_of_neg (by simp; omega), later, show a - n = (a - (n + 1)) + 1 by omega, List.drop_succ_cons]
        · rw [List.filter_cons_of_pos (by simp; omega), List.map_cons, later, show a - n = 0 by omega,
            show a - (n + 1) = 0 by omega, List.drop_zero, List.drop_zero]

theorem begin_index_lower (fields : List Bytes) (begin_ : Int) (some_ : begin_ ≠ 0) :
    beginIndex fields begin_ = lower fields.length begin_ - 1 := by
  rw [beginIndex, lower, position, if_neg some_]
  split
  · rfl
  · split
    · omega
    · rfl

-- No line has so many fields that the mark of the last one would cut them off.
theorem upper_end_index (fields : List Bytes) (end_ : Int) (i : Nat) (few : (fields.length : Int) < lastField) (inside : i ≤ fields.length) :
    ((upper fields.length end_).all (fun hi => (i : Int) ≤ hi)) = decide ((i : Int) ≤ endIndex fields end_) := by
  rw [upper, endIndex, position]
  by_cases open_ : end_ = lastField
  · have mark : ¬ end_ < 0 := by
      rw [open_]
      decide
    rw [if_pos open_, if_neg mark, open_]
    exact (decide_eq_true (show (i : Int) ≤ lastField by omega)).symm
  · rw [if_neg open_]
    split
    · rw [Option.all_some, Int.add_comm]
    · rw [Option.all_some]

theorem selected_slice (fields : List Bytes) (r : Frange) (few : (fields.length : Int) < lastField)
    (positive : 1 ≤ lower fields.length r.begin_) :
    ((fields.zipIdx 1).filter (fun field => r.selects fields.length field.2)).map Prod.fst =
      (fields.take (endIndex fields r.end_).toNat).drop (lower fields.length r.begin_ - 1).toNat := by
  have slice := slice_indexed fields 1 (lower fields.length r.begin_).toNat ((endIndex fields r.end_).toNat + 1)
  rw [Nat.add_sub_cancel] at slice
  rw [show (lower fields.length r.begin_ - 1).toNat = (lower fields.length r.begin_).toNat - 1 by omega, ← slice]
  congr 1
  refine List.filter_congr (fun field there => ?_)
  obtain ⟨least, most, -⟩ := List.mem_zipIdx there
  rw [Frange.selects, upper_end_index fields r.end_ field.2 few (by omega)]
  simp only [decide_eq_true_eq, decide_eq_decide]
  omega

theorem print_range_items (line : Bytes) (fields : List Bytes) (st : Printed) (r : Frange) (bare : r.Bare)
    (few : (fields.length : Int) < lastField) :
    printRange o line fields st r = (r.items line fields).foldl (Printed.item o) st := by
  by_cases zero : r.begin_ = 0
  · have last : endIndex fields r.end_ = 0 := by
      rw [bare.mp zero]
      rfl
    have first : beginIndex fields r.begin_ = 0 := by
      rw [beginIndex, if_pos zero, zero]
    simp only [printRange, Frange.items, if_pos zero, last, first]
    rw [if_neg (by omega), field_loop_items o 0 fields fields.length _ _ (by omega)]
    simp
  · simp only [printRange, Frange.items, if_neg zero, begin_index_lower fields r.begin_ zero]
    split
    · rename_i out
      rw [List.filter_eq_nil_iff.mpr]
      · rfl
      · intro field there
        obtain ⟨least, most, -⟩ := List.mem_zipIdx there
        rw [Frange.selects, upper_end_index fields r.end_ field.2 few (by omega)]
        simp only [decide_eq_true_eq]
        omega
    · rename_i kept
      rw [field_loop_items o _ fields fields.length _ _ (by omega), selected_slice fields r few (by omega)]

theorem print_ranges_items (line : Bytes) (fields : List Bytes) (rv : List Frange) (st : Printed) (bare : ∀ r ∈ rv, r.Bare)
    (few : (fields.length : Int) < lastField) :
    rv.foldl (printRange o line fields) st = (rv.flatMap (Frange.items line fields)).foldl (Printed.item o) st := by
  induction rv generalizing st with
  | nil => rfl
  | cons r rv ih =>
      obtain ⟨here, later⟩ := List.forall_mem_cons.mp bare
      rw [List.foldl_cons, List.flatMap_cons, List.foldl_append, print_range_items o line fields st r here few, ih _ later]

theorem intercalate_snoc (sep : Bytes) (items : List Bytes) (item : Bytes) :
    sep.intercalate (items ++ [item]) = sep.intercalate items ++ (if items = [] then [] else sep) ++ item := by
  induction items with
  | nil => simp
  | cons first items ih =>
      cases items with
      | nil => simp [List.intercalate_cons_cons]
      | cons second items =>
          rw [List.cons_append, List.cons_append, List.intercalate_cons_cons, ← List.cons_append, ih, List.intercalate_cons_cons]
          simp

theorem items_joined (some_ : o.outsep ≠ []) (items : List Bytes) :
    items.foldl (Printed.item o) ⟨[], false, []⟩ =
      ⟨if items = [] then [] else o.outsep, decide (items ≠ []), (separator o).intercalate items⟩ := by
  induction items using List.reverseRecOn with
  | nil => rfl
  | append_singleton items item ih =>
      have joined : pprefix o (if items = [] then [] else o.outsep) = if items = [] then [] else separator o := by
        by_cases empty : items = []
        · rw [if_pos empty, if_pos empty]
          rfl
        · rw [if_neg empty, if_neg empty, pprefix, if_neg some_]
          rfl
      rw [List.foldl_append, ih, List.foldl_cons, List.foldl_nil, Printed.item, joined, intercalate_snoc]
      simp

theorem split_length (line : Bytes) (delim : Delim) (collapse : Bool) : (split line delim collapse).length ≤ line.length + 1 := by
  rw [split]
  split
  · exact Nat.le_trans (List.length_filter_le _ _) (delim.bound line)
  · exact delim.bound line

theorem process_prints_selected (some_ : o.outsep ≠ []) (file : Bytes) (rv : List Frange) (bare : ∀ r ∈ rv, r.Bare) (delim : Delim)
    (collapse : Bool) : (process o file rv delim collapse).1 =
      (scanLines file).flatMap (fun line => selected o rv collapse line (split line delim collapse)) := by
  refine List.flatMap_congr (fun line scanned => ?_)
  have short := scan_lines_short scanned
  have bound := split_length line delim collapse
  have few : ((split line delim collapse).length : Int) < lastField := by
    simp only [maxTokenSize, lastField] at short ⊢
    omega
  rw [processLine, selected, print_ranges_items o line _ rv _ bare few, items_joined o some_]
  simp

end Print

theorem split_on_length (separates : UInt8 → Bool) (s : Bytes) : (s.splitOnP separates).length ≤ s.length + 1 := by
  induction s with
  | nil => exact Nat.le_refl 1
  | cons b s ih =>
      rw [List.splitOnP_cons_eq_if_modifyHead, List.length_cons]
      split
      · rw [List.length_cons]
        omega
      · rw [List.length_modifyHead]
        omega

def commas : Delim := ⟨fun s => s.splitOnP (· == 44), split_on_length (· == 44)⟩

def blanks : Output := ⟨false, str " "⟩

theorem letters_selected : (process blanks (str "a,b,c\n") [⟨-2, lastField⟩, ⟨0, 0⟩] commas true).1 = str "b c a,b,c\n" := by
  have bare : ∀ r ∈ ([⟨-2, lastField⟩, ⟨0, 0⟩] : List Frange), r.Bare := by
    intro r there
    rcases List.mem_pair.mp there with rfl | rfl
    · exact iff_of_false (by decide) (by decide)
    · exact iff_of_true rfl rfl
  rw [process_prints_selected blanks (by decide) (str "a,b,c\n") [⟨-2, lastField⟩, ⟨0, 0⟩] bare commas true]
  decide

end URoot.Field
