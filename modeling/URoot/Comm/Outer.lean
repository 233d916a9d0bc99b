import URoot.Lib.Codec
import URoot.Lib.Lines
import URoot.Lib.Merge
import URoot.Lib.Pipes
import Mathlib.Data.List.DropRight

set_option autoImplicit false

namespace URoot.Comm

open GoLib Lines Merge Pipes

-- strings.TrimRight(s, "\r\n")
def trimRight (s : Bytes) : Bytes := s.rdropWhile (fun c => c = 13 ∨ c = 10)

-- What reader sends before it closes the channel: also what it reads together with the end of file.
def reader (data : Bytes) : List Bytes := (ended newline data).1.map trimRight ++ [trimRight (ended newline data).2]

structure Out where
  s1 : Bytes
  s2 : Bytes
  s3 : Bytes
deriving DecidableEq, Repr

-- A received string, or none when its channel is closed. The loop starts and goes on after a
-- common line by a receive from both channels.
inductive Pc where
  | receive
  | receive1 (s2 : Option Bytes)
  | receive2 (s1 : Option Bytes)
  | loop (s1 s2 : Option Bytes)
deriving DecidableEq, Repr

def want : Pc → Want Bool Bytes Out Pc
  | .receive => .receive false (fun s1 => .receive2 s1)
  | .receive1 s2 => .receive false (fun s1 => .loop s1 s2)
  | .receive2 s1 => .receive true (fun s2 => .loop s1 s2)
  | .loop (some s1) (some s2) =>
      if s1 < s2 then .send ⟨s1, [], []⟩ (.receive1 (some s2))
      else if s2 < s1 then .send ⟨[], s2, []⟩ (.receive2 (some s1))
      else .send ⟨[], [], s2⟩ .receive
  | .loop (some s1) none => .send ⟨s1, [], []⟩ (.receive1 none)
  | .loop none (some s2) => .send ⟨[], s2, []⟩ (.receive2 none)
  | .loop none none => .stop

def channelSize : Nat := 100

def Sends (data1 data2 : Bytes) (records : List Out) : Prop :=
  Delivers want channelSize (start .receive (pair (reader data1) (reader data2))) (.loop none none) records

section Print

structure Flags where
  s1 : Bool
  s2 : Bool
  s3 : Bool

def printed (flags : Flags) (out : Out) : Option Bytes :=
  let line := (if flags.s1 then [] else out.s1) ++ str "\t" ++ (if flags.s2 then [] else out.s2) ++ str "\t" ++
    (if flags.s3 then [] else out.s3)
  if line ≠ str "\t\t" then some (line.rdropWhile (· = 9) ++ [newline]) else none

end Print

section Merged

def column : Side × Bytes → Out
  | (.left, s) => ⟨s, [], []⟩
  | (.right, s) => ⟨[], s, []⟩
  | (.both, s) => ⟨[], [], s⟩

variable (sent : List Out)

theorem first_ends (xs : List Bytes) : ∃ n, Ends want n ⟨.loop xs.head? none, pair xs.tail [], sent⟩
    ⟨.loop none none, pair [] [], sent ++ (xs.map (Prod.mk .left)).map column⟩ := by
  induction xs generalizing sent with
  | nil => exact ⟨0, by simpa using ends_stop want ⟨.loop none none, pair [] [], sent⟩ rfl⟩
  | cons x xs ih =>
      obtain ⟨n, later⟩ := ih (sent ++ [⟨x, [], []⟩])
      refine ⟨n + 1 + 1, ends_send want _ _ rfl ?_⟩
      refine ends_receive_first want _ xs [] _ _ n _ rfl ?_
      rw [List.append_assoc] at later
      exact later

theorem second_ends (ys : List Bytes) : ∃ n, Ends want n ⟨.loop none ys.head?, pair [] ys.tail, sent⟩
    ⟨.loop none none, pair [] [], sent ++ (ys.map (Prod.mk .right)).map column⟩ := by
  induction ys generalizing sent with
  | nil => exact ⟨0, by simpa using ends_stop want ⟨.loop none none, pair [] [], sent⟩ rfl⟩
  | cons y ys ih =>
      obtain ⟨n, later⟩ := ih (sent ++ [⟨[], y, []⟩])
      refine ⟨n + 1 + 1, ends_send want _ _ rfl ?_⟩
      refine ends_receive_second want _ [] ys _ _ n _ rfl ?_
      rw [List.append_assoc] at later
      exact later

theorem loop_ends (xs ys : List Bytes) : ∃ n, Ends want n ⟨.loop xs.head? ys.head?, pair xs.tail ys.tail, sent⟩
    ⟨.loop none none, pair [] [], sent ++ (tagged xs ys).map column⟩ := by
  induction xs, ys using tagged.induct generalizing sent with
  | case1 ys =>
      rw [tagged]
      exact second_ends sent ys
  | case2 x xs =>
      rw [tagged]
      exact first_ends sent (x :: xs)
  | case3 x xs y ys less ih =>
      obtain ⟨n, later⟩ := ih (sent ++ [⟨x, [], []⟩])
      have sends : want (.loop (some x) (some y)) = .send ⟨x, [], []⟩ (.receive1 (some y)) := by rw [want, if_pos less]
      refine ⟨n + 1 + 1, ends_send want _ _ sends ?_⟩
      refine ends_receive_first want _ xs ys _ _ n _ rfl ?_
      rw [List.append_assoc] at later
      rw [tagged, if_pos less]
      exact later
  | case4 x xs y ys notLess more ih =>
      obtain ⟨n, later⟩ := ih (sent ++ [⟨[], y, []⟩])
      have sends : want (.loop (some x) (some y)) = .send ⟨[], y, []⟩ (.receive2 (some x)) := by
        rw [want, if_neg notLess, if_pos more]
      refine ⟨n + 1 + 1, ends_send want _ _ sends ?_⟩
      refine ends_receive_second want _ xs ys _ _ n _ rfl ?_
      rw [List.append_assoc] at later
      rw [tagged, if_neg notLess, if_pos more]
      exact later
  | case5 x xs y ys notLess notMore ih =>
      obtain ⟨n, later⟩ := ih (sent ++ [⟨[], [], y⟩])
      have sends : want (.loop (some x) (some y)) = .send ⟨[], [], y⟩ .receive := by
        rw [want, if_neg notLess, if_neg notMore]
      refine ⟨n + 1 + 1 + 1, ends_send want _ _ sends ?_⟩
      refine ends_receive_first want _ xs ys _ _ (n + 1) _ rfl ?_
      refine ends_receive_second want _ xs.tail ys _ _ n _ rfl ?_
      rw [List.append_assoc] at later
      rw [tagged, if_neg notLess, if_neg notMore]
      exact later

theorem sends_tagged (data1 data2 : Bytes) : Sends data1 data2 ((tagged (reader data1) (reader data2)).map column) := by
  obtain ⟨n, ends⟩ := loop_ends [] (reader data1) (reader data2)
  have whole : Ends want (n + 1 + 1) ⟨.receive, pair (reader data1) (reader data2), []⟩
      ⟨.loop none none, pair [] [], [] ++ (tagged (reader data1) (reader data2)).map column⟩ := by
    refine ends_receive_first want _ _ _ _ _ (n + 1) _ rfl ?_
    exact ends_receive_second want _ _ _ _ _ n _ rfl ends
  exact net_delivers want channelSize (by decide) _ _ _ _ whole

end Merged

section Columns

def lines (data : Bytes) : List Bytes := (pieces newline data).map trimRight

def Out.text (out : Out) : Bytes := out.s1 ++ out.s2 ++ out.s3

structure Compared (lines1 lines2 : List Bytes) (records : List Out) : Prop where
  column3 : ∀ x, x ≠ [] → records.count ⟨[], [], x⟩ = min (lines1.count x) (lines2.count x)
  column1 : ∀ x, x ≠ [] → records.count ⟨x, [], []⟩ = lines1.count x - min (lines1.count x) (lines2.count x)
  column2 : ∀ x, x ≠ [] → records.count ⟨[], x, []⟩ = lines2.count x - min (lines1.count x) (lines2.count x)
  one : ∀ out ∈ records, ∃ x, x ≠ [] ∧ (out = ⟨x, [], []⟩ ∨ out = ⟨[], x, []⟩ ∨ out = ⟨[], [], x⟩)
  sorted : records.Pairwise (fun a b => a.text ≤ b.text)

theorem column_eq_iff (item : Side × Bytes) (side : Side) (x : Bytes) (some_ : x ≠ []) :
    column item = column (side, x) ↔ item = (side, x) := by
  obtain ⟨other, s⟩ := item
  cases other <;> cases side <;> simp [column, some_.symm]

theorem column_empty_iff (item : Side × Bytes) : column item = ⟨[], [], []⟩ ↔ item.2 = [] := by
  obtain ⟨side, s⟩ := item
  cases side <;> simp [column]

theorem column_text (item : Side × Bytes) : (column item).text = item.2 := by
  obtain ⟨side, s⟩ := item
  cases side <;> simp [column, Out.text]

theorem count_column (items : List (Side × Bytes)) (side : Side) (x : Bytes) (some_ : x ≠ []) :
    (items.map column).count (column (side, x)) = items.count (side, x) := by
  rw [List.count, List.count, List.countP_map]
  apply List.countP_congr
  intro item _
  simp [column_eq_iff item side x some_]

theorem reader_lines (data : Bytes) : ∃ last, Trails [] last ∧ reader data = lines data ++ last := by
  have whole := ended_pieces newline data
  rw [reader, lines, whole]
  by_cases nothing : (ended newline data).2 = []
  · refine ⟨[[]], Or.inr rfl, ?_⟩
    rw [nothing, if_pos rfl, List.append_nil]
    rfl
  · refine ⟨[], Or.inl rfl, ?_⟩
    rw [if_neg nothing, List.map_append, List.append_nil]
    rfl

theorem low_all (items : List Bytes) (full : ∀ item ∈ items, item ≠ []) : ∀ item ∈ items, [] < item := by
  intro item there
  cases item with
  | nil => exact absurd rfl (full [] there)
  | cons b rest => exact List.nil_lt_cons b rest

theorem records_full (data1 data2 : Bytes) (full1 : ∀ line ∈ lines data1, line ≠ []) (full2 : ∀ line ∈ lines data2, line ≠ []) :
    ((tagged (reader data1) (reader data2)).map column).filter (· ≠ ⟨[], [], []⟩) =
      (tagged (lines data1) (lines data2)).map column := by
  obtain ⟨last1, trails1, read1⟩ := reader_lines data1
  obtain ⟨last2, trails2, read2⟩ := reader_lines data2
  have merged := tagged_trailing [] (low_all _ full1) (low_all _ full2) trails1 trails2
  rw [List.filter_map, read1, read2, ← merged]
  congr 1
  apply List.filter_congr
  intro item _
  simp [column_empty_iff]

theorem tagged_compared (lines1 lines2 : List Bytes) (full1 : ∀ line ∈ lines1, line ≠ []) (full2 : ∀ line ∈ lines2, line ≠ [])
    (sorted1 : lines1.Pairwise (· ≤ ·)) (sorted2 : lines2.Pairwise (· ≤ ·)) :
    Compared lines1 lines2 ((tagged lines1 lines2).map column) where
  column3 x some_ := (count_column _ .both x some_).trans (tagged_counted _ _ sorted1 sorted2 x).both
  column1 x some_ := by
    have counted := (count_column _ .left x some_).trans (tagged_counted _ _ sorted1 sorted2 x).left
    exact counted.trans (by omega)
  column2 x some_ := by
    have counted := (count_column _ .right x some_).trans (tagged_counted _ _ sorted1 sorted2 x).right
    exact counted.trans (by omega)
  one out there := by
    obtain ⟨item, member, rfl⟩ := List.mem_map.mp there
    have full : item.2 ≠ [] := by
      rcases mem_tagged (List.mem_map_of_mem member) with first | second
      · exact full1 _ first
      · exact full2 _ second
    obtain ⟨side, s⟩ := item
    refine ⟨s, full, ?_⟩
    cases side with
    | left => exact Or.inl rfl
    | right => exact Or.inr (Or.inl rfl)
    | both => exact Or.inr (Or.inr rfl)
  sorted := by
    have inOrder := tagged_sorted lines1 lines2 sorted1 sorted2
    rw [List.pairwise_map] at inOrder ⊢
    simpa only [column_text] using inOrder

end Columns

theorem comm_compares (data1 data2 : Bytes) (full1 : ∀ line ∈ lines data1, line ≠ []) (full2 : ∀ line ∈ lines data2, line ≠ [])
    (sorted1 : (lines data1).Pairwise (· ≤ ·)) (sorted2 : (lines data2).Pairwise (· ≤ ·)) :
    ∃ records, Sends data1 data2 records ∧ Compared (lines data1) (lines data2) (records.filter (· ≠ ⟨[], [], []⟩)) := by
  refine ⟨_, sends_tagged data1 data2, ?_⟩
  rw [records_full data1 data2 full1 full2]
  exact tagged_compared _ _ full1 full2 sorted1 sorted2

theorem letters_compared : ∃ records, Sends (str "a\na\nb\n") (str "a\nc") records ∧
    Compared [str "a", str "a", str "b"] [str "a", str "c"] (records.filter (· ≠ ⟨[], [], []⟩)) :=
  comm_compares (str "a\na\nb\n") (str "a\nc") (by decide) (by decide) (by decide) (by decide)

end URoot.Comm
