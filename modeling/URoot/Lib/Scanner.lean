import URoot.Lib.Codec
import URoot.Lib.Lines

set_option autoImplicit false

namespace GoLib.Scanner

open Lines

def maxTokenSize : Nat := 64 * 1024

def lineTexts (data : Bytes) : List Bytes :=
  (ended 10 data).1.map List.dropLast ++ if (ended 10 data).2 = [] then [] else [(ended 10 data).2]

def dropCR (line : Bytes) : Bytes := if line.getLast? = some 13 then line.dropLast else line

-- The buffer has to hold a line and its newline, or a last line and the read that finds the end.
def fits (line : Bytes) : Bool := line.length < maxTokenSize

-- bufio.Scanner with ScanLines: what the calls of Scan yield before they return false.
def scanLines (data : Bytes) : List Bytes := ((lineTexts data).takeWhile fits).map dropCR

def tooLong (data : Bytes) : Bool := !(lineTexts data).all fits

theorem line_texts_front (front rest : Bytes) (apart : 10 ∉ front) : lineTexts (front ++ 10 :: rest) = front :: lineTexts rest := by
  rw [lineTexts, ended_front 10 rest apart, List.map_cons, List.dropLast_concat, List.cons_append, lineTexts]

theorem drop_cr_length (line : Bytes) : (dropCR line).length ≤ line.length := by
  rw [dropCR]
  split
  · rw [List.length_dropLast]
    omega
  · exact Nat.le_refl _

theorem scan_lines_short {data line : Bytes} (scanned : line ∈ scanLines data) : line.length < maxTokenSize := by
  obtain ⟨text, there, rfl⟩ := List.mem_map.mp scanned
  have short := List.all_eq_true.mp List.all_takeWhile text there
  exact Nat.lt_of_le_of_lt (drop_cr_length text) (of_decide_eq_true short)

end GoLib.Scanner
