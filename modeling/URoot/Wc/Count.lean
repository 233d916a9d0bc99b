import URoot.Lib.Codec
import URoot.Lib.Fields
import URoot.Lib.Lines

set_option autoImplicit false

namespace URoot.Wc

open GoLib Lines

-- The counters are int64 in the source; an input has fewer than 2^63 bytes, so none of them overflows.
@[ext]
structure Cnt where
  nline : Nat
  nword : Nat
  nrune : Nat
  nbadr : Nat
  nchar : Nat
deriving DecidableEq, Repr

section Count

def invalidCountLoop : Nat → Bytes → Nat
  | 0, _ => 0
  | _ + 1, [] => 0
  | fuel + 1, b :: rest =>
      if b < 0x80 then invalidCountLoop fuel rest
      else
        (if (decodeRune (b :: rest)).2 = 1 then 1 else 0) +
          invalidCountLoop fuel ((b :: rest).drop (decodeRune (b :: rest)).2)

def invalidCount (p : Bytes) : Nat := invalidCountLoop p.length p

def Cnt.line (c : Cnt) (counted : Bool) (line : Bytes) : Cnt where
  nline := if counted then c.nline else c.nline + 1
  nword := c.nword + (fields line).length
  nrune := c.nrune + runeCount line
  nbadr := c.nbadr + invalidCount line
  nchar := c.nchar + line.length

-- The lines that are read, then the bytes that come with the error of the last read: none is the end of file.
-- Beside the counts, what is printed on standard error.
def countLoop (fname : Bytes) (c : Cnt) : List Bytes → Bytes → Option Bytes → Cnt × Bytes
  | line :: lines, last, err => countLoop fname (c.line false line) lines last err
  | [], last, none => (c.line true last, [])
  | [], _, some err => (⟨0, 0, 0, 0, 0⟩, str "error " ++ fname ++ str ": " ++ err)

def count (data : Bytes) (err : Option Bytes) (fname : Bytes) : Cnt × Bytes :=
  countLoop fname ⟨0, 0, 0, 0, 0⟩ (ended newline data).1 (ended newline data).2 err

end Count

section Whole

def broken (step : Bytes) : Bool := step.length = 1 ∧ step.all (fun b => 0x80 ≤ b)

def whole (data : Bytes) : Cnt where
  nline := data.count newline
  nword := runStarts isSpaceStep true (runeSteps data)
  nrune := (runeSteps data).length
  nbadr := (runeSteps data).countP broken
  nchar := data.length

def Cnt.plus (c d : Cnt) : Cnt :=
  ⟨c.nline + d.nline, c.nword + d.nword, c.nrune + d.nrune, c.nbadr + d.nbadr, c.nchar + d.nchar⟩

theorem plus_assoc (c d e : Cnt) : (c.plus d).plus e = c.plus (d.plus e) := by
  simp only [Cnt.plus, Nat.add_assoc]

theorem invalid_loop_broken (fuel : Nat) (p : Bytes) (enough : p.length ≤ fuel) :
    invalidCountLoop fuel p = (runeSteps p).countP broken := by
  induction fuel generalizing p with
  | zero =>
      rw [List.length_eq_zero_iff.mp (Nat.le_zero.mp enough)]
      rfl
  | succ fuel ih =>
      cases p with
      | nil => rfl
      | cons b rest =>
          rw [List.length_cons] at enough
          rw [invalidCountLoop]
          by_cases small : b < 0x80
          · have sound : broken [b] = false := by
              have less : ¬ 0x80 ≤ b := UInt8.not_le.mpr small
              simp [broken, less]
            rw [if_pos small, rune_steps_ascii b rest small, List.countP_cons_of_neg (by simp [sound]), ih rest (by omega)]
          · have positive := rune_width_positive b rest
            have shorter : ((b :: rest).drop (runeWidth (b :: rest))).length ≤ fuel := by
              rw [List.length_drop, List.length_cons]
              omega
            rw [if_neg small, decode_rune_width, rune_steps_cons, List.countP_cons, ih _ shorter, Nat.add_comm]
            congr 1
            by_cases one : runeWidth (b :: rest) = 1
            · have large : (0x80 : UInt8) ≤ b := UInt8.not_lt.mp small
              simp [one, broken, large]
            · have long : ((b :: rest).take (runeWidth (b :: rest))).length ≠ 1 := by
                rw [List.length_take, Nat.min_eq_left (rune_width_own [] one).2]
                exact one
              rw [if_neg one, if_neg]
              simp only [broken, long, false_and, decide_false, Bool.false_eq_true, not_false_eq_true]

theorem invalid_count_broken (p : Bytes) : invalidCount p = (runeSteps p).countP broken :=
  invalid_loop_broken p.length p (Nat.le_refl _)

theorem steps_across (front rest : Bytes) :
    runeSteps (front ++ newline :: rest) = runeSteps front ++ [newline] :: runeSteps rest := by
  rw [rune_steps_append front (newline :: rest) (by simp [newline]), rune_steps_ascii newline rest (by decide)]

-- No count sees across a newline: it is a step of its own, it is white space and it is sound.
theorem whole_across (front rest : Bytes) : whole (front ++ newline :: rest) = (whole (front ++ [newline])).plus (whole rest) := by
  have space : isSpaceStep [newline] = true := by decide
  have empty : runeSteps [] = [] := rfl
  ext
  · simp [whole, Cnt.plus]
    omega
  · simp only [whole, Cnt.plus, steps_across, run_starts_append isSpaceStep true _ _ _ space, empty, runStarts, Nat.add_zero]
  · simp [whole, Cnt.plus, steps_across, empty]
    omega
  · simp [whole, Cnt.plus, steps_across, empty, List.countP_append, List.countP_cons]
    omega
  · simp [whole, Cnt.plus]
    omega

theorem line_counted (c : Cnt) (front : Bytes) (apart : newline ∉ front) :
    c.line false (front ++ [newline]) = c.plus (whole (front ++ [newline])) := by
  simp [Cnt.line, Cnt.plus, whole, fields_length, runeCount, invalid_count_broken, List.count_eq_zero_of_not_mem apart]

theorem last_counted (c : Cnt) (last : Bytes) (apart : newline ∉ last) : c.line true last = c.plus (whole last) := by
  simp [Cnt.line, Cnt.plus, whole, fields_length, runeCount, invalid_count_broken, List.count_eq_zero_of_not_mem apart]

theorem count_loop_whole (fname : Bytes) (c : Cnt) (data : Bytes) :
    countLoop fname c (ended newline data).1 (ended newline data).2 none = (c.plus (whole data), []) := by
  induction data using lines_induction newline generalizing c with
  | last text apart => rw [ended_last newline apart, countLoop, last_counted c text apart]
  | line front rest apart ih =>
      rw [ended_front newline rest apart, countLoop, ih, line_counted c front apart, plus_assoc, ← whole_across]

theorem count_whole (data fname : Bytes) : count data none fname =
    (⟨data.count newline, runStarts isSpaceStep true (runeSteps data), (runeSteps data).length, (runeSteps data).countP broken,
      data.length⟩, []) := by
  rw [count, count_loop_whole]
  simp only [Cnt.plus, whole, Nat.zero_add]

end Whole

end URoot.Wc
