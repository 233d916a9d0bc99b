import URoot.Lib.Runes

set_option autoImplicit false

namespace GoLib

section Steps

def runeStepsLoop : Nat → Bytes → List Bytes
  | 0, _ => []
  | _ + 1, [] => []
  | fuel + 1, b :: rest =>
      (b :: rest).take (runeWidth (b :: rest)) :: runeStepsLoop fuel ((b :: rest).drop (runeWidth (b :: rest)))

def runeSteps (s : Bytes) : List Bytes := runeStepsLoop s.length s

-- utf8.RuneCount: a broken sequence counts as runes of one byte.
def runeCount (s : Bytes) : Nat := (runeSteps s).length

theorem decode_rune_width (b : UInt8) (rest : Bytes) : (decodeRune (b :: rest)).2 = runeWidth (b :: rest) := by
  rw [decodeRune]
  split
  · rename_i small
    by_contra long
    obtain ⟨more, low, high, start, _⟩ := rune_width_long (Ne.symm long)
    have bounds := rune_tail_some start
    have less : b.toNat < 128 := small
    omega
  · split
    · rename_i one
      exact one.symm
    · rfl

theorem rune_steps_enough (fuel : Nat) (s : Bytes) (enough : s.length ≤ fuel) : runeStepsLoop fuel s = runeSteps s := by
  induction fuel using Nat.strong_induction_on generalizing s with
  | _ fuel ih =>
      cases s with
      | nil => cases fuel <;> rfl
      | cons b rest =>
          cases fuel with
          | zero => cases enough
          | succ fuel =>
              have positive := rune_width_positive b rest
              have shorter : ((b :: rest).drop (runeWidth (b :: rest))).length ≤ rest.length := by
                rw [List.length_drop, List.length_cons]
                omega
              rw [List.length_cons] at enough
              rw [runeStepsLoop, runeSteps, List.length_cons, runeStepsLoop, ih fuel (Nat.lt_succ_self fuel) _ (by omega)]
              by_cases same : rest.length = fuel
              · rw [same, ih fuel (Nat.lt_succ_self fuel) _ (by omega)]
              · rw [ih rest.length (by omega) _ shorter]

theorem rune_steps_cons (b : UInt8) (rest : Bytes) : runeSteps (b :: rest) =
    (b :: rest).take (runeWidth (b :: rest)) :: runeSteps ((b :: rest).drop (runeWidth (b :: rest))) := by
  have positive := rune_width_positive b rest
  rw [runeSteps, List.length_cons, runeStepsLoop, rune_steps_enough rest.length]
  rw [List.length_drop, List.length_cons]
  omega

theorem ascii_width (b : UInt8) (rest : Bytes) (small : b < 0x80) : runeWidth (b :: rest) = 1 := by
  by_contra long
  obtain ⟨more, low, high, start, _⟩ := rune_width_long long
  have bounds := rune_tail_some start
  have less : b.toNat < 128 := small
  omega

theorem rune_steps_ascii (b : UInt8) (rest : Bytes) (small : b < 0x80) : runeSteps (b :: rest) = [b] :: runeSteps rest := by
  rw [rune_steps_cons, ascii_width b rest small]
  rfl

theorem width_append (b : UInt8) (rest tail : Bytes) (ascii : ∀ x ∈ tail.head?, x < 0x80) :
    runeWidth (b :: (rest ++ tail)) = runeWidth (b :: rest) := by
  by_cases short : runeWidth (b :: rest) = 1
  · rw [short]
    by_contra long
    obtain ⟨own, inside⟩ := rune_width_own ((b :: rest).drop (runeWidth (b :: (rest ++ tail)))) long
    have high := long_rune_high _ (long_rune long)
    generalize runeWidth (b :: (rest ++ tail)) = w at long own inside high
    rw [← List.cons_append] at own high inside
    by_cases within_ : w ≤ (b :: rest).length
    · rw [List.take_append_of_le_length within_, List.take_append_drop, short] at own
      exact long own.symm
    · cases tail with
      | nil => exact within_ (by simpa using inside)
      | cons x tail =>
          have there : x ∈ ((b :: rest) ++ x :: tail).take w := by
            rw [List.take_append, List.mem_append]
            refine Or.inr ?_
            obtain ⟨k, more⟩ := Nat.exists_eq_add_of_lt (Nat.lt_of_not_le within_)
            rw [show w - (b :: rest).length = k + 1 by omega, List.take_succ_cons]
            exact List.mem_cons_self
          have large := high x there
          have small : x.toNat < 128 := ascii x rfl
          omega
  · obtain ⟨own, _⟩ := rune_width_own ((b :: rest).drop (runeWidth (b :: rest)) ++ tail) short
    rw [← List.append_assoc, List.take_append_drop, List.cons_append] at own
    exact own

theorem rune_steps_append (front tail : Bytes) (ascii : ∀ x ∈ tail.head?, x < 0x80) :
    runeSteps (front ++ tail) = runeSteps front ++ runeSteps tail := by
  induction size : front.length using Nat.strong_induction_on generalizing front with
  | _ size ih =>
      cases front with
      | nil => rfl
      | cons b rest =>
          have positive := rune_width_positive b rest
          have inside : runeWidth (b :: rest) ≤ (b :: rest).length := by
            by_cases short : runeWidth (b :: rest) = 1
            · rw [short, List.length_cons]
              omega
            · exact (rune_width_own [] short).2
          have later := ih ((b :: rest).drop (runeWidth (b :: rest))).length
            (by rw [← size, List.length_drop, List.length_cons]; omega) _ rfl
          rw [List.cons_append, rune_steps_cons, rune_steps_cons, width_append b rest tail ascii, ← List.cons_append,
            List.take_append_of_le_length inside, List.drop_append_of_le_length inside, later, List.cons_append]

end Steps

section Fields

-- unicode.IsSpace
def isSpace (r : Nat) : Bool :=
  (9 ≤ r ∧ r ≤ 13) ∨ r = 0x20 ∨ r = 0x85 ∨ r = 0xa0 ∨ r = 0x1680 ∨ (0x2000 ≤ r ∧ r ≤ 0x200a) ∨ r = 0x2028 ∨ r = 0x2029 ∨
    r = 0x202f ∨ r = 0x205f ∨ r = 0x3000

-- unicode.IsDigit; above Latin-1 it is a table of its own.
structure DigitTable where
  isDigit : Nat → Bool
  latin : ∀ r ≤ 0xff, isDigit r = decide (48 ≤ r ∧ r ≤ 57)

def isSpaceStep (step : Bytes) : Bool := isSpace (decodeRune step).1

-- bytes.Fields: what stands between the runs of white space.
def fields (s : Bytes) : List Bytes := (((runeSteps s).splitOnP isSpaceStep).filter (· ≠ [])).map List.flatten

variable {α : Type} (space : α → Bool)

def runStarts : Bool → List α → Nat
  | _, [] => 0
  | before, x :: rest => if space x then runStarts true rest else (if before then 1 else 0) + runStarts false rest

theorem run_starts_split (items : List α) :
    ((items.splitOnP space).filter (fun part => !part.isEmpty)).length = runStarts space true items ∧
      ((items.splitOnP space).tail.filter (fun part => !part.isEmpty)).length = runStarts space false items := by
  induction items with
  | nil => exact ⟨rfl, rfl⟩
  | cons x rest ih =>
      rw [List.splitOnP_cons_eq_if_modifyHead]
      by_cases here : space x = true
      · rw [if_pos here, runStarts, if_pos here, runStarts, if_pos here]
        exact ⟨ih.1, ih.1⟩
      · rw [if_neg here, runStarts, if_neg here, runStarts, if_neg here]
        cases parts : rest.splitOnP space with
        | nil => exact absurd parts (List.splitOnP_ne_nil space rest)
        | cons first others =>
            rw [parts] at ih
            refine ⟨?_, ?_⟩
            · rw [List.modifyHead_cons, List.filter_cons_of_pos rfl, List.length_cons, ← ih.2, Nat.add_comm]
              rfl
            · rw [List.modifyHead_cons, ← ih.2]
              simp

theorem run_starts_append (before : Bool) (front rest : List α) (x : α) (here : space x = true) :
    runStarts space before (front ++ x :: rest) = runStarts space before front + runStarts space true rest := by
  induction front generalizing before with
  | nil => rw [List.nil_append, runStarts, runStarts, if_pos here, Nat.zero_add]
  | cons y front ih =>
      rw [List.cons_append, runStarts, runStarts, ih true, ih false]
      split
      · rfl
      · rw [Nat.add_assoc]

theorem fields_length (s : Bytes) : (fields s).length = runStarts isSpaceStep true (runeSteps s) := by
  have parts := (run_starts_split isSpaceStep (runeSteps s)).1
  rw [fields, List.length_map, ← parts]
  congr 2
  funext part
  cases part <;> simp

end Fields

end GoLib
