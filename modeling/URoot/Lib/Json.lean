import URoot.Lib.Digits
import URoot.Lib.Runes

set_option autoImplicit false

namespace GoLib.Json

open Digits

section Strings

def replacement : Bytes := [0xef, 0xbf, 0xbd]

def safe (b : UInt8) : Bool := 0x20 ≤ b ∧ b ≠ 34 ∧ b ≠ 92 ∧ b ≠ 38 ∧ b ≠ 60 ∧ b ≠ 62

def escapeByte (b : UInt8) : Bytes :=
  if safe b then [b]
  else if b = 34 ∨ b = 92 then [92, b]
  else if b = 10 then [92, 110]
  else if b = 13 then [92, 114]
  else if b = 9 then [92, 116]
  else [92, 117, 48, 48, hexDigit (b.toNat / 16), hexDigit (b.toNat % 16)]

def escapeLoop : Nat → Bytes → Bytes
  | 0, _ => []
  | _ + 1, [] => []
  | n + 1, b :: rest =>
      if b < 0x80 then escapeByte b ++ escapeLoop n rest
      else if runeWidth (b :: rest) = 1 then str "\\ufffd" ++ escapeLoop n rest
      else if (b :: rest).take 3 = [0xe2, 0x80, 0xa8] then str "\\u2028" ++ escapeLoop n (rest.drop 2)
      else if (b :: rest).take 3 = [0xe2, 0x80, 0xa9] then str "\\u2029" ++ escapeLoop n (rest.drop 2)
      else (b :: rest).take (runeWidth (b :: rest)) ++ escapeLoop n ((b :: rest).drop (runeWidth (b :: rest)))

def quote (s : Bytes) : Bytes := 34 :: (escapeLoop s.length s ++ [34])

def validLoop : Nat → Bytes → Bytes
  | 0, _ => []
  | _ + 1, [] => []
  | n + 1, b :: rest =>
      if b < 0x80 then b :: validLoop n rest
      else if runeWidth (b :: rest) = 1 then replacement ++ validLoop n rest
      else (b :: rest).take (runeWidth (b :: rest)) ++ validLoop n ((b :: rest).drop (runeWidth (b :: rest)))

def toValid (s : Bytes) : Bytes := validLoop s.length s

def getu4 : Bytes → Option (Nat × Bytes)
  | a :: b :: c :: d :: rest => do
      let a ← fromHexChar a
      let b ← fromHexChar b
      let c ← fromHexChar c
      let d ← fromHexChar d
      some (((a * 16 + b) * 16 + c) * 16 + d, rest)
  | _ => none

def lowHalf : Bytes → Option (Nat × Bytes)
  | 92 :: 117 :: rest => (getu4 rest).filter (fun (r, _) => 0xdc00 ≤ r ∧ r < 0xe000)
  | _ => none

def unescapeRune (r : Nat) (rest : Bytes) : Bytes × Bytes :=
  if 0xd800 ≤ r ∧ r < 0xe000 then
    match lowHalf rest with
    | some (low, behind) =>
        if r < 0xdc00 then (encodeRune (0x10000 + (r - 0xd800) * 1024 + (low - 0xdc00)), behind) else (replacement, rest)
    | none => (replacement, rest)
  else (encodeRune r, rest)

def unescape : Bytes → Option (Bytes × Bytes)
  | 34 :: rest => some ([34], rest)
  | 92 :: rest => some ([92], rest)
  | 47 :: rest => some ([47], rest)
  | 98 :: rest => some ([8], rest)
  | 102 :: rest => some ([12], rest)
  | 110 :: rest => some ([10], rest)
  | 114 :: rest => some ([13], rest)
  | 116 :: rest => some ([9], rest)
  | 117 :: rest => (getu4 rest).map (fun (r, behind) => unescapeRune r behind)
  | _ => none

def push (first : Bytes) (result : Option (Bytes × Bytes)) : Option (Bytes × Bytes) :=
  result.map (fun (s, rest) => (first ++ s, rest))

def unquoteLoop : Nat → Bytes → Option (Bytes × Bytes)
  | 0, _ => none
  | _ + 1, [] => none
  | n + 1, c :: rest =>
      if c = 34 then some ([], rest)
      else if c = 92 then (unescape rest).bind (fun (out, behind) => push out (unquoteLoop n behind))
      else if c < 0x20 then none
      else if c < 0x80 then push [c] (unquoteLoop n rest)
      else if runeWidth (c :: rest) = 1 then push replacement (unquoteLoop n rest)
      else push ((c :: rest).take (runeWidth (c :: rest))) (unquoteLoop n ((c :: rest).drop (runeWidth (c :: rest))))

def unquote (input : Bytes) : Option (Bytes × Bytes) := unquoteLoop input.length input

end Strings

section StringRoundTrip

def Piece (text out : Bytes) : Prop :=
  text ≠ [] ∧ ∀ n tail, unquoteLoop (n + 1) (text ++ tail) = push out (unquoteLoop n tail)

theorem unescape_ascii (b : UInt8) (tail : Bytes) (ascii : b.toNat < 128) :
    unescape (117 :: 48 :: 48 :: hexDigit (b.toNat / 16) :: hexDigit (b.toNat % 16) :: tail) = some ([b], tail) := by
  have zero : fromHexChar 48 = some 0 := by decide
  have high := digit_decodes (b.toNat / 16) (by omega)
  have low := digit_decodes (b.toNat % 16) (by omega)
  have rune : ((0 * 16 + 0) * 16 + b.toNat / 16) * 16 + b.toNat % 16 = b.toNat := by omega
  have four : getu4 (48 :: 48 :: hexDigit (b.toNat / 16) :: hexDigit (b.toNat % 16) :: tail) = some (b.toNat, tail) := by
    simp only [getu4, zero, high, low, Option.bind_eq_bind, Option.bind_some, rune]
  have ordinary : unescapeRune b.toNat tail = ([b], tail) := by
    rw [unescapeRune, if_neg (by omega), encode_rune_ascii _ ascii, UInt8.ofNat_toNat]
  simp only [unescape, four, Option.map_some, ordinary]

theorem piece_byte (b : UInt8) (ascii : b < 0x80) : Piece (escapeByte b) [b] := by
  rw [escapeByte]
  split
  · rename_i plain
    simp only [safe, decide_eq_true_eq] at plain
    obtain ⟨printable, notQuote, notBackslash, -⟩ := plain
    refine ⟨List.cons_ne_nil _ _, fun n tail => ?_⟩
    rw [List.singleton_append, unquoteLoop, if_neg notQuote, if_neg notBackslash, if_neg (UInt8.not_lt.mpr printable),
      if_pos ascii]
  split
  · rename_i marks
    rcases marks with rfl | rfl
    · exact ⟨List.cons_ne_nil _ _, fun _ _ => rfl⟩
    · exact ⟨List.cons_ne_nil _ _, fun _ _ => rfl⟩
  split
  · rename_i same
    rw [same]
    exact ⟨List.cons_ne_nil _ _, fun _ _ => rfl⟩
  split
  · rename_i same
    rw [same]
    exact ⟨List.cons_ne_nil _ _, fun _ _ => rfl⟩
  split
  · rename_i same
    rw [same]
    exact ⟨List.cons_ne_nil _ _, fun _ _ => rfl⟩
  · have small : b.toNat < 128 := UInt8.lt_iff_toNat_lt.mp ascii
    refine ⟨List.cons_ne_nil _ _, fun n tail => ?_⟩
    have rune := unescape_ascii b tail small
    simp only [List.cons_append, List.nil_append]
    rw [unquoteLoop, if_neg (by decide), if_pos rfl, rune, Option.bind_some]

theorem piece_rune (b : UInt8) (rest : Bytes) (high : ¬ b < 0x80) (long : runeWidth (b :: rest) ≠ 1) :
    Piece ((b :: rest).take (runeWidth (b :: rest))) ((b :: rest).take (runeWidth (b :: rest))) := by
  have positive := rune_width_positive b rest
  refine ⟨by rw [← List.length_pos_iff, List.length_take, List.length_cons]; omega, fun n tail => ?_⟩
  obtain ⟨own, inside⟩ := rune_width_own tail long
  have size : ((b :: rest).take (runeWidth (b :: rest))).length = runeWidth (b :: rest) := List.length_take_of_le inside
  obtain ⟨more, width⟩ := Nat.exists_eq_succ_of_ne_zero (Nat.ne_of_gt positive)
  have large : 128 ≤ b.toNat := Nat.le_of_not_lt fun small => high (UInt8.lt_iff_toNat_lt.mpr small)
  have notQuote : b ≠ 34 := by
    intro same
    rw [same] at large
    exact absurd large (by decide)
  have notBackslash : b ≠ 92 := by
    intro same
    rw [same] at large
    exact absurd large (by decide)
  have printable : ¬ b < 0x20 := by
    intro small
    have bound : b.toNat < 32 := UInt8.lt_iff_toNat_lt.mp small
    omega
  generalize text : (b :: rest).take (runeWidth (b :: rest)) = piece at own size ⊢
  have first : piece = b :: rest.take more := by rw [← text, width, List.take_succ_cons]
  have step : unquoteLoop (n + 1) (piece ++ tail) =
      push ((piece ++ tail).take (runeWidth (piece ++ tail))) (unquoteLoop n ((piece ++ tail).drop (runeWidth (piece ++ tail)))) := by
    rw [← own] at long
    rw [first, List.cons_append] at long ⊢
    rw [unquoteLoop, if_neg notQuote, if_neg notBackslash, if_neg printable, if_neg high, if_neg long]
  rw [step, own, List.take_left' size, List.drop_left' size]

theorem line_separator (b : UInt8) (rest : Bytes) (last : UInt8) (bounds : 0x80 ≤ last ∧ last ≤ 0xbf)
    (start : (b :: rest).take 3 = [0xe2, 0x80, last]) :
    runeWidth (b :: rest) = 3 ∧ (b :: rest).drop 3 = rest.drop 2 := by
  obtain ⟨tail, whole⟩ : ∃ tail, b :: rest = 0xe2 :: 0x80 :: last :: tail :=
    ⟨(b :: rest).drop 3, by rw [← List.take_append_drop 3 (b :: rest), start]; rfl⟩
  refine ⟨?_, rfl⟩
  rw [whole]
  simp [runeWidth, runeTail, bounds]

inductive EscapedRune : Bytes → Bytes → Prop where
  | ascii (b : UInt8) (small : b < 0x80) : EscapedRune (escapeByte b) [b]
  | broken : EscapedRune (str "\\ufffd") replacement
  | line : EscapedRune (str "\\u2028") [0xe2, 0x80, 0xa8]
  | paragraph : EscapedRune (str "\\u2029") [0xe2, 0x80, 0xa9]
  | rune (b : UInt8) (rest : Bytes) (high : ¬ b < 0x80) (long : runeWidth (b :: rest) ≠ 1) :
      EscapedRune ((b :: rest).take (runeWidth (b :: rest))) ((b :: rest).take (runeWidth (b :: rest)))

inductive EscapedText : Bytes → Bytes → Prop where
  | nil : EscapedText [] []
  | cons (text out escaped meant : Bytes) (first : EscapedRune text out) (later : EscapedText escaped meant) :
      EscapedText (text ++ escaped) (out ++ meant)

theorem escape_text (n : Nat) (s : Bytes) (runes : s.length ≤ n) : EscapedText (escapeLoop n s) (validLoop n s) := by
  induction n generalizing s with
  | zero => exact .nil
  | succ n ih =>
      cases s with
      | nil => exact .nil
      | cons b rest =>
          have positive := rune_width_positive b rest
          rw [List.length_cons] at runes
          have later : ∀ k, EscapedText (escapeLoop n (rest.drop k)) (validLoop n (rest.drop k)) :=
            fun k => ih (rest.drop k) (by rw [List.length_drop]; omega)
          rw [escapeLoop, validLoop]
          by_cases ascii : b < 0x80
          · rw [if_pos ascii, if_pos ascii]
            exact .cons _ _ _ _ (.ascii b ascii) (later 0)
          rw [if_neg ascii, if_neg ascii]
          by_cases broken : runeWidth (b :: rest) = 1
          · rw [if_pos broken, if_pos broken]
            exact .cons _ _ _ _ .broken (later 0)
          rw [if_neg broken, if_neg broken]
          by_cases line : (b :: rest).take 3 = [0xe2, 0x80, 0xa8]
          · obtain ⟨width, dropped⟩ := line_separator b rest 0xa8 (by decide) line
            rw [if_pos line, width, dropped, line]
            exact .cons _ _ _ _ .line (later 2)
          rw [if_neg line]
          by_cases paragraph : (b :: rest).take 3 = [0xe2, 0x80, 0xa9]
          · obtain ⟨width, dropped⟩ := line_separator b rest 0xa9 (by decide) paragraph
            rw [if_pos paragraph, width, dropped, paragraph]
            exact .cons _ _ _ _ .paragraph (later 2)
          rw [if_neg paragraph]
          have whole := EscapedRune.rune b rest ascii broken
          obtain ⟨more, width⟩ := Nat.exists_eq_succ_of_ne_zero (Nat.ne_of_gt positive)
          rw [width] at whole ⊢
          exact .cons _ _ _ _ whole (later more)

theorem piece_escaped (text out : Bytes) (rune : EscapedRune text out) : Piece text out := by
  cases rune with
  | ascii b small => exact piece_byte b small
  | broken => exact ⟨List.cons_ne_nil _ _, fun _ _ => rfl⟩
  | line => exact ⟨List.cons_ne_nil _ _, fun _ _ => rfl⟩
  | paragraph => exact ⟨List.cons_ne_nil _ _, fun _ _ => rfl⟩
  | rune b rest high long => exact piece_rune b rest high long

theorem unquote_text (escaped meant tail : Bytes) (text : EscapedText escaped meant) (m : Nat) (bytes : escaped.length < m) :
    unquoteLoop m (escaped ++ 34 :: tail) = some (meant, tail) := by
  induction text generalizing m with
  | nil =>
      cases m with
      | zero => cases bytes
      | succ m => rfl
  | cons text out escaped meant first later ih =>
      obtain ⟨nonempty, step⟩ := piece_escaped text out first
      have size := List.length_pos_iff.mpr nonempty
      rw [List.length_append] at bytes
      cases m with
      | zero => cases bytes
      | succ m =>
          rw [List.append_assoc, step, ih m (by omega)]
          rfl

theorem unquote_quote (s tail : Bytes) : unquote (escapeLoop s.length s ++ 34 :: tail) = some (toValid s, tail) := by
  apply unquote_text _ _ tail (escape_text s.length s (Nat.le_refl _))
  rw [List.length_append, List.length_cons]
  omega

theorem valid_loop_valid (n : Nat) (s : Bytes) (runes : s.length ≤ n) (valid : validRunes n s = true) : validLoop n s = s := by
  induction n generalizing s with
  | zero => exact (List.length_eq_zero_iff.mp (Nat.le_zero.mp runes)).symm
  | succ n ih =>
      cases s with
      | nil => rfl
      | cons b rest =>
          have positive := rune_width_positive b rest
          rw [List.length_cons] at runes
          rw [validRunes] at valid
          rw [validLoop]
          by_cases ascii : b < 0x80
          · rw [if_pos ascii] at valid ⊢
            rw [ih rest (by omega) valid]
          · rw [if_neg ascii] at valid ⊢
            by_cases broken : runeWidth (b :: rest) = 1
            · rw [if_pos broken] at valid
              cases valid
            · rw [if_neg broken] at valid ⊢
              rw [ih _ (by rw [List.length_drop, List.length_cons]; omega) valid, List.take_append_drop]

theorem valid_loop_longer (n : Nat) (s : Bytes) (runes : s.length ≤ n) : s.length ≤ (validLoop n s).length := by
  induction n generalizing s with
  | zero => exact Nat.le_trans runes (Nat.zero_le _)
  | succ n ih =>
      cases s with
      | nil => exact Nat.zero_le _
      | cons b rest =>
          have positive := rune_width_positive b rest
          have later := fun k => ih (rest.drop k)
          simp only [List.length_drop] at later
          rw [List.length_cons] at runes ⊢
          rw [validLoop]
          split
          · have short := later 0 (by omega)
            rw [List.length_cons]
            exact Nat.succ_le_succ short
          split
          · have short := later 0 (by omega)
            rw [List.length_append]
            have three : replacement.length = 3 := rfl
            rw [List.drop_zero] at short
            omega
          · obtain ⟨more, width⟩ := Nat.exists_eq_succ_of_ne_zero (Nat.ne_of_gt positive)
            have short := later more (by omega)
            rw [width, List.length_append, List.length_take, List.length_cons, List.drop_succ_cons]
            omega

theorem replacement_width (rest : Bytes) : runeWidth (0xef :: 0xbf :: 0xbd :: rest) = 3 := by
  simp [runeWidth, runeTail]

theorem zeros_head (k : Nat) (c : UInt8) (rest : Bytes) (same : c :: rest = List.replicate k 0) : c = 0 := by
  have member : c ∈ List.replicate k (0 : UInt8) := by
    rw [← same]
    exact List.mem_cons_self
  exact List.eq_of_mem_replicate member

theorem valid_loop_padded (n k : Nat) (s : Bytes) (runes : s.length ≤ n) (padded : validLoop n s = s ++ List.replicate k 0) :
    validRunes n s = true := by
  induction n generalizing s with
  | zero => rfl
  | succ n ih =>
      cases s with
      | nil => rfl
      | cons b rest =>
          have positive := rune_width_positive b rest
          rw [List.length_cons] at runes
          rw [validLoop] at padded
          rw [validRunes]
          by_cases ascii : b < 0x80
          · rw [if_pos ascii] at padded ⊢
            rw [List.cons_append] at padded
            exact ih rest (by omega) (List.cons.inj padded).2
          rw [if_neg ascii] at padded ⊢
          by_cases broken : runeWidth (b :: rest) = 1
          · rw [if_pos broken] at padded
            obtain ⟨rfl, second⟩ := List.cons.inj padded
            cases rest with
            | nil => exact absurd (zeros_head k _ _ second) (by decide)
            | cons c rest =>
                obtain ⟨rfl, third⟩ := List.cons.inj second
                cases rest with
                | nil => exact absurd (zeros_head k _ _ third) (by decide)
                | cons d rest =>
                    obtain ⟨rfl, _⟩ := List.cons.inj third
                    rw [replacement_width] at broken
                    cases broken
          · rw [if_neg broken] at padded ⊢
            apply ih _ (by rw [List.length_drop, List.length_cons]; omega)
            have whole := List.take_append_drop (runeWidth (b :: rest)) (b :: rest)
            have apart := padded.trans (congrArg (· ++ List.replicate k 0) whole.symm)
            rw [List.append_assoc] at apart
            exact List.append_cancel_left apart

end StringRoundTrip

section Values

inductive Value where
  | null
  | bool (b : Bool)
  | num (text : Bytes)
  | str (s : Bytes)
  | arr (items : List Value)
  | obj (members : List (Bytes × Value))

def isSpace (c : UInt8) : Bool := c = 32 ∨ c = 9 ∨ c = 10 ∨ c = 13

def skipSpace (input : Bytes) : Bytes := input.dropWhile isSpace

def isDigit (c : UInt8) : Bool := (Digits.digitValue 10 c).isSome

def digits (input : Bytes) : Option (Bytes × Bytes) :=
  if input.takeWhile isDigit = [] then none else some (input.takeWhile isDigit, input.dropWhile isDigit)

def wholePart (input : Bytes) : Option (Bytes × Bytes) :=
  if input.head? = some 48 then some ([48], input.drop 1) else digits input

def fraction : Bytes → Option (Bytes × Bytes)
  | 46 :: rest => push [46] (digits rest)
  | input => some ([], input)

def exponent : Bytes → Option (Bytes × Bytes)
  | [] => some ([], [])
  | e :: rest =>
      if e ≠ 101 ∧ e ≠ 69 then some ([], e :: rest)
      else
        match rest with
        | 43 :: behind => push [e, 43] (digits behind)
        | 45 :: behind => push [e, 45] (digits behind)
        | behind => push [e] (digits behind)

def unsigned (input : Bytes) : Option (Bytes × Bytes) := do
  let (whole, rest) ← wholePart input
  let (part, rest) ← fraction rest
  let (power, rest) ← exponent rest
  some (whole ++ part ++ power, rest)

def number : Bytes → Option (Bytes × Bytes)
  | 45 :: rest => push [45] (unsigned rest)
  | input => unsigned input

variable {α : Type}

def listLoop (close : UInt8) (item : Bytes → Option (α × Bytes)) : Nat → Bytes → Option (List α × Bytes)
  | 0, _ => none
  | n + 1, input => do
      let (a, rest) ← item input
      match skipSpace rest with
      | [] => none
      | c :: behind =>
          if c = 44 then (listLoop close item n behind).map (fun (items, rest) => (a :: items, rest))
          else if c = close then some ([a], behind)
          else none

def listOf (close : UInt8) (item : Bytes → Option (α × Bytes)) (input : Bytes) : Option (List α × Bytes) :=
  match skipSpace input with
  | [] => none
  | c :: behind => if c = close then some ([], behind) else listLoop close item input.length input

def member (item : Bytes → Option (α × Bytes)) (input : Bytes) : Option ((Bytes × α) × Bytes) :=
  match skipSpace input with
  | 34 :: rest => do
      let (key, rest) ← unquote rest
      match skipSpace rest with
      | 58 :: rest => do
          let (a, rest) ← item rest
          some ((key, a), rest)
      | _ => none
  | _ => none

def literal (text : Bytes) (value : Value) (input : Bytes) : Option (Value × Bytes) :=
  if text.isPrefixOf input then some (value, input.drop text.length) else none

def valueLoop : Nat → Bytes → Option (Value × Bytes)
  | 0, _ => none
  | n + 1, input =>
      match skipSpace input with
      | [] => none
      | c :: rest =>
          if c = 34 then (unquote rest).map (fun (s, rest) => (.str s, rest))
          else if c = 91 then (listOf 93 (valueLoop n) rest).map (fun (items, rest) => (.arr items, rest))
          else if c = 123 then (listOf 125 (member (valueLoop n)) rest).map (fun (members, rest) => (.obj members, rest))
          else if c = 116 then literal (str "true") (.bool true) (c :: rest)
          else if c = 102 then literal (str "false") (.bool false) (c :: rest)
          else if c = 110 then literal (str "null") .null (c :: rest)
          else (number (c :: rest)).map (fun (text, rest) => (.num text, rest))

def parse (input : Bytes) : Option (Value × Bytes) := valueLoop input.length input

end Values

section Writing

def intText (z : Int) : Bytes := if z < 0 then 45 :: Digits.numeral 10 z.natAbs else Digits.numeral 10 z.natAbs

def boolText (b : Bool) : Bytes := str (if b then "true" else "false")

def tailText (close : UInt8) : List Bytes → Bytes
  | [] => [close]
  | text :: rest => 44 :: (text ++ tailText close rest)

def bodyText (close : UInt8) : List Bytes → Bytes
  | [] => [close]
  | text :: rest => text ++ tailText close rest

def arrText (items : List Bytes) : Bytes := 91 :: bodyText 93 items

def objText (members : List (Bytes × Bytes)) : Bytes :=
  123 :: bodyText 125 (members.map (fun (key, text) => quote key ++ 58 :: text))

end Writing

section RoundTrip

def Ends (tail : Bytes) : Prop := ∀ c ∈ tail.head?, c = 44 ∨ c = 93 ∨ c = 125 ∨ c = 10

def Begins (text : Bytes) : Prop := ∃ c rest, text = c :: rest ∧ isSpace c = false ∧ c ≠ 93 ∧ c ≠ 125

structure Reads {α : Type} (item : Bytes → Option (α × Bytes)) (text : Bytes) (a : α) : Prop where
  begins : Begins text
  read : ∀ tail, Ends tail → item (text ++ tail) = some (a, tail)

theorem skip_begins (text tail : Bytes) (begins : Begins text) : skipSpace (text ++ tail) = text ++ tail := by
  obtain ⟨c, rest, rfl, solid, -, -⟩ := begins
  rw [skipSpace, List.cons_append, List.dropWhile_cons_of_neg (by rw [solid]; exact Bool.false_ne_true)]

theorem digits_numeral (n : Nat) (tail : Bytes) (ends : Ends tail) :
    digits (Digits.numeral 10 n ++ tail) = some (Digits.numeral 10 n, tail) := by
  have all : ∀ c ∈ Digits.numeral 10 n, isDigit c := numeral_digits 10 (by decide) (by decide) n
  have stops : tail.takeWhile isDigit = [] ∧ tail.dropWhile isDigit = tail := by
    cases tail with
    | nil => exact ⟨rfl, rfl⟩
    | cons c rest =>
        have other : isDigit c = false := by
          rcases ends c rfl with rfl | rfl | rfl | rfl <;> rfl
        rw [List.takeWhile_cons_of_neg (by simp [other]), List.dropWhile_cons_of_neg (by simp [other])]
        exact ⟨rfl, rfl⟩
  rw [digits, List.takeWhile_append_of_pos all, List.dropWhile_append_of_pos all, stops.1, stops.2, List.append_nil,
    if_neg (numeral_some 10 n)]

theorem unsigned_numeral (n : Nat) (tail : Bytes) (ends : Ends tail) :
    unsigned (Digits.numeral 10 n ++ tail) = some (Digits.numeral 10 n, tail) := by
  have whole : wholePart (Digits.numeral 10 n ++ tail) = some (Digits.numeral 10 n, tail) := by
    rw [wholePart, List.head?_append_of_ne_nil _ (numeral_some 10 n)]
    rcases Nat.eq_zero_or_pos n with rfl | positive
    · rfl
    · rw [if_neg (numeral_leading 10 (by decide) (by decide) n positive), digits_numeral n tail ends]
  have point : fraction tail = some ([], tail) := by
    cases tail with
    | nil => rfl
    | cons c rest => rcases ends c rfl with rfl | rfl | rfl | rfl <;> rfl
  have power : exponent tail = some ([], tail) := by
    cases tail with
    | nil => rfl
    | cons c rest => rcases ends c rfl with rfl | rfl | rfl | rfl <;> rfl
  simp only [unsigned, whole, point, power, Option.bind_eq_bind, Option.bind_some, List.append_nil]

theorem numeral_begins (n : Nat) : ∃ c rest, Digits.numeral 10 n = c :: rest ∧ isDigit c := by
  cases text : Digits.numeral 10 n with
  | nil => exact absurd text (numeral_some 10 n)
  | cons c rest =>
      refine ⟨c, rest, rfl, ?_⟩
      apply numeral_digits 10 (by decide) (by decide) n
      rw [text]
      exact List.mem_cons_self

section Numbers

variable (c : UInt8) (starts : c = 45 ∨ isDigit c)

include starts

theorem start_differs (x : UInt8) (other : ¬ (x = 45 ∨ isDigit x)) : c ≠ x := by
  intro same
  rw [same] at starts
  exact other starts

theorem start_solid : isSpace c = false := by
  have differs := start_differs c starts
  simp [isSpace, differs 32 (by decide), differs 9 (by decide), differs 10 (by decide), differs 13 (by decide)]

theorem value_number (n : Nat) (rest : Bytes) :
    valueLoop (n + 1) (c :: rest) = (number (c :: rest)).map (fun (text, rest) => (.num text, rest)) := by
  have differs := start_differs c starts
  rw [valueLoop, skipSpace, List.dropWhile_cons_of_neg (by rw [start_solid c starts]; exact Bool.false_ne_true)]
  simp only
  rw [if_neg (differs 34 (by decide)), if_neg (differs 91 (by decide)), if_neg (differs 123 (by decide)),
    if_neg (differs 116 (by decide)), if_neg (differs 102 (by decide)), if_neg (differs 110 (by decide))]

end Numbers

theorem number_unsigned (c : UInt8) (rest : Bytes) (digit : isDigit c) : number (c :: rest) = unsigned (c :: rest) := by
  rw [number]
  rintro sign same
  cases same
  exact absurd digit (by decide)

theorem reads_int (n : Nat) (z : Int) : Reads (valueLoop (n + 1)) (intText z) (.num (intText z)) := by
  obtain ⟨c, rest, text, digit⟩ := numeral_begins z.natAbs
  by_cases negative : z < 0
  · rw [intText, if_pos negative]
    refine ⟨⟨45, _, rfl, by decide⟩, fun tail ends => ?_⟩
    have run := unsigned_numeral z.natAbs tail ends
    rw [List.cons_append, value_number 45 (.inl rfl), number, run]
    rfl
  · rw [intText, if_neg negative]
    have differs := start_differs c (.inr digit)
    refine ⟨⟨c, rest, text, start_solid c (.inr digit), differs 93 (by decide), differs 125 (by decide)⟩, fun tail ends => ?_⟩
    have run := unsigned_numeral z.natAbs tail ends
    rw [text, List.cons_append] at run ⊢
    rw [value_number c (.inr digit), number_unsigned c _ digit, run]
    rfl

theorem reads_str (n : Nat) (s : Bytes) : Reads (valueLoop (n + 1)) (quote s) (.str (toValid s)) := by
  refine ⟨⟨34, _, rfl, by decide⟩, fun tail _ => ?_⟩
  have body := unquote_quote s tail
  rw [quote, List.cons_append, List.append_assoc, List.singleton_append, valueLoop, skipSpace,
    List.dropWhile_cons_of_neg (by decide)]
  simp only [if_true, body, Option.map_some]

theorem reads_bool (n : Nat) (b : Bool) : Reads (valueLoop (n + 1)) (boolText b) (.bool b) := by
  cases b with
  | false => exact ⟨⟨102, _, rfl, by decide⟩, fun _ _ => rfl⟩
  | true => exact ⟨⟨116, _, rfl, by decide⟩, fun _ _ => rfl⟩

variable {α : Type} (item : Bytes → Option (α × Bytes))

theorem reads_member (key text : Bytes) (a : α) (reads : Reads item text a) :
    Reads (member item) (quote key ++ 58 :: text) (toValid key, a) := by
  refine ⟨⟨34, _, rfl, by decide⟩, fun tail ends => ?_⟩
  have name := unquote_quote key (58 :: (text ++ tail))
  have whole : (quote key ++ 58 :: text) ++ tail = 34 :: (escapeLoop key.length key ++ 34 :: 58 :: (text ++ tail)) := by
    simp [quote]
  rw [whole, member, skipSpace, List.dropWhile_cons_of_neg (by decide)]
  simp only [name, Option.bind_eq_bind, Option.bind_some]
  rw [skipSpace, List.dropWhile_cons_of_neg (by decide)]
  simp only [reads.read tail ends, Option.bind_some]

section Lists

variable (close : UInt8) (bracket : close = 93 ∨ close = 125)

theorem tail_starts (texts : List Bytes) (tail : Bytes) :
    ∃ c rest, tailText close texts ++ tail = c :: rest ∧ (c = 44 ∨ c = close) := by
  cases texts with
  | nil => exact ⟨close, tail, rfl, .inr rfl⟩
  | cons text rest => exact ⟨44, _, rfl, .inl rfl⟩

theorem tail_text_length (texts : List Bytes) : texts.length < (tailText close texts).length := by
  induction texts with
  | nil => exact Nat.one_pos
  | cons text rest ih =>
      rw [tailText, List.length_cons, List.length_cons, List.length_append]
      omega

include bracket

theorem tail_ends (texts : List Bytes) (tail : Bytes) : Ends (tailText close texts ++ tail) := by
  obtain ⟨c, rest, whole, starts⟩ := tail_starts close texts tail
  intro d head
  rw [whole] at head
  cases head
  rcases starts with rfl | rfl
  · exact .inl rfl
  · exact .inr (bracket.imp id .inl)

theorem list_loop_reads (pairs : List (Bytes × α)) (text : Bytes) (a : α) (n : Nat) (tail : Bytes)
    (reads : Reads item text a) (all : ∀ pair ∈ pairs, Reads item pair.1 pair.2) (enough : pairs.length < n) :
    listLoop close item n (text ++ (tailText close (pairs.map Prod.fst) ++ tail)) = some (a :: pairs.map Prod.snd, tail) := by
  induction pairs generalizing text a n with
  | nil =>
      cases n with
      | zero => cases enough
      | succ n =>
          have solid : isSpace close = false := by rcases bracket with rfl | rfl <;> rfl
          have notComma : close ≠ 44 := by rcases bracket with rfl | rfl <;> decide
          have first := reads.read _ (tail_ends close bracket [] tail)
          rw [listLoop, List.map_nil, first]
          simp only [Option.bind_eq_bind, Option.bind_some, tailText, List.cons_append, List.nil_append]
          rw [skipSpace, List.dropWhile_cons_of_neg (by simp [solid])]
          simp only
          rw [if_neg notComma, if_pos trivial]
          rfl
  | cons pair pairs ih =>
      cases n with
      | zero => cases enough
      | succ n =>
          have first := reads.read _ (tail_ends close bracket ((pair :: pairs).map Prod.fst) tail)
          have later := ih pair.1 pair.2 n (all pair List.mem_cons_self)
            (fun other member => all other (List.mem_cons_of_mem _ member)) (by rw [List.length_cons] at enough; omega)
          rw [listLoop, first]
          simp only [Option.bind_eq_bind, Option.bind_some, List.map_cons, tailText, List.cons_append, List.append_assoc]
          rw [skipSpace, List.dropWhile_cons_of_neg (by decide)]
          simp only [if_true, later, Option.map_some]

theorem list_of_reads (pairs : List (Bytes × α)) (tail : Bytes) (all : ∀ pair ∈ pairs, Reads item pair.1 pair.2) :
    listOf close item (bodyText close (pairs.map Prod.fst) ++ tail) = some (pairs.map Prod.snd, tail) := by
  cases pairs with
  | nil =>
      have solid : isSpace close = false := by rcases bracket with rfl | rfl <;> rfl
      rw [listOf, List.map_nil, bodyText, List.singleton_append, skipSpace, List.dropWhile_cons_of_neg (by simp [solid])]
      simp only [if_true, List.map_nil]
  | cons pair pairs =>
      have reads := all pair List.mem_cons_self
      obtain ⟨c, rest, text, -, notArr, notObj⟩ := reads.begins
      have other : c ≠ close := by rcases bracket with rfl | rfl <;> assumption
      have count := tail_text_length close (pairs.map Prod.fst)
      rw [List.length_map] at count
      have loop := list_loop_reads item close bracket pairs pair.1 pair.2
        (pair.1 ++ (tailText close (pairs.map Prod.fst) ++ tail)).length tail reads
        (fun other member => all other (List.mem_cons_of_mem _ member)) (by simp only [List.length_append]; omega)
      rw [listOf, List.map_cons, bodyText, List.append_assoc, skip_begins _ _ reads.begins, loop, text, List.cons_append]
      simp only
      rw [if_neg other]
      rfl

end Lists

theorem reads_arr (n : Nat) (pairs : List (Bytes × Value)) (all : ∀ pair ∈ pairs, Reads (valueLoop n) pair.1 pair.2) :
    Reads (valueLoop (n + 1)) (arrText (pairs.map Prod.fst)) (.arr (pairs.map Prod.snd)) := by
  refine ⟨⟨91, _, rfl, by decide⟩, fun tail _ => ?_⟩
  have body := list_of_reads (valueLoop n) 93 (.inl rfl) pairs tail all
  rw [arrText, List.cons_append, valueLoop, skipSpace, List.dropWhile_cons_of_neg (by decide)]
  simp only [body, Option.map_some]
  rfl

theorem reads_obj (n : Nat) (entries : List (Bytes × Bytes × Value))
    (all : ∀ entry ∈ entries, Reads (valueLoop n) entry.2.1 entry.2.2) :
    Reads (valueLoop (n + 1)) (objText (entries.map (fun entry => (entry.1, entry.2.1))))
      (.obj (entries.map (fun entry => (toValid entry.1, entry.2.2)))) := by
  refine ⟨⟨123, _, rfl, by decide⟩, fun tail _ => ?_⟩
  have body := list_of_reads (member (valueLoop n)) 125 (.inr rfl)
    (entries.map (fun entry => (quote entry.1 ++ 58 :: entry.2.1, (toValid entry.1, entry.2.2)))) tail (by
      intro pair member
      obtain ⟨entry, inside, rfl⟩ := List.mem_map.mp member
      exact reads_member (valueLoop n) entry.1 entry.2.1 entry.2.2 (all entry inside))
  simp only [List.map_map, Function.comp_def] at body
  rw [objText, List.cons_append, valueLoop, skipSpace, List.dropWhile_cons_of_neg (by decide), List.map_map]
  simp only [Function.comp_def, body, Option.map_some]
  rfl

end RoundTrip

end GoLib.Json
