import URoot.Lib.Json

set_option autoImplicit false

namespace GoLib.Strconv

open Digits

section Unquote

-- A rune is a signed word of 32 bits.
def rune (v : Nat) : Int := if v < 2 ^ 31 then v else v - 2 ^ 32

def hexRune (n : Nat) (s : Bytes) : Option (Int × Bytes) :=
  if s.length < n then none
  else ((s.take n).mapM fromHexChar).map (fun digits => (rune (digits.foldl (fun v x => v * 16 + x) 0), s.drop n))

def octalDigit (c : UInt8) : Option Nat := if 48 ≤ c ∧ c ≤ 55 then some (c.toNat - 48) else none

def octal : Bytes → Option (Int × Bytes)
  | a :: b :: c :: s => do
      let a ← octalDigit a
      let b ← octalDigit b
      let c ← octalDigit c
      let v := (a * 8 + b) * 8 + c
      if 255 < v then none else some ((v : Int), s)
  | _ => none

def escaped (quote : UInt8) : Bytes → Option ((Int × Bool) × Bytes)
  | [] => none
  | c :: s =>
      if c = 97 then some ((7, false), s)
      else if c = 98 then some ((8, false), s)
      else if c = 102 then some ((12, false), s)
      else if c = 110 then some ((10, false), s)
      else if c = 114 then some ((13, false), s)
      else if c = 116 then some ((9, false), s)
      else if c = 118 then some ((11, false), s)
      else if c = 120 then (hexRune 2 s).map (fun r => ((r.1, false), r.2))
      else if c = 117 ∨ c = 85 then
        ((hexRune (if c = 117 then 4 else 8) s).filter (fun r => r.1 ≤ 0x10ffff)).map (fun r => ((r.1, true), r.2))
      else if 48 ≤ c ∧ c ≤ 55 then (octal (c :: s)).map (fun r => ((r.1, false), r.2))
      else if c = 92 then some ((92, false), s)
      else if (c = 39 ∨ c = 34) ∧ c = quote then some ((c.toNat, false), s)
      else none

-- strconv.UnquoteChar
def unquoteChar (quote : UInt8) : Bytes → Option ((Int × Bool) × Bytes)
  | [] => none
  | c :: rest =>
      if c = quote ∧ (quote = 39 ∨ quote = 34) then none
      else if 0x80 ≤ c then some (((decodeRune (c :: rest)).1, true), (c :: rest).drop (decodeRune (c :: rest)).2)
      else if c ≠ 92 then some ((c.toNat, false), rest)
      else escaped quote rest

def runeBytes (c : Int) (multibyte : Bool) : Bytes :=
  if c < 0x80 ∨ multibyte = false then [UInt8.ofNat (c % 256).toNat] else encodeRune c.toNat

-- Every rune takes at least one byte; a text in single quotes is one rune.
def unquoteLoop (quote : UInt8) : Nat → Bytes → Option Bytes
  | _, [] => some []
  | 0, _ :: _ => none
  | n + 1, c :: rest =>
      (unquoteChar quote (c :: rest)).bind (fun char =>
        if quote = 39 ∧ char.2 ≠ [] then none
        else (unquoteLoop quote n char.2).map (runeBytes char.1.1 char.1.2 ++ ·))

-- strconv.Unquote
def unquote : Bytes → Option Bytes
  | [] => none
  | quote :: behind =>
      let s := behind.dropLast
      if behind.getLast? ≠ some quote then none
      else if quote = 96 then if s.any (· = 96) then none else some (s.filter (· ≠ 13))
      else if quote ≠ 34 ∧ quote ≠ 39 then none
      else if s.any (· = 10) then none
      else if s.all (fun c => c ≠ 92 ∧ c ≠ quote) ∧
          (quote = 34 ∨ (decodeRune s).2 = s.length ∧ ((decodeRune s).1 ≠ runeError ∨ (decodeRune s).2 ≠ 1)) then some s
      else unquoteLoop quote s.length s

end Unquote

section Json

open Json (EscapedRune EscapedText escapeByte replacement)

structure Piece (text out : Bytes) : Prop where
  nonempty : text ≠ []
  step : ∀ tail, ∃ rune : Int × Bool, unquoteChar 34 (text ++ tail) = some (rune, tail) ∧ runeBytes rune.1 rune.2 = out
  noNewline : ∀ c ∈ text, c ≠ 10
  plain : (∀ c ∈ text, c ≠ 92) → text = out

theorem piece_backslash (text out : Bytes) (rune : Int × Bool)
    (step : ∀ tail, unquoteChar 34 (92 :: text ++ tail) = some (rune, tail)) (value : runeBytes rune.1 rune.2 = out)
    (clear : text.all (fun c => c ≠ 10) = true) : Piece (92 :: text) out where
  nonempty := List.cons_ne_nil _ _
  step tail := ⟨rune, step tail, value⟩
  noNewline := by
    refine List.forall_mem_cons.mpr ⟨by decide, fun c member => ?_⟩
    exact of_decide_eq_true (List.all_eq_true.mp clear c member)
  plain clear := absurd rfl (clear 92 List.mem_cons_self)

theorem rune_bytes_ascii (b : UInt8) : runeBytes b.toNat false = [b] := by
  have small := UInt8.toNat_lt b
  rw [runeBytes, if_pos (Or.inr rfl), byte_of_nat _ b (by omega)]

theorem hex_rune_ascii (b : UInt8) (tail : Bytes) (ascii : b.toNat < 128) :
    hexRune 4 (48 :: 48 :: hexDigit (b.toNat / 16) :: hexDigit (b.toNat % 16) :: tail) = some ((b.toNat : Int), tail) := by
  have zero : fromHexChar 48 = some 0 := by decide
  have high := digit_decodes (b.toNat / 16) (by omega)
  have low := digit_decodes (b.toNat % 16) (by omega)
  have value : (((0 * 16 + 0) * 16 + 0) * 16 + b.toNat / 16) * 16 + b.toNat % 16 = b.toNat := by omega
  rw [hexRune, if_neg (by simp)]
  simp only [List.take_succ_cons, List.take_zero, List.mapM_cons, List.mapM_nil, zero, high, low, Option.bind_eq_bind,
    Option.bind_some, Option.pure_def, Option.map_some, List.foldl_cons, List.foldl_nil, List.drop_succ_cons, List.drop_zero,
    value]
  rw [rune, if_pos (by omega)]

theorem piece_plain (b : UInt8) (small : b < 0x80) (plain : Json.safe b = true) : Piece [b] [b] := by
  simp only [Json.safe, decide_eq_true_eq] at plain
  obtain ⟨printable, notQuote, notBackslash, -⟩ := plain
  refine ⟨List.cons_ne_nil _ _, fun tail => ⟨(b.toNat, false), ?_, rune_bytes_ascii b⟩, ?_, fun _ => rfl⟩
  · rw [List.singleton_append, unquoteChar, if_neg (fun both => notQuote both.1), if_neg (UInt8.not_le.mpr small),
      if_pos notBackslash]
  · intro c member newline
    rw [List.mem_singleton.mp member] at newline
    rw [newline] at printable
    exact absurd printable (by decide)

theorem hex_digit_printed (d : Nat) (small : d < 16) : hexDigit d ≠ 10 := by
  intro newline
  have none : fromHexChar 10 = none := by decide
  have decoded := digit_decodes d small
  rw [newline, none] at decoded
  cases decoded

theorem piece_hex (b : UInt8) (small : b < 0x80) :
    Piece [92, 117, 48, 48, hexDigit (b.toNat / 16), hexDigit (b.toNat % 16)] [b] := by
  have ascii : b.toNat < 128 := UInt8.lt_iff_toNat_lt.mp small
  refine piece_backslash _ [b] (b.toNat, true) (fun tail => ?_) ?_ ?_
  · have digits := hex_rune_ascii b tail ascii
    have inside : (b.toNat : Int) ≤ 0x10ffff := by omega
    simp only [List.cons_append, List.nil_append]
    rw [unquoteChar, if_neg (by decide), if_neg (by decide), if_neg (by decide)]
    simp only [escaped, digits, Option.filter_some, inside, decide_true, if_true, Option.map_some]
    rfl
  · have byte := rune_bytes_ascii b
    rw [runeBytes, if_pos (Or.inr rfl)] at byte
    rw [runeBytes, if_pos (Or.inl (by omega)), byte]
  · have high := hex_digit_printed (b.toNat / 16) (by omega)
    have low := hex_digit_printed (b.toNat % 16) (by omega)
    simp [high, low]

theorem piece_byte (b : UInt8) (small : b < 0x80) : Piece (escapeByte b) [b] := by
  rw [escapeByte]
  split
  · rename_i plain
    exact piece_plain b small plain
  split
  · rename_i marks
    rcases marks with rfl | rfl
    · exact piece_backslash _ _ (34, false) (fun _ => rfl) rfl rfl
    · exact piece_backslash _ _ (92, false) (fun _ => rfl) rfl rfl
  split
  · rename_i same
    subst same
    exact piece_backslash _ _ (10, false) (fun _ => rfl) rfl rfl
  split
  · rename_i same
    subst same
    exact piece_backslash _ _ (13, false) (fun _ => rfl) rfl rfl
  split
  · rename_i same
    subst same
    exact piece_backslash _ _ (9, false) (fun _ => rfl) rfl rfl
  · exact piece_hex b small

theorem piece_rune (b : UInt8) (rest : Bytes) (high : ¬ b < 0x80) (long : runeWidth (b :: rest) ≠ 1) :
    Piece ((b :: rest).take (runeWidth (b :: rest))) ((b :: rest).take (runeWidth (b :: rest))) := by
  have whole := long_rune long
  have positive := rune_width_positive b rest
  obtain ⟨more, width⟩ := Nat.exists_eq_succ_of_ne_zero (Nat.ne_of_gt positive)
  obtain ⟨value, encoded⟩ := encode_rune_value _ whole
  have large := long_rune_high _ whole
  have own := fun tail => (rune_width_own tail long).1
  have size : ((b :: rest).take (runeWidth (b :: rest))).length = runeWidth (b :: rest) :=
    List.length_take_of_le (rune_width_own [] long).2
  have first : (b :: rest).take (runeWidth (b :: rest)) = b :: rest.take more := by rw [width, List.take_succ_cons]
  generalize (b :: rest).take (runeWidth (b :: rest)) = text at own size whole value encoded large first ⊢
  refine ⟨by rw [first]; exact List.cons_ne_nil _ _, fun tail => ⟨(runeValue text, true), ?_, ?_⟩, ?_, fun _ => rfl⟩
  · have bound := large b (by rw [first]; exact List.mem_cons_self)
    have notQuote : b ≠ 34 := by
      rintro rfl
      exact absurd bound (by decide)
    have decoded : decodeRune (text ++ tail) = (runeValue text, runeWidth (b :: rest)) := by
      have step : decodeRune (text ++ tail) =
          (runeValue ((text ++ tail).take (runeWidth (text ++ tail))), runeWidth (text ++ tail)) := by
        have wide := own tail ▸ long
        rw [first, List.cons_append] at wide ⊢
        rw [decodeRune, if_neg high, if_neg wide]
      rw [step, own tail, List.take_left' size]
    have step : unquoteChar 34 (text ++ tail) =
        some ((((decodeRune (text ++ tail)).1 : Int), true), (text ++ tail).drop (decodeRune (text ++ tail)).2) := by
      rw [first, List.cons_append, unquoteChar, if_neg (fun both => notQuote both.1), if_pos (UInt8.not_lt.mp high)]
    rw [step, decoded, List.drop_left' size]
  · rw [runeBytes, if_neg (by simp; omega), Int.toNat_natCast, encoded]
  · intro c member newline
    have bound := large c member
    rw [newline] at bound
    exact absurd bound (by decide)

theorem piece_escaped (text out : Bytes) (rune : EscapedRune text out) : Piece text out := by
  cases rune with
  | ascii b small => exact piece_byte b small
  | broken => exact piece_backslash _ _ (0xfffd, true) (fun _ => rfl) rfl rfl
  | line => exact piece_backslash _ _ (0x2028, true) (fun _ => rfl) rfl rfl
  | paragraph => exact piece_backslash _ _ (0x2029, true) (fun _ => rfl) rfl rfl
  | rune b rest high long => exact piece_rune b rest high long

theorem unquote_loop_text (escaped meant : Bytes) (text : EscapedText escaped meant) (n : Nat) (bytes : escaped.length ≤ n) :
    unquoteLoop 34 n escaped = some meant := by
  induction text generalizing n with
  | nil => rw [unquoteLoop]
  | cons text out escaped meant first later ih =>
      have piece := piece_escaped text out first
      obtain ⟨char, read, runs⟩ := piece.step escaped
      have size := List.length_pos_iff.mpr piece.nonempty
      rw [List.length_append] at bytes
      obtain ⟨n, rfl⟩ := Nat.exists_eq_succ_of_ne_zero (n := n) (by omega)
      obtain ⟨c, rest, whole⟩ := List.exists_cons_of_ne_nil piece.nonempty
      rw [whole] at read ⊢
      rw [List.cons_append] at read ⊢
      rw [unquoteLoop, read, Option.bind_some, if_neg (fun both => absurd both.1 (by decide)), ih n (by omega), Option.map_some,
        runs]

theorem text_plain (escaped meant : Bytes) (text : EscapedText escaped meant) (plain : ∀ c ∈ escaped, c ≠ 92) :
    escaped = meant := by
  induction text with
  | nil => rfl
  | cons text out escaped meant first later ih =>
      have here := (piece_escaped text out first).plain (fun c member => plain c (List.mem_append_left _ member))
      rw [here, ih (fun c member => plain c (List.mem_append_right _ member))]

theorem text_one_line (escaped meant : Bytes) (text : EscapedText escaped meant) : ∀ c ∈ escaped, c ≠ 10 := by
  induction text with
  | nil => exact fun c impossible => absurd impossible List.not_mem_nil
  | cons text out escaped meant first later ih =>
      intro c member
      rcases List.mem_append.mp member with here | there
      · exact (piece_escaped text out first).noNewline c here
      · exact ih c there

theorem unquote_quote (s : Bytes) : unquote (Json.quote s) = some (Json.toValid s) := by
  have text := Json.escape_text s.length s (Nat.le_refl _)
  have oneLine := text_one_line _ _ text
  rw [Json.quote, Json.toValid]
  generalize Json.escapeLoop s.length s = escaped at text oneLine ⊢
  have single : ¬ escaped.any (· = 10) := by
    rw [List.any_eq_true]
    rintro ⟨c, member, newline⟩
    exact oneLine c member (of_decide_eq_true newline)
  have step : unquote (34 :: (escaped ++ [34])) =
      if escaped.all (fun c => c ≠ 92 ∧ c ≠ 34) then some escaped else unquoteLoop 34 escaped.length escaped := by
    simp only [unquote, List.dropLast_concat, List.getLast?_concat, ne_eq, not_true_eq_false, if_false, single, true_or,
      and_true]
    rfl
  rw [step]
  split
  · rename_i plain
    rw [text_plain escaped _ text]
    intro c member
    exact (of_decide_eq_true (List.all_eq_true.mp plain c member)).1
  · exact unquote_loop_text escaped _ text _ (Nat.le_refl _)

end Json

section Atoi

inductive NumError where
  | invalid
  | range
deriving DecidableEq, Repr

def NumError.text : NumError → Bytes
  | .invalid => str "invalid syntax"
  | .range => str "value out of range"

-- strconv.ParseUint in base ten: the loop stops at the first digit that overflows.
def parseUint : Nat → Bytes → Nat × Option NumError
  | n, [] => (n, none)
  | n, c :: rest =>
      if 48 ≤ c ∧ c ≤ 57 then
        if n * 10 + (c.toNat - 48) < 2 ^ 64 then parseUint (n * 10 + (c.toNat - 48)) rest else (2 ^ 64 - 1, some .range)
      else (0, some .invalid)

def signed (negative : Bool) (digits : Bytes) : Int × Option NumError :=
  if digits = [] then (0, some .invalid)
  else
    let (un, err) := parseUint 0 digits
    if err = some .invalid then (0, err)
    else if negative then if 2 ^ 63 < un then (-(2 ^ 63), some .range) else (-(un : Int), err)
    else if 2 ^ 63 ≤ un then (2 ^ 63 - 1, some .range) else ((un : Int), err)

def atoi : Bytes → Int × Option NumError
  | 43 :: digits => signed false digits
  | 45 :: digits => signed true digits
  | digits => signed false digits

theorem fold_grows (digits : Bytes) (n : Nat) : n ≤ digits.foldl (fun v c => v * 10 + (c.toNat - 48)) n := by
  induction digits generalizing n with
  | nil => exact Nat.le_refl n
  | cons c rest ih =>
      have later := ih (n * 10 + (c.toNat - 48))
      rw [List.foldl_cons]
      omega

section Decimal

variable (digits : Bytes) (decimal : ∀ c ∈ digits, 48 ≤ c ∧ c ≤ 57)

include decimal

theorem parse_uint_decimal (n : Nat) (small : n < 2 ^ 64) : parseUint n digits =
    if digits.foldl (fun v c => v * 10 + (c.toNat - 48)) n < 2 ^ 64 then
      (digits.foldl (fun v c => v * 10 + (c.toNat - 48)) n, none)
    else (2 ^ 64 - 1, some .range) := by
  induction digits generalizing n with
  | nil => rw [parseUint, List.foldl_nil, if_pos small]
  | cons c rest ih =>
      obtain ⟨digit, later⟩ := List.forall_mem_cons.mp decimal
      rw [parseUint, if_pos digit, List.foldl_cons]
      split
      · rename_i less
        exact ih later _ less
      · rename_i large
        have grows := fold_grows rest (n * 10 + (c.toNat - 48))
        rw [if_neg (by omega)]

theorem value_decimal : Digits.value 10 digits = digits.foldl (fun v c => v * 10 + (c.toNat - 48)) 0 := by
  rw [Digits.value]
  refine List.foldl_ext _ _ 0 (fun v c there => ?_)
  have digit := decimal c there
  have high := UInt8.le_iff_toNat_le.mp digit.2
  have nine : (57 : UInt8).toNat = 57 := rfl
  rw [Digits.digitValue, fromHexChar, if_pos digit, Option.filter_some, if_pos (by simp; omega), Option.getD_some]

theorem atoi_decimal (some_ : digits ≠ []) : atoi digits =
    if Digits.value 10 digits < 2 ^ 63 then ((Digits.value 10 digits : Int), none) else (2 ^ 63 - 1, some .range) := by
  have plain : atoi digits = signed false digits := by
    rw [atoi]
    · intro rest same
      exact absurd (decimal 43 (by rw [same]; exact List.mem_cons_self)).1 (by decide)
    · intro rest same
      exact absurd (decimal 45 (by rw [same]; exact List.mem_cons_self)).1 (by decide)
  rw [plain, signed, if_neg some_, parse_uint_decimal digits decimal 0 (by decide), value_decimal digits decimal]
  generalize digits.foldl (fun v c => v * 10 + (c.toNat - 48)) 0 = v
  by_cases small : v < 2 ^ 63
  · simp only [if_pos (show v < 2 ^ 64 by omega), reduceCtorEq, if_false, Bool.false_eq_true, if_pos small,
      if_neg (show ¬ 2 ^ 63 ≤ v by omega)]
  · by_cases fits : v < 2 ^ 64
    · simp only [if_pos fits, reduceCtorEq, if_false, Bool.false_eq_true, if_neg small, if_pos (Nat.not_lt.mp small)]
    · simp only [if_neg fits, Option.some.injEq, reduceCtorEq, if_false, Bool.false_eq_true, if_neg small,
        if_pos (show 2 ^ 63 ≤ 2 ^ 64 - 1 by decide)]

end Decimal

end Atoi

section Itoa

def itoa (n : Int) : Bytes := if n < 0 then 45 :: Digits.numeral 10 n.natAbs else Digits.numeral 10 n.natAbs

theorem numeral_unsigned (n : Nat) (rest : Bytes) : Digits.numeral 10 n ≠ 45 :: rest := by
  intro same
  have digit := numeral_digits 10 (by decide) (by decide) n 45 (by rw [same]; exact List.mem_cons_self)
  exact absurd digit (by decide)

theorem numeral_inj (m n : Nat) (same : Digits.numeral 10 m = Digits.numeral 10 n) : m = n := by
  rw [← value_numeral 10 (by decide) (by decide) m, same, value_numeral 10 (by decide) (by decide)]

theorem itoa_inj (m n : Int) (same : itoa m = itoa n) : m = n := by
  rw [itoa, itoa] at same
  split at same
  · split at same
    · have sizes := numeral_inj _ _ (List.cons.inj same).2
      omega
    · exact absurd same.symm (numeral_unsigned _ _)
  · split at same
    · exact absurd same (numeral_unsigned _ _)
    · have sizes := numeral_inj _ _ same
      omega

end Itoa

end GoLib.Strconv
