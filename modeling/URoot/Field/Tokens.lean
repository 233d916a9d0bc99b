import URoot.Field.Lexer

set_option autoImplicit false

namespace URoot.Field

open GoLib Act

section Language

def comma : UInt8 := 44
def bar : UInt8 := 124
def minus : UInt8 := 45

def isDigitByte (b : UInt8) : Bool := 48 ≤ b.toNat ∧ b.toNat ≤ 57

def isSpaceByte (b : UInt8) : Bool := isSpace b.toNat

def Ascii (text : Bytes) : Prop := ∀ b ∈ text, b < 0x80

structure IsDigits (text : Bytes) : Prop where
  some : text ≠ []
  digits : ∀ b ∈ text, isDigitByte b = true

def IsWhite (text : Bytes) : Prop := ∀ b ∈ text, isSpaceByte b = true

inductive IsNum : Bytes → Int → Prop where
  | plain (t : Bytes) (digits : IsDigits t) : IsNum t (Digits.value 10 t)
  | negated (t : Bytes) (digits : IsDigits t) : IsNum (minus :: t) (-(Digits.value 10 t : Int))

def IsNF (text : Bytes) : Prop := text = str "N" ∨ text = str "NF"

inductive IsField : Bytes → Int → Prop where
  | num (t : Bytes) (n : Int) (number : IsNum t n) : IsField t n
  | nf (t : Bytes) (name : IsNF t) : IsField t lastField

inductive IsRange : Bytes → Frange → Prop where
  | nf (t : Bytes) (name : IsNF t) : IsRange t ⟨lastField, lastField⟩
  | one (t : Bytes) (n : Int) (number : IsNum t n) : IsRange t ⟨n, n⟩
  | from_ (t : Bytes) (n : Int) (number : IsNum t n) : IsRange (t ++ [minus]) ⟨n, lastField⟩
  | between (t u : Bytes) (n m : Int) (number : IsNum t n) (field : IsField u m) : IsRange (t ++ minus :: u) ⟨n, m⟩

-- A delimiter in front of a text; a run of white space is maximal.
def IsDelim (d rest : Bytes) : Prop :=
  d = [comma] ∨ d = [bar] ∨ d ≠ [] ∧ IsWhite d ∧ ∀ b ∈ rest.head?, isSpaceByte b = false

inductive IsRanges : Bytes → List Frange → Prop where
  | last (ws t : Bytes) (r : Frange) (white : IsWhite ws) (range : IsRange t r) : IsRanges (ws ++ t) [r]
  | more (ws t d rest : Bytes) (r : Frange) (rs : List Frange) (white : IsWhite ws) (range : IsRange t r) (delim : IsDelim d rest)
      (later : IsRanges rest rs) : IsRanges (ws ++ t ++ d ++ rest) (r :: rs)

def clamp (n : Int) : Int := max (-(2 ^ 63 - 1)) (min n (2 ^ 63 - 1))

def Frange.clamped (r : Frange) : Frange := ⟨clamp r.begin_, clamp r.end_⟩

theorem clamp_small (n : Int) (small : n.natAbs < 2 ^ 63) : clamp n = n := by
  rw [clamp]
  omega

theorem clamp_last : clamp lastField = lastField := clamp_small lastField (by decide)

end Language

section Taken

namespace Lexer

-- The bytes front have been consumed since the last token; text is ahead.
structure Taken (lex : Lexer) (front text : Bytes) : Prop where
  ahead : lex.input.drop lex.start = front ++ text
  pos : lex.pos = lex.start + front.length

variable (lex : Lexer) (front text : Bytes) (taken : lex.Taken front text)

include taken

theorem taken_drop : lex.input.drop lex.pos = text := by
  rw [taken.pos, ← List.drop_drop, taken.ahead, List.drop_left]

theorem taken_ignore : lex.ignore.Taken front text := ⟨taken.ahead, taken.pos⟩

omit taken in
theorem nextrune_end (taken : lex.Taken front []) : lex.nextrune = (none, lex.ignore) := by
  have drop := taken_drop lex front [] taken
  rw [nextrune, if_pos (List.drop_eq_nil_iff.mp drop)]
  rfl

omit taken in
theorem nextrune_ascii (b : UInt8) (taken : lex.Taken front (b :: text)) (ascii : b < 0x80) :
    lex.nextrune = (some b.toNat, { lex with width := 1 }) := by
  have drop := taken_drop lex front (b :: text) taken
  have inside : ¬ lex.input.length ≤ lex.pos := fun outside => by
    rw [List.drop_eq_nil_of_le outside] at drop
    cases drop
  rw [nextrune, if_neg inside, drop, decodeRune, if_pos ascii]

omit taken in
theorem taken_consume (b : UInt8) (taken : lex.Taken front (b :: text)) :
    ({ lex with width := 1 } : Lexer).consume.Taken (front ++ [b]) text := by
  refine ⟨?_, ?_⟩
  · rw [List.append_assoc]
    exact taken.ahead
  · change lex.pos + 1 = lex.start + (front ++ [b]).length
    rw [List.length_append, taken.pos, Nat.add_assoc, List.length_singleton]

theorem token_taken (idle : lex.width = 0) : lex.token.1 = front ∧ lex.token.2.Taken [] text := by
  have same : lex.consume = lex := by
    rw [consume, idle, Nat.add_zero, ← idle]
  rw [token, same]
  refine ⟨?_, ?_, rfl⟩
  · rw [taken.pos, Nat.add_sub_cancel_left, taken.ahead, List.take_left]
  · exact taken_drop lex front text taken

theorem consume_run_taken (run : Nat → Bool) (n : Nat) (ascii : Ascii text) (enough : text.length ≤ n) :
    (consumeRun run n lex).Taken (front ++ text.takeWhile (fun b => run b.toNat)) (text.dropWhile (fun b => run b.toNat)) := by
  induction n generalizing lex front text with
  | zero =>
      rw [List.length_eq_zero_iff.mp (Nat.le_zero.mp enough)] at taken ⊢
      rw [List.takeWhile_nil, List.append_nil]
      exact taken
  | succ n ih =>
      cases text with
      | nil =>
          rw [consumeRun, nextrune_end lex front taken, List.takeWhile_nil, List.append_nil]
          exact taken_ignore lex front [] taken
      | cons b text =>
          obtain ⟨small, later⟩ := List.forall_mem_cons.mp ascii
          rw [consumeRun, nextrune_ascii lex front text b taken small]
          by_cases inside : run b.toNat = true
          · have more := ih _ _ _ (taken_consume lex front text b taken) later (Nat.le_of_succ_le_succ enough)
            simp only [List.takeWhile_cons, List.dropWhile_cons, if_pos inside]
            rw [List.append_cons]
            exact more
          · simp only [List.takeWhile_cons, List.dropWhile_cons, if_neg inside, List.append_nil]
            exact ⟨taken.ahead, taken.pos⟩

end Lexer

end Taken

section Token

def firstToken : Bytes → Option ((Bytes × Toktype) × Bytes)
  | [] => some (([], .eof), [])
  | b :: rest =>
      if b = 44 then some (([b], .comma), rest)
      else if b = 124 then some (([b], .pipe), rest)
      else if b = 45 then some (([b], .dash), rest)
      else if b = 78 then
        if rest.head? = some 70 then some ((str "NF", .nf), rest.tail) else some ((str "N", .nf), rest)
      else if isDigitByte b then some (((b :: rest).takeWhile isDigitByte, .num), (b :: rest).dropWhile isDigitByte)
      else if isSpaceByte b then some (((b :: rest).takeWhile isSpaceByte, .space), (b :: rest).dropWhile isSpaceByte)
      else none

def Shape (tok rest : Bytes) : Toktype → Prop
  | .error => False
  | .eof => tok = [] ∧ rest = []
  | .comma => tok = [comma]
  | .pipe => tok = [bar]
  | .dash => tok = [minus]
  | .num => IsDigits tok
  | .space => tok ≠ [] ∧ IsWhite tok ∧ ∀ b ∈ rest.head?, isSpaceByte b = false
  | .nf => IsNF tok

theorem run_shape {run : UInt8 → Bool} {b : UInt8} (rest : Bytes) (here : run b = true) :
    (b :: rest).takeWhile run ≠ [] ∧ (∀ c ∈ (b :: rest).takeWhile run, run c = true) ∧
      ∀ c ∈ ((b :: rest).dropWhile run).head?, run c = false := by
  refine ⟨?_, List.all_eq_true.mp List.all_takeWhile, fun c there => ?_⟩
  · rw [List.takeWhile_cons_of_pos here]
    exact List.cons_ne_nil _ _
  · have stop := List.head?_dropWhile_not run (b :: rest)
    rw [Option.mem_def.mp there] at stop
    exact stop

theorem first_token_shape {text tok rest : Bytes} {typ : Toktype} (first : firstToken text = some ((tok, typ), rest)) :
    text = tok ++ rest ∧ Shape tok rest typ := by
  cases text with
  | nil =>
      cases first
      exact ⟨rfl, rfl, rfl⟩
  | cons b text =>
      rw [firstToken] at first
      split at first
      · rename_i isComma
        cases first
        exact ⟨rfl, congrArg (fun c => [c]) isComma⟩
      split at first
      · rename_i isBar
        cases first
        exact ⟨rfl, congrArg (fun c => [c]) isBar⟩
      split at first
      · rename_i isMinus
        cases first
        exact ⟨rfl, congrArg (fun c => [c]) isMinus⟩
      split at first
      · rename_i isN
        subst isN
        split at first
        · rename_i f
          cases first
          obtain ⟨after, rfl⟩ := List.head?_eq_some_iff.mp f
          exact ⟨rfl, Or.inr rfl⟩
        · cases first
          exact ⟨rfl, Or.inl rfl⟩
      split at first
      · rename_i digit
        cases first
        have shape := run_shape text digit
        exact ⟨List.takeWhile_append_dropWhile.symm, shape.1, shape.2.1⟩
      split at first
      · rename_i space
        cases first
        exact ⟨List.takeWhile_append_dropWhile.symm, run_shape text space⟩
      · cases first

variable (unicode : DigitTable)

theorem digit_byte (b : UInt8) (small : b < 0x80) : unicode.isDigit b.toNat = isDigitByte b := by
  have less : b.toNat < 128 := small
  rw [unicode.latin b.toNat (by omega), isDigitByte]

theorem take_while_digits {text : Bytes} (ascii : Ascii text) :
    text.takeWhile (fun b => unicode.isDigit b.toNat) = text.takeWhile isDigitByte ∧
      text.dropWhile (fun b => unicode.isDigit b.toNat) = text.dropWhile isDigitByte := by
  induction text with
  | nil => exact ⟨rfl, rfl⟩
  | cons b text ih =>
      obtain ⟨small, later⟩ := List.forall_mem_cons.mp ascii
      obtain ⟨front, back⟩ := ih later
      simp only [List.takeWhile_cons, List.dropWhile_cons, digit_byte unicode b small, front, back, and_self]

open Lexer in
theorem scanned_taken (lex : Lexer) (front text : Bytes) (typ : Toktype) (taken : lex.Taken front text) (idle : lex.width = 0) :
    ∃ next : Lexer, scanned lex typ = .ok ((front, typ), next) ∧ next.Taken [] text := by
  obtain ⟨same, ready⟩ := token_taken lex front text taken idle
  exact ⟨lex.token.2, by rw [scanned, same], ready⟩

open Lexer in
theorem scanned_byte {lex : Lexer} {b : UInt8} {text : Bytes} (typ : Toktype) (taken : lex.Taken [] (b :: text)) :
    ∃ next : Lexer, scanned { lex with width := 1 } typ = .ok (([b], typ), next) ∧ next.Taken [] text := by
  exact scanned_taken ({ lex with width := 1 } : Lexer).consume [b] text typ (taken_consume lex [] text b taken) rfl

open Lexer in
theorem scan_nf_taken (lex : Lexer) (rest : Bytes) (taken : lex.Taken [] (78 :: rest)) (ascii : Ascii rest) :
    ∃ next : Lexer, scanned (scanNF { lex with width := 1 }) .nf =
      .ok (if rest.head? = some 70 then (str "NF", .nf) else (str "N", .nf), next) ∧
        next.Taken [] (if rest.head? = some 70 then rest.tail else rest) := by
  have after := taken_consume lex [] rest 78 taken
  generalize size : ({ lex with width := 1 } : Lexer).consume = mid at after
  rw [scanNF, size]
  cases rest with
  | nil =>
      rw [nextrune_end mid _ after]
      exact scanned_taken _ _ _ _ (taken_ignore _ _ _ (taken_ignore _ _ _ after)) rfl
  | cons c rest =>
      rw [nextrune_ascii mid _ rest c after (ascii c List.mem_cons_self)]
      by_cases f : c = 70
      · subst f
        exact scanned_taken _ _ _ _ (taken_ignore _ _ _ (taken_consume _ _ _ _ after)) rfl
      · have other : ¬ some c.toNat = some 70 := fun same => f (UInt8.toNat_inj.mp (Option.some.inj same))
        have first : ¬ (c :: rest).head? = some 70 := fun same => f (Option.some.inj same)
        simp only [if_neg other, if_neg first]
        exact scanned_taken _ _ _ _ ⟨after.ahead, after.pos⟩ rfl

open Lexer in
theorem scan_first (lex : Lexer) (text : Bytes) (taken : lex.Taken [] text) (ascii : Ascii text) :
    match firstToken text with
    | none => ∃ message, lex.scan unicode = .error message
    | some (got, rest) => ∃ next : Lexer, lex.scan unicode = .ok (got, next) ∧ next.Taken [] rest := by
  cases text with
  | nil =>
      rw [scan, nextrune_end lex [] taken]
      exact ⟨lex.ignore, rfl, taken_ignore lex [] [] taken⟩
  | cons b rest =>
      obtain ⟨small, later⟩ := List.forall_mem_cons.mp ascii
      have same : ∀ n : UInt8, b.toNat = n.toNat ↔ b = n := fun n => UInt8.toNat_inj
      have room : (b :: rest).length ≤ lex.input.length := by
        have drop := taken_drop lex [] (b :: rest) taken
        rw [← drop, List.length_drop]
        omega
      have again : ({ lex with width := 1 } : Lexer).Taken [] (b :: rest) := ⟨taken.ahead, taken.pos⟩
      rw [scan, nextrune_ascii lex [] rest b taken small, firstToken]
      simp only [digit_byte unicode b small, show b.toNat = 44 ↔ b = 44 from same 44, show b.toNat = 124 ↔ b = 124 from same 124,
        show b.toNat = 45 ↔ b = 45 from same 45, show b.toNat = 78 ↔ b = 78 from same 78]
      by_cases isComma : b = 44
      · simp only [if_pos isComma]
        exact scanned_byte .comma taken
      by_cases isBar : b = 124
      · simp only [if_neg isComma, if_pos isBar]
        exact scanned_byte .pipe taken
      by_cases isMinus : b = 45
      · simp only [if_neg isComma, if_neg isBar, if_pos isMinus]
        exact scanned_byte .dash taken
      by_cases isN : b = 78
      · subst isN
        simp only [if_neg isComma, if_neg isBar, if_neg isMinus, if_true]
        have scanned := scan_nf_taken lex rest taken later
        by_cases f : rest.head? = some 70
        · simpa only [if_pos f] using scanned
        · simpa only [if_neg f] using scanned
      simp only [if_neg isComma, if_neg isBar, if_neg isMinus, if_neg isN]
      by_cases digit : isDigitByte b = true
      · have run := consume_run_taken _ [] (b :: rest) again unicode.isDigit lex.input.length ascii room
        rw [(take_while_digits unicode ascii).1, (take_while_digits unicode ascii).2] at run
        simp only [if_pos digit]
        exact scanned_taken _ _ _ _ (taken_ignore _ _ _ run) rfl
      simp only [if_neg digit]
      by_cases space : isSpaceByte b = true
      · have run := consume_run_taken _ [] (b :: rest) again isSpace lex.input.length ascii room
        have blank : isSpace b.toNat = true := space
        simp only [if_pos space, if_pos blank]
        exact scanned_taken _ _ _ _ (taken_ignore _ _ _ run) rfl
      · have blank : ¬ isSpace b.toNat = true := space
        simp only [if_neg space, if_neg blank]
        exact ⟨_, rfl⟩

end Token

section Step

variable (unicode : DigitTable)

structure At (lex : Lexer) (text : Bytes) : Prop where
  ascii : Ascii text
  ready : ∃ rest, firstToken text = some ((lex.tok, lex.typ), rest) ∧ lex.Taken [] rest

def Raised (e : Stop Bytes) : Prop := ∃ text, e = .raised text

theorem next_scans (lex : Lexer) (text : Bytes) (taken : lex.Taken [] text) (ascii : Ascii text) :
    match firstToken text with
    | none => ∃ message, (next unicode).run lex = (.error (.raised message), lex)
    | some _ => ∃ after, (next unicode).run lex = (.ok (lex.tok, lex.typ), after) ∧ At after text := by
  have scans := scan_first unicode lex text taken ascii
  cases first : firstToken text with
  | none =>
      rw [first] at scans
      obtain ⟨message, scanned⟩ := scans
      refine ⟨message, ?_⟩
      rw [next, run_get_bind, scanned]
      rfl
  | some found =>
      rw [first] at scans
      obtain ⟨after, scanned, ready⟩ := scans
      refine ⟨{ after with tok := found.1.1, typ := found.1.2 }, ?_, ascii, found.2, first, ready.ahead, ready.pos⟩
      rw [next, run_get_bind, scanned]
      rfl

variable (lex : Lexer) (text : Bytes) (here : At lex text)

include here

theorem at_shape : ∃ rest, text = lex.tok ++ rest ∧ Shape lex.tok rest lex.typ ∧ Ascii rest ∧ lex.Taken [] rest := by
  obtain ⟨rest, first, taken⟩ := here.ready
  obtain ⟨whole, shape⟩ := first_token_shape first
  refine ⟨rest, whole, shape, fun b there => here.ascii b ?_, taken⟩
  rw [whole]
  exact List.mem_append_right _ there

theorem next_ends : Ends (next unicode) lex Raised (fun got after =>
    got = (lex.tok, lex.typ) ∧ ∃ rest, text = lex.tok ++ rest ∧ Shape lex.tok rest lex.typ ∧ At after rest) := by
  obtain ⟨rest, whole, shape, ascii, taken⟩ := at_shape lex text here
  have scans := next_scans unicode lex rest taken ascii
  cases first : firstToken rest with
  | none =>
      rw [first] at scans
      obtain ⟨message, ran⟩ := scans
      exact ends_of_error lex Raised _ _ _ _ ran ⟨message, rfl⟩
  | some found =>
      rw [first] at scans
      obtain ⟨after, ran, there⟩ := scans
      exact ends_of_ok lex Raised _ _ after _ ran ⟨rfl, rest, whole, shape, there⟩

end Step

end URoot.Field
