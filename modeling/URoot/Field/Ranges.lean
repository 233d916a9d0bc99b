import URoot.Field.Tokens

set_option autoImplicit false

namespace URoot.Field

open GoLib Act

section Sound

variable (unicode : DigitTable)

theorem fatal_ends {α : Type} (lex : Lexer) (text : Bytes) (good : α → Lexer → Prop) :
    Ends (fatal text : Parser α) lex Raised good := ends_of_error lex Raised _ _ lex good rfl ⟨text, rfl⟩

theorem pure_ends {α : Type} {lex : Lexer} {a : α} {good : α → Lexer → Prop} (holds : good a lex) :
    Ends (pure a : Parser α) lex Raised good := ends_of_ok lex Raised _ a lex good rfl holds

theorem peektype_ends {β : Type} {lex : Lexer} {f : Toktype → Parser β} {good : β → Lexer → Prop}
    (later : Ends (f lex.typ) lex Raised good) : Ends (peektype >>= f) lex Raised good := ⟨later.failed, later.done⟩

theorem atoi_digits (t : Bytes) (digits : IsDigits t) : (Strconv.atoi t).1 = clamp (Digits.value 10 t) := by
  have decimal : ∀ c ∈ t, 48 ≤ c ∧ c ≤ 57 := by
    intro c there
    have digit := digits.digits c there
    simp only [isDigitByte, decide_eq_true_eq] at digit
    exact ⟨UInt8.le_iff_toNat_le.mpr digit.1, UInt8.le_iff_toNat_le.mpr digit.2⟩
  rw [Strconv.atoi_decimal t decimal digits.some, clamp]
  split
  · simp only
    omega
  · simp only
    omega

theorem clamp_neg (n : Int) : -clamp n = clamp (-n) := by
  rw [clamp, clamp]
  omega

theorem parsenegated_ends (lex : Lexer) (text : Bytes) (here : At lex text) :
    Ends (parsenegated unicode) lex Raised (fun n after =>
      ∃ t rest, text = t ++ rest ∧ IsDigits t ∧ n = clamp (-(Digits.value 10 t : Int)) ∧ At after rest) := by
  refine ends_bind lex Raised _ _ _ _ (next_ends unicode lex text here) (fun second after reached => ?_)
  obtain ⟨rfl, rest, whole, shape, there⟩ := reached
  cases kind : lex.typ with
  | error | eof | comma | pipe | dash | space | nf => exact fatal_ends after _ _
  | num =>
      rw [kind] at shape
      refine pure_ends ⟨lex.tok, rest, whole, shape, ?_, there⟩
      rw [atoi_digits lex.tok shape, clamp_neg]

theorem parsenum_ends (lex : Lexer) (text : Bytes) (here : At lex text) :
    Ends (parsenum unicode) lex Raised (fun n after =>
      ∃ t rest m, text = t ++ rest ∧ IsNum t m ∧ n = clamp m ∧ At after rest) := by
  refine ends_bind lex Raised _ _ _ _ (next_ends unicode lex text here) (fun first mid reached => ?_)
  obtain ⟨rfl, rest, whole, shape, there⟩ := reached
  cases kind : lex.typ with
  | error | eof | comma | pipe | space | nf => exact fatal_ends mid _ _
  | num =>
      rw [kind] at shape
      exact pure_ends ⟨lex.tok, rest, _, whole, .plain lex.tok shape, atoi_digits lex.tok shape, there⟩
  | dash =>
      rw [kind] at shape
      have negated := parsenegated_ends unicode mid rest there
      refine ⟨negated.failed, fun n after done => ?_⟩
      obtain ⟨t, later, split, digits, value, behind⟩ := negated.done n after done
      refine ⟨minus :: t, later, _, ?_, .negated t digits, value, behind⟩
      rw [whole, split, show lex.tok = [minus] from shape]
      rfl

theorem parsefield_ends (lex : Lexer) (text : Bytes) (here : At lex text) :
    Ends (parsefield unicode) lex Raised (fun field after =>
      ∃ t rest m, text = t ++ rest ∧ field.1 = clamp m ∧ At after rest ∧
        (field.2 = .nf ∧ IsNF t ∧ m = lastField ∨ field.2 = .num ∧ IsNum t m)) := by
  refine peektype_ends ?_
  by_cases kind : lex.typ = .nf
  · rw [if_pos kind]
    refine ends_bind lex Raised _ _ _ _ (next_ends unicode lex text here) (fun first mid reached => ?_)
    obtain ⟨rfl, rest, whole, shape, there⟩ := reached
    rw [kind] at shape
    exact pure_ends ⟨lex.tok, rest, lastField, whole, clamp_last.symm, there, Or.inl ⟨rfl, shape, rfl⟩⟩
  · rw [if_neg kind]
    refine ends_bind lex Raised _ _ _ _ (parsenum_ends unicode lex text here) (fun n mid reached => ?_)
    obtain ⟨t, rest, m, whole, number, value, there⟩ := reached
    exact pure_ends ⟨t, rest, m, whole, value, there, Or.inr ⟨rfl, number⟩⟩

theorem parseend_ends (lex : Lexer) (text t : Bytes) (m : Int) (number : IsNum t m) (here : At lex text) :
    Ends (parseend unicode (clamp m)) lex Raised (fun r after =>
      ∃ u rest raw, text = u ++ rest ∧ IsRange (t ++ u) raw ∧ r = raw.clamped ∧ At after rest) := by
  refine peektype_ends ?_
  by_cases dash : lex.typ = .dash
  · rw [if_neg (fun other => other dash)]
    refine ends_bind lex Raised _ _ _ _ (next_ends unicode lex text here) (fun _ mid reached => ?_)
    obtain ⟨-, rest, whole, shape, there⟩ := reached
    rw [dash] at shape
    rw [whole, show lex.tok = [minus] from shape]
    refine peektype_ends ?_
    split
    · refine ends_bind mid Raised _ _ _ _ (parsefield_ends unicode mid rest there) (fun last after reached => ?_)
      obtain ⟨u, later, k, split, value, behind, which⟩ := reached
      have field : IsField u k := by
        rcases which with ⟨-, name, rfl⟩ | ⟨-, number⟩
        · exact .nf u name
        · exact .num u k number
      refine pure_ends ⟨minus :: u, later, _, ?_, .between t u m k number field, ?_, behind⟩
      · rw [split]
        rfl
      · rw [value]
        rfl
    · refine pure_ends ⟨[minus], rest, _, rfl, .from_ t m number, ?_, there⟩
      rw [Frange.clamped, clamp_last]
  · rw [if_pos dash]
    refine pure_ends ⟨[], text, ⟨m, m⟩, rfl, ?_, rfl, here⟩
    rw [List.append_nil]
    exact .one t m number

theorem parserange_ends (lex : Lexer) (text : Bytes) (here : At lex text) :
    Ends (parserange unicode) lex Raised (fun r after =>
      ∃ t rest raw, text = t ++ rest ∧ IsRange t raw ∧ r = raw.clamped ∧ At after rest) := by
  refine peektype_ends ?_
  split
  · exact fatal_ends lex _ _
  refine ends_bind lex Raised _ _ _ _ (parsefield_ends unicode lex text here) (fun field mid reached => ?_)
  obtain ⟨t, rest, m, whole, value, there, ⟨kind, name, last⟩ | ⟨kind, number⟩⟩ := reached
  · rw [if_pos kind]
    subst last
    refine pure_ends ⟨t, rest, _, whole, .nf t name, ?_, there⟩
    rw [value]
    rfl
  · rw [if_neg (by rw [kind]; decide), value]
    have ended := parseend_ends unicode mid rest t m number there
    refine ⟨ended.failed, fun r after done => ?_⟩
    obtain ⟨u, later, raw, split, range, same, behind⟩ := ended.done r after done
    refine ⟨t ++ u, later, raw, ?_, range, same, behind⟩
    rw [whole, split, List.append_assoc]

theorem skip_space_ends (lex : Lexer) (text : Bytes) (here : At lex text) :
    Ends (skipSpace unicode) lex Raised (fun _ after => ∃ ws rest, text = ws ++ rest ∧ IsWhite ws ∧ At after rest) := by
  refine peektype_ends ?_
  split
  · rename_i space
    refine ends_bind lex Raised _ _ _ _ (next_ends unicode lex text here) (fun _ mid reached => ?_)
    obtain ⟨-, rest, whole, shape, there⟩ := reached
    rw [space] at shape
    exact pure_ends ⟨lex.tok, rest, whole, shape.2.1, there⟩
  · exact pure_ends ⟨[], text, rfl, fun _ impossible => absurd impossible List.not_mem_nil, here⟩

theorem shape_delim {tok rest : Bytes} {typ : Toktype} (shape : Shape tok rest typ) (delim : isdelim typ = true) : IsDelim tok rest := by
  cases typ with
  | error | eof | dash | num | nf => cases delim
  | comma => exact Or.inl shape
  | pipe => exact Or.inr (Or.inl shape)
  | space => exact Or.inr (Or.inr shape)

theorem num_some (t : Bytes) (n : Int) (number : IsNum t n) : t ≠ [] := by
  cases number with
  | plain _ digits => exact digits.some
  | negated t digits => exact List.cons_ne_nil _ _

theorem nf_some (t : Bytes) (name : IsNF t) : t ≠ [] := by
  rcases name with rfl | rfl
  · decide
  · decide

theorem range_some (t : Bytes) (r : Frange) (range : IsRange t r) : t ≠ [] := by
  cases range with
  | nf _ name => exact nf_some t name
  | one _ n number => exact num_some t n number
  | from_ t n number => exact List.append_ne_nil_of_right_ne_nil _ (List.cons_ne_nil _ _)
  | between t u n m number field => exact List.append_ne_nil_of_right_ne_nil _ (List.cons_ne_nil _ _)

theorem at_end (lex : Lexer) (text : Bytes) (here : At lex text) (eof : lex.typ = .eof) : text = [] := by
  obtain ⟨last, whole, shape, -⟩ := at_shape lex text here
  rw [eof] at shape
  rw [whole, shape.1, shape.2, List.append_nil]

theorem loop_ends (rounds : Nat) (rs : List Frange) (lex : Lexer) (text : Bytes) (here : At lex text) (enough : text.length < rounds) :
    Ends (parserangesLoop unicode rounds rs) lex Raised (fun out _ =>
      ∃ raw, IsRanges text raw ∧ out = rs ++ raw.map Frange.clamped) := by
  induction rounds generalizing rs lex text with
  | zero => exact absurd enough (Nat.not_lt_zero _)
  | succ rounds ih =>
      refine ends_bind lex Raised _ _ _ _ (skip_space_ends unicode lex text here) (fun _ first reached => ?_)
      obtain ⟨ws, ahead, whole, white, there⟩ := reached
      refine ends_bind first Raised _ _ _ _ (parserange_ends unicode first ahead there) (fun r second reached => ?_)
      obtain ⟨t, rest, raw, split, range, value, behind⟩ := reached
      subst whole split value
      refine peektype_ends ?_
      by_cases eof : second.typ = .eof
      · have nothing := at_end second rest behind eof
        subst nothing
        rw [if_pos eof]
        refine pure_ends ⟨[raw], ?_, rfl⟩
        rw [List.append_nil]
        exact .last ws t raw white range
      · rw [if_neg eof]
        by_cases delim : isdelim second.typ = true
        · rw [if_neg (by rw [delim]; decide)]
          refine ends_bind second Raised _ _ _ _ (next_ends unicode second rest behind) (fun _ third reached => ?_)
          obtain ⟨-, later, whole, shape, after⟩ := reached
          have size := List.length_pos_iff.mpr (range_some t raw range)
          have shorter : later.length < rounds := by
            rw [whole] at enough
            simp only [List.length_append] at enough
            omega
          have loops := ih (rs ++ [raw.clamped]) third later after shorter
          refine ⟨loops.failed, fun out last done => ?_⟩
          obtain ⟨raws, ranges, same⟩ := loops.done out last done
          refine ⟨raw :: raws, ?_, ?_⟩
          · have delimiter := shape_delim shape delim
            have all := IsRanges.more ws t second.tok later raw raws white range delimiter ranges
            rw [whole]
            simpa only [List.append_assoc] using all
          · rw [same, List.append_assoc]
            rfl
        · rw [if_pos (Bool.eq_false_iff.mpr delim)]
          exact ends_of_error second Raised _ _ second _ rfl ⟨_, rfl⟩

theorem parseranges_ends (input : Bytes) (ascii : Ascii input) :
    (∃ raw, IsRanges input raw ∧ parseranges unicode input = .ok (raw.map Frange.clamped)) ∨
      ∃ text, parseranges unicode input = .error (.raised text) := by
  rw [parseranges]
  split
  · exact Or.inr ⟨_, rfl⟩
  have scans := next_scans unicode ⟨input, [], .error, 0, 0, 0⟩ input ⟨rfl, rfl⟩ ascii
  cases first : firstToken input with
  | none =>
      rw [first] at scans
      obtain ⟨message, ran⟩ := scans
      rw [run_bind_error ran]
      exact Or.inr ⟨message, rfl⟩
  | some found =>
      rw [first] at scans
      obtain ⟨after, ran, here⟩ := scans
      rw [run_bind_ok ran]
      have ends := loop_ends unicode (input.length + 1) [] after input here (Nat.lt_succ_self _)
      rcases loops : (parserangesLoop unicode (input.length + 1) []).run after with ⟨result, last⟩
      cases result with
      | ok rs =>
          obtain ⟨raw, ranges, same⟩ := ends.done rs last loops
          exact Or.inl ⟨raw, ranges, congrArg Except.ok same⟩
      | error e =>
          obtain ⟨message, same⟩ := ends.failed e last loops
          exact Or.inr ⟨message, congrArg Except.error same⟩

end Sound

end URoot.Field
