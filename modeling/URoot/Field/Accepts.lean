import URoot.Field.Ranges

set_option autoImplicit false

namespace URoot.Field

open GoLib Act

section Complete

variable (unicode : DigitTable)

theorem first_run {run : UInt8 → Bool} {t rest : Bytes} (inside : ∀ b ∈ t, run b = true) (stop : ∀ b ∈ rest.head?, run b = false) :
    (t ++ rest).takeWhile run = t ∧ (t ++ rest).dropWhile run = rest := by
  have none_ : rest.takeWhile run = [] ∧ rest.dropWhile run = rest := by
    cases rest with
    | nil => exact ⟨rfl, rfl⟩
    | cons b rest =>
        have other : ¬ run b = true := by
          rw [stop b rfl]
          decide
        exact ⟨List.takeWhile_cons_of_neg other, List.dropWhile_cons_of_neg other⟩
  rw [List.takeWhile_append_of_pos inside, List.dropWhile_append_of_pos inside, none_.1, none_.2, List.append_nil]
  exact ⟨rfl, rfl⟩

theorem byte_apart (holds : UInt8 → Bool) (b c : UInt8) (here : holds b = true) (other : holds c = false) : b ≠ c := by
  rintro rfl
  rw [other] at here
  cases here

theorem digit_other (b : UInt8) (digit : isDigitByte b = true) : b ≠ 44 ∧ b ≠ 124 ∧ b ≠ 45 ∧ b ≠ 78 ∧ isSpaceByte b = false := by
  have apart := fun c => byte_apart isDigitByte b c digit
  refine ⟨apart 44 rfl, apart 124 rfl, apart 45 rfl, apart 78 rfl, ?_⟩
  simp only [isDigitByte, decide_eq_true_eq] at digit
  simp only [isSpaceByte, isSpace, decide_eq_false_iff_not]
  omega

theorem first_digits (t rest : Bytes) (digits : IsDigits t) (stop : ∀ b ∈ rest.head?, isDigitByte b = false) :
    firstToken (t ++ rest) = some ((t, .num), rest) := by
  have run := first_run digits.digits stop
  obtain ⟨b, t, rfl⟩ := List.exists_cons_of_ne_nil digits.some
  have digit := digits.digits b List.mem_cons_self
  obtain ⟨notComma, notBar, notMinus, notN, -⟩ := digit_other b digit
  rw [List.cons_append] at run ⊢
  rw [firstToken, if_neg notComma, if_neg notBar, if_neg notMinus, if_neg notN, if_pos digit, run.1, run.2]

theorem first_nf (t rest : Bytes) (name : IsNF t) (stop : rest.head? ≠ some 70) : firstToken (t ++ rest) = some ((t, .nf), rest) := by
  rcases name with rfl | rfl
  · exact if_neg stop
  · rfl

theorem space_other (b : UInt8) (space : isSpaceByte b = true) : b ≠ 44 ∧ b ≠ 124 ∧ b ≠ 45 ∧ b ≠ 78 ∧ b ≠ 70 ∧ isDigitByte b = false := by
  have apart := fun c => byte_apart isSpaceByte b c space
  refine ⟨apart 44 rfl, apart 124 rfl, apart 45 rfl, apart 78 rfl, apart 70 rfl, Bool.eq_false_iff.mpr fun digit => ?_⟩
  rw [(digit_other b digit).2.2.2.2] at space
  cases space

theorem first_white {t rest : Bytes} (some_ : t ≠ []) (white : IsWhite t) (stop : ∀ b ∈ rest.head?, isSpaceByte b = false) :
    firstToken (t ++ rest) = some ((t, .space), rest) := by
  have run := first_run white stop
  obtain ⟨b, t, rfl⟩ := List.exists_cons_of_ne_nil some_
  have space := white b List.mem_cons_self
  obtain ⟨notComma, notBar, notMinus, notN, -, notDigit⟩ := space_other b space
  rw [List.cons_append] at run ⊢
  rw [firstToken, if_neg notComma, if_neg notBar, if_neg notMinus, if_neg notN, if_neg (by rw [notDigit]; decide), if_pos space,
    run.1, run.2]

def Follows (rest : Bytes) : Prop := ∃ tok typ later, firstToken rest = some ((tok, typ), later) ∧ (typ = .eof ∨ isdelim typ = true)

structure Stops (rest : Bytes) : Prop where
  token : firstToken rest ≠ none
  digit : ∀ b ∈ rest.head?, isDigitByte b = false
  letter : rest.head? ≠ some 70

theorem follows_stops (rest : Bytes) (follows : Follows rest) : Stops rest := by
  obtain ⟨tok, typ, later, first, kind⟩ := follows
  obtain ⟨whole, shape⟩ := first_token_shape first
  have heads : ∀ b ∈ rest.head?, b = comma ∨ b = bar ∨ isSpaceByte b = true := by
    intro b there
    cases typ with
    | error | dash | num | nf => rcases kind with same | same <;> cases same
    | eof =>
        rw [whole, shape.1, shape.2] at there
        cases there
    | comma =>
        rw [whole, show tok = [comma] from shape] at there
        exact Or.inl (Option.some.inj there).symm
    | pipe =>
        rw [whole, show tok = [bar] from shape] at there
        exact Or.inr (Or.inl (Option.some.inj there).symm)
    | space =>
        obtain ⟨c, front, rfl⟩ := List.exists_cons_of_ne_nil shape.1
        rw [whole] at there
        exact Or.inr (Or.inr (shape.2.1 b (Option.some.inj there ▸ List.mem_cons_self)))
  have token : firstToken rest ≠ none := by
    rw [first]
    exact Option.some_ne_none _
  refine ⟨token, fun b there => ?_, fun letter => ?_⟩
  · rcases heads b there with rfl | rfl | space
    · rfl
    · rfl
    · exact (space_other b space).2.2.2.2.2
  · rcases heads 70 letter with same | same | space
    · cases same
    · cases same
    · cases space

theorem minus_stops (rest : Bytes) : Stops (minus :: rest) := by
  refine ⟨Option.some_ne_none _, fun b there => ?_, fun letter => ?_⟩
  · cases there
    rfl
  · cases letter

section Runs

variable (lex : Lexer)

theorem next_ok (tok rest : Bytes) (typ : Toktype) (here : At lex (tok ++ rest))
    (first : firstToken (tok ++ rest) = some ((tok, typ), rest)) (stops : firstToken rest ≠ none) :
    lex.typ = typ ∧ ∃ after, (next unicode).run lex = (.ok (tok, typ), after) ∧ At after rest := by
  obtain ⟨later, found, taken⟩ := here.ready
  rw [first] at found
  cases found
  have ascii : Ascii rest := fun b there => here.ascii b (List.mem_append_right _ there)
  have scans := next_scans unicode lex rest taken ascii
  cases second : firstToken rest with
  | none => exact absurd second stops
  | some _ =>
      rw [second] at scans
      exact ⟨rfl, scans⟩

section Fields

variable {lex} {t rest : Bytes} {n : Int} (here : At lex (t ++ rest))

include here

theorem parsenum_ok (number : IsNum t n) (stops : Stops rest) :
    ∃ after, (parsenum unicode).run lex = (.ok (clamp n), after) ∧ At after rest := by
  cases number with
  | plain _ digits =>
      obtain ⟨-, after, ran, there⟩ := next_ok unicode lex t rest .num here (first_digits t rest digits stops.digit) stops.token
      refine ⟨after, ?_, there⟩
      rw [parsenum, run_bind_ok ran, ← atoi_digits t digits]
      rfl
  | negated t digits =>
      have second := first_digits t rest digits stops.digit
      obtain ⟨-, mid, ran, there⟩ := next_ok unicode lex [minus] (t ++ rest) .dash here rfl (by rw [second]; exact Option.some_ne_none _)
      obtain ⟨-, after, ran', there'⟩ := next_ok unicode mid t rest .num there second stops.token
      refine ⟨after, ?_, there'⟩
      have step : (parsenum unicode).run lex = (parsenegated unicode).run mid := by
        rw [parsenum, run_bind_ok ran]
        rfl
      rw [step, parsenegated, run_bind_ok ran', ← clamp_neg, ← atoi_digits t digits]
      rfl

theorem num_kind (number : IsNum t n) (stops : Stops rest) : lex.typ = .num ∨ lex.typ = .dash := by
  obtain ⟨later, found, -⟩ := here.ready
  have kind := congrArg (Option.map (fun first => first.1.2)) found
  cases number with
  | plain _ digits =>
      rw [first_digits t rest digits stops.digit] at kind
      exact Or.inl (Option.some.inj kind).symm
  | negated t digits => exact Or.inr (Option.some.inj kind).symm

theorem parsefield_num (number : IsNum t n) (stops : Stops rest) :
    ∃ after, (parsefield unicode).run lex = (.ok (clamp n, .num), after) ∧ At after rest := by
  obtain ⟨after, ran, there⟩ := parsenum_ok unicode here number stops
  have kind : ¬ lex.typ = .nf := by
    rcases num_kind here number stops with same | same
    · rw [same]
      decide
    · rw [same]
      decide
  refine ⟨after, ?_, there⟩
  rw [parsefield, run_bind_ok rfl, if_neg kind, run_bind_ok ran]
  rfl

theorem parsefield_nf (name : IsNF t) (stops : Stops rest) :
    lex.typ = .nf ∧ ∃ after, (parsefield unicode).run lex = (.ok (lastField, .nf), after) ∧ At after rest := by
  obtain ⟨kind, after, ran, there⟩ := next_ok unicode lex t rest .nf here (first_nf t rest name stops.letter) stops.token
  refine ⟨kind, after, ?_, there⟩
  rw [parsefield, run_bind_ok rfl, if_pos kind, run_bind_ok ran]
  rfl

theorem parsefield_ok (field : IsField t n) (stops : Stops rest) :
    lex.typ ≠ .eof ∧ isdelim lex.typ = false ∧ ∃ typ after, (parsefield unicode).run lex = (.ok (clamp n, typ), after) ∧ At after rest := by
  cases field with
  | num _ number =>
      have ran := parsefield_num unicode here number stops
      rcases num_kind here number stops with same | same
      · rw [same]
        exact ⟨by decide, rfl, .num, ran⟩
      · rw [same]
        exact ⟨by decide, rfl, .num, ran⟩
  | nf name =>
      obtain ⟨same, ran⟩ := parsefield_nf unicode here name stops
      rw [same, clamp_last]
      exact ⟨by decide, rfl, .nf, ran⟩

end Fields

theorem follows_kind (rest : Bytes) (here : At lex rest) (follows : Follows rest) : lex.typ = .eof ∨ isdelim lex.typ = true := by
  obtain ⟨tok, typ, later, first, kind⟩ := follows
  obtain ⟨_, found, -⟩ := here.ready
  have same := congrArg (Option.map (fun first => first.1.2)) (first.symm.trans found)
  rw [← show typ = lex.typ from Option.some.inj same]
  exact kind

theorem parseend_one (rest : Bytes) (n : Int) (here : At lex rest) (follows : Follows rest) :
    (parseend unicode n).run lex = (.ok ⟨n, n⟩, lex) := by
  have kind : lex.typ ≠ .dash := by
    rcases follows_kind lex rest here follows with same | same
    · rw [same]
      decide
    · intro dash
      rw [dash] at same
      cases same
  rw [parseend, run_bind_ok rfl, if_pos kind]
  rfl

theorem parseend_from (rest : Bytes) (n : Int) (here : At lex (minus :: rest)) (follows : Follows rest) :
    ∃ after, (parseend unicode n).run lex = (.ok ⟨n, lastField⟩, after) ∧ At after rest := by
  obtain ⟨kind, after, ran, there⟩ := next_ok unicode lex [minus] rest .dash here rfl (follows_stops rest follows).token
  have stop : ¬ (after.typ ≠ .eof ∧ isdelim after.typ = false) := by
    rintro ⟨more, other⟩
    rcases follows_kind after rest there follows with same | same
    · exact more same
    · rw [other] at same
      cases same
  refine ⟨after, ?_, there⟩
  rw [parseend, run_bind_ok rfl, if_neg (fun other => other kind), run_bind_ok ran,
    run_bind_ok rfl, if_neg stop]
  rfl

theorem field_token {u rest : Bytes} {m : Int} (field : IsField u m) (stops : Stops rest) : firstToken (u ++ rest) ≠ none := by
  cases field with
  | num _ number =>
      cases number with
      | plain _ digits =>
          rw [first_digits u rest digits stops.digit]
          exact Option.some_ne_none _
      | negated t digits => exact Option.some_ne_none _
  | nf name =>
      rw [first_nf u rest name stops.letter]
      exact Option.some_ne_none _

theorem parseend_between (u rest : Bytes) (n m : Int) (here : At lex (minus :: (u ++ rest))) (field : IsField u m)
    (stops : Stops rest) : ∃ after, (parseend unicode n).run lex = (.ok ⟨n, clamp m⟩, after) ∧ At after rest := by
  obtain ⟨kind, mid, ran, there⟩ := next_ok unicode lex [minus] (u ++ rest) .dash here rfl (field_token field stops)
  obtain ⟨more, other, typ, after, ran', there'⟩ := parsefield_ok unicode there field stops
  refine ⟨after, ?_, there'⟩
  rw [parseend, run_bind_ok rfl, if_neg (fun other => other kind), run_bind_ok ran,
    run_bind_ok rfl, if_pos ⟨more, other⟩, run_bind_ok ran']
  rfl

theorem parserange_num {t rest : Bytes} {n : Int} (here : At lex (t ++ rest)) (number : IsNum t n) (stops : Stops rest) :
    ∃ mid, (parserange unicode).run lex = (parseend unicode (clamp n)).run mid ∧ At mid rest := by
  obtain ⟨mid, ran, there⟩ := parsefield_num unicode here number stops
  obtain ⟨more, -⟩ := parsefield_ok unicode here (.num t n number) stops
  refine ⟨mid, ?_, there⟩
  rw [parserange, run_bind_ok rfl, if_neg more, run_bind_ok ran]
  rfl

theorem parserange_ok {t rest : Bytes} {r : Frange} (here : At lex (t ++ rest)) (range : IsRange t r) (follows : Follows rest) :
    ∃ after, (parserange unicode).run lex = (.ok r.clamped, after) ∧ At after rest := by
  have stops := follows_stops rest follows
  cases range with
  | nf _ name =>
      obtain ⟨kind, after, ran, there⟩ := parsefield_nf unicode here name stops
      refine ⟨after, ?_, there⟩
      rw [parserange, run_bind_ok rfl, if_neg (by rw [kind]; decide), run_bind_ok ran,
        Frange.clamped, clamp_last]
      rfl
  | one _ n number =>
      obtain ⟨mid, goes, there⟩ := parserange_num unicode lex here number stops
      exact ⟨mid, goes.trans (parseend_one unicode mid rest (clamp n) there follows), there⟩
  | from_ t n number =>
      rw [List.append_assoc] at here
      obtain ⟨mid, goes, there⟩ := parserange_num unicode lex here number (minus_stops rest)
      obtain ⟨after, ran, there'⟩ := parseend_from unicode mid rest (clamp n) there follows
      rw [Frange.clamped, clamp_last]
      exact ⟨after, goes.trans ran, there'⟩
  | between t u n m number field =>
      rw [List.append_assoc, List.cons_append] at here
      obtain ⟨mid, goes, there⟩ := parserange_num unicode lex here number (minus_stops (u ++ rest))
      obtain ⟨after, ran, there'⟩ := parseend_between unicode mid u rest (clamp n) m there field stops
      exact ⟨after, goes.trans ran, there'⟩

theorem range_head {t rest : Bytes} {r : Frange} (range : IsRange t r) : ∀ b ∈ (t ++ rest).head?, isSpaceByte b = false := by
  have num : ∀ t n rest, IsNum t n → ∀ b ∈ (t ++ rest).head?, isSpaceByte b = false := by
    intro t n rest number b there
    cases number with
    | plain _ digits =>
        obtain ⟨c, front, rfl⟩ := List.exists_cons_of_ne_nil digits.some
        cases there
        exact (digit_other b (digits.digits b List.mem_cons_self)).2.2.2.2
    | negated t digits =>
        cases there
        rfl
  cases range with
  | nf _ name =>
      intro b there
      rcases name with rfl | rfl
      · cases there
        rfl
      · cases there
        rfl
  | one _ n number => exact num t n rest number
  | from_ t n number =>
      rw [List.append_assoc]
      exact num t n _ number
  | between t u n m number field =>
      rw [List.append_assoc]
      exact num t n _ number

theorem range_token {t rest : Bytes} {r : Frange} (range : IsRange t r) (follows : Follows rest) : firstToken (t ++ rest) ≠ none := by
  have stops := follows_stops rest follows
  cases range with
  | nf _ name => exact field_token (.nf t name) stops
  | one _ n number => exact field_token (.num t n number) stops
  | from_ t n number =>
      rw [List.append_assoc]
      exact field_token (.num t n number) (minus_stops rest)
  | between t u n m number field =>
      rw [List.append_assoc]
      exact field_token (.num t n number) (minus_stops (u ++ rest))

theorem white_token (ws text : Bytes) (white : IsWhite ws) (head : ∀ b ∈ text.head?, isSpaceByte b = false)
    (token : firstToken text ≠ none) : firstToken (ws ++ text) ≠ none := by
  by_cases empty : ws = []
  · rw [empty]
    exact token
  · rw [first_white empty white head]
    exact Option.some_ne_none _

theorem skip_space_ok (ws text : Bytes) (here : At lex (ws ++ text)) (white : IsWhite ws)
    (head : ∀ b ∈ text.head?, isSpaceByte b = false) (token : firstToken text ≠ none) :
    ∃ after, (skipSpace unicode).run lex = (.ok (), after) ∧ At after text := by
  by_cases empty : ws = []
  · rw [empty] at here
    have kind : ¬ lex.typ = .space := by
      intro space
      obtain ⟨rest, whole, shape, -⟩ := at_shape lex text here
      rw [space] at shape
      obtain ⟨b, front, tok⟩ := List.exists_cons_of_ne_nil shape.1
      have blank := shape.2.1 b (by rw [tok]; exact List.mem_cons_self)
      rw [head b (by rw [whole, tok]; rfl)] at blank
      cases blank
    refine ⟨lex, ?_, here⟩
    rw [skipSpace, run_bind_ok rfl, if_neg kind]
    rfl
  · obtain ⟨kind, after, ran, there⟩ := next_ok unicode lex ws text .space here (first_white empty white head) token
    refine ⟨after, ?_, there⟩
    rw [skipSpace, run_bind_ok rfl, if_pos kind, run_bind_ok ran]
    rfl

theorem round_ok {ws t rest : Bytes} {r : Frange} (rounds : Nat) (rs : List Frange) (here : At lex (ws ++ (t ++ rest)))
    (white : IsWhite ws) (range : IsRange t r) (follows : Follows rest) :
    ∃ after, At after rest ∧ (parserangesLoop unicode (rounds + 1) rs).run lex =
      (if after.typ = .eof then pure (rs ++ [r.clamped])
      else if isdelim after.typ = false then do
        let tok ← peektok
        fatal (str "Syntax error in field list, tok = " ++ tok)
      else do
        let _ ← next unicode
        parserangesLoop unicode rounds (rs ++ [r.clamped]) : Parser (List Frange)).run after := by
  obtain ⟨mid, skipped, there⟩ := skip_space_ok unicode lex ws (t ++ rest) here white (range_head range)
    (range_token range follows)
  obtain ⟨after, ran, there'⟩ := parserange_ok unicode mid there range follows
  refine ⟨after, there', ?_⟩
  rw [parserangesLoop, run_bind_ok skipped, run_bind_ok ran, run_bind_ok rfl]

end Runs

theorem delim_follows (d rest : Bytes) (delim : IsDelim d rest) :
    ∃ typ, firstToken (d ++ rest) = some ((d, typ), rest) ∧ isdelim typ = true := by
  rcases delim with rfl | rfl | ⟨some_, white, stop⟩
  · exact ⟨.comma, rfl, rfl⟩
  · exact ⟨.pipe, rfl, rfl⟩
  · exact ⟨.space, first_white some_ white stop, rfl⟩

theorem ranges_some (text : Bytes) (raw : List Frange) (ranges : IsRanges text raw) : text ≠ [] := by
  cases ranges with
  | last ws t r white range => exact List.append_ne_nil_of_right_ne_nil _ (range_some t r range)
  | more ws t d rest r rs white range delim later =>
      rw [List.append_assoc, List.append_assoc]
      exact List.append_ne_nil_of_right_ne_nil _ (List.append_ne_nil_of_left_ne_nil (range_some t r range) _)

theorem ranges_token (text : Bytes) (raw : List Frange) (ranges : IsRanges text raw) : firstToken text ≠ none := by
  cases ranges with
  | last ws t r white range =>
      have follows : Follows [] := ⟨[], .eof, [], rfl, Or.inl rfl⟩
      have token := white_token ws (t ++ []) white (range_head range) (range_token range follows)
      rwa [List.append_nil] at token
  | more ws t d rest r rs white range delim later =>
      obtain ⟨typ, first, kind⟩ := delim_follows d rest delim
      have follows : Follows (d ++ rest) := ⟨d, typ, rest, first, Or.inr kind⟩
      rw [List.append_assoc, List.append_assoc]
      exact white_token ws _ white (range_head range) (range_token range follows)

theorem loop_ok (text : Bytes) (raw : List Frange) (ranges : IsRanges text raw) (rounds : Nat) (rs : List Frange) (lex : Lexer)
    (here : At lex text) (enough : text.length < rounds) :
    ∃ last, (parserangesLoop unicode rounds rs).run lex = (.ok (rs ++ raw.map Frange.clamped), last) := by
  induction ranges generalizing rounds rs lex with
  | last ws t r white range =>
      cases rounds with
      | zero => cases enough
      | succ rounds =>
          rw [← List.append_nil t] at here
          have follows : Follows [] := ⟨[], .eof, [], rfl, Or.inl rfl⟩
          obtain ⟨after, there, ran⟩ := round_ok unicode lex rounds rs here white range follows
          obtain ⟨_, found, -⟩ := there.ready
          have eof := congrArg (Option.map (fun first => first.1.2)) found
          refine ⟨after, ?_⟩
          rw [ran, if_pos (Option.some.inj eof).symm]
          rfl
  | more ws t d rest r raws white range delim later ih =>
      cases rounds with
      | zero => cases enough
      | succ rounds =>
          obtain ⟨typ, first, kind⟩ := delim_follows d rest delim
          rw [List.append_assoc, List.append_assoc] at here
          obtain ⟨mid, there, ran⟩ := round_ok unicode lex rounds rs here white range ⟨d, typ, rest, first, Or.inr kind⟩
          obtain ⟨same, after, ran', there'⟩ := next_ok unicode mid d rest typ there first (ranges_token rest raws later)
          have size := List.length_pos_iff.mpr (range_some t r range)
          have shorter : rest.length < rounds := by
            simp only [List.length_append] at enough
            omega
          obtain ⟨last, done⟩ := ih rounds (rs ++ [r.clamped]) after there' shorter
          have more : ¬ mid.typ = .eof := by
            intro eof
            rw [← same, eof] at kind
            cases kind
          refine ⟨last, ?_⟩
          rw [ran, if_neg more, if_neg (by rw [same, kind]; decide), run_bind_ok ran', done, List.append_assoc]
          rfl

theorem parseranges_ok (input : Bytes) (raw : List Frange) (ascii : Ascii input) (ranges : IsRanges input raw) :
    parseranges unicode input = .ok (raw.map Frange.clamped) := by
  have token := ranges_token input raw ranges
  have scans := next_scans unicode ⟨input, [], .error, 0, 0, 0⟩ input ⟨rfl, rfl⟩ ascii
  cases first : firstToken input with
  | none => exact absurd first token
  | some found =>
      rw [first] at scans
      obtain ⟨after, ran, here⟩ := scans
      obtain ⟨last, done⟩ := loop_ok unicode input raw ranges (input.length + 1) [] after here (Nat.lt_succ_self _)
      rw [parseranges, if_neg (ranges_some input raw ranges), run_bind_ok ran, done]
      rfl

theorem parseranges_language (input : Bytes) (ascii : Ascii input) :
    ((∃ rs, parseranges unicode input = .ok rs) ↔ ∃ raw, IsRanges input raw) ∧
      (∀ raw, IsRanges input raw → parseranges unicode input = .ok (raw.map Frange.clamped)) ∧
        (∀ n : Int, n.natAbs < 2 ^ 63 → clamp n = n) ∧ clamp lastField = lastField ∧
          ((¬ ∃ raw, IsRanges input raw) → ∃ text, parseranges unicode input = .error (.raised text)) := by
  have accepted := fun raw ranges => parseranges_ok unicode input raw ascii ranges
  have ends := parseranges_ends unicode input ascii
  refine ⟨⟨?_, ?_⟩, accepted, clamp_small, clamp_last, fun outside => ?_⟩
  · rintro ⟨rs, ok⟩
    rcases ends with ⟨raw, ranges, -⟩ | ⟨text, failed⟩
    · exact ⟨raw, ranges⟩
    · cases ok.symm.trans failed
  · rintro ⟨raw, ranges⟩
    exact ⟨_, accepted raw ranges⟩
  · rcases ends with ⟨raw, ranges, -⟩ | failed
    · exact absurd ⟨raw, ranges⟩ outside
    · exact failed

end Complete

def decimalDigit (r : Nat) : Bool := 48 ≤ r ∧ r ≤ 57

theorem decimal_latin (r : Nat) (_ : r ≤ 0xff) : decimalDigit r = decide (48 ≤ r ∧ r ≤ 57) := rfl

def latinDigits : DigitTable := ⟨decimalDigit, decimal_latin⟩

theorem open_range_parsed :
    IsRanges (str " 2-N") [⟨2, lastField⟩] ∧ parseranges latinDigits (str " 2-N") = .ok [⟨2, lastField⟩] := by
  have ascii : Ascii (str " 2-N") := fun b there =>
    of_decide_eq_true (List.all_eq_true.mp (by decide : (str " 2-N").all (· < 0x80) = true) b there)
  have white : IsWhite (str " ") := List.all_eq_true.mp (by decide)
  have digits : IsDigits (str "2") := ⟨by decide, List.all_eq_true.mp (by decide)⟩
  have number : IsNum (str "2") 2 := .plain (str "2") digits
  have ranges : IsRanges (str " 2-N") [⟨2, lastField⟩] :=
    .last (str " ") (str "2-N") ⟨2, lastField⟩ white (.between (str "2") (str "N") 2 lastField number (.nf (str "N") (Or.inl rfl)))
  exact ⟨ranges, (parseranges_language latinDigits (str " 2-N") ascii).2.1 [⟨2, lastField⟩] ranges⟩

end URoot.Field
