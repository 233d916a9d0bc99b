import URoot.Rush.Terminates

set_option autoImplicit false

namespace URoot.Rush

open GoLib Fuel

section Lines

def escape (b : UInt8) : Bytes := if b ∈ punct ∨ b = 39 ∨ b = 92 then [92, b] else [b]

def quoteWord (w : Bytes) : Bytes := w.flatMap escape

def commandLine (words : List Bytes) : Bytes := List.intercalate [32] (words.map quoteWord) ++ [10]

def tailLine : List Bytes → Bytes
  | [] => [10]
  | w :: words => 32 :: (quoteWord w ++ tailLine words)

theorem command_line_cons (w : Bytes) (words : List Bytes) : commandLine (w :: words) = quoteWord w ++ tailLine words := by
  induction words generalizing w with
  | nil => simp [commandLine, tailLine]
  | cons next words ih =>
      have rest := ih next
      rw [commandLine] at rest ⊢
      rw [List.map_cons, List.map_cons, List.intercalate_cons_cons, tailLine, ← rest]
      simp

theorem items_escape (b : UInt8) (l : Bytes) : items (escape b ++ l) = (b, l) :: items l := by
  rw [escape]
  split
  · exact items_escaped b l
  · rename_i ordinary
    exact items_plain b l (fun same => ordinary (Or.inr (Or.inr same)))

theorem items_word (b : UInt8) (w l : Bytes) :
    items (quoteWord (b :: w) ++ l) = (b, quoteWord w ++ l) :: items (quoteWord w ++ l) := by
  rw [quoteWord, List.flatMap_cons, List.append_assoc]
  exact items_escape b _

structure Plain (w : Bytes) : Prop where
  nonempty : w ≠ []
  bytes : ∀ b ∈ w, b ≠ 0 ∧ b ∉ punct
  start : w.head? ≠ some 39

theorem word_quoted (w l : Bytes) (bytes : ∀ b ∈ w, b ≠ 0 ∧ b ∉ punct) :
    word (items (quoteWord w ++ l)) = (w.flatMap utf8 ++ (word (items l)).1, (word (items l)).2) := by
  induction w with
  | nil => rfl
  | cons b w ih =>
      obtain ⟨nonzero, plain⟩ := bytes b List.mem_cons_self
      rw [items_word, word, if_neg nonzero, if_neg plain, ih (fun d there => bytes d (List.mem_cons_of_mem _ there)),
        List.flatMap_cons, List.append_assoc]

theorem word_stop (d : UInt8) (l : Bytes) (stop : d = 32 ∨ d = 10) : word (items (d :: l)) = ([], d :: l) := by
  rcases stop with rfl | rfl
  · rw [items_plain _ _ (by decide), word, if_neg (by decide), if_pos (by decide)]
  · rw [items_plain _ _ (by decide), word, if_neg (by decide), if_pos (by decide)]

theorem scan_quoted (w l : Bytes) (d : UInt8) (plain : Plain w) (stop : d = 32 ∨ d = 10) :
    scan (quoteWord w ++ d :: l) = some (⟨.ARG, w.flatMap utf8⟩, d :: l) := by
  have whole := word_quoted w (d :: l) plain.bytes
  rw [word_stop d l stop, List.append_nil] at whole
  cases w with
  | nil => exact absurd rfl plain.nonempty
  | cons b w =>
      obtain ⟨nonzero, ordinary⟩ := plain.bytes b List.mem_cons_self
      have unquoted : b ≠ 39 := fun same => plain.start (by rw [same]; rfl)
      have here := items_word b w (d :: l)
      rw [scan_plain here nonzero ordinary unquoted, ← here, whole]

theorem scan_newline (l : Bytes) : scan (10 :: l) = some (⟨.EOL, []⟩, l) := by
  rw [scan, items_plain _ _ (by decide)]
  rfl

theorem scan_space (l : Bytes) : scan (32 :: l) = some (⟨.white, [32]⟩, l) := by
  rw [scan, items_plain _ _ (by decide)]
  rfl

theorem scan_line (w : Bytes) (words : List Bytes) (more : Bytes) (plain : Plain w) :
    scan (quoteWord w ++ (tailLine words ++ more)) = some (⟨.ARG, w.flatMap utf8⟩, tailLine words ++ more) := by
  cases words with
  | nil => exact scan_quoted w more 10 plain (Or.inr rfl)
  | cons next words => exact scan_quoted w _ 32 plain (Or.inl rfl)

end Lines

section Plain

variable (files : Files) (more : Bytes)

def argsOf (words : List Bytes) : List Arg := words.map fun w => ⟨w.flatMap utf8, .ARG⟩

def Command.push (c : Command) (words : List Bytes) : Command := { c with args := c.args ++ argsOf words }

theorem push_cons (c : Command) (w : Bytes) (words : List Bytes) : (c.push [w]).push words = c.push (w :: words) := by
  simp only [Command.push, argsOf, List.map_cons, List.map_nil, List.append_assoc, List.singleton_append]

theorem tail_ends (words : List Bytes) (plain : ∀ w ∈ words, Plain w) (c : Command) (r : Reader)
    (here : r.rest = tailLine words ++ more) :
    ∃ last, Ends (inner files .plain c) r (.ok ⟨true, .EOL, c.push words⟩) last := by
  induction words generalizing c r with
  | nil =>
      obtain ⟨after, read⟩ := tok_ends r ⟨.EOL, []⟩ more (by rw [here]; exact scan_newline more)
      refine ⟨_, inner_ends files .plain c r ⟨after, more⟩ _ _ _ read ⟨?_, rfl⟩⟩
      simp [Phase.result, loopResult, Command.push, argsOf]
  | cons w words ih =>
      have line : r.rest = 32 :: (quoteWord w ++ (tailLine words ++ more)) := by
        rw [here, tailLine, List.cons_append, List.append_assoc]
      obtain ⟨after, space⟩ := tok_ends r ⟨.white, [32]⟩ _ (by rw [line]; exact scan_space _)
      obtain ⟨after', read⟩ := tok_ends ⟨after, quoteWord w ++ (tailLine words ++ more)⟩ ⟨.ARG, w.flatMap utf8⟩ _
        (scan_line w words more (plain w List.mem_cons_self))
      obtain ⟨last, ended⟩ := ih (fun other there => plain other (List.mem_cons_of_mem _ there)) (c.push [w])
        ⟨after', tailLine words ++ more⟩ rfl
      rw [push_cons] at ended
      have second := inner_ends files .plain c _ _ last _ _ read ended
      exact ⟨last, inner_ends files .plain c r _ last _ _ space second⟩

theorem word_not_empty (w : Bytes) (bytes : ∀ b ∈ w, b ≠ 0 ∧ b ∉ punct) : ¬ (⟨.ARG, w.flatMap utf8⟩ : Token).empty := by
  intro empty
  rcases empty with newline | impossible | impossible
  · have member : (10 : UInt8) ∈ w.flatMap utf8 := by
      rw [show w.flatMap utf8 = [10] from newline]
      exact List.mem_singleton.mpr rfl
    obtain ⟨b, there, inside⟩ := List.mem_flatMap.mp member
    exact utf8_plain b 10 (bytes b there).2 inside (by decide)
  · cases impossible
  · cases impossible

theorem line_ends (words : List Bytes) (some_ : words ≠ []) (plain : ∀ w ∈ words, Plain w) (r : Reader)
    (here : r.rest = commandLine words ++ more) :
    ∃ last, Ends (getCommand files) r (.ok ⟨[newCommand.push words], some .EOL, none⟩) last := by
  cases words with
  | nil => exact absurd rfl some_
  | cons w words =>
      have wordPlain := plain w List.mem_cons_self
      rw [command_line_cons, List.append_assoc] at here
      obtain ⟨after, read⟩ := tok_ends r ⟨.ARG, w.flatMap utf8⟩ _ (by rw [here]; exact scan_line w words more wordPlain)
      obtain ⟨last, ended⟩ := tail_ends files more words (fun other there => plain other (List.mem_cons_of_mem _ there))
        (newCommand.push [w]) ⟨after, tailLine words ++ more⟩ rfl
      rw [push_cons] at ended
      have nonempty := word_not_empty w wordPlain.bytes
      have whole : Ends (inner files .first newCommand) r (.ok ⟨true, .EOL, newCommand.push (w :: words)⟩) last := by
        apply inner_ends files .first newCommand r _ last _ _ read
        rw [resumes_first _ _ _ _ _ _ nonempty]
        exact ended
      have parsed : Ends (outer files [] .first newCommand) r (.ok ([newCommand.push (w :: words)], .EOL)) last :=
        (outer_ends _ _ _ _ _ _ _).mpr (Or.inr ⟨_, last, whole, (ends_pure _ _ _ _).mpr ⟨rfl, rfl⟩⟩)
      exact ⟨last, (get_command_ends files r last _).mpr
        (Or.inr ⟨_, rfl, (parsecommands_outer files [] last _ r).mpr parsed⟩)⟩

end Plain

section Balance

def quotes (l : Bytes) : Nat := ((items l).map Prod.fst).count 39

theorem quotes_item {l rest : Bytes} {c : UInt8} (here : items l = (c, rest) :: items rest) :
    quotes l = quotes rest + if c = 39 then 1 else 0 := by
  rw [quotes, quotes, here, List.map_cons, List.count_cons]
  simp only [beq_iff_eq]

theorem utf8_quotes (c : UInt8) : (utf8 c).count 39 = if c = 39 then 1 else 0 := by
  by_cases mark : c = 39
  · subst mark
    decide
  · rw [if_neg mark, List.count_eq_zero]
    intro there
    rcases utf8_bytes c 39 there with same | high
    · exact mark same.symm
    · exact absurd high (by decide)

theorem punct_item (c : UInt8) (rest : Bytes) (stop : c ∈ punct) : quotes (c :: rest) = quotes rest := by
  have plain : c ≠ 92 := by
    intro same
    subst same
    exact absurd stop (by decide)
  have mark : c ≠ 39 := by
    intro same
    subst same
    exact absurd stop (by decide)
  rw [quotes_item (items_plain c rest plain), if_neg mark, Nat.add_zero]

theorem word_quotes (l : Bytes) : (word (items l)).1.count 39 + quotes (word (items l)).2 = quotes l := by
  induction size : l.length using Nat.strong_induction_on generalizing l with
  | _ size ih =>
      rcases items_cases l with ⟨nothing, _⟩ | ⟨c, rest, here, _⟩
      · rw [nothing, quotes, quotes, nothing]
        rfl
      · obtain ⟨_, shorter⟩ := items_tail l rest c _ here
        have tail := ih rest.length (by omega) rest rfl
        rw [quotes_item here, here, word]
        split
        · rename_i zero
          rw [if_neg (by rw [zero]; decide), Nat.add_zero, List.count_nil, Nat.zero_add]
        · split
          · rename_i stop
            rw [punct_item c rest stop, List.count_nil, Nat.zero_add, if_neg (by
              intro same
              subst same
              exact absurd stop (by decide)), Nat.add_zero]
          · dsimp only
            rw [List.count_append, utf8_quotes]
            omega

theorem quote_quotes (l s left : Bytes) (closed : quote (items l) = some (s, left)) :
    s.count 39 + quotes left + 1 = quotes l := by
  induction size : l.length using Nat.strong_induction_on generalizing l s with
  | _ size ih =>
      rcases items_cases l with ⟨nothing, _⟩ | ⟨c, rest, here, _⟩
      · rw [nothing] at closed
        cases closed
      · obtain ⟨_, shorter⟩ := items_tail l rest c _ here
        rw [quotes_item here]
        rw [here, quote] at closed
        split at closed
        · rename_i mark
          cases closed
          rw [if_pos mark, List.count_nil, Nat.zero_add]
        · rename_i mark
          split at closed
          · rename_i s' left' later
            cases closed
            have tail := ih rest.length (by omega) rest s' later rfl
            rw [List.count_append, utf8_quotes, if_neg mark]
            omega
          · cases closed

theorem scan_balance (l left : Bytes) (t : Token) (found : scan l = some (t, left)) :
    quotes left ≤ quotes l ∧
      (t.type = .ARG → t.s.count 39 + quotes left + 2 ≤ quotes l ∨
        (t.s.count 39 + quotes left = quotes l ∧ ∀ b ∈ t.s, b ∉ punct)) := by
  cases scan_scanned found with
  | ended nothing => exact ⟨Nat.zero_le _, fun impossible => (nomatch impossible)⟩
  | nul rest here =>
      rw [quotes_item here]
      exact ⟨Nat.le_add_right _ _, fun impossible => (nomatch impossible)⟩
  | redirect rest s c here number =>
      rw [quotes_item here]
      exact ⟨Nat.le_add_right _ _, fun impossible => (nomatch impossible)⟩
  | env rest here =>
      have kept := word_quotes rest
      rw [quotes_item here]
      exact ⟨by omega, fun impossible => (nomatch impossible)⟩
  | quoted rest s left here closed =>
      have inside := quote_quotes rest s left closed
      have mark := quotes_item here
      rw [if_pos rfl] at mark
      exact ⟨by omega, fun _ => Or.inl (by dsimp only; omega)⟩
  | white rest c here blank =>
      rw [quotes_item here]
      exact ⟨Nat.le_add_right _ _, fun impossible => (nomatch impossible)⟩
  | newline rest here =>
      rw [quotes_item here]
      exact ⟨Nat.le_add_right _ _, fun impossible => (nomatch impossible)⟩
  | link rest c here bar =>
      have stop : c ∈ punct := by
        rw [mem_punct]
        tauto
      refine ⟨?_, fun type => ?_⟩
      · rw [quotes_item here]
        refine Nat.le_trans ?_ (Nat.le_add_right _ _)
        cases rest with
        | nil => exact Nat.le_of_eq (punct_item c [] stop)
        | cons d tail =>
            simp only [scanLink]
            split
            · rename_i same
              rw [same]
              exact Nat.le_of_eq (punct_item c tail stop).symm
            · exact Nat.le_refl _
      · rcases scan_link_type c rest with linked | linked
        · rw [linked] at type
          cases type
        · rw [linked] at type
          cases type
  | word rest c here nonzero plain unquoted =>
      have kept := word_quotes l
      rw [here] at kept
      exact ⟨by omega, fun _ => Or.inr ⟨kept, fun b there => word_plain _ b there⟩⟩

end Balance

section Fair

def Command.quotes (c : Command) : Nat := (c.args.map fun a => a.val.count 39).sum

def Command.unpunctuated (c : Command) : Prop := ∀ a ∈ c.args, ∀ b ∈ a.val, b ∉ punct

-- The quotes in the arguments and in what is still to be read never get more;
-- while none is lost, no argument has a punctuation byte.
structure Fair (before : Command) (l : Bytes) (after : Command) (left : Bytes) : Prop where
  fewer : after.quotes + quotes left ≤ before.quotes + quotes l
  kept : after.quotes + quotes left = before.quotes + quotes l → before.unpunctuated → after.unpunctuated

theorem fair_trans (a b c : Command) (l m n : Bytes) (first : Fair a l b m) (second : Fair b m c n) : Fair a l c n := by
  have fewer := first.fewer
  have fewer' := second.fewer
  exact ⟨by omega, fun same plain => second.kept (by omega) (first.kept (by omega) plain)⟩

theorem fair_same (a b : Command) (l left : Bytes) (args : b.args = a.args) (fewer : quotes left ≤ quotes l) :
    Fair a l b left := by
  have same : b.quotes = a.quotes := by rw [Command.quotes, Command.quotes, args]
  refine ⟨by omega, fun _ plain => ?_⟩
  rwa [Command.unpunctuated, args]

theorem update_fair (phase : Phase) (t : Token) (c : Command) (l left : Bytes) (found : scan l = some (t, left)) :
    Fair c l (phase.update t c) left := by
  obtain ⟨fewer, word⟩ := scan_balance l left t found
  rcases t with ⟨type, s⟩
  have pushed : type = .ARG → Fair c l { c with args := c.args ++ [⟨s, type⟩] } left := by
    intro arg
    have more : Command.quotes { c with args := c.args ++ [⟨s, type⟩] } = c.quotes + s.count 39 := by
      simp [Command.quotes]
    rcases word arg with lost | ⟨kept, plain⟩
    · simp only at lost
      exact ⟨by omega, fun same => absurd same (by omega)⟩
    · simp only at kept plain
      refine ⟨by omega, fun _ before a there => ?_⟩
      rcases List.mem_append.mp there with old | new
      · exact before a old
      · rw [List.mem_singleton.mp new]
        exact plain
  cases phase with
  | arg x => cases type <;> exact fair_same c _ l left rfl fewer
  | first | plain =>
      cases type with
      | ARG => exact pushed rfl
      | EOF | FD | ENV | white | EOL | LINK | BG => exact fair_same c _ l left rfl fewer

theorem result_args (phase : Phase) (t : Token) (c : Command) : (phase.result t c).c.args = c.args := by
  rw [Phase.result]
  split
  · rfl
  · rcases t with ⟨type, s⟩
    cases type <;> rfl

theorem inner_fair (size : Nat) (phase : Phase) (c : Command) (r last : Reader) (parsed : Parsed)
    (small : r.rest.length ≤ size) (ended : Ends (inner noFiles phase c) r (.ok parsed) last) :
    Fair c r.rest parsed.c last.rest := by
  induction size using Nat.strong_induction_on generalizing phase c r with
  | _ size ih =>
      obtain ⟨t, mid, read, rest⟩ := (inner_step noFiles c last _ phase r).mp ended
      obtain ⟨_, same, found⟩ := tok_ends_inv _ _ _ read
      cases same
      rw [Resumes] at rest
      cases step : phase.step t with
      | go following =>
          simp only [step] at rest
          have shorter := onward_shorter phase _ _ t found (by simp [step])
          exact fair_trans _ _ _ _ _ _ (update_fair phase t c _ _ found)
            (ih mid.rest.length (by omega) following _ mid (Nat.le_refl _) rest)
      | expand =>
          simp only [step] at rest
          cases rest.1
      | stop =>
          simp only [step] at rest
          obtain ⟨same, rfl⟩ := rest
          cases same
          exact fair_same c _ _ _ (result_args phase t c) (scan_balance _ _ t found).1
      | panic =>
          simp only [step] at rest
          cases rest.1

theorem quoted_loses {phase : Phase} {c : Command} {r last : Reader} {parsed : Parsed} {t : Token} {left : Bytes}
    (found : scan r.rest = some (t, left)) (type : t.type = .ARG)
    (lost : t.s.count 39 + quotes left + 2 ≤ quotes r.rest)
    (ended : Ends (inner noFiles phase c) r (.ok parsed) last) :
    parsed.c.quotes + quotes last.rest < c.quotes + quotes r.rest := by
  obtain ⟨mid, rfl, rest⟩ := resumes_of_ends noFiles ended found
  have update : (phase.update t c).quotes ≤ c.quotes + t.s.count 39 := by
    rcases t with ⟨_, s⟩
    subst type
    cases phase with
    | first | plain => simp [Phase.update, Command.quotes]
    | arg x => exact Nat.le_add_right _ _
  rw [Resumes] at rest
  cases step : phase.step t with
  | go following =>
      simp only [step] at rest
      have fewer := (inner_fair _ following _ mid last parsed (Nat.le_refl _) rest).fewer
      omega
  | expand =>
      simp only [step] at rest
      cases rest.1
  | stop =>
      simp only [step] at rest
      obtain ⟨same, rfl⟩ := rest
      cases same
      have args : (phase.result t c).c.quotes = c.quotes := by rw [Command.quotes, result_args, Command.quotes]
      omega
  | panic =>
      simp only [step] at rest
      cases rest.1

end Fair

section Necessary

theorem scan_mark (l rest left : Bytes) (t : Token) (here : items l = (39, rest) :: items rest)
    (found : scan l = some (t, left)) : ∃ s, quote (items rest) = some (s, left) ∧ t.type = .ARG ∧ t.s = s := by
  rw [scan, here] at found
  cases closed : quote (items rest) with
  | none =>
      simp only [closed] at found
      cases found
  | some pair =>
      obtain ⟨s, left'⟩ := pair
      simp only [closed] at found
      cases found
      exact ⟨s, rfl, rfl, rfl⟩

theorem quotes_word (w l : Bytes) : quotes (quoteWord w ++ l) = w.count 39 + quotes l := by
  induction w with
  | nil => simp [quoteWord]
  | cons b w ih =>
      rw [quotes_item (items_word b w l), ih, List.count_cons]
      simp only [beq_iff_eq]
      omega

theorem quotes_tail (words : List Bytes) : quotes (tailLine words) = (words.map (List.count 39)).sum := by
  induction words with
  | nil => rfl
  | cons w words ih =>
      rw [tailLine, punct_item 32 _ (by decide), quotes_word, ih, List.map_cons, List.sum_cons]

theorem quotes_line (words : List Bytes) : quotes (commandLine words) = (words.map (List.count 39)).sum := by
  cases words with
  | nil => rfl
  | cons w words => rw [command_line_cons, quotes_word, quotes_tail, List.map_cons, List.sum_cons]

theorem word_outcome (phase : Phase) (loop : phase.wants = false) (c : Command) (r last : Reader) (parsed : Parsed) (w : Bytes)
    (words : List Bytes) (nonempty : w ≠ []) (bytes : ∀ b ∈ w, b ≠ 0 ∧ b ∉ punct)
    (here : r.rest = quoteWord w ++ tailLine words) (ended : Ends (inner noFiles phase c) r (.ok parsed) last)
    (kept : c.quotes + quotes r.rest ≤ parsed.c.quotes + quotes last.rest) :
    w.head? ≠ some 39 ∧ ∃ mid, mid.rest = tailLine words ∧ Ends (inner noFiles .plain (c.push [w])) mid (.ok parsed) last := by
  have start : w.head? ≠ some 39 := by
    intro mark
    cases w with
    | nil => exact nonempty rfl
    | cons b w =>
        cases mark
        obtain ⟨t, mid, read, _⟩ := (inner_step noFiles c last _ phase r).mp ended
        obtain ⟨_, same, found⟩ := tok_ends_inv _ _ _ read
        cases same
        have list := items_word 39 w (tailLine words)
        rw [← here] at list
        obtain ⟨s, closed, type, rfl⟩ := scan_mark _ _ _ _ list found
        have inside := quote_quotes _ _ _ closed
        have outside := quotes_item list
        rw [if_pos rfl] at outside
        have loses := quoted_loses found type (by omega) ended
        omega
  refine ⟨start, ?_⟩
  have plain : Plain w := ⟨nonempty, bytes, start⟩
  have found := scan_line w words [] plain
  rw [List.append_nil, ← here] at found
  obtain ⟨mid, place, rest⟩ := resumes_of_ends noFiles ended found
  refine ⟨mid, place, ?_⟩
  cases phase with
  | first =>
      rw [resumes_first _ _ _ _ _ _ (word_not_empty w bytes)] at rest
      exact rest
  | plain => exact rest
  | arg x => cases loop

theorem spelled_quotes (w : Bytes) : (w.flatMap utf8).count 39 = w.count 39 := by
  induction w with
  | nil => rfl
  | cons b w ih =>
      rw [List.flatMap_cons, List.count_append, utf8_quotes, ih, List.count_cons]
      simp only [beq_iff_eq]
      omega

theorem push_quotes (c : Command) (w : Bytes) : (c.push [w]).quotes = c.quotes + w.count 39 := by
  rw [← spelled_quotes w]
  simp [Command.quotes, Command.push, argsOf]

theorem tail_outcome (words : List Bytes) (bytes : ∀ w ∈ words, w ≠ [] ∧ ∀ b ∈ w, b ≠ 0 ∧ b ∉ punct) (c : Command)
    (r last : Reader) (parsed : Parsed) (here : r.rest = tailLine words)
    (ended : Ends (inner noFiles .plain c) r (.ok parsed) last)
    (kept : c.quotes + quotes r.rest ≤ parsed.c.quotes + quotes last.rest) :
    (∀ w ∈ words, w.head? ≠ some 39) ∧ parsed.c = c.push words := by
  induction words generalizing c r with
  | nil =>
      obtain ⟨mid, _, rest⟩ := resumes_of_ends noFiles ended (by rw [here]; exact scan_newline [])
      obtain ⟨same, _⟩ := rest
      cases same
      refine ⟨fun w there => absurd there List.not_mem_nil, ?_⟩
      simp [Phase.result, loopResult, Command.push, argsOf]
  | cons w words ih =>
      obtain ⟨nonempty, plain⟩ := bytes w List.mem_cons_self
      obtain ⟨mid, place, rest⟩ := resumes_of_ends noFiles ended (by rw [here]; exact scan_space _)
      have same : quotes mid.rest = quotes r.rest := by rw [place, here, tailLine, punct_item 32 _ (by decide)]
      obtain ⟨start, mid', place', rest⟩ := word_outcome .plain rfl c mid last parsed w words nonempty plain place rest (by omega)
      have pushed : (c.push [w]).quotes + quotes mid'.rest ≤ c.quotes + quotes mid.rest := by
        rw [place', place, quotes_word, push_quotes]
        omega
      obtain ⟨starts, result⟩ := ih (fun other there => bytes other (List.mem_cons_of_mem _ there)) (c.push [w]) mid' place' rest
        (by omega)
      rw [push_cons] at result
      exact ⟨List.forall_mem_cons.mpr ⟨start, starts⟩, result⟩

theorem spelled_length (w : Bytes) : w.length ≤ (w.flatMap utf8).length := by
  induction w with
  | nil => exact Nat.le_refl _
  | cons b w ih =>
      rw [List.flatMap_cons, List.length_append, List.length_cons, utf8]
      split
      · rw [List.length_singleton]
        omega
      · simp only [List.length_cons, List.length_nil]
        omega

theorem spelled_same (w : Bytes) : w.flatMap utf8 = w ↔ ∀ b ∈ w, b < 0x80 := by
  induction w with
  | nil => exact ⟨fun _ _ there => absurd there List.not_mem_nil, fun _ => rfl⟩
  | cons b w ih =>
      rw [List.flatMap_cons, List.forall_mem_cons, ← ih]
      by_cases low : b < 0x80
      · rw [utf8, if_pos low, List.singleton_append, List.cons.injEq]
        exact ⟨fun both => ⟨low, both.2⟩, fun both => ⟨rfl, both.2⟩⟩
      · constructor
        · intro same
          have length := congrArg List.length same
          have longer := spelled_length w
          rw [utf8, if_neg low] at length
          simp only [List.length_append, List.length_cons, List.length_nil] at length
          omega
        · intro both
          exact absurd both.1 low

theorem parsecommands_extends (files : Files) (n : Nat) (cmds cmds' : List Command) (t : TokType) (r last : Reader)
    (done : (parsecommands files n cmds).run r = (.ok (cmds', t), last)) : ∃ more, cmds' = cmds ++ more := by
  induction n generalizing cmds r with
  | zero => cases done
  | succ n ih =>
      obtain ⟨parsed, mid, _, rest⟩ := Act.run_bind_inv done
      split at rest
      · cases rest
        exact ⟨[], (List.append_nil _).symm⟩
      · split at rest
        · cases rest
          exact ⟨[parsed.c], rfl⟩
        · obtain ⟨more, same⟩ := ih _ _ rest
          exact ⟨parsed.c :: more, by rw [same, List.append_assoc]; rfl⟩

theorem single_parsed {files : Files} {r last : Reader} {result : Result} {c : Command}
    (ended : Ends (getCommand files) r (.ok result) last) (single : result.cmds = [c]) :
    c.args ≠ [] ∧ ∃ parsed mid, Ends (inner files .first newCommand) r (.ok parsed) mid ∧ parsed.c = c := by
  rcases (get_command_ends files r last result).mp ended with ⟨e, rfl, _⟩ | ⟨⟨cmds, t⟩, rfl, parsed⟩
  · cases single
  · simp only [judge] at single
    split at single
    · cases single
    · rename_i valid
      simp only at single
      subst single
      refine ⟨fun empty => ?_, ?_⟩
      · simp only [commandsError, commandError, empty, if_true] at valid
        cases valid
      · have outside := (parsecommands_outer files [] last _ r).mp parsed
        rcases (outer_ends _ _ _ _ _ _ _).mp outside with ⟨e, impossible, _⟩ | ⟨first, mid, done, after⟩
        · cases impossible
        · refine ⟨first, mid, done, ?_⟩
          simp only [afterParse] at after
          split at after
          · cases ((ends_pure _ _ _ _).mp after).1
          · split at after
            · cases ((ends_pure _ _ _ _).mp after).1
              rfl
            · obtain ⟨_, n, ran⟩ := after
              obtain ⟨more, same⟩ := parsecommands_extends files n _ _ _ _ _ ran
              cases same
              rfl

end Necessary

def Faithful (words : List Bytes) : Prop :=
  ∀ files more, ∃ result last, Ends (getCommand files) (newReader (commandLine words ++ more)) (.ok result) last ∧
    result.err = none ∧ ∃ c, result.cmds = [c] ∧ c.args.map Arg.val = words

theorem push_vals (words : List Bytes) : (newCommand.push words).args.map Arg.val = words.map (fun w => w.flatMap utf8) := by
  simp only [Command.push, newCommand, argsOf, List.nil_append, List.map_map]
  rfl

theorem spelled_words (words : List Bytes) :
    words.map (fun w => w.flatMap utf8) = words ↔ ∀ w ∈ words, ∀ b ∈ w, b < 0x80 := by
  have same := List.map_inj_left (f := fun w : Bytes => w.flatMap utf8) (g := id) (l := words)
  rw [List.map_id] at same
  rw [same]
  exact forall₂_congr (fun w _ => spelled_same w)

theorem faithful_words (words : List Bytes) (nonempty : ∀ w ∈ words, w ≠ []) (clean : ∀ w ∈ words, 0 ∉ w) (r mid : Reader)
    (parsed : Parsed) (here : r.rest = commandLine words) (some_ : words ≠ [])
    (done : Ends (inner noFiles .first newCommand) r (.ok parsed) mid) (args : parsed.c.args.map Arg.val = words) :
    ∀ w ∈ words, (∀ b ∈ w, b < 0x80 ∧ b ∉ punct) ∧ w.head? ≠ some 39 := by
  have fair := inner_fair _ .first newCommand r mid parsed (Nat.le_refl _) done
  have total : parsed.c.quotes = quotes r.rest := by
    rw [here, quotes_line, ← args, List.map_map]
    rfl
  have none : newCommand.quotes = 0 := rfl
  have fewer := fair.fewer
  have unpunctuated := fair.kept (by omega) (fun a there => absurd there List.not_mem_nil)
  have plain : ∀ w ∈ words, ∀ b ∈ w, b ∉ punct := by
    intro w there
    rw [← args] at there
    obtain ⟨a, member, rfl⟩ := List.mem_map.mp there
    exact unpunctuated a member
  have bytes : ∀ w ∈ words, w ≠ [] ∧ ∀ b ∈ w, b ≠ 0 ∧ b ∉ punct := fun w there =>
    ⟨nonempty w there, fun b inside => ⟨fun zero => clean w there (zero ▸ inside), plain w there b inside⟩⟩
  cases words with
  | nil => exact absurd rfl some_
  | cons w words =>
      rw [command_line_cons] at here
      obtain ⟨first, second⟩ := bytes w List.mem_cons_self
      obtain ⟨start, mid', place, rest⟩ := word_outcome .first rfl newCommand r mid parsed w words first second here done (by omega)
      have pushed : (newCommand.push [w]).quotes + quotes mid'.rest = quotes r.rest := by
        rw [push_quotes, place, here, quotes_word]
        omega
      obtain ⟨starts, result⟩ := tail_outcome words (fun other there => bytes other (List.mem_cons_of_mem _ there))
        (newCommand.push [w]) mid' mid parsed place rest (by omega)
      rw [push_cons] at result
      rw [result, push_vals] at args
      have low := (spelled_words (w :: words)).mp args
      intro other there
      refine ⟨fun b inside => ⟨low other there b inside, plain other there b inside⟩, ?_⟩
      rcases List.mem_cons.mp there with rfl | later
      · exact start
      · exact starts other later

theorem quoting_faithful_iff (words : List Bytes) (nonempty : ∀ w ∈ words, w ≠ [])
    (clean : ∀ w ∈ words, 0 ∉ w ∧ 10 ∉ w) :
    Faithful words ↔ words ≠ [] ∧ ∀ w ∈ words, (∀ b ∈ w, b < 0x80 ∧ b ∉ punct) ∧ w.head? ≠ some 39 := by
  constructor
  · intro faithful
    obtain ⟨result, last, ended, _, c, single, args⟩ := faithful noFiles []
    obtain ⟨some_, parsed, mid, done, rfl⟩ := single_parsed ended single
    have words_ : words ≠ [] := by
      rw [← args]
      exact fun empty => some_ (List.map_eq_nil_iff.mp empty)
    exact ⟨words_, faithful_words words nonempty (fun w there => (clean w there).1) _ mid parsed (List.append_nil _) words_
      done args⟩
  · intro ⟨some_, good⟩ files more
    have plain : ∀ w ∈ words, Plain w := fun w there =>
      ⟨nonempty w there, fun b inside => ⟨fun zero => (clean w there).1 (zero ▸ inside), ((good w there).1 b inside).2⟩,
        (good w there).2⟩
    obtain ⟨last, ended⟩ := line_ends files more words some_ plain (newReader (commandLine words ++ more)) rfl
    refine ⟨_, last, ended, rfl, _, rfl, ?_⟩
    rw [push_vals]
    exact (spelled_words words).mpr (fun w there b inside => ((good w there).1 b inside).1)

theorem quoted_line_faithful : Faithful [str "ls", str "it's", str "a\\b"] :=
  (quoting_faithful_iff [str "ls", str "it's", str "a\\b"] (by decide) (by decide)).mpr (by decide +kernel)

-- The escaped space is pushed back without its backslash, so that it ends the word.
theorem escaped_space_splits : ¬ Faithful [str "a b"] := by
  intro faithful
  obtain ⟨result, last, ended, _, c, single, args⟩ := faithful noFiles []
  have ran : ((getCommand noFiles 20).run (newReader (commandLine [str "a b"] ++ []))).1.toOption.map
      (fun found => found.cmds.map (fun c => c.args.map Arg.val)) = some [[str "a", str "b"]] := by decide +kernel
  cases out : (getCommand noFiles 20).run (newReader (commandLine [str "a b"] ++ [])) with
  | mk first after =>
      rw [out] at ran
      cases first with
      | error e => exact nomatch ran
      | ok found =>
          have other : Ends (getCommand noFiles) _ (.ok found) after := ⟨ok_ended found, 20, out⟩
          have same := (ends_unique _ (get_command_mono noFiles) _ _ _ _ _ other ended).1
          simp only [Except.ok.injEq] at same
          simp only [same, single, Except.toOption, Option.map_some, List.map_cons, List.map_nil, args, Option.some.injEq] at ran
          exact absurd ran (by decide)

end URoot.Rush
