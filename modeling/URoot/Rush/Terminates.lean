import URoot.Rush.Steps
import Mathlib.Order.WellFounded

set_option autoImplicit false

namespace URoot.Rush

open GoLib Fuel

section Positions

def UnclosedQuote (l : Bytes) : Prop := ∃ rest, items l = (39, rest) :: items rest ∧ ∀ item ∈ items rest, item.1 ≠ 39

def LoneLink (l : Bytes) : Prop := ∃ c, (c = 124 ∨ c = 38) ∧ items l = [(c, [])]

def wantsArg (wants : Bool) (t : Token) : Bool := if wants then t.type = .white else t.type = .FD

inductive StreamAt (stream : Bytes) : Bool → Bytes → Prop
  | start : StreamAt stream false stream
  | step (wants : Bool) (l : Bytes) (t : Token) (left : Bytes) (before : StreamAt stream wants l)
      (found : scan l = some (t, left)) : StreamAt stream (wantsArg wants t) left

-- The places of an ENV file that parsestring gets to. It goes on behind a file
-- named there only if it gets to the end of that file.
inductive Visits (files : Files) : Bytes → Phase → Bytes → Prop
  | start (data : Bytes) : Visits files data .first data
  | step (data l left : Bytes) (phase following : Phase) (t : Token) (before : Visits files data phase l)
      (found : scan l = some (t, left)) (goes : phase.step t = .go following) : Visits files data following left
  | expand (data l left file l' left' : Bytes) (phase phase' : Phase) (t t' : Token) (before : Visits files data phase l)
      (found : scan l = some (t, left)) (expands : phase.step t = .expand) (read : files (envPath t.s) = .ok file)
      (inside : Visits files file phase' l') (found' : scan l' = some (t', left')) (stops : phase'.step t' = .stop) :
      Visits files data .plain left

def Names (files : Files) (data s : Bytes) : Prop :=
  ∃ phase l t left, Visits files data phase l ∧ scan l = some (t, left) ∧ phase.step t = .expand ∧ t.s = s

inductive Opened (files : Files) (stream : Bytes) : Bytes → Prop
  | top (l left file : Bytes) (t : Token) (here : StreamAt stream false l) (found : scan l = some (t, left))
      (type : t.type = .ENV) (read : files (envPath t.s) = .ok file) : Opened files stream file
  | nested (data s file : Bytes) (outside : Opened files stream data) (named : Names files data s)
      (read : files (envPath s) = .ok file) : Opened files stream file

-- No endless chain of files that name each other; of finitely many files, no cycle.
def Acyclic (files : Files) : Prop :=
  WellFounded fun q p => ∃ data s, files p = .ok data ∧ Names files data s ∧ envPath s = q

structure Ending (files : Files) (stream : Bytes) : Prop where
  quotes : ∀ wants l, StreamAt stream wants l → ¬ UnclosedQuote l
  links : ∀ wants l, StreamAt stream wants l → ¬ LoneLink l
  files : ∀ data, Opened files stream data → ∀ phase l, Visits files data phase l → ¬ UnclosedQuote l

end Positions

section Calls

variable (files : Files)

def Calls : Nat → Reader → List Result → Reader → Prop
  | 0, r, results, last => results = [] ∧ last = r
  | k + 1, r, results, last =>
      ∃ result more mid, results = result :: more ∧ Ends (getCommand files) r (.ok result) mid ∧ Calls k mid more last

def AllReturn (r : Reader) : Prop := ∀ k, ∃ results last, Calls files k r results last

def ReachesEOF (r : Reader) : Prop :=
  ∃ k results last, Calls files k r results last ∧ ∃ result ∈ results, result.status = some .EOF

theorem get_command_ends (r last : Reader) (result : Result) :
    Ends (getCommand files) r (.ok result) last ↔
      (∃ e, result = judge (.error e) ∧ Ends (fun n => parsecommands files n []) r (.error (.raised e)) last) ∨
        ∃ parsed, result = judge (.ok parsed) ∧ Ends (fun n => parsecommands files n []) r (.ok parsed) last := by
  have attempted := mono_attempt (parsecommands_mono files [])
  apply (ends_bind _ _ attempted (fun outcome => mono_const (pure (judge outcome))) r last (.ok result)).trans
  constructor
  · intro cases'
    rcases cases' with ⟨e, impossible, _⟩ | ⟨outcome, mid, done, returned⟩
    · cases impossible
    · obtain ⟨same, rfl⟩ := (ends_pure _ _ _ _).mp returned
      cases same
      rcases (ends_attempt _ _ _ _).mp done with ⟨e, same, raised⟩ | ⟨parsed, same, parsedEnds⟩
      · cases same
        exact Or.inl ⟨e, rfl, raised⟩
      · cases same
        exact Or.inr ⟨parsed, rfl, parsedEnds⟩
  · intro cases'
    rcases cases' with ⟨e, rfl, raised⟩ | ⟨parsed, rfl, done⟩
    · exact Or.inr ⟨.error e, last, (ends_attempt _ _ _ _).mpr (Or.inl ⟨e, rfl, raised⟩), (ends_pure _ _ _ _).mpr ⟨rfl, rfl⟩⟩
    · exact Or.inr ⟨.ok parsed, last, (ends_attempt _ _ _ _).mpr (Or.inr ⟨parsed, rfl, done⟩),
        (ends_pure _ _ _ _).mpr ⟨rfl, rfl⟩⟩

theorem get_command_mono : Mono (getCommand files) :=
  mono_bind _ _ (mono_attempt (parsecommands_mono files [])) (fun _ => mono_const _)

theorem get_command_returns (r last : Reader) (out : Except (Stop Bytes) (List Command × TokType))
    (done : Ends (outer files [] .first newCommand) r out last) :
    ∃ result, Ends (getCommand files) r (.ok result) last := by
  have done := (parsecommands_outer files [] last out r).mpr done
  rcases out with (_ | e) | parsed
  · exact absurd rfl done.1
  · exact ⟨_, (get_command_ends files r last _).mpr (Or.inl ⟨e, rfl, done⟩)⟩
  · exact ⟨_, (get_command_ends files r last _).mpr (Or.inr ⟨parsed, rfl, done⟩)⟩

theorem all_return_step (r : Reader) (returns : AllReturn files r) :
    ∃ out last, Ends (outer files [] .first newCommand) r out last ∧ AllReturn files last := by
  obtain ⟨results, _, result, more, last, _, done, _⟩ := returns 1
  have onward : AllReturn files last := by
    intro k
    obtain ⟨_, last', _, more, mid, _, here, rest⟩ := returns (k + 1)
    obtain ⟨_, rfl⟩ := ends_unique _ (get_command_mono files) _ _ _ _ _ done here
    exact ⟨more, last', rest⟩
  rcases (get_command_ends files r last result).mp done with ⟨e, _, raised⟩ | ⟨parsed, _, parsedEnds⟩
  · exact ⟨_, last, (parsecommands_outer files [] last _ r).mp raised, onward⟩
  · exact ⟨_, last, (parsecommands_outer files [] last _ r).mp parsedEnds, onward⟩

end Calls

section Tokens

theorem scan_none_iff (l : Bytes) : scan l = none ↔ UnclosedQuote l := by
  constructor
  · intro unclosed
    obtain ⟨rest, more, here, missing⟩ := scan_none l unclosed
    obtain ⟨rfl, _⟩ := items_tail _ _ _ _ here
    exact ⟨rest, here, (quote_none_iff _).mp missing⟩
  · intro ⟨rest, here, missing⟩
    rw [scan, here]
    simp only [(quote_none_iff _).mpr missing]
    rfl

theorem lone_single (c : UInt8) (bar : c = 124 ∨ c = 38) : LoneLink [c] := by
  refine ⟨c, bar, ?_⟩
  rcases bar with rfl | rfl
  · rfl
  · rfl

theorem scan_shorter (l left : Bytes) (t : Token) (found : scan l = some (t, left)) :
    left.length < l.length ∨ (l = [] ∧ t.type = .EOF ∧ left = []) ∨
      (LoneLink l ∧ (t.type = .LINK ∨ t.type = .BG) ∧ LoneLink left) := by
  cases scan_scanned found with
  | ended none =>
      rcases items_cases l with ⟨_, rfl | rfl⟩ | ⟨c, rest, here, _⟩
      · exact Or.inr (Or.inl ⟨rfl, rfl, rfl⟩)
      · exact Or.inl (Nat.zero_lt_succ _)
      · rw [none] at here
        cases here
  | nul rest here => exact Or.inl (items_tail _ _ _ _ here).2
  | redirect rest s c here number => exact Or.inl (items_tail _ _ _ _ here).2
  | white rest c here blank => exact Or.inl (items_tail _ _ _ _ here).2
  | newline rest here => exact Or.inl (items_tail _ _ _ _ here).2
  | env rest here => exact Or.inl (Nat.lt_of_le_of_lt (word_length rest) (items_tail _ _ _ _ here).2)
  | quoted rest s left here closed =>
      exact Or.inl (Nat.lt_trans (quote_length _ _ _ closed) (items_tail _ _ _ _ here).2)
  | link rest c here bar =>
      obtain ⟨_, shorter⟩ := items_tail _ _ _ _ here
      cases rest with
      | nil => exact Or.inr (Or.inr ⟨⟨c, bar, here⟩, scan_link_type c [], lone_single c bar⟩)
      | cons d tail =>
          refine Or.inl (Nat.lt_of_le_of_lt ?_ shorter)
          simp only [scanLink]
          split
          · exact Nat.le_succ _
          · exact Nat.le_refl _
  | word rest c here nonzero plain unquoted =>
      rw [word, if_neg nonzero, if_neg plain]
      exact Or.inl (Nat.lt_of_le_of_lt (word_length rest) (items_tail _ _ _ _ here).2)

theorem env_not_empty (l left : Bytes) (t : Token) (found : scan l = some (t, left)) (type : t.type = .ENV) : ¬ t.empty := by
  have newline : str "\n" = [10] := by decide
  rw [Token.empty, type, newline]
  cases scan_scanned found with
  | env rest here =>
      intro empty
      rcases empty with single | other | other
      · exact word_plain (items rest) 10 (by simp only at single; rw [single]; exact List.mem_singleton.mpr rfl) (by decide)
      · cases other
      · cases other
  | link rest c here bar =>
      rcases scan_link_type c rest with linked | linked
      · rw [linked] at type
        cases type
      · rw [linked] at type
        cases type
  | ended | nul | redirect | quoted | white | newline | word => cases type

theorem redirect_not_empty (l left : Bytes) (t : Token) (found : scan l = some (t, left)) (type : t.type = .FD) : ¬ t.empty := by
  have number := scan_number l left t found type
  rw [Token.empty, type]
  intro empty
  rcases empty with single | other | other
  · rcases number with same | same <;> rw [same] at single <;> exact absurd single (by decide)
  · cases other
  · cases other

def Phase.wants : Phase → Bool
  | .arg _ => true
  | _ => false

theorem step_wants (phase : Phase) (l left : Bytes) (t : Token) (found : scan l = some (t, left)) :
    wantsArg phase.wants t =
      match phase.step t with
      | .go following => following.wants
      | _ => false := by
  have plain : wantsArg false t =
      match loopStep t with
      | .go following => following.wants
      | _ => false := by
    rcases t with ⟨type, s⟩
    cases type <;> rfl
  cases phase with
  | first =>
      rw [Phase.step]
      by_cases empty : t.empty
      · rw [if_pos empty]
        exact decide_eq_false (fun type => redirect_not_empty l left t found type empty)
      · rw [if_neg empty]
        exact plain
  | plain => exact plain
  | arg x =>
      rcases t with ⟨type, s⟩
      cases type <;> rfl

-- Only tokens that take bytes off the stream let parsestring go on.
theorem onward_shorter (phase : Phase) (l left : Bytes) (t : Token) (found : scan l = some (t, left))
    (onward : phase.step t ≠ .stop ∧ phase.step t ≠ .panic) : left.length < l.length := by
  rcases scan_shorter l left t found with shorter | ⟨_, type, _⟩ | ⟨_, type, _⟩
  · exact shorter
  · rcases t with ⟨_, s⟩
    subst type
    cases phase with
    | first => exact absurd (if_pos (Or.inr (Or.inl rfl))) onward.1
    | plain => exact absurd rfl onward.1
    | arg x => exact absurd rfl onward.2
  · have stops : loopStep t = .stop := by
      rcases t with ⟨_, s⟩
      rcases type with rfl | rfl <;> rfl
    cases phase with
    | first =>
        rw [Phase.step] at onward
        split at onward
        · exact absurd rfl onward.1
        · exact absurd stops onward.1
    | plain => exact absurd stops onward.1
    | arg x =>
        rcases t with ⟨_, s⟩
        rcases type with rfl | rfl <;> exact absurd rfl onward.2

end Tokens

section Files

variable (files : Files)

theorem resumes_of_ends {phase : Phase} {c : Command} {r last : Reader} {out : Except (Stop Bytes) Parsed} {t : Token} {left : Bytes}
    (ended : Ends (inner files phase c) r out last) (found : scan r.rest = some (t, left)) :
    ∃ mid, mid.rest = left ∧ Resumes files phase t c mid out last := by
  obtain ⟨t', mid, read, rest⟩ := (inner_step files c last out phase r).mp ended
  obtain ⟨_, same, here⟩ := tok_ends_inv _ _ _ read
  cases same
  rw [here] at found
  cases found
  exact ⟨mid, rfl, rest⟩

theorem ends_not_unclosed (phase : Phase) (c : Command) (r last : Reader) (out : Except (Stop Bytes) Parsed)
    (ended : Ends (inner files phase c) r out last) : ¬ UnclosedQuote r.rest := by
  obtain ⟨t, mid, read, _⟩ := (inner_step files c last out phase r).mp ended
  obtain ⟨_, _, here⟩ := tok_ends_inv _ _ _ read
  rw [← scan_none_iff, here]
  exact fun none => (nomatch none)

theorem visits_pass {data l : Bytes} {phase : Phase} (visited : Visits files data phase l) (c : Command) (last : Reader)
    (out : Except (Stop Bytes) Parsed) (ended : Ends (inner files .first c) (newReader data) out last) :
    ∃ c' r, r.rest = l ∧ Ends (inner files phase c') r out last := by
  induction visited generalizing c last out with
  | start data => exact ⟨c, newReader data, rfl, ended⟩
  | step data l left phase following t before found goes ih =>
      obtain ⟨c', r, rfl, here⟩ := ih c last out ended
      obtain ⟨mid, rfl, rest⟩ := resumes_of_ends files here found
      simp only [Resumes, goes] at rest
      exact ⟨_, mid, rfl, rest⟩
  | expand data l left file l' left' phase phase' t t' before found expands read inside found' stops ih ih' =>
      obtain ⟨c', r, rfl, here⟩ := ih c last out ended
      obtain ⟨mid, rfl, rest⟩ := resumes_of_ends files here found
      simp only [Resumes, expands, read] at rest
      obtain ⟨result, behind, nested, rest⟩ := rest
      -- The nested parse stopped at a token that ends it, so it did not panic.
      obtain ⟨c'', r', rfl, there⟩ := ih' c' behind result nested
      obtain ⟨mid', rfl, ends'⟩ := resumes_of_ends files there found'
      simp only [Resumes, stops] at ends'
      obtain ⟨rfl, _⟩ := ends'
      exact ⟨_, mid, rfl, rest⟩

def Closes (data : Bytes) : Prop :=
  ∃ phase l t left, Visits files data phase l ∧ scan l = some (t, left) ∧ phase.step t = .stop

theorem inner_ends (phase : Phase) (c : Command) (r mid last : Reader) (out : Except (Stop Bytes) Parsed) (t : Token)
    (read : Ends tok r (.ok t) mid) (rest : Resumes files phase t c mid out last) : Ends (inner files phase c) r out last :=
  (inner_step files c last out phase r).mpr ⟨t, mid, read, rest⟩

-- A file in which every quote is closed, given the files it names: by induction
-- on what is left of it.
theorem file_ends (data : Bytes)
    (closed : ∀ phase l, Visits files data phase l → ¬ UnclosedQuote l)
    (named : ∀ s file, Names files data s → files (envPath s) = .ok file →
      ∀ c, ∃ out last, Ends (inner files .first c) (newReader file) out last ∧ ∀ parsed, out = .ok parsed → Closes files file)
    (size : Nat) (phase : Phase) (c : Command) (r : Reader) (small : r.rest.length ≤ size)
    (visited : Visits files data phase r.rest) :
    ∃ out last, Ends (inner files phase c) r out last ∧ ∀ parsed, out = .ok parsed → Closes files data := by
  induction size using Nat.strong_induction_on generalizing phase c r with
  | _ size ih =>
      cases token : scan r.rest with
      | none => exact absurd ((scan_none_iff _).mp token) (closed phase _ visited)
      | some pair =>
          obtain ⟨t, left⟩ := pair
          obtain ⟨after, read⟩ := tok_ends r t left token
          have back := fun out last => inner_ends files phase c r ⟨after, left⟩ last out t read
          simp only [Resumes] at back
          cases step : phase.step t with
          | go following =>
              have shorter := onward_shorter phase _ left t token (by simp [step])
              obtain ⟨out, last, ended, closes⟩ := ih left.length (by omega) following (phase.update t c) ⟨after, left⟩
                (Nat.le_refl _) (.step data r.rest left phase following t visited token step)
              simp only [step] at back
              exact ⟨out, last, back out last ended, closes⟩
          | expand =>
              have shorter := onward_shorter phase _ left t token (by simp [step])
              simp only [step] at back
              cases opened : files (envPath t.s) with
              | error e =>
                  simp only [opened] at back
                  exact ⟨_, _, back _ _ ⟨rfl, rfl⟩, fun _ impossible => by cases impossible⟩
              | ok file =>
                  simp only [opened] at back
                  obtain ⟨result, behind, nested, closes⟩ :=
                    named t.s file ⟨phase, _, t, left, visited, token, step, rfl⟩ opened c
                  cases result with
                  | error stop => exact ⟨_, _, back _ _ ⟨_, behind, nested, rfl, rfl⟩, fun _ impossible => by cases impossible⟩
                  | ok parsed =>
                      obtain ⟨phase', l', t', left', inside, token', stops⟩ := closes parsed rfl
                      obtain ⟨out, last, ended, closes⟩ := ih left.length (by omega) .plain parsed.c ⟨after, left⟩
                        (Nat.le_refl _) (.expand data r.rest left file l' left' phase phase' t t' visited token step opened
                          inside token' stops)
                      exact ⟨out, last, back out last ⟨_, behind, nested, ended⟩, closes⟩
          | stop =>
              simp only [step] at back
              exact ⟨_, _, back _ _ ⟨rfl, rfl⟩, fun _ _ => ⟨phase, _, t, left, visited, token, step⟩⟩
          | panic =>
              simp only [step] at back
              exact ⟨_, _, back _ _ ⟨rfl, rfl⟩, fun _ impossible => by cases impossible⟩

theorem opened_ends (stream : Bytes) (acyclic : Acyclic files)
    (closed : ∀ data, Opened files stream data → ∀ phase l, Visits files data phase l → ¬ UnclosedQuote l) (p : Bytes) :
    ∀ data, files p = .ok data → Opened files stream data → ∀ c,
      ∃ out last, Ends (inner files .first c) (newReader data) out last ∧ ∀ parsed, out = .ok parsed → Closes files data := by
  induction p using acyclic.induction with
  | _ p ih =>
      intro data found opened c
      refine file_ends files data (closed data opened) ?_ data.length .first c (newReader data) (Nat.le_refl _) (.start data)
      intro s file named read
      exact ih (envPath s) ⟨data, s, found, named, rfl⟩ file read (.nested data s file opened named read)

end Files

section Stream

variable (files : Files)

theorem after_parse_ends {cmds : List Command} {parsed : Parsed} {mid last : Reader}
    {out : Except (Stop Bytes) (List Command × TokType)}
    (ended : Ends (fun n => afterParse files cmds n parsed) mid out last) :
    last = mid ∨ (parsed.type ≠ .EOF ∧ Ends (outer files (cmds ++ [parsed.c]) .first newCommand) mid out last) := by
  simp only [afterParse] at ended
  split at ended
  · exact Or.inl ((ends_pure _ _ _ _).mp ended).2
  · split at ended
    · exact Or.inl ((ends_pure _ _ _ _).mp ended).2
    · rename_i onward
      exact Or.inr ⟨fun eof => onward (Or.inl eof), (parsecommands_outer files _ last out mid).mp ended⟩

theorem after_parse_stops (cmds : List Command) (parsed : Parsed) (mid : Reader)
    (stops : parsed.found = false ∨ parsed.type = .EOF ∨ parsed.type = .EOL) :
    ∃ out, Ends (fun n => afterParse files cmds n parsed) mid out mid := by
  simp only [afterParse]
  by_cases missing : parsed.found = false
  · simp only [if_pos missing]
    exact ⟨_, (ends_pure _ _ _ _).mpr ⟨rfl, rfl⟩⟩
  · simp only [if_neg missing, if_pos (stops.resolve_left missing)]
    exact ⟨_, (ends_pure _ _ _ _).mpr ⟨rfl, rfl⟩⟩

theorem after_parse_onward {cmds : List Command} {parsed : Parsed} {mid last : Reader}
    {out : Except (Stop Bytes) (List Command × TokType)}
    (onward : ¬ (parsed.found = false ∨ parsed.type = .EOF ∨ parsed.type = .EOL))
    (ended : Ends (outer files (cmds ++ [parsed.c]) .first newCommand) mid out last) :
    Ends (fun n => afterParse files cmds n parsed) mid out last := by
  simp only [afterParse, if_neg (fun missing => onward (Or.inl missing)), if_neg (fun type => onward (Or.inr type))]
  exact (parsecommands_outer files _ last out mid).mpr ended

theorem result_type (phase : Phase) (t : Token) (c : Command) : (phase.result t c).type = t.type := by
  rw [Phase.result]
  split
  · rfl
  · rcases t with ⟨type, s⟩
    cases type <;> rfl

theorem step_expand (phase : Phase) (t : Token) (expands : phase.step t = .expand) :
    t.type = .ENV ∧ phase.wants = false := by
  have loop : loopStep t = .expand → t.type = .ENV := by
    rcases t with ⟨type, s⟩
    cases type <;> simp [loopStep]
  cases phase with
  | first =>
      rw [Phase.step] at expands
      split at expands
      · cases expands
      · exact ⟨loop expands, rfl⟩
  | plain => exact ⟨loop expands, rfl⟩
  | arg x =>
      rcases t with ⟨type, s⟩
      cases type <;> cases expands

theorem outer_resumes (cmds : List Command) (phase : Phase) (c : Command) (r last : Reader)
    (out : Except (Stop Bytes) (List Command × TokType)) (t : Token) (left : Bytes)
    (ended : Ends (outer files cmds phase c) r out last) (found : scan r.rest = some (t, left)) :
    ∃ mid, mid.rest = left ∧ OuterResumes files cmds c last out phase t mid := by
  obtain ⟨t', mid, read, rest⟩ := (outer_step files cmds c last out phase r).mp ended
  obtain ⟨_, same, here⟩ := tok_ends_inv _ _ _ read
  cases same
  rw [here] at found
  cases found
  exact ⟨mid, rfl, rest⟩

def Alive (wants : Bool) (l : Bytes) : Prop :=
  ∃ cmds phase c r out last, r.rest = l ∧ phase.wants = wants ∧ Ends (outer files cmds phase c) r out last ∧
    AllReturn files last

theorem alive_restart (r : Reader) (returns : AllReturn files r) : Alive files false r.rest := by
  obtain ⟨out, last, ended, onward⟩ := all_return_step files r returns
  exact ⟨[], .first, newCommand, r, out, last, rfl, rfl, ended, onward⟩

theorem alive_step (wants : Bool) (l left : Bytes) (t : Token) (alive : Alive files wants l)
    (found : scan l = some (t, left)) : Alive files (wantsArg wants t) left := by
  obtain ⟨cmds, phase, c, r, out, last, rfl, rfl, ended, returns⟩ := alive
  obtain ⟨mid, rfl, rest⟩ := outer_resumes files cmds phase c r last out t left ended found
  rw [step_wants phase r.rest mid.rest t found]
  rw [OuterResumes] at rest
  cases step : phase.step t with
  | go following =>
      simp only [step] at rest ⊢
      exact ⟨cmds, following, _, mid, out, last, rfl, rfl, rest, returns⟩
  | expand =>
      simp only [step] at rest ⊢
      cases opened : files (envPath t.s) with
      | error e =>
          simp only [opened] at rest
          obtain ⟨_, rfl⟩ := rest
          exact alive_restart files _ returns
      | ok file =>
          simp only [opened] at rest
          obtain ⟨result, behind, _, rest⟩ := rest
          cases result with
          | ok parsed => exact ⟨cmds, .plain, parsed.c, mid, out, last, rfl, rfl, rest, returns⟩
          | error stop =>
              obtain ⟨_, rfl⟩ := rest
              exact alive_restart files _ returns
  | stop =>
      simp only [step] at rest ⊢
      rcases after_parse_ends files rest with rfl | ⟨_, onward⟩
      · exact alive_restart files _ returns
      · exact ⟨_, .first, newCommand, mid, out, last, rfl, rfl, onward, returns⟩
  | panic =>
      simp only [step] at rest ⊢
      obtain ⟨_, rfl⟩ := rest
      exact alive_restart files _ returns

theorem stream_alive {stream : Bytes} (returns : AllReturn files (newReader stream)) (wants : Bool) (l : Bytes)
    (here : StreamAt stream wants l) : Alive files wants l := by
  induction here with
  | start => exact alive_restart files _ returns
  | step wants l t left before found ih => exact alive_step files wants l left t ih found

theorem lone_scan (l : Bytes) (lone : LoneLink l) :
    ∃ t left, scan l = some (t, left) ∧ (t.type = .LINK ∨ t.type = .BG) ∧ ¬ t.empty ∧ LoneLink left := by
  obtain ⟨c, bar, here⟩ := lone
  refine ⟨(scanLink c []).1, [c], ?_, scan_link_type c [], ?_, lone_single c bar⟩
  · rw [scan, here]
    rcases bar with rfl | rfl
    · rfl
    · rfl
  · rcases bar with rfl | rfl
    · decide
    · decide

theorem link_stops (t : Token) (type : t.type = .LINK ∨ t.type = .BG) (nonempty : ¬ t.empty) (phase : Phase) (c : Command)
    (loop : phase.wants = false) :
    phase.step t = .stop ∧ (phase.result t c).found = true ∧ (phase.result t c).type = t.type := by
  have result : phase.result t c = loopResult t c := if_neg (fun both => nonempty both.2)
  have step : phase.step t = loopStep t := by
    cases phase with
    | first => exact if_neg nonempty
    | plain => rfl
    | arg x => cases loop
  rw [step, result]
  rcases t with ⟨_, s⟩
  rcases type with rfl | rfl
  · exact ⟨rfl, rfl, rfl⟩
  · exact ⟨rfl, rfl, rfl⟩

-- The byte that is unread at the end is the | or & itself, so the loop of
-- parsecommands finds it again and again.
theorem lone_never_ends (n : Nat) (cmds : List Command) (r : Reader) (lone : LoneLink r.rest) :
    ((parsecommands files n cmds).run r).1 = .error .fuel := by
  induction n generalizing cmds r with
  | zero => rfl
  | succ n ih =>
      rw [show parsecommands files (n + 1) cmds = parse files n >>= afterParse files cmds n from rfl]
      rcases ran : (parse files n).run r with ⟨result, mid⟩
      by_cases stuck : result = .error .fuel
      · subst stuck
        rw [Act.run_bind_error ran]
      · have ended : Ends (inner files .first newCommand) r result mid := ⟨stuck, n, ran⟩
        obtain ⟨t, left, found, type, nonempty, again⟩ := lone_scan r.rest lone
        obtain ⟨mid', rfl, rest⟩ := resumes_of_ends files ended found
        obtain ⟨step, parsed, same⟩ := link_stops t type nonempty .first newCommand rfl
        simp only [Resumes, step] at rest
        obtain ⟨rfl, rfl⟩ := rest
        have open_ : ¬ (t.type = .EOF ∨ t.type = .EOL) := by
          rcases type with type | type <;> rw [type] <;> decide
        rw [Act.run_bind_ok ran, afterParse, if_neg (by rw [parsed]; decide), same, if_neg open_]
        exact ih _ mid again

theorem lone_dead (cmds : List Command) (r last : Reader) (out : Except (Stop Bytes) (List Command × TokType))
    (lone : LoneLink r.rest) : ¬ Ends (outer files cmds .first newCommand) r out last := by
  intro ended
  obtain ⟨stopped, n, done⟩ := (parsecommands_outer files cmds last out r).mpr ended
  have stuck := lone_never_ends files n cmds r lone
  rw [done] at stuck
  exact stopped stuck

theorem alive_not_lone (wants : Bool) (l : Bytes) (alive : Alive files wants l) : ¬ LoneLink l := by
  intro lone
  obtain ⟨t, left, found, type, nonempty, again⟩ := lone_scan l lone
  obtain ⟨cmds, phase, c, r, out, last, rfl, _, ended, returns⟩ := alive
  obtain ⟨mid, rfl, rest⟩ := outer_resumes files cmds phase c r last out t left ended found
  have stopped : last ≠ mid := by
    intro same
    subst same
    obtain ⟨_, _, restarted, _⟩ := all_return_step files last returns
    exact lone_dead files [] last _ _ again restarted
  rw [OuterResumes] at rest
  cases loop : phase.wants with
  | false =>
      obtain ⟨step, _⟩ := link_stops t type nonempty phase c loop
      simp only [step] at rest
      rcases after_parse_ends files rest with same | ⟨_, onward⟩
      · exact stopped same
      · exact lone_dead files _ mid _ _ again onward
  | true =>
      have step : phase.step t = .panic := by
        rcases t with ⟨_, s⟩
        cases phase with
        | first | plain => cases loop
        | arg x => rcases type with rfl | rfl <;> rfl
      simp only [step] at rest
      exact stopped rest.2

theorem alive_not_unclosed (wants : Bool) (l : Bytes) (alive : Alive files wants l) : ¬ UnclosedQuote l := by
  obtain ⟨cmds, phase, c, r, out, last, rfl, _, ended, _⟩ := alive
  obtain ⟨t, mid, read, _⟩ := (outer_step files cmds c last out phase r).mp ended
  obtain ⟨_, _, here⟩ := tok_ends_inv _ _ _ read
  rw [← scan_none_iff, here]
  exact fun none => (nomatch none)

theorem alive_opened (stream data : Bytes) (returns : AllReturn files (newReader stream)) (opened : Opened files stream data) :
    ∃ c out last, Ends (inner files .first c) (newReader data) out last := by
  induction opened with
  | top l left file t here found type read =>
      obtain ⟨cmds, phase, c, r, out, last, rfl, loop, ended, _⟩ := stream_alive files returns false l here
      obtain ⟨mid, rfl, rest⟩ := outer_resumes files cmds phase c r last out t left ended found
      have nonempty := env_not_empty _ _ t found type
      have step : phase.step t = .expand := by
        have expands : loopStep t = .expand := by rw [loopStep, type]
        cases phase with
        | first => exact (if_neg nonempty).trans expands
        | plain => exact expands
        | arg x => cases loop
      simp only [OuterResumes, step, read] at rest
      obtain ⟨result, behind, nested, _⟩ := rest
      exact ⟨c, result, behind, nested⟩
  | nested data s file outside named read ih =>
      obtain ⟨c, out, last, ended⟩ := ih
      obtain ⟨phase, l, t, left, visited, found, step, rfl⟩ := named
      obtain ⟨c', r, rfl, here⟩ := visits_pass files visited c last out ended
      obtain ⟨mid, rfl, rest⟩ := resumes_of_ends files here found
      simp only [Resumes, step, read] at rest
      obtain ⟨result, behind, nested, _⟩ := rest
      exact ⟨c', result, behind, nested⟩

theorem ending_of_returns (stream : Bytes) (returns : AllReturn files (newReader stream)) : Ending files stream where
  quotes wants l here := alive_not_unclosed files wants l (stream_alive files returns wants l here)
  links wants l here := alive_not_lone files wants l (stream_alive files returns wants l here)
  files data opened phase l visited := by
    obtain ⟨c, out, last, ended⟩ := alive_opened files stream data returns opened
    obtain ⟨c', r, rfl, here⟩ := visits_pass files visited c last out ended
    exact ends_not_unclosed files phase c' r last out here

theorem outer_back (cmds : List Command) (phase : Phase) (c : Command) (r mid last : Reader)
    (out : Except (Stop Bytes) (List Command × TokType)) (t : Token) (read : Ends tok r (.ok t) mid)
    (rest : OuterResumes files cmds c last out phase t mid) : Ends (outer files cmds phase c) r out last :=
  (outer_step files cmds c last out phase r).mpr ⟨t, mid, read, rest⟩

structure Leaves (stream l last : Bytes) : Prop where
  place : StreamAt stream false last
  shorter : last.length < l.length ∨ (l = [] ∧ last = [])

theorem leaves_later {stream l left last : Bytes} (shorter : left.length < l.length) (leaves : Leaves stream left last) :
    Leaves stream l last := by
  refine ⟨leaves.place, Or.inl ?_⟩
  rcases leaves.shorter with more | ⟨_, rfl⟩
  · omega
  · exact Nat.lt_of_le_of_lt (Nat.zero_le _) shorter

theorem stream_ends (stream : Bytes) (acyclic : Acyclic files) (ending : Ending files stream) (size : Nat)
    (cmds : List Command) (phase : Phase) (c : Command) (r : Reader) (small : r.rest.length ≤ size)
    (here : StreamAt stream phase.wants r.rest) :
    ∃ out last, Ends (outer files cmds phase c) r out last ∧ Leaves stream r.rest last.rest := by
  induction size using Nat.strong_induction_on generalizing cmds phase c r with
  | _ size ih =>
      cases token : scan r.rest with
      | none => exact absurd ((scan_none_iff _).mp token) (ending.quotes _ _ here)
      | some pair =>
          obtain ⟨t, left⟩ := pair
          obtain ⟨after, read⟩ := tok_ends r t left token
          have back := fun out last => outer_back files cmds phase c r ⟨after, left⟩ last out t read
          have there := StreamAt.step _ _ t left here token
          rw [step_wants phase r.rest left t token] at there
          have shorter : left.length < r.rest.length ∨ (r.rest = [] ∧ t.type = .EOF ∧ left = []) := by
            rcases scan_shorter _ _ _ token with less | same | ⟨lone, _⟩
            · exact Or.inl less
            · exact Or.inr same
            · exact absurd lone (ending.links _ _ here)
          have leaves : StreamAt stream false left → Leaves stream r.rest left :=
            fun place => ⟨place, shorter.imp id (fun ⟨empty, _, nothing⟩ => ⟨empty, nothing⟩)⟩
          simp only [OuterResumes] at back
          cases step : phase.step t with
          | go following =>
              have less := onward_shorter phase _ left t token (by simp [step])
              simp only [step] at back there
              obtain ⟨out, last, ended, left'⟩ := ih left.length (by omega) cmds following (phase.update t c) ⟨after, left⟩
                (Nat.le_refl _) there
              exact ⟨out, last, back out last ended, leaves_later less left'⟩
          | expand =>
              have less := onward_shorter phase _ left t token (by simp [step])
              obtain ⟨type, loop⟩ := step_expand phase t step
              simp only [step] at back there
              cases opened : files (envPath t.s) with
              | error e =>
                  simp only [opened] at back
                  exact ⟨_, _, back _ _ ⟨rfl, rfl⟩, leaves there⟩
              | ok file =>
                  simp only [opened] at back
                  rw [loop] at here
                  obtain ⟨result, behind, nested, _⟩ := opened_ends files stream acyclic ending.files (envPath t.s) file opened
                    (.top _ left file t here token type opened) c
                  cases result with
                  | error stop => exact ⟨_, _, back _ _ ⟨_, behind, nested, rfl, rfl⟩, leaves there⟩
                  | ok parsed =>
                      obtain ⟨out, last, ended, left'⟩ := ih left.length (by omega) cmds .plain parsed.c ⟨after, left⟩
                        (Nat.le_refl _) there
                      exact ⟨out, last, back out last ⟨_, behind, nested, ended⟩, leaves_later less left'⟩
          | stop =>
              simp only [step] at back there
              by_cases ends' : (phase.result t c).found = false ∨ t.type = .EOF ∨ t.type = .EOL
              · obtain ⟨out, ended⟩ := after_parse_stops files cmds (phase.result t c) ⟨after, left⟩ (by
                  rw [result_type]
                  exact ends')
                exact ⟨out, _, back _ _ ended, leaves there⟩
              · have less : left.length < r.rest.length :=
                  shorter.resolve_right (fun same => ends' (Or.inr (Or.inl same.2.1)))
                obtain ⟨out, last, ended, left'⟩ := ih left.length (by omega) (cmds ++ [(phase.result t c).c]) .first newCommand
                  ⟨after, left⟩ (Nat.le_refl _) there
                refine ⟨out, last, back out last ?_, leaves_later less left'⟩
                apply after_parse_onward files _ ended
                rw [result_type]
                exact ends'
          | panic =>
              simp only [step] at back there
              exact ⟨_, _, back _ _ ⟨rfl, rfl⟩, leaves there⟩

theorem ending_calls (stream : Bytes) (acyclic : Acyclic files) (ending : Ending files stream) (k : Nat) (r : Reader)
    (here : StreamAt stream false r.rest) : ∃ results last, Calls files k r results last := by
  induction k generalizing r with
  | zero => exact ⟨[], r, rfl, rfl⟩
  | succ k ih =>
      obtain ⟨out, mid, ended, leaves⟩ := stream_ends files stream acyclic ending _ [] .first newCommand r (Nat.le_refl _) here
      obtain ⟨result, returned⟩ := get_command_returns files r mid out ended
      obtain ⟨more, last, rest⟩ := ih mid leaves.place
      exact ⟨result :: more, last, result, more, mid, rfl, returned, rest⟩

theorem eof_call (r : Reader) (empty : r.rest = []) : ∃ last, Ends (getCommand files) r (.ok ⟨[], some .EOF, none⟩) last := by
  obtain ⟨after, read⟩ := tok_ends r ⟨.EOF, []⟩ [] (by rw [empty]; rfl)
  have ended : Ends (outer files [] .first newCommand) r (.ok ([], .EOF)) ⟨after, []⟩ := by
    apply outer_back files [] .first newCommand r ⟨after, []⟩ _ _ _ read
    exact (ends_pure _ _ _ _).mpr ⟨rfl, rfl⟩
  exact ⟨_, (get_command_ends files r _ _).mpr (Or.inr ⟨_, rfl, (parsecommands_outer files [] _ _ r).mpr ended⟩)⟩

theorem ending_eof (stream : Bytes) (acyclic : Acyclic files) (ending : Ending files stream) (size : Nat) (r : Reader)
    (small : r.rest.length ≤ size) (here : StreamAt stream false r.rest) : ReachesEOF files r := by
  induction size using Nat.strong_induction_on generalizing r with
  | _ size ih =>
      by_cases empty : r.rest = []
      · obtain ⟨last, returned⟩ := eof_call files r empty
        exact ⟨1, [_], last, ⟨_, [], last, rfl, returned, rfl, rfl⟩, _, List.mem_singleton.mpr rfl, rfl⟩
      · obtain ⟨out, mid, ended, leaves⟩ := stream_ends files stream acyclic ending _ [] .first newCommand r (Nat.le_refl _) here
        obtain ⟨result, returned⟩ := get_command_returns files r mid out ended
        have shorter := leaves.shorter.resolve_right (fun same => empty same.1)
        obtain ⟨k, more, last, calls, found, there, status⟩ := ih mid.rest.length (by omega) mid (Nat.le_refl _) leaves.place
        exact ⟨k + 1, result :: more, last, ⟨result, more, mid, rfl, returned, calls⟩, found,
          List.mem_cons_of_mem _ there, status⟩

end Stream

theorem never_returns (files : Files) (r : Reader)
    (stuck : ∀ out last, ¬ Ends (outer files [] .first newCommand) r out last) (n : Nat) :
    ((getCommand files n).run r).1 = .error .fuel := by
  rcases ran : (parsecommands files n []).run r with ⟨result, last⟩
  by_cases out : result = .error .fuel
  · have failed : (Act.attempt (parsecommands files n [])).run r = (.error .fuel, last) := by
      simp only [Act.attempt, ran, out]
    rw [getCommand, Act.run_bind_error failed]
  · exact absurd ((parsecommands_outer files [] last result r).mp ⟨out, n, ran⟩) (stuck result last)

theorem reader_terminates_iff (files : Files) (acyclic : Acyclic files) (stream : Bytes) :
    (AllReturn files (newReader stream) ∧ ReachesEOF files (newReader stream)) ↔ Ending files stream := by
  constructor
  · intro ⟨returns, _⟩
    exact ending_of_returns files stream returns
  · intro ending
    exact ⟨fun k => ending_calls files stream acyclic ending k (newReader stream) .start,
      ending_eof files stream acyclic ending _ (newReader stream) (Nat.le_refl _) .start⟩

def noFiles : Files := fun _ => .error (str "no such file or directory")

theorem no_files_acyclic : Acyclic noFiles :=
  ⟨fun _ => ⟨_, fun _ ⟨_, _, found, _⟩ => (nomatch found)⟩⟩

def plainLine : Bytes := str "ls 'a b'\n"

theorem plain_line_places (wants : Bool) (l : Bytes) (here : StreamAt plainLine wants l) :
    l ∈ [plainLine, str " 'a b'\n", str "'a b'\n", str "\n", []] := by
  induction here with
  | start => exact List.mem_cons_self
  | step wants l t left before found ih =>
      simp only [List.mem_cons, List.not_mem_nil, or_false] at ih
      have next : ∀ place, scan l = some (t, left) → (scan l).map Prod.snd = some place → left = place := by
        intro place here there
        rw [here] at there
        exact Option.some.inj there
      rcases ih with rfl | rfl | rfl | rfl | rfl
      · rw [next (str " 'a b'\n") found (by decide)]
        decide
      · rw [next (str "'a b'\n") found (by decide)]
        decide
      · rw [next (str "\n") found (by decide)]
        decide
      · rw [next [] found (by decide)]
        decide
      · rw [next [] found (by decide)]
        decide

theorem plain_line_ending : Ending noFiles plainLine where
  quotes wants l here := by
    have place := plain_line_places wants l here
    simp only [List.mem_cons, List.not_mem_nil, or_false] at place
    rw [← scan_none_iff]
    rcases place with rfl | rfl | rfl | rfl | rfl <;> decide
  links wants l here := by
    have place := plain_line_places wants l here
    simp only [List.mem_cons, List.not_mem_nil, or_false] at place
    intro ⟨c, bar, alone⟩
    have single : (items l).map Prod.fst = [c] := by rw [alone]; rfl
    rcases bar with rfl | rfl <;> rcases place with rfl | rfl | rfl | rfl | rfl <;> exact absurd single (by decide)
  files data opened := by
    cases opened with
    | top =>
        rename_i read
        cases read
    | nested =>
        rename_i read
        cases read

theorem plain_line_terminates :
    AllReturn noFiles (newReader plainLine) ∧ ReachesEOF noFiles (newReader plainLine) :=
  (reader_terminates_iff noFiles no_files_acyclic plainLine).mpr plain_line_ending

-- A quote that is never closed, and a pipe as the last byte.
theorem open_quote_and_last_pipe_hang :
    (∀ n, ((getCommand noFiles n).run (newReader (str "'a"))).1 = .error .fuel) ∧
      ∀ n, ((getCommand noFiles n).run (newReader (str "a|"))).1 = .error .fuel := by
  constructor
  · apply never_returns
    intro out last ended
    obtain ⟨t, mid, read, _⟩ := (outer_step _ _ _ _ _ _ _).mp ended
    obtain ⟨_, _, here⟩ := tok_ends_inv _ _ _ read
    have unclosed : scan (newReader (str "'a")).rest = none := by decide
    rw [unclosed] at here
    cases here
  · apply never_returns
    intro out last ended
    obtain ⟨mid, place, rest⟩ := outer_resumes noFiles [] .first newCommand _ last out ⟨.ARG, str "a"⟩ (str "|") ended (by decide)
    have onward : Ends (outer noFiles [] .plain (Phase.first.update ⟨.ARG, str "a"⟩ newCommand)) mid out last := rest
    obtain ⟨mid', place', rest⟩ := outer_resumes noFiles [] .plain _ mid last out ⟨.LINK, str "|"⟩ (str "|") onward
      (by rw [place]; decide)
    have again : LoneLink mid'.rest := by
      rw [place']
      exact lone_single 124 (Or.inl rfl)
    have parsed : ∀ c, Ends (fun n => afterParse noFiles [] n (Phase.plain.result ⟨.LINK, str "|"⟩ c)) mid' out last →
        Ends (fun n => parsecommands noFiles n [(Phase.plain.result ⟨.LINK, str "|"⟩ c).c]) mid' out last := fun _ same => same
    exact lone_dead noFiles _ mid' last out again ((parsecommands_outer noFiles _ last out mid').mp (parsed _ rest))

end URoot.Rush
