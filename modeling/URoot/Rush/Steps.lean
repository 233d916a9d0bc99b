import URoot.Rush.Scan

set_option autoImplicit false

namespace URoot.Rush

open GoLib Fuel Act

-- Where parsestring stands between two tokens: before its first one, in its
-- loop, or looking for the argument of a redirection.
inductive Phase where
  | first
  | plain
  | arg (x : Nat)
deriving DecidableEq, Repr

inductive Step where
  | go (phase : Phase)
  | expand
  | stop
  | panic
deriving DecidableEq, Repr

section Control

def fdOf (s : Bytes) : Nat := if s = str "0" then 0 else 1

def loopStep (t : Token) : Step :=
  match t.type with
  | .ENV => .expand
  | .ARG | .white => .go .plain
  | .FD => .go (.arg (fdOf t.s))
  | .LINK | .BG | .EOF | .EOL => .stop

def Token.empty (t : Token) : Prop := t.s = str "\n" ∨ t.type = .EOF ∨ t.type = .EOL

instance (t : Token) : Decidable t.empty := inferInstanceAs (Decidable (_ ∨ _ ∨ _))

def Phase.step (phase : Phase) (t : Token) : Step :=
  match phase with
  | .first => if t.empty then .stop else loopStep t
  | .plain => loopStep t
  | .arg x =>
      match t.type with
      | .white => .go (.arg x)
      | .ARG => .go .plain
      | _ => .panic

def Phase.update (phase : Phase) (t : Token) (c : Command) : Command :=
  match phase, t.type with
  | .arg x, .ARG => { c with fdmap := (x, t.s) :: c.fdmap }
  | .arg _, _ => c
  | _, .ARG => { c with args := c.args ++ [⟨t.s, t.type⟩] }
  | _, _ => c

def loopResult (t : Token) (c : Command) : Parsed :=
  match t.type with
  | .LINK => ⟨true, t.type, { c with link := t.s }⟩
  | .BG => ⟨true, t.type, { c with bg := true }⟩
  | _ => ⟨true, t.type, c⟩

def Phase.result (phase : Phase) (t : Token) (c : Command) : Parsed :=
  if phase = .first ∧ t.empty then ⟨false, t.type, c⟩ else loopResult t c

def Token.refusal (t : Token) : Bytes :=
  if t.type = .EOF ∨ t.type = .EOL then TokType.FD.text ++ str " requires an argument"
  else TokType.FD.text ++ str " requires an argument, not " ++ t.type.text

end Control

section Families

variable (files : Files)

-- The rest of parsestring from a phase on.
def inner (phase : Phase) (c : Command) (n : Nat) : Parser Parsed :=
  match phase with
  | .first => parsestring files n c
  | .plain => do
      let t ← tok n
      parseLoop files n t c
  | .arg x => do
      let s ← getArg n .FD
      let t ← tok n
      parseLoop files n t { c with fdmap := (x, s) :: c.fdmap }

def afterParse (cmds : List Command) (n : Nat) (parsed : Parsed) : Parser (List Command × TokType) :=
  if parsed.found = false then pure (cmds, parsed.type)
  else if parsed.type = .EOF ∨ parsed.type = .EOL then pure (cmds ++ [parsed.c], parsed.type)
  else parsecommands files n (cmds ++ [parsed.c])

-- The rest of parsecommands from a phase of its current parsestring on.
def outer (cmds : List Command) (phase : Phase) (c : Command) (n : Nat) : Parser (List Command × TokType) := do
  let parsed ← inner files phase c n
  afterParse files cmds n parsed

theorem get_arg_approx (n : Nat) (what : TokType) : Act.Approx (getArg n what) (getArg (n + 1) what) := by
  induction n with
  | zero => exact approx_fuel _
  | succ n ih =>
      rw [getArg, getArg]
      apply approx_bind (tok_mono n)
      intro t
      cases t.type with
      | white => exact ih
      | EOF | FD | ENV | ARG | EOL | LINK | BG => exact approx_refl _

theorem parse_approx (n : Nat) :
    (∀ c, Act.Approx (parsestring files n c) (parsestring files (n + 1) c)) ∧
      ∀ t c, Act.Approx (parseLoop files n t c) (parseLoop files (n + 1) t c) := by
  induction n with
  | zero => exact ⟨fun _ => approx_fuel _, fun _ _ => approx_fuel _⟩
  | succ n ih =>
      obtain ⟨string, loop⟩ := ih
      constructor
      · intro c
        rw [parsestring, parsestring]
        apply approx_bind (tok_mono n)
        intro t
        exact approx_ite _ _ _ _ _ (approx_refl _) (loop t c)
      · intro t c
        have onward : ∀ c, Act.Approx (tok n >>= fun t' => parseLoop files n t' c)
            (tok (n + 1) >>= fun t' => parseLoop files (n + 1) t' c) :=
          fun c => approx_bind (tok_mono n) (fun t' => loop t' c)
        rw [parseLoop, parseLoop]
        cases t.type with
        | ENV =>
            apply approx_bind (approx_refl _)
            intro data
            apply approx_bind (approx_isolated _ _ _ (string c))
            exact fun result => onward result.c
        | ARG | white => exact onward _
        | FD =>
            apply approx_bind (approx_refl _)
            intro x
            apply approx_bind (get_arg_approx n _)
            exact fun s => onward _
        | LINK | BG | EOF | EOL => exact approx_refl _

theorem parse_loop_mono (t : Token) (c : Command) : Mono (fun n => parseLoop files n t c) :=
  fun n => (parse_approx files n).2 t c

theorem onward_mono (c : Command) : Mono (fun n => tok n >>= fun t => parseLoop files n t c) :=
  mono_bind _ _ tok_mono (fun t => parse_loop_mono files t c)

theorem inner_mono (phase : Phase) (c : Command) : Mono (inner files phase c) := by
  cases phase with
  | first => exact fun n => (parse_approx files n).1 c
  | plain => exact onward_mono files c
  | arg x => exact mono_bind _ _ (fun n => get_arg_approx n .FD) (fun s => onward_mono files _)

theorem parsecommands_mono (cmds : List Command) : Mono (fun n => parsecommands files n cmds) := by
  intro n
  induction n generalizing cmds with
  | zero => exact approx_fuel _
  | succ n ih =>
      simp only [parsecommands]
      apply approx_bind (inner_mono files .first newCommand n)
      intro parsed
      apply approx_ite _ _ _ _ _ (approx_refl _)
      exact approx_ite _ _ _ _ _ (approx_refl _) (ih _)

theorem after_parse_mono (cmds : List Command) (parsed : Parsed) : Mono (fun n => afterParse files cmds n parsed) := by
  intro n
  simp only [afterParse]
  apply approx_ite _ _ _ _ _ (approx_refl _)
  exact approx_ite _ _ _ _ _ (approx_refl _) (parsecommands_mono files _ n)

end Families

section Unfolding

variable (files : Files)

theorem ends_tok {β : Type} {f : Nat → Token → Parser β} (mono : ∀ t, Mono (fun n => f n t)) (r last : Reader)
    (out : Except (Stop Bytes) β) :
    Ends (fun n => tok n >>= f n) r out last ↔ ∃ t mid, Ends tok r (.ok t) mid ∧ Ends (fun n => f n t) mid out last := by
  rw [ends_bind tok f tok_mono mono]
  constructor
  · intro cases'
    rcases cases' with ⟨e, _, raised⟩ | onward
    · obtain ⟨t, impossible, _⟩ := tok_ends_inv _ _ _ raised
      cases impossible
    · exact onward
  · exact Or.inr

def Resumes (phase : Phase) (t : Token) (c : Command) (mid : Reader) (out : Except (Stop Bytes) Parsed) (last : Reader) : Prop :=
  match phase.step t with
  | .go following => Ends (inner files following (phase.update t c)) mid out last
  | .expand =>
      match files (envPath t.s) with
      | .error e => out = .error (.raised (envPath t.s ++ str ": " ++ e)) ∧ last = mid
      | .ok data => ∃ result behind, Ends (inner files .first c) (newReader data) result behind ∧
          match result with
          | .ok parsed => Ends (inner files .plain parsed.c) mid out last
          | .error stop => out = .error stop ∧ last = mid
  | .stop => out = .ok (phase.result t c) ∧ last = mid
  | .panic => out = .error (.raised t.refusal) ∧ last = mid

variable (t : Token) (c : Command) (mid last : Reader) (out : Except (Stop Bytes) Parsed)

theorem expand_ends (data : Bytes) :
    Ends (fun n => Act.isolated (newReader data) (parsestring files n c) >>= fun result =>
        tok n >>= fun t' => parseLoop files n t' result.c) mid out last ↔
      ∃ result behind, Ends (inner files .first c) (newReader data) result behind ∧
        match result with
        | .ok parsed => Ends (inner files .plain parsed.c) mid out last
        | .error stop => out = .error stop ∧ last = mid := by
  have string : Mono (fun n => parsestring files n c) := inner_mono files .first c
  rw [ends_bind _ _ (mono_isolated _ _ string) (fun result => onward_mono files result.c)]
  constructor
  · intro cases'
    rcases cases' with ⟨e, rfl, raised⟩ | ⟨parsed, mid', done, onward⟩
    · obtain ⟨rfl, behind, raised⟩ := (ends_isolated _ _ _ _ _).mp raised
      exact ⟨_, behind, raised, rfl, rfl⟩
    · obtain ⟨rfl, behind, done⟩ := (ends_isolated _ _ _ _ _).mp done
      exact ⟨_, behind, done, onward⟩
  · intro ⟨result, behind, done, rest⟩
    cases result with
    | ok parsed => exact Or.inr ⟨parsed, mid, (ends_isolated _ _ _ _ _).mpr ⟨rfl, behind, done⟩, rest⟩
    | error stop =>
        obtain ⟨rfl, rfl⟩ := rest
        cases stop with
        | fuel => exact absurd rfl done.1
        | raised e => exact Or.inl ⟨e, rfl, (ends_isolated _ _ _ _ _).mpr ⟨rfl, behind, done⟩⟩

theorem fd_number (s : Bytes) (number : s = str "0" ∨ s = str "1") : fdNumber s = pure (fdOf s) := by
  rcases number with rfl | rfl
  · rfl
  · rfl

theorem parse_loop_step (number : t.type = .FD → t.s = str "0" ∨ t.s = str "1") :
    Ends (fun n => parseLoop files n t c) mid out last ↔ Resumes files .plain t c mid out last := by
  have unfolded : ∀ y : Nat → Parser Parsed, (∀ n, parseLoop files (n + 1) t c = y n) →
      (Ends (fun n => parseLoop files n t c) mid out last ↔ Ends y mid out last) :=
    fun y succ => ends_succ _ y rfl succ mid last out
  cases type : t.type with
  | ENV =>
      simp only [Resumes, Phase.step, loopStep, type]
      rw [unfolded (fun n => readEnv files t.s >>= fun data => Act.isolated (newReader data) (parsestring files n c) >>=
        fun result => tok n >>= fun t' => parseLoop files n t' result.c) (fun n => by simp only [parseLoop, type])]
      cases found : files (envPath t.s) with
      | error e =>
          simp only [readEnv, found, fail_bind]
          exact ends_raise _ _ _ _
      | ok data =>
          simp only [readEnv, found, Act.pure_bind]
          exact expand_ends files c mid last out data
  | ARG =>
      simp only [Resumes, Phase.step, loopStep, Phase.update, type]
      exact unfolded _ (fun n => by simp only [parseLoop, type, inner])
  | white =>
      simp only [Resumes, Phase.step, loopStep, Phase.update, type]
      exact unfolded _ (fun n => by simp only [parseLoop, type, inner])
  | FD =>
      simp only [Resumes, Phase.step, loopStep, Phase.update, type]
      exact unfolded _ (fun n => by simp only [parseLoop, type, fd_number t.s (number type), Act.pure_bind, inner])
  | LINK =>
      simp only [Resumes, Phase.step, loopStep, Phase.result, loopResult, type]
      rw [unfolded (fun _ => pure ⟨true, .LINK, { c with link := t.s }⟩) (fun n => by simp only [parseLoop, type]), ends_pure]
      rfl
  | BG =>
      simp only [Resumes, Phase.step, loopStep, Phase.result, loopResult, type]
      rw [unfolded (fun _ => pure ⟨true, .BG, { c with bg := true }⟩) (fun n => by simp only [parseLoop, type]), ends_pure]
      rfl
  | EOF =>
      simp only [Resumes, Phase.step, loopStep, Phase.result, loopResult, type]
      rw [unfolded (fun _ => pure ⟨true, .EOF, c⟩) (fun n => by simp only [parseLoop, type]), ends_pure]
      rfl
  | EOL =>
      simp only [Resumes, Phase.step, loopStep, Phase.result, loopResult, type]
      rw [unfolded (fun _ => pure ⟨true, .EOL, c⟩) (fun n => by simp only [parseLoop, type]), ends_pure]
      rfl

theorem get_arg_step (r last : Reader) (out : Except (Stop Bytes) Bytes) :
    Ends (fun n => getArg n .FD) r out last ↔
      ∃ t mid, Ends tok r (.ok t) mid ∧
        match t.type with
        | .white => Ends (fun n => getArg n .FD) mid out last
        | .ARG => out = .ok t.s ∧ last = mid
        | _ => out = .error (.raised t.refusal) ∧ last = mid := by
  rw [ends_succ (fun n => getArg n .FD) _ rfl (fun n => get_arg_succ n .FD), ends_tok]
  · apply exists_congr
    intro t
    apply exists_congr
    intro mid
    apply and_congr_right
    intro _
    rcases t with ⟨type, s⟩
    cases type with
    | white => exact Iff.rfl
    | ARG => exact ends_pure _ _ _ _
    | EOF | EOL | FD | ENV | LINK | BG => exact ends_raise _ _ _ _
  · intro t n
    rcases t with ⟨type, s⟩
    cases type with
    | white => exact get_arg_approx n .FD
    | ARG | EOF | EOL | FD | ENV | LINK | BG => exact approx_refl _

theorem resumes_first (nonempty : ¬ t.empty) : Resumes files .first t c mid out last ↔ Resumes files .plain t c mid out last := by
  have step : Phase.first.step t = Phase.plain.step t := if_neg nonempty
  have update : Phase.first.update t c = Phase.plain.update t c := by
    rcases t with ⟨type, s⟩
    cases type <;> rfl
  have result : Phase.first.result t c = Phase.plain.result t c := by
    rw [Phase.result, Phase.result, if_neg (fun both => nonempty both.2), if_neg (fun both => nonempty both.2)]
  rw [Resumes, Resumes, step, update, result]

theorem resumes_empty (empty : t.empty) :
    Resumes files .first t c mid out last ↔ out = .ok ⟨false, t.type, c⟩ ∧ last = mid := by
  have step : Phase.first.step t = .stop := if_pos empty
  have result : Phase.first.result t c = ⟨false, t.type, c⟩ := if_pos ⟨rfl, empty⟩
  rw [Resumes, step, result]

theorem token_number (r mid : Reader) (t : Token) (read : Ends tok r (.ok t) mid) (type : t.type = .FD) :
    t.s = str "0" ∨ t.s = str "1" := by
  obtain ⟨t', same, found⟩ := tok_ends_inv _ _ _ read
  cases same
  exact scan_number _ _ _ found type

theorem string_step (r : Reader) :
    Ends (fun n => parsestring files n c) r out last ↔
      ∃ t mid, Ends tok r (.ok t) mid ∧ Resumes files .first t c mid out last := by
  have unfolded : ∀ n, parsestring files (n + 1) c = tok n >>= fun t =>
      if t.empty then pure ⟨false, t.type, c⟩ else parseLoop files n t c := fun _ => rfl
  rw [ends_succ (fun n => parsestring files n c) _ rfl unfolded, ends_tok]
  · apply exists_congr
    intro t
    apply exists_congr
    intro mid
    apply and_congr_right
    intro read
    by_cases empty : t.empty
    · simp only [if_pos empty, resumes_empty files t c mid last out empty]
      exact ends_pure _ _ _ _
    · simp only [if_neg empty, resumes_first files t c mid last out empty]
      exact parse_loop_step files t c mid last out (token_number r mid t read)
  · intro t
    by_cases empty : t.empty
    · simp only [if_pos empty]
      exact mono_const _
    · simp only [if_neg empty]
      exact parse_loop_mono files t c

theorem plain_step (r : Reader) :
    Ends (inner files .plain c) r out last ↔
      ∃ t mid, Ends tok r (.ok t) mid ∧ Resumes files .plain t c mid out last := by
  have onward := ends_tok (fun t => parse_loop_mono files t c) r last out
  apply onward.trans
  apply exists_congr
  intro t
  apply exists_congr
  intro mid
  apply and_congr_right
  intro read
  exact parse_loop_step files t c mid last out (token_number r mid t read)

theorem arg_step (x : Nat) (r : Reader) :
    Ends (inner files (.arg x) c) r out last ↔
      ∃ t mid, Ends tok r (.ok t) mid ∧ Resumes files (.arg x) t c mid out last := by
  have split := ends_bind (fun n => getArg n .FD)
    (fun n s => tok n >>= fun t => parseLoop files n t { c with fdmap := (x, s) :: c.fdmap })
    (fun n => get_arg_approx n .FD) (fun s => onward_mono files _)
  apply (split r last out).trans
  constructor
  · intro cases'
    rcases cases' with ⟨e, rfl, raised⟩ | ⟨s, behind, taken, onward⟩
    · obtain ⟨⟨type, s⟩, mid, read, rest⟩ := (get_arg_step r last _).mp raised
      refine ⟨⟨type, s⟩, mid, read, ?_⟩
      cases type with
      | white => exact (split mid last _).mpr (Or.inl ⟨e, rfl, rest⟩)
      | ARG => cases rest.1
      | EOF | EOL | FD | ENV | LINK | BG => exact ⟨congrArg _ (Except.error.inj rest.1), rest.2⟩
    · obtain ⟨⟨type, s'⟩, mid, read, rest⟩ := (get_arg_step r behind _).mp taken
      refine ⟨⟨type, s'⟩, mid, read, ?_⟩
      cases type with
      | white => exact (split mid last out).mpr (Or.inr ⟨s, behind, rest, onward⟩)
      | ARG =>
          obtain ⟨same, rfl⟩ := rest
          cases same
          exact onward
      | EOF | EOL | FD | ENV | LINK | BG => cases rest.1
  · intro ⟨⟨type, s⟩, mid, read, rest⟩
    cases type with
    | white =>
        rcases (split mid last out).mp rest with ⟨e, same, raised⟩ | ⟨s', behind, taken, onward⟩
        · exact Or.inl ⟨e, same, (get_arg_step r last _).mpr ⟨⟨.white, s⟩, mid, read, raised⟩⟩
        · exact Or.inr ⟨s', behind, (get_arg_step r behind _).mpr ⟨⟨.white, s⟩, mid, read, taken⟩, onward⟩
    | ARG => exact Or.inr ⟨s, mid, (get_arg_step r mid _).mpr ⟨⟨.ARG, s⟩, mid, read, rfl, rfl⟩, rest⟩
    | EOF | EOL | FD | ENV | LINK | BG =>
        obtain ⟨rfl, rfl⟩ := rest
        exact Or.inl ⟨_, rfl, (get_arg_step r _ _).mpr ⟨_, _, read, rfl, rfl⟩⟩

theorem inner_step (phase : Phase) (r : Reader) :
    Ends (inner files phase c) r out last ↔
      ∃ t mid, Ends tok r (.ok t) mid ∧ Resumes files phase t c mid out last := by
  cases phase with
  | first => exact string_step files c last out r
  | plain => exact plain_step files c last out r
  | arg x => exact arg_step files c last out x r

end Unfolding

section Outer

variable (files : Files) (cmds : List Command) (c : Command) (last : Reader)
  (out : Except (Stop Bytes) (List Command × TokType))

def OuterResumes (phase : Phase) (t : Token) (mid : Reader) : Prop :=
  match phase.step t with
  | .go following => Ends (outer files cmds following (phase.update t c)) mid out last
  | .expand =>
      match files (envPath t.s) with
      | .error e => out = .error (.raised (envPath t.s ++ str ": " ++ e)) ∧ last = mid
      | .ok data => ∃ result behind, Ends (inner files .first c) (newReader data) result behind ∧
          match result with
          | .ok parsed => Ends (outer files cmds .plain parsed.c) mid out last
          | .error stop => out = .error stop ∧ last = mid
  | .stop => Ends (fun n => afterParse files cmds n (phase.result t c)) mid out last
  | .panic => out = .error (.raised t.refusal) ∧ last = mid

theorem outer_ends (phase : Phase) (r : Reader) :
    Ends (outer files cmds phase c) r out last ↔
      (∃ e, out = .error (.raised e) ∧ Ends (inner files phase c) r (.error (.raised e)) last) ∨
        ∃ parsed mid, Ends (inner files phase c) r (.ok parsed) mid ∧
          Ends (fun n => afterParse files cmds n parsed) mid out last :=
  ends_bind _ _ (inner_mono files phase c) (fun parsed => after_parse_mono files cmds parsed) r last out

theorem outer_resumes_iff (phase : Phase) (t : Token) (mid : Reader) :
    OuterResumes files cmds c last out phase t mid ↔
      (∃ e, out = .error (.raised e) ∧ Resumes files phase t c mid (.error (.raised e)) last) ∨
        ∃ parsed behind, Resumes files phase t c mid (.ok parsed) behind ∧
          Ends (fun n => afterParse files cmds n parsed) behind out last := by
  simp only [OuterResumes, Resumes]
  cases phase.step t with
  | go following => exact outer_ends files cmds _ last out following mid
  | expand =>
      cases files (envPath t.s) with
      | error text => simp
      | ok data =>
          constructor
          · rintro ⟨result, end', nested, rest⟩
            cases result with
            | ok inside =>
                rcases (outer_ends _ _ _ _ _ _ _).mp rest with ⟨e, same, raised⟩ | ⟨parsed, behind, done, after⟩
                · exact Or.inl ⟨e, same, _, end', nested, raised⟩
                · exact Or.inr ⟨parsed, behind, ⟨_, end', nested, done⟩, after⟩
            | error stop =>
                cases stop with
                | fuel => exact absurd rfl nested.1
                | raised e => exact Or.inl ⟨e, rest.1, _, end', nested, rfl, rest.2⟩
          · rintro (⟨e, same, result, end', nested, rest⟩ | ⟨parsed, behind, ⟨result, end', nested, rest⟩, after⟩)
            · refine ⟨result, end', nested, ?_⟩
              cases result with
              | ok inside => exact (outer_ends _ _ _ _ _ _ _).mpr (Or.inl ⟨e, same, rest⟩)
              | error stop => exact ⟨same.trans (congrArg _ (Except.error.inj rest.1)), rest.2⟩
            · refine ⟨result, end', nested, ?_⟩
              cases result with
              | ok inside => exact (outer_ends _ _ _ _ _ _ _).mpr (Or.inr ⟨parsed, behind, rest, after⟩)
              | error stop => cases rest.1
  | stop => simp
  | panic => simp

theorem outer_step (phase : Phase) (r : Reader) :
    Ends (outer files cmds phase c) r out last ↔
      ∃ t mid, Ends tok r (.ok t) mid ∧ OuterResumes files cmds c last out phase t mid := by
  rw [outer_ends]
  constructor
  · rintro (⟨e, same, raised⟩ | ⟨parsed, behind, done, after⟩)
    · obtain ⟨t, mid, read, rest⟩ := (inner_step files c last _ phase r).mp raised
      exact ⟨t, mid, read, (outer_resumes_iff _ _ _ _ _ _ _ _).mpr (Or.inl ⟨e, same, rest⟩)⟩
    · obtain ⟨t, mid, read, rest⟩ := (inner_step files c behind _ phase r).mp done
      exact ⟨t, mid, read, (outer_resumes_iff _ _ _ _ _ _ _ _).mpr (Or.inr ⟨parsed, behind, rest, after⟩)⟩
  · rintro ⟨t, mid, read, rest⟩
    have back : ∀ result behind, Resumes files phase t c mid result behind → Ends (inner files phase c) r result behind :=
      fun result behind resumed => (inner_step files c behind result phase r).mpr ⟨t, mid, read, resumed⟩
    rcases (outer_resumes_iff _ _ _ _ _ _ _ _).mp rest with ⟨e, same, raised⟩ | ⟨parsed, behind, done, after⟩
    · exact Or.inl ⟨e, same, back _ _ raised⟩
    · exact Or.inr ⟨parsed, behind, back _ _ done, after⟩

theorem parsecommands_outer (r : Reader) :
    Ends (fun n => parsecommands files n cmds) r out last ↔ Ends (outer files cmds .first newCommand) r out last :=
  ends_succ _ _ rfl (fun _ => rfl) r last out

end Outer

end URoot.Rush
