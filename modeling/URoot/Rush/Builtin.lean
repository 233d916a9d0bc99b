import URoot.Rush.Main

set_option autoImplicit false

namespace URoot.Rush

open GoLib Act

section Parsed

def Command.Plain (c : Command) : Prop := ∀ v ∈ c.args, v.mod = .ARG

theorem new_command_plain : newCommand.Plain := fun v there => by cases there

theorem push_plain (c : Command) (s : Bytes) (plain : c.Plain) : Command.Plain { c with args := c.args ++ [⟨s, .ARG⟩] } := by
  intro v there
  rcases List.mem_append.mp there with before | last
  · exact plain v before
  · rw [List.mem_singleton.mp last]

theorem parse_plain (files : Files) (n : Nat) :
    (∀ (c : Command) (r last : Reader) (parsed : Parsed), c.Plain →
      (parsestring files n c).run r = (.ok parsed, last) → parsed.c.Plain) ∧
    (∀ (t : Token) (c : Command) (r last : Reader) (parsed : Parsed), c.Plain →
      (parseLoop files n t c).run r = (.ok parsed, last) → parsed.c.Plain) := by
  induction n with
  | zero =>
      constructor
      · intro c r last parsed plain impossible
        cases impossible
      · intro t c r last parsed plain impossible
        cases impossible
  | succ n ih =>
      constructor
      · intro c r last parsed plain done
        obtain ⟨t, mid, _, rest⟩ := run_bind_inv done
        split at rest
        · cases rest
          exact plain
        · exact ih.2 t c mid last parsed plain rest
      · intro t c r last parsed plain done
        obtain ⟨type, s⟩ := t
        cases type with
        | ENV =>
            obtain ⟨data, r1, _, rest⟩ := run_bind_inv done
            obtain ⟨inner, r2, parsedInner, rest⟩ := run_bind_inv rest
            obtain ⟨t', r3, _, rest⟩ := run_bind_inv rest
            rcases ran : (parsestring files n c).run (newReader data) with ⟨result, end_⟩
            simp only [Act.isolated, ran, Prod.mk.injEq] at parsedInner
            rw [parsedInner.1] at ran
            exact ih.2 t' inner.c r3 last parsed (ih.1 c _ end_ inner plain ran) rest
        | ARG =>
            obtain ⟨t', mid, _, rest⟩ := run_bind_inv done
            exact ih.2 t' _ mid last parsed (push_plain c s plain) rest
        | white =>
            obtain ⟨t', mid, _, rest⟩ := run_bind_inv done
            exact ih.2 t' c mid last parsed plain rest
        | FD =>
            obtain ⟨x, r1, _, rest⟩ := run_bind_inv done
            obtain ⟨arg, r2, _, rest⟩ := run_bind_inv rest
            obtain ⟨t', r3, _, rest⟩ := run_bind_inv rest
            exact ih.2 t' { c with fdmap := (x, arg) :: c.fdmap } r3 last parsed plain rest
        | LINK =>
            cases done
            exact plain
        | BG =>
            cases done
            exact plain
        | EOF =>
            cases done
            exact plain
        | EOL =>
            cases done
            exact plain

theorem parsecommands_plain (files : Files) (n : Nat) (cmds cmds' : List Command) (t : TokType) (r last : Reader)
    (plain : ∀ c ∈ cmds, c.Plain) (done : (parsecommands files n cmds).run r = (.ok (cmds', t), last)) :
    ∀ c ∈ cmds', c.Plain := by
  induction n generalizing cmds r with
  | zero => cases done
  | succ n ih =>
      obtain ⟨parsed, mid, ran, rest⟩ := run_bind_inv done
      have one := (parse_plain files n).1 newCommand r mid parsed new_command_plain ran
      have all : ∀ c ∈ cmds ++ [parsed.c], c.Plain := by
        intro c there
        rcases List.mem_append.mp there with before | last
        · exact plain c before
        · rw [List.mem_singleton.mp last]
          exact one
      split at rest
      · cases rest
        exact plain
      · split at rest
        · cases rest
          exact all
        · exact ih _ mid all rest

structure Checked (cmds : List Command) : Prop where
  args : ∀ c ∈ cmds, c.args ≠ []
  piped : ∀ i c, cmds[i]? = some c → c.link = str "|" → i + 1 < cmds.length

theorem command_error_none (c : Command) (following : Option Command) (valid : commandError c following = none) :
    c.args ≠ [] ∧ (c.link = str "|" → following ≠ none) := by
  unfold commandError at valid
  split at valid
  · cases valid
  · rename_i args
    refine ⟨args, ?_⟩
    split at valid
    · cases valid
    · intro pipe nothing
      rw [nothing] at valid
      dsimp only at valid
      rw [if_pos pipe] at valid
      cases valid

theorem nothing_checked : Checked [] := by
  constructor
  · intro c there
    cases there
  · intro i c there
    cases there

theorem commands_error_none (cmds : List Command) (valid : commandsError cmds = none) : Checked cmds := by
  induction cmds with
  | nil => exact nothing_checked
  | cons c rest ih =>
      rw [commandsError] at valid
      cases first : commandError c rest.head? with
      | some e =>
          rw [first] at valid
          cases valid
      | none =>
          rw [first] at valid
          obtain ⟨args, piped⟩ := command_error_none c rest.head? first
          have later := ih valid
          refine ⟨?_, ?_⟩
          · intro d there
            rcases List.mem_cons.mp there with rfl | inside
            · exact args
            · exact later.args d inside
          · intro i d there pipe
            cases i with
            | zero =>
                cases there
                have some_ : rest ≠ [] := fun empty => piped pipe (by rw [empty]; rfl)
                have positive := List.length_pos_iff.mpr some_
                rw [List.length_cons]
                omega
            | succ i =>
                have inside := later.piped i d there pipe
                rw [List.length_cons]
                omega

theorem get_command_checked {files : Files} {n : Nat} {r last : Reader} {result : Result}
    (returned : (getCommand files n).run r = (.ok result, last)) : Checked result.cmds ∧ ∀ c ∈ result.cmds, c.Plain := by
  obtain ⟨outcome, mid, ran, rest⟩ := run_bind_inv returned
  cases rest
  have none_ : ∀ c ∈ ([] : List Command), c.Plain := fun c there => by cases there
  cases outcome with
  | error e => exact ⟨nothing_checked, none_⟩
  | ok parsed =>
      obtain ⟨cmds, t⟩ := parsed
      have read := attempt_ok_inv _ _ _ _ ran
      rw [judge]
      split
      · exact ⟨nothing_checked, none_⟩
      · rename_i valid
        exact ⟨commands_error_none cmds valid, parsecommands_plain files n [] cmds t r _ none_ read⟩

end Parsed

section NoPanic

variable (sys : System)

def words (v : Arg) : List Bytes :=
  match sys.glob v.val with
  | .ok (first :: globs) => first :: globs
  | _ => [v.val]

theorem words_some (v : Arg) : words sys v ≠ [] := by
  rw [words]
  split
  · exact List.cons_ne_nil _ _
  · exact List.cons_ne_nil _ _

theorem all_words_some (args : List Arg) (some_ : args ≠ []) : args.flatMap (words sys) ≠ [] := by
  obtain ⟨v, rest, rfl⟩ := List.exists_cons_of_ne_nil some_
  rw [List.flatMap_cons]
  exact fun empty => words_some sys v (List.append_eq_nil_iff.mp empty).1

theorem glob_args_plain (args : List Arg) (plain : ∀ v ∈ args, v.mod = .ARG) :
    globArgs sys args = .ok (args.flatMap (words sys)) := by
  induction args with
  | nil => rfl
  | cons v rest ih =>
      have here : expand sys v = .ok (words sys v) := by
        rw [expand, if_neg (by rw [plain v List.mem_cons_self]; decide), words]
        cases sys.glob v.val with
        | error e => rfl
        | ok globs =>
            cases globs with
            | nil => rfl
            | cons first globs => rfl
      rw [globArgs, here, ih (fun w there => plain w (List.mem_cons_of_mem _ there)), List.flatMap_cons]
      rfl

def argued (c : Command) : Job :=
  { newJob c with cmd := (c.args.flatMap (words sys)).headD [], argv := (c.args.flatMap (words sys)).tail }

theorem do_args_returns (cmds : List Command) (checked : ∀ c ∈ cmds, c.args ≠ []) (plain : ∀ c ∈ cmds, c.Plain) :
    doArgs sys (cmds.map newJob) = .ok (cmds.map (argued sys)) := by
  induction cmds with
  | nil => rfl
  | cons c rest ih =>
      have later := ih (fun d there => checked d (List.mem_cons_of_mem _ there))
        (fun d there => plain d (List.mem_cons_of_mem _ there))
      have expanded := glob_args_plain sys c.args (plain c List.mem_cons_self)
      obtain ⟨first, globs, some_⟩ := List.exists_cons_of_ne_nil (all_words_some sys c.args (checked c List.mem_cons_self))
      have set_ : setArgs (newJob c) (c.args.flatMap (words sys)) = .ok (argued sys c) := by
        rw [argued, some_]
        rfl
      rw [List.map_cons, doArgs, show (newJob c).command.args = c.args from rfl, expanded, later]
      exact congrArg (· >>= fun c' => Except.ok (c' :: rest.map (argued sys))) set_

structure Ready (cmds : List Command) (jobs : List Job) : Prop where
  same : jobs.map Job.command = cmds
  made : ∀ c ∈ jobs, c.exec ≠ none

theorem make_command_panics (c : Job) (builtin : c.cmd = str "builtin") : makeCommand c = .error .panic := by
  rw [makeCommand, if_pos builtin]
  rfl

theorem commands_panic (jobs : List Job) (c : Job) (there : c ∈ jobs) (builtin : c.cmd = str "builtin") :
    commands jobs = .error .panic := by
  induction jobs with
  | nil => cases there
  | cons d rest ih =>
      rw [commands]
      by_cases first : d.cmd = str "builtin"
      · rw [make_command_panics d first]
        rfl
      · have later : c ∈ rest := by
          rcases List.mem_cons.mp there with rfl | later
          · exact absurd builtin first
          · exact later
        rw [makeCommand, if_neg first, ih later]
        rfl

theorem commands_ready {jobs : List Job} (other : ∀ c ∈ jobs, c.cmd ≠ str "builtin") :
    ∃ made, commands jobs = .ok made ∧ Ready (jobs.map Job.command) made := by
  induction jobs with
  | nil => exact ⟨[], rfl, rfl, fun c there => by cases there⟩
  | cons d rest ih =>
      obtain ⟨made, done, ready⟩ := ih (fun c there => other c (List.mem_cons_of_mem _ there))
      refine ⟨{ d with exec := some (execCommand d.cmd d.argv) } :: made, ?_, ?_, ?_⟩
      · rw [commands, makeCommand, if_neg (other d List.mem_cons_self), done]
        rfl
      · rw [List.map_cons, List.map_cons, ready.same]
      · intro c there
        rcases List.mem_cons.mp there with rfl | later
        · exact fun impossible => by cases impossible
        · exact ready.made c later

def Keeps (c c' : Job) : Prop := c'.command = c.command ∧ c'.exec ≠ none

theorem open_with_avoids (result : Bytes → Option Bytes) (c : Job) (default : Stream) (fd : Nat) :
    Avoids .panic (openWith result c default fd) (fun found => found.2.command = c.command) := by
  rw [openWith]
  split
  · split
    · exact avoids_error _ _ _ (by simp)
    · exact avoids_ok _ rfl
  · exact avoids_ok _ rfl

theorem deref_avoids (c : Job) (made : c.exec ≠ none) : Avoids .panic (deref c) (fun _ => True) := by
  rw [deref]
  cases held : c.exec with
  | none => exact absurd held made
  | some cmd => exact avoids_ok _ trivial

theorem open_set_avoids (result : Bytes → Option Bytes) (c : Job) (default : Stream) (fd : Nat) (put : Stream → Cmd) :
    Avoids .panic (openWith result c default fd >>= fun (stream, c') => .ok { c' with exec := some (put stream) }) (Keeps c) := by
  refine avoids_bind _ (open_with_avoids result c default fd) (fun found same => ?_)
  exact avoids_ok _ ⟨same, fun impossible => by cases impossible⟩

theorem wire_stdin_avoids (i : Nat) (c : Job) (made : c.exec ≠ none) : Avoids .panic (wireStdin sys i c) (Keeps c) := by
  refine avoids_bind _ (deref_avoids c made) (fun cmd _ => ?_)
  split
  · exact open_set_avoids (sys.openFile i) c (.std 0) 0 (fun stream => { cmd with stdin := some stream })
  · exact avoids_ok _ ⟨rfl, made⟩

theorem wire_stdout_avoids (i : Nat) (c : Job) (made : c.exec ≠ none) : Avoids .panic (wireStdout sys i c) (Keeps c) := by
  refine avoids_bind _ (deref_avoids c made) (fun cmd _ => ?_)
  split
  · exact open_set_avoids (sys.create i) c (.std 1) 1 (fun stream => { cmd with stdout := some stream })
  · exact avoids_ok _ ⟨rfl, made⟩

theorem wire_stderr_avoids (i : Nat) (c : Job) (made : c.exec ≠ none) : Avoids .panic (wireStderr sys i c) (Keeps c) := by
  refine avoids_bind _ (deref_avoids c made) (fun cmd _ => ?_)
  exact open_set_avoids (sys.create i) c (.std 2) 2 (fun stream => { cmd with stderr := some stream })

theorem wire_one_avoids (i : Nat) (c : Job) (made : c.exec ≠ none) : Avoids .panic (wireOne sys i c) (Keeps c) := by
  refine avoids_bind _ (wire_stdin_avoids sys i c made) (fun c1 first => ?_)
  refine avoids_bind _ (wire_stdout_avoids sys i c1 first.2) (fun c2 second => ?_)
  have third := wire_stderr_avoids sys i c2 second.2
  exact ⟨third.failed, fun c3 done => ⟨(third.done c3 done).1.trans (second.1.trans first.1), (third.done c3 done).2⟩⟩

theorem pipe_avoids (taken : Prop) [Decidable taken] (text : Bytes) (result : Option Bytes) (c : Job) (piped : Cmd) :
    Avoids .panic (if taken then .error (.failed text) else
      match result with
      | some e => .error (.failed e)
      | none => .ok { c with exec := some piped } : Stage Job) (Keeps c) := by
  split
  · exact avoids_error _ _ _ (by simp)
  · cases result with
    | some e => exact avoids_error _ _ _ (by simp)
    | none => exact avoids_ok _ ⟨rfl, fun impossible => by cases impossible⟩

theorem stdin_pipe_avoids (i : Nat) (c : Job) (made : c.exec ≠ none) : Avoids .panic (stdinPipe sys i c) (Keeps c) :=
  avoids_bind _ (deref_avoids c made) (fun _ _ => pipe_avoids _ _ (sys.stdinPipe i) c _)

theorem stdout_pipe_avoids (i : Nat) (c : Job) (made : c.exec ≠ none) : Avoids .panic (stdoutPipe sys i c) (Keeps c) :=
  avoids_bind _ (deref_avoids c made) (fun _ _ => pipe_avoids _ _ (sys.stdoutPipe i) c _)

theorem index_avoids (cmds : List Command) (jobs : List Job) (ready : Ready cmds jobs) (i : Nat) (inside : i < cmds.length) :
    Avoids .panic (index jobs i) (fun c => jobs[i]? = some c ∧ c.exec ≠ none) := by
  have length : jobs.length = cmds.length := by rw [← ready.same, List.length_map]
  rw [index]
  cases found : jobs[i]? with
  | none =>
      have beyond := List.getElem?_eq_none_iff.mp found
      omega
  | some c => exact avoids_ok _ ⟨rfl, ready.made c (List.mem_of_getElem? found)⟩

theorem set_ready {cmds : List Command} {jobs : List Job} (ready : Ready cmds jobs) (i : Nat) (c c' : Job)
    (here : jobs[i]? = some c) (kept : Keeps c c') : Ready cmds (jobs.set i c') := by
  constructor
  · have place : (jobs.map Job.command)[i]? = some c'.command := by rw [List.getElem?_map, here, Option.map_some, kept.1]
    rw [← ready.same, List.map_set]
    apply List.ext_getElem?
    intro j
    rw [List.getElem?_set]
    split
    · rename_i same
      rw [← same, place]
      split
      · rfl
      · rename_i outside
        rw [List.getElem?_eq_none (by omega)] at place
        cases place
    · rfl
  · intro d there
    rcases List.mem_or_eq_of_mem_set there with old | rfl
    · exact ready.made d old
    · exact kept.2

theorem wire_loop_avoids (cmds : List Command) (checked : Checked cmds) (left i : Nat) (count : i + left = cmds.length)
    (jobs : List Job) (ready : Ready cmds jobs) : Avoids .panic (wireLoop sys left i jobs) (fun _ => True) := by
  induction left generalizing i jobs with
  | zero => exact avoids_ok _ trivial
  | succ left ih =>
      refine avoids_bind _ (index_avoids cmds jobs ready i (by omega)) (fun c found => ?_)
      refine avoids_bind _ (wire_one_avoids sys i c found.2) (fun c' kept => ?_)
      have wired := set_ready ready i c c' found.1 kept
      dsimp only
      split
      · exact ih (i + 1) (by omega) _ wired
      · rename_i pipe
        -- the rules of getCommand have left a command behind the pipe
        have here : cmds[i]? = some c.command := by rw [← ready.same, List.getElem?_map, found.1, Option.map_some]
        have after := checked.piped i c.command here (by rw [← kept.1]; exact not_not.mp pipe)
        refine avoids_bind _ (index_avoids cmds _ wired (i + 1) after) (fun d next => ?_)
        refine avoids_bind _ (stdin_pipe_avoids sys i d next.2) (fun d' piped => ?_)
        have joined := set_ready wired (i + 1) d d' next.1 piped
        refine avoids_bind _ (stdout_pipe_avoids sys i c' kept.2) (fun c'' out => ?_)
        have inside : i < jobs.length := (List.getElem?_eq_some_iff.mp found.1).1
        have current : ((jobs.set i c').set (i + 1) d')[i]? = some c' := by
          rw [List.getElem?_set_ne (by omega), List.getElem?_set_self inside]
        exact ih (i + 1) (by omega) _ (set_ready joined i c' c'' current out)

theorem wire_avoids (cmds : List Command) (checked : Checked cmds) (jobs : List Job) (ready : Ready cmds jobs) :
    Avoids .panic (wire sys jobs) (fun _ => True) := by
  have length : jobs.length = cmds.length := by rw [← ready.same, List.length_map]
  exact wire_loop_avoids sys cmds checked jobs.length 0 (by omega) jobs ready

theorem stages_panic_iff (files : Files) (n : Nat) (r last : Reader) (result : Result)
    (returned : (getCommand files n).run r = (.ok result, last)) :
    stages sys result.cmds = .error .panic ↔ ∃ c ∈ result.cmds, (c.args.flatMap (words sys)).head? = some (str "builtin") := by
  obtain ⟨checked, plain⟩ := get_command_checked returned
  have argued_ := do_args_returns sys result.cmds checked.args plain
  have name : ∀ c ∈ result.cmds, (argued sys c).cmd = str "builtin" ↔
      (c.args.flatMap (words sys)).head? = some (str "builtin") := by
    intro c there
    obtain ⟨first, rest, some_⟩ := List.exists_cons_of_ne_nil (all_words_some sys c.args (checked.args c there))
    rw [argued, some_, List.head?_cons, Option.some.injEq]
    rfl
  have rest : stages sys result.cmds = commands (result.cmds.map (argued sys)) >>= wire sys := by
    rw [stages, argued_]
    rfl
  rw [rest]
  by_cases called : ∃ c ∈ result.cmds, (c.args.flatMap (words sys)).head? = some (str "builtin")
  · obtain ⟨c, there, first⟩ := called
    rw [commands_panic _ (argued sys c) (List.mem_map_of_mem there) ((name c there).mpr first)]
    exact iff_of_true rfl ⟨c, there, first⟩
  · obtain ⟨made, done, ready⟩ := commands_ready (by
      intro job there
      obtain ⟨c, inside, rfl⟩ := List.mem_map.mp there
      exact fun builtin => called ⟨c, inside, (name c inside).mp builtin⟩)
    have same : (result.cmds.map (argued sys)).map Job.command = result.cmds := by
      rw [List.map_map]
      exact List.map_id _
    rw [same] at ready
    rw [done]
    exact iff_of_false (wire_avoids sys result.cmds checked made ready).failed called

end NoPanic

def bareSystem : System := ⟨fun _ => .error [], fun _ => .ok [], fun _ _ => none, fun _ _ => none, fun _ => none, fun _ => none⟩

def typed (line : Bytes) : Except (Stop Bytes) Result × Reader := (getCommand bareSystem.readFile 20).run (newReader line)

def pipeline : List Command := [⟨[⟨str "ls", .ARG⟩], [], str "|", false⟩, ⟨[⟨str "wc", .ARG⟩], [], [], false⟩]

theorem pipeline_returns : stages bareSystem pipeline ≠ .error .panic := by
  have returned : typed (str "ls|wc\n") = (.ok ⟨pipeline, some .EOL, none⟩, ⟨some 10, []⟩) := rfl
  intro panics
  obtain ⟨c, there, first⟩ := (stages_panic_iff bareSystem _ _ _ _ _ returned).mp panics
  have names : pipeline.all (fun c => (c.args.flatMap (words bareSystem)).head? ≠ some (str "builtin")) = true := by
    decide +kernel
  exact absurd first (of_decide_eq_true (List.all_eq_true.mp names c there))

-- exec.Command has left SysProcAttr nil.
theorem builtin_panics :
    typed (str "builtin\n") = (.ok ⟨[⟨[⟨str "builtin", .ARG⟩], [], [], false⟩], some .EOL, none⟩, ⟨some 10, []⟩) ∧
      stages bareSystem [⟨[⟨str "builtin", .ARG⟩], [], [], false⟩] = .error .panic :=
  ⟨rfl, rfl⟩

end URoot.Rush
