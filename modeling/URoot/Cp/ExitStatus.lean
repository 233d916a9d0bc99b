import URoot.Cp.Main

set_option autoImplicit false

namespace URoot.Cp

open GoLib Act

variable {σ : Type} (flags : Flags) (os : Os σ)

section Outcomes

inductive Verdict where
  | copied
  | failed
  | crashed
deriving DecidableEq, Repr

def copyOnce (src dst : Bytes) : Run σ (List Bytes) := do
  let srcb ← sys (.cantStat src) (os.lstat src)
  if flags.symlink ∧ srcb.symlink then do
    let linkPath ← sys (.cantEvalSymlink src) (os.evalSymlinks src)
    sys .os (os.symlink linkPath dst)
    pure []
  else if srcb.isDir then
    if flags.recursive then do
      createDir os src dst
      sys (.cantListFiles src) (os.readDir src)
    else raise (.isDirectory src)
  else do
    let found ← tried (os.stat dst)
    let go ← overwrite flags os srcb src dst found
    if go then do
      copyContent os srcb src dst
      pure []
    else pure []

def once (src dst : Bytes) (s : σ) : Verdict × List Bytes × σ :=
  match (copyOnce flags os src dst).run ⟨s, []⟩ with
  | (.ok files, w) => (.copied, files, w.os)
  | (.error (.raised (.failed _)), w) => (.failed, [], w.os)
  | (.error _, w) => (.crashed, [], w.os)

def inside (src dst : Bytes) (files : List Bytes) : List (Bytes × Bytes) :=
  files.map fun name => (Filepath.joinTwo src name, Filepath.joinTwo dst name)

-- The outcomes of the individual copies, in the order in which they begin. What is to be copied is a list of
-- sources with their destinations; a directory is replaced by what it holds, and a crash ends everything.
inductive Copies : List (Bytes × Bytes) → σ → List Verdict → σ → Prop where
  | done (s : σ) : Copies [] s [] s
  | next (src dst : Bytes) (files : List Bytes) (rest : List (Bytes × Bytes)) (verdict : Verdict) (s t last : σ)
      (verdicts : List Verdict) (here : once flags os src dst s = (verdict, files, t)) (alive : verdict ≠ .crashed)
      (later : Copies (inside src dst files ++ rest) t verdicts last) :
      Copies ((src, dst) :: rest) s (verdict :: verdicts) last
  | crash (src dst : Bytes) (files : List Bytes) (rest : List (Bytes × Bytes)) (s t : σ)
      (here : once flags os src dst s = (.crashed, files, t)) : Copies ((src, dst) :: rest) s [.crashed] t

theorem copies_unique (tasks : List (Bytes × Bytes)) (s t u : σ) (vs ws : List Verdict) (one : Copies flags os tasks s vs t)
    (two : Copies flags os tasks s ws u) : vs = ws := by
  induction one generalizing ws u with
  | done s =>
      cases two
      rfl
  | next src dst files rest verdict s t last verdicts here alive later ih =>
      cases two with
      | next _ _ _ _ _ _ _ _ _ same _ other =>
          cases here.symm.trans same
          rw [ih _ _ other]
      | crash _ _ _ _ _ _ same =>
          cases here.symm.trans same
          exact absurd rfl alive
  | crash src dst files rest s t here =>
      cases two with
      | next _ _ _ _ _ _ _ _ _ same alive _ =>
          cases here.symm.trans same
          exact absurd rfl alive
      | crash _ _ _ _ _ _ same => rfl

theorem copies_append (a b : List (Bytes × Bytes)) (s t u : σ) (vs ws : List Verdict) (first : Copies flags os a s vs t)
    (living : .crashed ∉ vs) (second : Copies flags os b t ws u) : Copies flags os (a ++ b) s (vs ++ ws) u := by
  induction first with
  | done s => exact second
  | next src dst files rest verdict s t last verdicts here alive later ih =>
      rw [List.cons_append, List.cons_append]
      refine .next src dst files _ verdict s t u _ here alive ?_
      rw [← List.append_assoc]
      exact ih (fun dead => living (List.mem_cons_of_mem _ dead)) second
  | crash src dst files rest s t here => exact absurd List.mem_cons_self living

theorem copies_stop (a b : List (Bytes × Bytes)) (s t : σ) (vs : List Verdict) (first : Copies flags os a s vs t)
    (dead : .crashed ∈ vs) : Copies flags os (a ++ b) s vs t := by
  induction first with
  | done s => cases dead
  | next src dst files rest verdict s t last verdicts here alive later ih =>
      rw [List.cons_append]
      refine .next src dst files _ verdict s t last _ here alive ?_
      rw [← List.append_assoc]
      exact ih ((List.mem_cons.mp dead).resolve_left (Ne.symm alive))
  | crash src dst files rest s t here => exact .crash src dst files _ s t here

end Outcomes

section Silent

variable {α β ε : Type}

def Silent (x : Run σ α) : Prop := ∀ s log, x.run ⟨s, log⟩ = ((x.run ⟨s, []⟩).1, ⟨(x.run ⟨s, []⟩).2.os, log⟩)

theorem silent_pure (a : α) : Silent (pure a : Run σ α) := fun _ _ => rfl

theorem silent_fail (e : Stop Trouble) : Silent (fail e : Run σ α) := fun _ _ => rfl

theorem silent_sys (wrap : ε → CpError) (x : Act ε σ α) : Silent (sys wrap x) := fun _ _ => rfl

theorem silent_tried (x : Act OsError σ α) : Silent (tried x) := fun _ _ => rfl

theorem silent_bind {x : Run σ α} {f : α → Run σ β} (first : Silent x) (second : ∀ a, Silent (f a)) : Silent (x >>= f) := by
  intro s log
  have before := first s log
  have empty := first s []
  rcases ran : x.run ⟨s, []⟩ with ⟨result, next⟩
  rw [ran] at before empty
  cases result with
  | ok a =>
      have same : next = ⟨next.os, []⟩ := congrArg Prod.snd empty
      rw [run_bind_ok before, run_bind_ok ran, second a next.os log, ← same]
  | error e => rw [run_bind_error before, run_bind_error ran]

theorem silent_ite (p : Prop) [Decidable p] (x y : Run σ α) (first : Silent x) (second : Silent y) :
    Silent (if p then x else y) := by
  split
  · exact first
  · exact second

theorem silent_overwrite (srcb : FileInfo) (src dst : Bytes) (found : Except OsError FileInfo) :
    Silent (overwrite flags os srcb src dst found) := by
  have asked : Silent (promptOverwrite os) := by
    refine silent_bind (silent_sys _ _) fun answer => ?_
    cases answer with
    | nil => exact silent_fail _
    | cons b rest => exact silent_pure _
  cases found with
  | ok dstb => exact silent_ite _ _ _ (silent_fail _) (silent_ite _ _ _ asked (silent_pure _))
  | error err =>
      cases err with
      | notExist => exact silent_pure _
      | other text => exact silent_fail _

theorem silent_create_dir (src dst : Bytes) : Silent (createDir os src dst) := by
  refine silent_bind (silent_tried _) fun dstInfo => ?_
  cases dstInfo with
  | ok info => exact silent_ite _ _ _ (silent_pure _) (silent_fail _)
  | error err =>
      cases err with
      | notExist => exact silent_bind (silent_sys _ _) fun srcInfo => silent_sys _ _
      | other text => exact silent_fail _

theorem silent_once (src dst : Bytes) : Silent (copyOnce flags os src dst) := by
  refine silent_bind (silent_sys _ _) fun srcb => ?_
  refine silent_ite _ _ _ ?_ (silent_ite _ _ _ (silent_ite _ _ _ ?_ (silent_fail _)) ?_)
  · exact silent_bind (silent_sys _ _) fun linkPath => silent_bind (silent_sys _ _) fun _ => silent_pure _
  · exact silent_bind (silent_create_dir os src dst) fun _ => silent_sys _ _
  · refine silent_bind (silent_tried _) fun found => ?_
    refine silent_bind (silent_overwrite flags os srcb src dst found) fun go => ?_
    refine silent_ite _ _ _ (silent_bind ?_ fun _ => silent_pure _) (silent_pure _)
    exact silent_bind (silent_sys _ _) fun _ => silent_bind (silent_sys _ _) fun _ => silent_sys _ _

end Silent

section Told

variable {α β : Type}

def Crashes : Except (Stop Trouble) α → Prop
  | .error (.raised .panic) => True
  | .error (.raised (.fatal _)) => True
  | _ => False

-- What a computation whose errors its caller has looked at tells of the individual copies it makes.
def Tells (x : Run σ α) (tasks : List (Bytes × Bytes)) : Prop :=
  ∀ s log out t failures, x.run ⟨s, log⟩ = (out, ⟨t, failures⟩) → out ≠ .error .fuel →
    (∀ err, out ≠ .error (.raised (.failed err))) ∧
      ∃ vs, Copies flags os tasks s vs t ∧ (failures = [] ↔ log = [] ∧ .failed ∉ vs) ∧ (.crashed ∈ vs ↔ Crashes out)

theorem error_crashes {e : Stop Trouble} (ended : (.error e : Except (Stop Trouble) α) ≠ .error .fuel)
    (seen : ∀ err, (.error e : Except (Stop Trouble) α) ≠ .error (.raised (.failed err))) :
    Crashes (.error e : Except (Stop Trouble) β) := by
  rcases e with _ | (err | _ | to_)
  · exact absurd rfl ended
  · exact absurd rfl (seen err)
  · exact trivial
  · exact trivial

theorem tells_pure (a : α) : Tells flags os (pure a : Run σ α) [] := by
  intro s log out t failures ran _
  cases ran
  exact ⟨by simp, [], .done s, by simp, iff_of_false List.not_mem_nil id⟩

theorem tells_bind {x : Run σ α} {f : α → Run σ β} {a b : List (Bytes × Bytes)} (first : Tells flags os x a)
    (second : ∀ r, Tells flags os (f r) b) : Tells flags os (x >>= f) (a ++ b) := by
  intro s log out t failures ran ended
  rcases here : x.run ⟨s, log⟩ with ⟨result, ⟨mid, some_⟩⟩
  cases result with
  | ok r =>
      obtain ⟨-, vs, copies, noted, dead⟩ := first s log _ mid some_ here (ok_ended r)
      have living : .crashed ∉ vs := dead.mp
      rw [run_bind_ok here] at ran
      obtain ⟨seen, ws, later, more, stopped⟩ := second r mid some_ out t failures ran ended
      refine ⟨seen, vs ++ ws, copies_append flags os a b s mid t vs ws copies living later, ?_, ?_⟩
      · rw [more, noted, List.mem_append, not_or, and_assoc]
      · rw [List.mem_append, or_iff_right living, stopped]
  | error e =>
      rw [run_bind_error here] at ran
      cases ran
      have gone : (.error e : Except (Stop Trouble) α) ≠ .error .fuel := fun fuel => ended (congrArg _ (Except.error.inj fuel))
      obtain ⟨seen, vs, copies, noted, dead⟩ := first s log _ t failures here gone
      have crashed := dead.mpr (error_crashes gone seen)
      refine ⟨fun err failed => seen err (congrArg _ (Except.error.inj failed)), vs,
        copies_stop flags os a b s t vs copies crashed, noted, ?_⟩
      exact iff_of_true crashed (error_crashes gone seen)

theorem copy_names_tells (copy : Bytes → Run σ Unit) (task : Bytes → Bytes × Bytes)
    (each : ∀ name, Tells flags os (returned (copy name)) [task name]) (names : List Bytes) :
    Tells flags os (copyNames copy names) (names.map task) := by
  induction names with
  | nil => exact tells_pure flags os ()
  | cons name rest ih => exact tells_bind flags os (each name) fun _ => ih

theorem copy_each_tells (copy : Bytes → Run σ Unit) (task : Bytes → Bytes × Bytes)
    (each : ∀ file, Tells flags os (returned (copy file)) [task file]) (files : List Bytes) (lastErr : Option CpError) :
    Tells flags os (copyEach copy files lastErr) (files.map task) := by
  induction files generalizing lastErr with
  | nil => exact tells_pure flags os lastErr
  | cons file rest ih => exact tells_bind flags os (each file) fun err => ih (err.or lastErr)

theorem returned_noted_run (src : Bytes) (x : Run σ Unit) (w : World σ) :
    (returned (noted src x)).run w = match x.run w with
      | (.ok _, next) => (.ok none, next)
      | (.error (.raised (.failed err)), next) => (.ok (some err), { next with failed := next.failed ++ [(src, err)] })
      | (.error e, next) => (.error e, next) := by
  rcases ran : x.run w with ⟨result, next⟩
  simp only [returned, noted, run_bind, attempt, ran]
  rcases result with (_ | (err | _ | to_)) | _ <;> rfl

theorem copy_body_once (copy : Bytes → Bytes → Run σ Unit) (src dst : Bytes) :
    copyBody flags os copy src dst = copyOnce flags os src dst >>=
      copyNames (fun name => copy (Filepath.joinTwo src name) (Filepath.joinTwo dst name)) := by
  rw [copyBody, copyOnce, bind_bind]
  refine congrArg (bind _) (funext fun srcb => ?_)
  split
  · rw [bind_bind]
    refine congrArg (bind _) (funext fun linkPath => ?_)
    rw [bind_bind]
    exact (bind_unit _).symm
  · split
    · split
      · rw [copyDir, bind_bind]
      · rfl
    · rw [bind_bind]
      refine congrArg (bind _) (funext fun found => ?_)
      rw [bind_bind]
      refine congrArg (bind _) (funext fun go => ?_)
      cases go with
      | true =>
          rw [if_pos rfl, if_pos rfl, bind_bind]
          exact (bind_unit _).symm
      | false => rfl

def place (todir : Bool) (src dst : Bytes) : Bytes := if todir then Filepath.joinTwo dst (Filepath.base src) else dst

theorem copy_file_tells (depth : Nat) (src dst : Bytes) (todir : Bool) :
    Tells flags os (returned (copyFile flags os depth src dst todir)) [(src, place todir src dst)] := by
  induction depth generalizing src dst todir with
  | zero =>
      intro s log out t failures ran ended
      cases ran
      exact absurd rfl ended
  | succ depth ih =>
      intro s log out t failures ran ended
      rw [copyFile, ← place, returned_noted_run, copy_body_once] at ran
      generalize place todir src dst = dst at ran ⊢
      have inner := copy_names_tells flags os
        (fun name => copyFile flags os depth (Filepath.joinTwo src name) (Filepath.joinTwo dst name) false)
        (fun name => (Filepath.joinTwo src name, Filepath.joinTwo dst name)) (fun name => ih _ _ false)
      have silent := silent_once flags os src dst s log
      rcases here : (copyOnce flags os src dst).run ⟨s, []⟩ with ⟨result, next⟩
      rw [here] at silent
      have crashed (verdict : once flags os src dst s = (.crashed, [], next.os)) :
          Copies flags os [(src, dst)] s [.crashed] next.os := .crash src dst [] [] s _ verdict
      rcases result with (_ | (err | _ | to_)) | files
      · rw [run_bind_error silent] at ran
        cases ran
        exact absurd rfl ended
      · rw [run_bind_error silent] at ran
        cases ran
        have verdict : once flags os src dst s = (.failed, [], next.os) := by rw [once, here]
        exact ⟨by simp, [.failed], .next src dst [] [] .failed s _ _ [] verdict (by decide) (.done _), by simp,
          by simp [Crashes]⟩
      · rw [run_bind_error silent] at ran
        cases ran
        exact ⟨by simp, [.crashed], crashed (by rw [once, here]), by simp, by simp [Crashes]⟩
      · rw [run_bind_error silent] at ran
        cases ran
        exact ⟨by simp, [.crashed], crashed (by rw [once, here]), by simp, by simp [Crashes]⟩
      · rw [run_bind_ok silent] at ran
        have verdict : once flags os src dst s = (.copied, files, next.os) := by rw [once, here]
        rcases later : (copyNames _ files).run ⟨next.os, log⟩ with ⟨finish, ⟨mid, some_⟩⟩
        rw [later] at ran
        have told := inner files next.os log finish mid some_ later
        rcases finish with (_ | (err | _ | to_)) | u
        · cases ran
          exact absurd rfl ended
        · exact absurd rfl ((told (raised_ended _)).1 err)
        all_goals
          cases ran
          obtain ⟨seen, vs, copies, noted, dead⟩ := told (by simp)
          refine ⟨by simp, .copied :: vs, .next src dst files [] .copied s next.os t vs verdict (by decide) ?_, ?_, ?_⟩
          · rw [List.append_nil]
            exact copies
          · rw [noted]
            simp
          · rw [List.mem_cons, or_iff_right (by decide), dead]
            rfl

end Told

-- What os.Stat(to) and the individual copies after it must give for the exit status to be right. With a
-- destination that can be looked up everything has to be copied, with one that cannot be something has to fail.
def StatusRight (sources : List Bytes) (to_ : Bytes) (start : σ) : Prop :=
  match (os.stat to_).run start with
  | (.ok info, s) =>
      (sources.length ≤ 1 ∨ info.isDir = true) ∧
        ∃ vs last, Copies flags os (sources.map fun src => (src, place info.isDir src to_)) s vs last ∧ ∀ v ∈ vs, v = .copied
  | (.error _, s) =>
      sources.length ≤ 1 ∧
        ∃ vs last, Copies flags os (sources.map fun src => (src, to_)) s vs last ∧ .failed ∈ vs ∧ .crashed ∉ vs

theorem all_copied_iff (vs : List Verdict) : (∀ v ∈ vs, v = .copied) ↔ .failed ∉ vs ∧ .crashed ∉ vs := by
  constructor
  · intro copied
    refine ⟨fun bad => ?_, fun bad => ?_⟩
    · cases copied _ bad
    · cases copied _ bad
  · rintro ⟨fine, alive⟩ v inside
    cases v with
    | copied => rfl
    | failed => exact absurd inside fine
    | crashed => exact absurd inside alive

theorem tried_run {α : Type} (x : Act OsError σ α) (start s : σ) (result : Except OsError α) (log : List (Bytes × CpError))
    (asked : x.run start = (result, s)) : (tried x).run ⟨start, log⟩ = (.ok result, ⟨s, log⟩) := by
  simp only [tried, asked]

section Ended

variable (sources : List Bytes) (to_ : Bytes) (depth : Nat) (start s : σ) (toStat : Except OsError FileInfo)
  (outcome : Except (Stop Trouble) (Option CpError)) (last : World σ)

theorem cp_fatal (asked : (os.stat to_).run start = (toStat, s)) (several : ¬ (sources.length ≤ 1 ∨ isDirStat toStat = true)) :
    (cp flags os sources to_ depth).run ⟨start, []⟩ = (.error (.raised (.fatal to_)), ⟨s, []⟩) := by
  have first := tried_run (os.stat to_) start s toStat [] asked
  rw [not_or, Bool.not_eq_true] at several
  rw [cp, run_bind_ok first, if_pos ⟨by omega, several.2⟩, run_fail]

theorem cp_copies (asked : (os.stat to_).run start = (toStat, s)) (single : sources.length ≤ 1 ∨ isDirStat toStat = true)
    (ran : (cp flags os sources to_ depth).run ⟨start, []⟩ = (outcome, last)) (ended : outcome ≠ .error .fuel) :
    ∃ vs, Copies flags os (sources.map fun src => (src, place (isDirStat toStat) src to_)) s vs last.os ∧
      (last.failed = [] ↔ .failed ∉ vs) ∧ (.crashed ∈ vs ∧ Crashes outcome ∨ .crashed ∉ vs ∧ outcome = .ok (statErr toStat)) := by
  have first := tried_run (os.stat to_) start s toStat [] asked
  have tries : ¬ (sources.length + 1 > 2 ∧ isDirStat toStat = false) := by
    rintro ⟨many, plain⟩
    rw [plain, Bool.false_eq_true, or_false] at single
    omega
  rw [cp, run_bind_ok first, if_neg tries] at ran
  rcases each : (copyEach (fun file => copyFile flags os depth file to_ (isDirStat toStat)) sources none).run ⟨s, []⟩ with
    ⟨result, t, failures⟩
  have tells := copy_each_tells flags os (fun file => copyFile flags os depth file to_ (isDirStat toStat))
    (fun src => (src, place (isDirStat toStat) src to_)) (fun file => copy_file_tells flags os depth file to_ _) sources none
    s [] result t failures each
  cases result with
  | ok lastErr =>
      rw [run_bind_ok each] at ran
      cases ran
      obtain ⟨-, vs, copies, noted, dead⟩ := tells (ok_ended _)
      exact ⟨vs, copies, noted.trans (and_iff_right rfl), Or.inr ⟨dead.mp, rfl⟩⟩
  | error e =>
      rw [run_bind_error each] at ran
      cases ran
      have gone : (.error e : Except (Stop Trouble) (Option CpError)) ≠ .error .fuel := ended
      obtain ⟨seen, vs, copies, noted, dead⟩ := tells gone
      exact ⟨vs, copies, noted.trans (and_iff_right rfl), Or.inl ⟨dead.mpr (error_crashes gone seen), error_crashes gone seen⟩⟩

theorem honest_copies_iff (asked : (os.stat to_).run start = (toStat, s))
    (ran : (cp flags os sources to_ depth).run ⟨start, []⟩ = (outcome, last)) (ended : outcome ≠ .error .fuel) :
    (∃ result, outcome = .ok result ∧ (result ≠ none ↔ last.failed ≠ [])) ↔
      (sources.length ≤ 1 ∨ isDirStat toStat = true) ∧
        ∃ vs t, Copies flags os (sources.map fun src => (src, place (isDirStat toStat) src to_)) s vs t ∧ .crashed ∉ vs ∧
          (statErr toStat ≠ none ↔ .failed ∈ vs) := by
  by_cases single : sources.length ≤ 1 ∨ isDirStat toStat = true
  · rw [and_iff_right single]
    obtain ⟨vs, copies, noted, ⟨crashed, dead⟩ | ⟨alive, rfl⟩⟩ :=
      cp_copies flags os sources to_ depth start s toStat outcome last asked single ran ended
    · refine iff_of_false ?_ ?_
      · rintro ⟨result, rfl, -⟩
        exact dead
      · rintro ⟨ws, t, others, alive, -⟩
        rw [copies_unique flags os _ _ _ _ _ _ others copies] at alive
        exact alive crashed
    · constructor
      · rintro ⟨result, same, honest⟩
        cases same
        exact ⟨vs, last.os, copies, alive, by rw [honest, ne_eq, noted, not_not]⟩
      · rintro ⟨ws, t, others, -, honest⟩
        rw [copies_unique flags os _ _ _ _ _ _ others copies] at honest
        exact ⟨_, rfl, by rw [honest, ne_eq, noted, not_not]⟩
  · rw [cp_fatal flags os sources to_ depth start s toStat asked single] at ran
    cases ran
    refine iff_of_false ?_ fun right => single right.1
    rintro ⟨result, impossible, -⟩
    cases impossible

end Ended

theorem exit_status_iff (sources : List Bytes) (to_ : Bytes) (start : σ) (outcome : Except (Stop Trouble) (Option CpError))
    (last : World σ) (done : Fuel.Ends (cp flags os sources to_) ⟨start, []⟩ outcome last) :
    (∃ result, outcome = .ok result ∧ (result ≠ none ↔ last.failed ≠ [])) ↔ StatusRight flags os sources to_ start := by
  obtain ⟨ended, depth, ran⟩ := done
  rw [StatusRight]
  rcases asked : (os.stat to_).run start with ⟨err | info, s⟩
  · rw [honest_copies_iff flags os sources to_ depth start s _ outcome last asked ran ended]
    simp [isDirStat, statErr, place, and_comm]
  · rw [honest_copies_iff flags os sources to_ depth start s _ outcome last asked ran ended]
    simp [isDirStat, statErr, all_copied_iff, and_comm]

def plainFile : FileInfo := ⟨false, false, 420, 1, 1⟩

def directory : FileInfo := ⟨false, true, 493, 1, 2⟩

def scripted (infos : List (Bytes × FileInfo)) (names : List Bytes) : Os Unit where
  lstat path := ofOption (infos.lookup path) .notExist
  stat path := ofOption (infos.lookup path) .notExist
  evalSymlinks path := pure path
  symlink _ _ := pure ()
  readString := pure (str "y\n")
  openRead _ := pure ()
  openFile _ _ := pure ()
  mkdir _ _ := pure ()
  readDir _ := pure names
  copyOneFile _ _ := pure ()

def copyInto : Flags := ⟨true, false, false, false⟩

theorem copied_into_directory :
    Fuel.Ends (cp copyInto (scripted [(str "a", plainFile), (str "d", directory)] []) [str "a"] (str "d")) ⟨(), []⟩ (.ok none)
        ⟨(), []⟩ ∧
      StatusRight copyInto (scripted [(str "a", plainFile), (str "d", directory)] []) [str "a"] (str "d") () := by
  have ran : Fuel.Ends (cp copyInto (scripted [(str "a", plainFile), (str "d", directory)] []) [str "a"] (str "d"))
      ⟨(), []⟩ (.ok none) ⟨(), []⟩ := ⟨ok_ended none, 2, rfl⟩
  refine ⟨ran, (exit_status_iff copyInto _ [str "a"] (str "d") () (.ok none) ⟨(), []⟩ ran).mp ⟨none, rfl, ?_⟩⟩
  simp

-- A copy to a new name is reported as failed; a missing source is not, and neither
-- is a missing file inside a directory.
theorem exit_status_wrong :
    Fuel.Ends (cp copyInto (scripted [(str "a", plainFile)] []) [str "a"] (str "b")) ⟨(), []⟩
        (.ok (some (.os .notExist))) ⟨(), []⟩ ∧
      Fuel.Ends (cp copyInto (scripted [(str "d", directory)] []) [str "a"] (str "d")) ⟨(), []⟩ (.ok none)
        ⟨(), [(str "a", .cantStat (str "a") .notExist)]⟩ ∧
      Fuel.Ends (cp copyInto (scripted [(str "d", directory), (str "t", directory)] [str "f"]) [str "t"] (str "d")) ⟨(), []⟩
        (.ok none) ⟨(), [(str "t/f", .cantStat (str "t/f") .notExist)]⟩ :=
  ⟨⟨ok_ended _, 2, rfl⟩, ⟨ok_ended _, 2, rfl⟩, ok_ended _, 3, rfl⟩

end URoot.Cp
