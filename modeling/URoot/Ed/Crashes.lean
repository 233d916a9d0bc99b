import URoot.Ed.Unsaved

set_option autoImplicit false

namespace URoot.Ed

open GoLib Lines Act

section Delimiters

theorem split_after (sep : UInt8) (s : Bytes) (there : sep ∈ s) : s.count sep = (s.dropWhile (· ≠ sep)).tail.count sep + 1 := by
  induction s with
  | nil => cases there
  | cons c s ih =>
      by_cases here : c = sep
      · rw [here, List.dropWhile_cons_of_neg (by simp), List.tail_cons, List.count_cons_self]
      · have later : sep ∈ s := (List.mem_cons.mp there).resolve_left (fun same => here same.symm)
        rw [List.dropWhile_cons_of_pos (by simpa using here), List.count_cons_of_ne here, ih later]

def Delimited (arg : Bytes) : Prop := ∃ sep rest, arg = sep :: rest ∧ 2 ≤ rest.count sep

theorem sub_args_some_iff (arg : Bytes) : (∃ parts, subArgs arg = some parts) ↔ Delimited arg := by
  cases arg with
  | nil =>
      refine iff_of_false ?_ ?_
      · rintro ⟨parts, impossible⟩
        cases impossible
      · rintro ⟨sep, rest, impossible, _⟩
        cases impossible
  | cons sep rest =>
      have delimited : Delimited (sep :: rest) ↔ 2 ≤ rest.count sep := by
        constructor
        · rintro ⟨other, tail, same, enough⟩
          cases same
          exact enough
        · intro enough
          exact ⟨sep, rest, rfl, enough⟩
      rw [delimited]
      by_cases first : sep ∈ rest
      · have counted := split_after sep rest first
        by_cases second : sep ∈ (rest.dropWhile (· ≠ sep)).tail
        · have more := split_after sep _ second
          simp only [subArgs, splitN, if_pos first, if_pos second]
          exact iff_of_true ⟨_, rfl⟩ (by omega)
        · have none_ := List.count_eq_zero_of_not_mem second
          simp only [subArgs, splitN, if_pos first, if_neg second]
          refine iff_of_false ?_ (by omega)
          rintro ⟨parts, impossible⟩
          cases impossible
      · have none_ := List.count_eq_zero_of_not_mem first
        simp only [subArgs, splitN, if_neg first]
        refine iff_of_false ?_ (by omega)
        rintro ⟨parts, impossible⟩
        cases impossible

end Delimiters

section Panics

variable (host : Host) (f : File) (a b : Int64)

theorem replace_panics_iff (indexed : f.Indexed) (n : Option Bytes) :
    ((replace n a b).run f).1 = .error .panic ↔ f.data ≠ none ∧ f.Underflows a b := by
  by_cases returns : f.data = none ∨ ¬ f.Underflows a b
  · obtain ⟨amt, next, ran, _⟩ := replace_returns f indexed n a b returns
    exact iff_of_false (run_ok_ne _ ran) (fun crashes => returns.elim crashes.1 (fun safe => safe crashes.2))
  · rw [not_or, not_not] at returns
    rw [replace_panics f indexed n a b returns.1 returns.2]
    exact iff_of_true rfl returns

theorem read_command_panics_iff (indexed : f.Indexed) (arg : Bytes) :
    ((readCommand host arg a b).run f).1 = .error .panic ↔
      (∃ d, host.openFile (trimLeft arg) = .ok (.ok d)) ∧ f.data ≠ none ∧ f.Underflows (a + 1) b := by
  rw [readCommand]
  cases opened : host.openFile (trimLeft arg) with
  | error text =>
      refine iff_of_false (fun impossible => by cases impossible) ?_
      rintro ⟨⟨d, impossible⟩, _⟩
      cases impossible
  | ok r =>
      cases r with
      | error text =>
          refine iff_of_false (fun impossible => by cases impossible) ?_
          rintro ⟨⟨d, impossible⟩, _⟩
          cases impossible
      | ok d =>
          have ran : ((read (.ok d) a b >>= fun result => pure result.2 : Edit _).run f).1 = .error .panic ↔
              f.data ≠ none ∧ f.Underflows (a + 1) b := by
            rw [run_bind_pure_error_iff, run_read_ok, run_bind_pure_error_iff, replace_panics_iff f _ _ indexed]
          exact ran.trans (and_iff_right ⟨d, rfl⟩).symm

theorem sub_panics_iff (indexed : f.Indexed) (re n opt : Bytes) :
    ((sub host re n opt a b).run f).1 = .error .panic ↔
      (re ≠ [] ∧ ∃ r, host.compile re = .ok r) ∧ f.Underflows a b := by
  by_cases underflows : f.Underflows a b
  · by_cases empty : re = []
    · rw [sub, if_pos empty]
      exact iff_of_false (fun impossible => by cases impossible) (fun crashes => crashes.1.1 empty)
    · cases compiled : host.compile re with
      | error text =>
          rw [sub, if_neg empty, compiled]
          refine iff_of_false (fun impossible => by cases impossible) ?_
          rintro ⟨⟨_, r, impossible⟩, _⟩
          cases impossible
      | ok r =>
          rw [run_sub_compiled f n opt a b empty r compiled, subst_panics f indexed r n opt a b underflows]
          exact iff_of_true rfl ⟨⟨empty, r, rfl⟩, underflows⟩
  · obtain ⟨err, next, ran, _⟩ := sub_returns f indexed host re n opt a b underflows
    exact iff_of_false (run_ok_ne _ ran) (fun crashes => underflows crashes.2)

theorem print_returns (indexed : f.Indexed) (w : Bytes → Int64 × Option Bytes) :
    ∃ result next, (print w a b).run f = (.ok result, next) := by
  obtain ⟨⟨i, err⟩, wrote⟩ := run_write f indexed w a b
  rw [print, run_bind_ok wrote]
  dsimp only
  split
  · exact ⟨_, _, rfl⟩
  · exact ⟨_, _, rfl⟩

end Panics

section Crashes

-- The commands that index or slice out of bounds: an s with too few delimiters,
-- and d, r and s whose last line lies below the first one.
def CommandCrashes (host : Host) (f : File) (a b : Int64) : Bytes → Prop
  | [] => False
  | letter :: arg =>
      match verb letter with
      | .d => f.data ≠ none ∧ f.Underflows a b
      | .r => (∃ d, host.openFile (trimLeft arg) = .ok (.ok d)) ∧ f.data ≠ none ∧ f.Underflows (a + 1) b
      | .s => ¬ Delimited arg ∨ ∃ re n opt, subArgs arg = some (re, n, opt) ∧ (re ≠ [] ∧ ∃ r, host.compile re = .ok r) ∧
          f.Underflows a b
      | _ => False

def Crashes (host : Host) (f : File) (l : Bytes) : Prop :=
  ∃ c a b, (parseLine f l).2 = .ok (c, a, b) ∧ CommandCrashes host f a b c

theorem command_panics_iff (host : Host) (f : File) (indexed : f.Indexed) (a b : Int64) (c : Bytes) :
    ((command host c a b).run f).1 = .error .panic ↔ CommandCrashes host f a b c := by
  cases c with
  | nil =>
      obtain ⟨result, wrote⟩ := run_write f indexed host.stdout f.dot f.dot
      rw [command, run_get_bind]
      dsimp only
      rw [run_bind_ok wrote]
      exact iff_of_false (fun impossible => by cases impossible) id
  | cons letter arg =>
      by_cases warned : (verb letter = .q ∨ verb letter = .e) ∧ f.dirty = true
      · rw [CommandCrashes]
        refine iff_of_false (run_ok_ne _ (run_warned host f letter arg a b warned)) ?_
        rcases warned.1 with here | here
        · rw [here]
          exact id
        · rw [here]
          exact id
      rw [run_command host f letter arg a b warned, CommandCrashes]
      cases here : verb letter with
      | d => exact (run_bind_pure_error_iff _ (fun _ => none) f _).trans (replace_panics_iff f a b indexed _)
      | q => exact iff_of_false (fun impossible => by cases impossible) id
      | e =>
          refine (read_command_panics_iff host f 0 f.range.2 indexed arg).trans (iff_of_false ?_ id)
          rintro ⟨_, _, less, negative, _⟩
          exact absurd (Int64.lt_of_lt_of_le less negative) (by decide)
      | r => exact read_command_panics_iff host f a b indexed arg
      | s =>
          dsimp only
          rw [← sub_args_some_iff]
          cases parsed : subArgs arg with
          | none =>
              refine iff_of_true rfl (Or.inl ?_)
              rintro ⟨parts, impossible⟩
              cases impossible
          | some parts =>
              obtain ⟨re, n, opt⟩ := parts
              rw [run_of_option_bind]
              refine (sub_panics_iff host f a b indexed re n opt).trans ?_
              constructor
              · intro crashes
                exact Or.inr ⟨re, n, opt, rfl, crashes⟩
              · rintro (few | ⟨re', n', opt', same, crashes⟩)
                · exact absurd ⟨_, rfl⟩ few
                · cases same
                  exact crashes
      | w =>
          obtain ⟨result, wrote⟩ := run_write f indexed host.stdout a b
          exact iff_of_false (run_ok_ne _ (run_bind_ok wrote)) id
      | p =>
          obtain ⟨result, next, printed⟩ := print_returns f a b indexed host.stdout
          exact iff_of_false (run_ok_ne _ (run_bind_ok printed)) id
      | other c => exact iff_of_false (fun impossible => by cases impossible) id

def typed (input : Host × Bytes) (f : File) : Option File :=
  match (doCommand input.1 input.2).run f with
  | (.ok _, next) => some next
  | (.error _, _) => none

theorem ran_indexed (host : Host) (f next : File) (indexed : f.Indexed) (c : Bytes) (a b : Int64) (err : Option EdError)
    (ran : Ran host f c a b err next) : next.Indexed := by
  cases ran with
  | shown err dot other => exact indexed
  | warned letter arg here leaves dirty => exact indexed
  | reloaded letter arg here reloads clean err next kept unset => exact kept
  | deleted letter arg here deletes next replaced => exact replaced.indexed
  | unread letter arg here reads err failed => exact indexed
  | inserted letter arg here reads d opened err next replaced => exact replaced.indexed
  | unmatched letter arg here substitutes err => exact indexed
  | substituted letter arg here substitutes re n opt r compiled err next result => exact result.indexed

theorem typed_indexed (input : Host × Bytes) (f next : File) (indexed : f.Indexed) (entered : typed input f = some next) :
    next.Indexed := by
  obtain ⟨host, l⟩ := input
  rw [typed] at entered
  rcases ran : (doCommand host l).run f with ⟨result, last⟩
  rw [ran] at entered
  cases result with
  | error halt => cases entered
  | ok err =>
      cases entered
      by_cases empty : l = []
      · rw [empty] at ran
        rw [run_do_command_empty ran]
        exact indexed
      · obtain ⟨dot, moved⟩ := parse_line_moves f l
        rw [run_do_command host f l empty, moved] at ran
        cases parsed : (parseLine f l).2 with
        | error failure =>
            rw [parsed] at ran
            cases ran
            exact indexed
        | ok found =>
            obtain ⟨c, a, b⟩ := found
            rw [parsed] at ran
            exact ran_indexed host (f.move dot) next indexed c a b err (command_inv host c a b (f.move dot) next indexed err ran)

theorem do_command_panics_iff (host : Host) (f : File) (indexed : f.Indexed) (l : Bytes) :
    ((doCommand host l).run f).1 = .error .panic ↔ Crashes host f l := by
  by_cases empty : l = []
  · obtain ⟨result, wrote⟩ := run_write f indexed host.stdout f.dot f.dot
    rw [empty, doCommand, run_get_bind]
    dsimp only
    rw [if_pos rfl, run_bind_ok wrote]
    refine iff_of_false (fun impossible => by cases impossible) ?_
    rintro ⟨c, a, b, parsed, crashes⟩
    cases parsed
    exact crashes
  · obtain ⟨dot, moved⟩ := parse_line_moves f l
    rw [run_do_command host f l empty, moved, Crashes]
    cases parsed : (parseLine f l).2 with
    | error failure =>
        refine iff_of_false (fun impossible => by cases impossible) ?_
        rintro ⟨c, a, b, impossible, _⟩
        cases impossible
    | ok found =>
        obtain ⟨c, a, b⟩ := found
        refine (command_panics_iff host (f.move dot) indexed a b c).trans ?_
        constructor
        · intro crashes
          exact ⟨c, a, b, rfl, crashes⟩
        · rintro ⟨c', a', b', same, crashes⟩
          cases same
          exact crashes

theorem crash_iff (host : Host) (args : List EditorArg) (f s : File) (made : newTextEditor host args = .ok (.ok f))
    (reach : Reachable typed f s) (here : Host) (l : Bytes) :
    ((doCommand here l).run s).1 = .error .panic ↔ Crashes here s l := by
  have indexed := reachable_invariant typed File.Indexed typed_indexed f s (made_indexed made) reach
  exact do_command_panics_iff here s indexed l

def oneLine : File := ⟨1, false, [0], some (str "a\n")⟩

theorem deleting_first_line_safe : ¬ Crashes bareHost oneLine (str "1d") := by
  intro crashes
  have panics := (crash_iff bareHost [.readerio (.ok (str "a\n"))] oneLine oneLine rfl (reachable_start typed oneLine) bareHost
    (str "1d")).mpr crashes
  cases panics

-- An s without arguments, and a d after the line number has wrapped around.
theorem bare_substitution_panics :
    newTextEditor bareHost [.readerio (.ok (str "a\n"))] = .ok (.ok oneLine) ∧
      ((doCommand bareHost (str "s")).run oneLine).1 = .error .panic ∧
      ∃ next, typed (bareHost, str "9223372036854775807") oneLine = some next ∧
        ((doCommand bareHost (str "d")).run next).1 = .error .panic :=
  ⟨rfl, rfl, _, rfl, rfl⟩

end Crashes

end URoot.Ed
