import URoot.Ed.Index
import URoot.Ed.Command

set_option autoImplicit false

namespace URoot.Ed

open GoLib Lines Act

section Substitution

def Regexp.Whole (r : Regexp) : Prop := ∀ src, (r.pieces src).flatMap Piece.bytes = src

theorem pieces_untouched (n : Bytes) (everywhere : Bool) (pieces : List Piece) (out : Bytes) (flag replaced : Bool)
    (clean : (pieces.foldl (Regexp.pieceStep (subMatch n everywhere)) (out, flag, replaced)).2.1 = false) :
    flag = false ∧
      (pieces.foldl (Regexp.pieceStep (subMatch n everywhere)) (out, flag, replaced)).1 = out ++ pieces.flatMap Piece.bytes := by
  induction pieces generalizing out flag replaced with
  | nil => exact ⟨clean, (List.append_nil out).symm⟩
  | cons piece rest ih =>
      rw [List.foldl_cons] at clean ⊢
      rw [List.flatMap_cons, ← List.append_assoc]
      cases piece with
      | kept b => exact ih (out ++ b) flag replaced clean
      | hit b =>
          rw [Regexp.pieceStep, subMatch] at clean ⊢
          by_cases first : everywhere = true ∨ ¬ replaced = true
          · -- a replacement sets the flag, and nothing clears it
            simp only [if_pos first] at clean
            cases (ih (out ++ n) true true clean).1
          · simp only [if_neg first] at clean ⊢
            exact ih (out ++ b) flag replaced clean

theorem lines_untouched (r : Regexp) (whole : r.Whole) (n : Bytes) (everywhere : Bool) (lines out : List Bytes) (flag : Bool)
    (clean : (lines.foldl (subLine r n everywhere) (out, flag)).2 = false) :
    flag = false ∧ (lines.foldl (subLine r n everywhere) (out, flag)).1 = out ++ lines := by
  induction lines generalizing out flag with
  | nil => exact ⟨clean, (List.append_nil out).symm⟩
  | cons line rest ih =>
      rw [List.foldl_cons] at clean ⊢
      have stepped : subLine r n everywhere (out, flag) line =
          (out ++ [(r.replaceAllFunc line (subMatch n everywhere) (flag, false)).1],
            (r.replaceAllFunc line (subMatch n everywhere) (flag, false)).2.1) := rfl
      rw [stepped] at clean ⊢
      obtain ⟨unset, later⟩ := ih _ _ clean
      obtain ⟨before, text⟩ := pieces_untouched n everywhere (r.pieces line) [] flag false unset
      refine ⟨before, ?_⟩
      rw [later, Regexp.replaceAllFunc, text, List.nil_append, whole line, List.append_assoc, List.singleton_append]

theorem substituted_unsaved (f : File) (r : Regexp) (whole : r.Whole) (n opt : Bytes) (a b : Int64) (next : File)
    (result : Substituted f r n opt a b next) (clean : next.dirty = false) : f.dirty = false ∧ next.bytes = f.bytes := by
  have flag := result.flag
  rw [clean] at flag
  obtain ⟨before, lines⟩ := lines_untouched r whole n _ (makeLines (f.addressed a b)) [] f.dirty flag.symm
  obtain ⟨front, back, original, spliced⟩ := result.spliced
  refine ⟨before, ?_⟩
  rw [spliced, File.substituted, lines, List.nil_append, make_lines_flatten, ← original]

theorem replaced_same_iff (f next : File) (n : Bytes) (a b : Int64) (result : Replaced f n a b next) :
    next.bytes = f.bytes ↔ n = f.addressed a b := by
  obtain ⟨before, after, whole, spliced⟩ := result.spliced
  rw [spliced]
  nth_rewrite 1 [whole]
  rw [List.append_cancel_right_eq, List.append_cancel_left_eq]

end Substitution

section Commands

inductive Ran (host : Host) (f : File) (c : Bytes) (a b : Int64) : Option EdError → File → Prop
  | shown (err : Option EdError) (dot : Int64)
      (other : ∀ letter ∈ c.head?, verb letter ≠ .d ∧ verb letter ≠ .q ∧ verb letter ≠ .e ∧ verb letter ≠ .r ∧ verb letter ≠ .s) :
      Ran host f c a b err (f.move dot)
  | warned (letter : UInt8) (arg : Bytes) (here : c = letter :: arg) (leaves : verb letter = .q ∨ verb letter = .e)
      (dirty : f.dirty = true) : Ran host f c a b (some .dirty) { f with dirty := false }
  | reloaded (letter : UInt8) (arg : Bytes) (here : c = letter :: arg) (reloads : verb letter = .e) (clean : f.dirty = false)
      (err : Option EdError) (next : File) (indexed : next.Indexed) (kept : next.dirty = false) : Ran host f c a b err next
  | deleted (letter : UInt8) (arg : Bytes) (here : c = letter :: arg) (deletes : verb letter = .d) (next : File)
      (replaced : Replaced f [] a b next) : Ran host f c a b none next
  | unread (letter : UInt8) (arg : Bytes) (here : c = letter :: arg) (reads : verb letter = .r) (err : Option EdError)
      (failed : ∀ d, host.openFile (trimLeft arg) ≠ .ok (.ok d)) : Ran host f c a b err f
  | inserted (letter : UInt8) (arg : Bytes) (here : c = letter :: arg) (reads : verb letter = .r) (d : Bytes)
      (opened : host.openFile (trimLeft arg) = .ok (.ok d)) (err : Option EdError) (next : File)
      (replaced : Replaced f d (a + 1) b next) : Ran host f c a b err next
  | unmatched (letter : UInt8) (arg : Bytes) (here : c = letter :: arg) (substitutes : verb letter = .s)
      (err : Option EdError) : Ran host f c a b err f
  | substituted (letter : UInt8) (arg : Bytes) (here : c = letter :: arg) (substitutes : verb letter = .s)
      (re n opt : Bytes) (r : Regexp) (compiled : host.compile re = .ok r) (err : Option EdError) (next : File)
      (result : Substituted f r n opt a b next) : Ran host f c a b err next

theorem read_command_inv {host : Host} {arg : Bytes} {a b : Int64} {f next : File} (indexed : f.Indexed)
    (err : Option EdError) (done : (readCommand host arg a b).run f = (.ok err, next)) :
    ((∀ d, host.openFile (trimLeft arg) ≠ .ok (.ok d)) ∧ next = f) ∨
      ∃ d, host.openFile (trimLeft arg) = .ok (.ok d) ∧ Replaced f d (a + 1) b next := by
  rw [readCommand] at done
  cases opened : host.openFile (trimLeft arg) with
  | error text =>
      rw [opened] at done
      cases done
      exact Or.inl ⟨fun d impossible => (by cases impossible), rfl⟩
  | ok r =>
      rw [opened] at done
      obtain ⟨result, mid, ran, rest⟩ := run_bind_inv done
      cases rest
      cases r with
      | error text =>
          cases ran
          exact Or.inl ⟨fun d impossible => (by cases impossible), rfl⟩
      | ok d =>
          rw [run_read_ok] at ran
          obtain ⟨amt, last, replaced, rest⟩ := run_bind_inv ran
          cases rest
          exact Or.inr ⟨d, rfl, replace_inv f indexed (some d) (a + 1) b amt next replaced⟩

theorem write_inv {f : File} {w : Bytes → Int64 × Option Bytes} {a b : Int64} {result : Int64 × Option EdError} {next : File}
    (done : (write w a b).run f = (.ok result, next)) : next = f := by
  rw [write, run_get_bind] at done
  exact (run_of_option_inv done).2

theorem print_inv (f : File) (w : Bytes → Int64 × Option Bytes) (a b : Int64) (result : Int64 × Option EdError) (next : File)
    (done : (print w a b).run f = (.ok result, next)) : ∃ dot, next = f.move dot := by
  obtain ⟨⟨i, err⟩, mid, wrote, rest⟩ := run_bind_inv done
  rw [write_inv wrote] at rest
  dsimp only at rest
  split at rest
  · cases rest
    exact ⟨_, rfl⟩
  · cases rest
    exact ⟨_, rfl⟩

theorem command_inv (host : Host) (c : Bytes) (a b : Int64) (f next : File) (indexed : f.Indexed) (err : Option EdError)
    (done : (command host c a b).run f = (.ok err, next)) : Ran host f c a b err next := by
  cases c with
  | nil =>
      rw [command, run_get_bind] at done
      obtain ⟨written, mid, _, rest⟩ := run_bind_inv done
      cases rest
      exact .shown _ _ (fun letter impossible => by cases impossible)
  | cons letter arg =>
      by_cases warned : (verb letter = .q ∨ verb letter = .e) ∧ f.dirty = true
      · rw [run_warned host f letter arg a b warned] at done
        cases done
        exact .warned letter arg rfl warned.1 warned.2
      rw [run_command host f letter arg a b warned] at done
      have other (v : Verb) (here : verb letter = v) (apart : v ≠ .d ∧ v ≠ .q ∧ v ≠ .e ∧ v ≠ .r ∧ v ≠ .s) :
          ∀ l ∈ (letter :: arg).head?, verb l ≠ .d ∧ verb l ≠ .q ∧ verb l ≠ .e ∧ verb l ≠ .r ∧ verb l ≠ .s := by
        intro l there
        cases there
        rwa [here]
      cases here : verb letter with
      | d =>
          rw [here] at done
          obtain ⟨amt, mid, replaced, rest⟩ := run_bind_inv done
          cases rest
          exact .deleted letter arg rfl here next (replace_inv f indexed (some []) a b amt next replaced)
      | q =>
          rw [here] at done
          cases done
      | e =>
          have clean : f.dirty = false := by
            rw [here] at warned
            simpa using warned
          rw [here] at done
          rcases read_command_inv indexed err done with ⟨_, rfl⟩ | ⟨d, _, replaced⟩
          · exact .reloaded letter arg rfl here clean err next indexed clean
          · exact .reloaded letter arg rfl here clean err next replaced.indexed (by rw [replaced.clean, clean])
      | r =>
          rw [here] at done
          rcases read_command_inv indexed err done with ⟨failed, rfl⟩ | ⟨d, opened, replaced⟩
          · exact .unread letter arg rfl here err failed
          · exact .inserted letter arg rfl here d opened err next replaced
      | s =>
          rw [here] at done
          obtain ⟨⟨re, n, opt⟩, mid, parsed, ran⟩ := run_bind_inv done
          rw [(run_of_option_inv parsed).2] at ran
          rcases sub_inv f indexed host re n opt a b err next ran with rfl | ⟨r, compiled, result⟩
          · exact .unmatched letter arg rfl here err
          · exact .substituted letter arg rfl here re n opt r compiled err next result
      | w =>
          rw [here] at done
          obtain ⟨written, mid, wrote, rest⟩ := run_bind_inv done
          rw [write_inv wrote] at rest
          cases rest
          exact .shown _ f.dot (other .w here (by decide))
      | p =>
          rw [here] at done
          obtain ⟨written, mid, wrote, rest⟩ := run_bind_inv done
          obtain ⟨dot, rfl⟩ := print_inv f _ a b written mid wrote
          cases rest
          exact .shown _ dot (other .p here (by decide))
      | other c =>
          rw [here] at done
          cases done
          exact .shown _ f.dot (other (.other c) here (by simp))

end Commands

section Sessions

theorem start_address_moves {f moved : File} {l rest : Bytes} {startLine : Int64}
    (found : startAddress f l = .ok (startLine, moved, rest)) : ∃ dot, moved = f.move dot := by
  rw [startAddress] at found
  split at found
  · cases found
    exact ⟨f.dot, rfl⟩
  split at found
  · cases found
    exact ⟨_, rfl⟩
  split at found
  · cases found
    exact ⟨f.dot, rfl⟩
  split at found
  · cases number : atoi (digits l) with
    | error err =>
        rw [number] at found
        cases found
    | ok line =>
        rw [number] at found
        cases found
        exact ⟨_, rfl⟩
  · cases found
    exact ⟨f.dot, rfl⟩

theorem parse_line_moves (f : File) (l : Bytes) : ∃ dot, (parseLine f l).1 = f.move dot := by
  rw [parseLine]
  cases first : startAddress f l with
  | error err => exact ⟨f.dot, rfl⟩
  | ok found =>
      obtain ⟨startLine, moved, rest⟩ := found
      obtain ⟨dot, same⟩ := start_address_moves first
      dsimp only
      cases endAddress moved rest with
      | error err => exact ⟨dot, same⟩
      | ok last => exact ⟨dot, same⟩

def verbOf (f : File) (l : Bytes) : Option Verb :=
  match (parseLine f l).2 with
  | .ok (c, _) => c.head?.map verb
  | .error _ => none

def edit (host : Host) (f : File) (l : Bytes) : Option (Bytes × Bytes) :=
  match (parseLine f l).2 with
  | .ok (letter :: a, startLine, endLine) =>
      match verb letter with
      | .d => some ([], f.addressed startLine endLine)
      | .r =>
          match host.openFile (trimLeft a) with
          | .ok (.ok d) => some (d, f.addressed (startLine + 1) endLine)
          | _ => none
      | _ => none
  | _ => none

structure Input where
  host : Host
  line : Bytes
  whole : ∀ re r, host.compile re = .ok r → r.Whole

-- The file, and whether it has a change by d, r or s that neither a warning nor an e came after.
structure Session where
  f : File
  unsaved : Bool

def noted (before after : File) (unsaved : Bool) : Option Verb → Bool
  | some .d | some .r | some .s => unsaved || decide (after.bytes ≠ before.bytes)
  | some .q | some .e => false
  | _ => unsaved

def enter (i : Input) (s : Session) : Option Session :=
  match (doCommand i.host i.line).run s.f with
  | (.ok _, next) => some ⟨next, noted s.f next s.unsaved (verbOf s.f i.line)⟩
  | (.error _, _) => none

def Session.Warns (s : Session) : Prop :=
  s.unsaved = true → ∀ host l, verbOf s.f l = some .q ∨ verbOf s.f l = some .e →
    ∃ err next, (doCommand host l).run s.f = (.ok (some err), next) ∧ next.bytes = s.f.bytes

def Careful (i : Input) (s : Session) : Prop :=
  s.f.dirty = true ∨ ∀ change ∈ edit i.host s.f i.line, change.1 = change.2

instance (i : Input) (s : Session) : Decidable (Careful i s) := inferInstanceAs (Decidable (_ ∨ _))

theorem run_do_command (host : Host) (f : File) (l : Bytes) (some_ : l ≠ []) :
    (doCommand host l).run f = match (parseLine f l).2 with
      | .error err => (.ok (some err), (parseLine f l).1)
      | .ok (c, a, b) => (command host c a b).run (parseLine f l).1 := by
  rw [doCommand, run_get_bind]
  dsimp only
  rw [if_neg some_, run_set_bind]
  cases (parseLine f l).2 with
  | error err => rfl
  | ok found => rfl

theorem run_do_command_empty {host : Host} {f next : File} {err : Option EdError}
    (done : (doCommand host []).run f = (.ok err, next)) : next = f.move (f.dot + 1) := by
  rw [doCommand, run_get_bind] at done
  dsimp only at done
  rw [if_pos rfl] at done
  obtain ⟨written, mid, _, rest⟩ := run_bind_inv done
  cases rest
  rfl

theorem verb_of_inv (f : File) (l : Bytes) (v : Verb) (given : verbOf f l = some v) :
    l ≠ [] ∧ ∃ letter arg a b, (parseLine f l).2 = .ok (letter :: arg, a, b) ∧ verb letter = v := by
  refine ⟨fun empty => ?_, ?_⟩
  · rw [empty] at given
    cases given
  · rw [verbOf] at given
    cases parsed : (parseLine f l).2 with
    | error err =>
        simp only [parsed] at given
        cases given
    | ok found =>
        obtain ⟨c, a, b⟩ := found
        simp only [parsed] at given
        cases c with
        | nil => cases given
        | cons letter arg =>
            cases given
            exact ⟨letter, arg, a, b, rfl, rfl⟩

theorem dirty_warns (host : Host) (f : File) (l : Bytes) (leaves : verbOf f l = some .q ∨ verbOf f l = some .e)
    (dirty : f.dirty = true) :
    ∃ next, (doCommand host l).run f = (.ok (some .dirty), next) ∧ next.bytes = f.bytes := by
  obtain ⟨v, given, which⟩ : ∃ v, verbOf f l = some v ∧ (v = .q ∨ v = .e) := by
    rcases leaves with quits | reloads
    · exact ⟨.q, quits, Or.inl rfl⟩
    · exact ⟨.e, reloads, Or.inr rfl⟩
  obtain ⟨some_, letter, arg, a, b, parsed, rfl⟩ := verb_of_inv f l v given
  obtain ⟨dot, moved⟩ := parse_line_moves f l
  rw [run_do_command host f l some_, parsed, moved]
  dsimp only
  rw [command, run_get_bind]
  dsimp only
  rw [if_pos ⟨which, dirty⟩]
  exact ⟨_, rfl, rfl⟩

theorem clean_quits (host : Host) (f : File) (clean : f.dirty = false) :
    verbOf f (str "q") = some .q ∧ (doCommand host (str "q")).run f = (.error (.exit 1), f) := by
  have parsed : parseLine f (str "q") = (f, .ok (str "q", f.dot, f.dot + 1)) := rfl
  refine ⟨by rw [verbOf, parsed]; rfl, ?_⟩
  rw [run_do_command host f _ (by decide), parsed]
  dsimp only
  rw [command, run_get_bind]
  simp only [str, clean]
  rfl

theorem warns_iff (s : Session) : s.Warns ↔ (s.unsaved = true → s.f.dirty = true) := by
  constructor
  · intro warns unsaved
    by_contra clean
    rw [Bool.not_eq_true] at clean
    obtain ⟨quits, exits⟩ := clean_quits ⟨fun _ => .error [], fun _ => .error [], fun _ => (0, none)⟩ s.f clean
    obtain ⟨err, next, returned, _⟩ := warns unsaved _ (str "q") (Or.inl quits)
    rw [exits] at returned
    cases returned
  · intro dirty unsaved host l leaves
    obtain ⟨next, returned, kept⟩ := dirty_warns host s.f l leaves (dirty unsaved)
    exact ⟨.dirty, next, returned, kept⟩

theorem main_loop_session (host : Host) (whole : ∀ re r, host.compile re = .ok r → r.Whole) (lines : List Bytes)
    (f last : File) (formats : List Bytes) (done : (mainLoop host lines).run f = (.ok formats, last)) (unsaved : Bool) :
    ∃ mark, exec enter (lines.map (fun l => ⟨host, l, whole⟩)) ⟨f, unsaved⟩ = some ⟨last, mark⟩ := by
  induction lines generalizing f formats unsaved with
  | nil =>
      cases done
      exact ⟨unsaved, rfl⟩
  | cons l rest ih =>
      obtain ⟨err, mid, entered, more⟩ := run_bind_inv done
      obtain ⟨later, _, onward, ended⟩ := run_bind_inv more
      cases ended
      have stepped : enter ⟨host, l, whole⟩ ⟨f, unsaved⟩ = some ⟨mid, noted f mid unsaved (verbOf f l)⟩ := by
        rw [enter, entered]
      rw [List.map_cons, exec_cons enter _ _ _ _ stepped]
      exact ih mid later onward _

inductive Effect (i : Input) (s next : Session) : Prop
  | kept (unedited : edit i.host s.f i.line = none) (flag : next.f.dirty = s.f.dirty) (mark : next.unsaved = s.unsaved)
  | asked (unedited : edit i.host s.f i.line = none) (mark : next.unsaved = false)
  | edited (new old : Bytes) (edits : edit i.host s.f i.line = some (new, old)) (flag : next.f.dirty = s.f.dirty)
      (mark : next.unsaved = (s.unsaved || decide (new ≠ old)))
  | substituted (unedited : edit i.host s.f i.line = none)
      (flag : next.f.dirty = false → s.f.dirty = false ∧ next.unsaved = s.unsaved)

theorem effect_warns_iff (i : Input) (s next : Session) (effect : Effect i s next)
    (before : s.unsaved = true → s.f.dirty = true) : (next.unsaved = true → next.f.dirty = true) ↔ Careful i s := by
  have unedited (none_ : edit i.host s.f i.line = none) : Careful i s := by
    refine Or.inr (fun change there => ?_)
    rw [none_] at there
    cases there
  cases effect with
  | kept none_ flag mark => exact iff_of_true (by rw [flag, mark]; exact before) (unedited none_)
  | asked none_ mark =>
      refine iff_of_true (fun unsaved => ?_) (unedited none_)
      rw [mark] at unsaved
      cases unsaved
  | edited new old edits flag mark =>
      rw [Careful, edits, flag, mark]
      by_cases dirty : s.f.dirty = true
      · exact iff_of_true (fun _ => dirty) (Or.inl dirty)
      · have saved : s.unsaved = false := by
          rw [← Bool.not_eq_true]
          exact fun unsaved => dirty (before unsaved)
        simp [saved, dirty]
  | substituted none_ flag =>
      refine iff_of_true (fun unsaved => ?_) (unedited none_)
      by_contra clean
      rw [Bool.not_eq_true] at clean
      obtain ⟨unset, same⟩ := flag clean
      rw [same] at unsaved
      rw [before unsaved] at unset
      cases unset

theorem noted_other (before after : File) (unsaved : Bool) (v : Option Verb)
    (other : ∀ x ∈ v, x ≠ .d ∧ x ≠ .q ∧ x ≠ .e ∧ x ≠ .r ∧ x ≠ .s) : noted before after unsaved v = unsaved := by
  cases v with
  | none => rfl
  | some x =>
      obtain ⟨notD, notQ, notE, notR, notS⟩ := other x rfl
      cases x with
      | d => exact absurd rfl notD
      | q => exact absurd rfl notQ
      | e => exact absurd rfl notE
      | r => exact absurd rfl notR
      | s => exact absurd rfl notS
      | w | p => rfl
      | other c => rfl

theorem noted_edit (before after : File) (unsaved : Bool) (v : Verb) (edits : v = .d ∨ v = .r ∨ v = .s) :
    noted before after unsaved (some v) = (unsaved || decide (after.bytes ≠ before.bytes)) := by
  rcases edits with rfl | rfl | rfl <;> rfl

theorem noted_same {before after : File} (unsaved : Bool) (v : Verb) (edits : v = .d ∨ v = .r ∨ v = .s)
    (same : after.bytes = before.bytes) : noted before after unsaved (some v) = unsaved := by
  rw [noted_edit before after unsaved v edits, same]
  simp

theorem edited_effect {i : Input} {s : Session} {dot : Int64} {v : Verb} (given : verbOf s.f i.line = some v) (edits : v = .d ∨ v = .r)
    (new : Bytes) (a' b' : Int64) (change : edit i.host s.f i.line = some (new, s.f.addressed a' b')) (next : File)
    (replaced : Replaced (s.f.move dot) new a' b' next) :
    Effect i s ⟨next, noted s.f next s.unsaved (verbOf s.f i.line)⟩ := by
  have same : next.bytes = s.f.bytes ↔ new = s.f.addressed a' b' := replaced_same_iff (s.f.move dot) next new a' b' replaced
  refine .edited new (s.f.addressed a' b') change replaced.clean ?_
  rw [given, noted_edit _ _ _ v (edits.imp id Or.inl)]
  exact congrArg (s.unsaved || ·) (decide_eq_decide.mpr (not_congr same))

section Line

variable (i : Input) (s : Session) (c : Bytes) (a b : Int64) (parsed : (parseLine s.f i.line).2 = .ok (c, a, b))

include parsed

theorem verb_of_parsed : verbOf s.f i.line = c.head?.map verb := by simp only [verbOf, parsed]

theorem edit_none (other : ∀ letter ∈ c.head?, verb letter ≠ .d ∧ verb letter ≠ .r) : edit i.host s.f i.line = none := by
  simp only [edit, parsed]
  cases c with
  | nil => rfl
  | cons letter arg =>
      obtain ⟨notD, notR⟩ := other letter rfl
      dsimp only
      split
      · exact absurd ‹_› notD
      · exact absurd ‹_› notR
      · rfl

theorem ran_effect (dot : Int64) (err : Option EdError) (next : File) (ran : Ran i.host (s.f.move dot) c a b err next)
    (indexed : s.f.Indexed) : next.Indexed ∧ Effect i s ⟨next, noted s.f next s.unsaved (verbOf s.f i.line)⟩ := by
  have given := verb_of_parsed i s c a b parsed
  have unedited := edit_none i s c a b parsed
  cases ran with
  | shown _ dot' other =>
      refine ⟨indexed, .kept (unedited (fun letter there => ⟨(other letter there).1, (other letter there).2.2.2.1⟩)) rfl ?_⟩
      refine noted_other _ _ _ _ (fun v there => ?_)
      rw [given] at there
      obtain ⟨letter, found, rfl⟩ := Option.mem_map.mp there
      exact other letter found
  | warned letter arg here leaves dirty =>
      subst here
      refine ⟨indexed, .asked (unedited ?_) ?_⟩
      · intro x there
        cases there
        rcases leaves with quits | reloads
        · rw [quits]; decide
        · rw [reloads]; decide
      · rw [given]
        rcases leaves with quits | reloads
        · simp only [List.head?_cons, Option.map_some, quits, noted]
        · simp only [List.head?_cons, Option.map_some, reloads, noted]
  | reloaded letter arg here reloads clean _ _ kept flag =>
      subst here
      refine ⟨kept, .asked (unedited ?_) ?_⟩
      · intro x there
        cases there
        rw [reloads]; decide
      · simp only [given, List.head?_cons, Option.map_some, reloads, noted]
  | deleted letter arg here deletes _ replaced =>
      subst here
      refine ⟨replaced.indexed, edited_effect ?_ (Or.inl rfl) [] a b ?_ next replaced⟩
      · rw [given, List.head?_cons, Option.map_some, deletes]
      · simp only [edit, parsed, deletes]
  | unread letter arg here reads _ failed =>
      subst here
      refine ⟨indexed, .kept ?_ rfl ?_⟩
      · simp only [edit, parsed, reads]
      · rw [given, List.head?_cons, Option.map_some, reads]
        exact noted_same s.unsaved .r (Or.inr (Or.inl rfl)) rfl
  | inserted letter arg here reads d opened _ _ replaced =>
      subst here
      refine ⟨replaced.indexed, edited_effect ?_ (Or.inr rfl) d (a + 1) b ?_ next replaced⟩
      · rw [given, List.head?_cons, Option.map_some, reads]
      · simp only [edit, parsed, reads, opened]
  | unmatched letter arg here substitutes _ =>
      subst here
      refine ⟨indexed, .kept (unedited ?_) rfl ?_⟩
      · intro x there
        cases there
        rw [substitutes]; decide
      · rw [given, List.head?_cons, Option.map_some, substitutes]
        exact noted_same s.unsaved .s (Or.inr (Or.inr rfl)) rfl
  | substituted letter arg here substitutes re n opt r compiled _ _ result =>
      subst here
      refine ⟨result.indexed, .substituted (unedited ?_) ?_⟩
      · intro x there
        cases there
        rw [substitutes]; decide
      · intro clean
        obtain ⟨unset, same⟩ := substituted_unsaved (s.f.move dot) r (i.whole re r compiled) n opt a b next result clean
        refine ⟨unset, ?_⟩
        rw [given, List.head?_cons, Option.map_some, substitutes]
        exact noted_same s.unsaved .s (Or.inr (Or.inr rfl)) same

end Line

theorem enter_effect (i : Input) (s next : Session) (indexed : s.f.Indexed) (entered : enter i s = some next) :
    next.f.Indexed ∧ Effect i s next := by
  rw [enter] at entered
  cases ran : (doCommand i.host i.line).run s.f with
  | mk result last =>
      rw [ran] at entered
      cases result with
      | error halt => cases entered
      | ok err =>
          cases entered
          by_cases empty : i.line = []
          · rw [empty] at ran
            rw [run_do_command_empty ran]
            refine ⟨indexed, .kept ?_ rfl ?_⟩
            · rw [empty]
              rfl
            · rw [empty]
              rfl
          · obtain ⟨dot, moved⟩ := parse_line_moves s.f i.line
            rw [run_do_command i.host s.f i.line empty, moved] at ran
            cases parsed : (parseLine s.f i.line).2 with
            | error err' =>
                simp only [parsed] at ran
                cases ran
                refine ⟨indexed, .kept ?_ rfl ?_⟩
                · simp only [edit, parsed]
                · simp only [verbOf, parsed, noted]
            | ok found =>
                obtain ⟨c, a, b⟩ := found
                simp only [parsed] at ran
                exact ran_effect i s c a b parsed dot err last (command_inv i.host c a b (s.f.move dot) last indexed err ran)
                  indexed

abbrev carefully : Input → Session → Option Session := guarded enter Careful

structure Session.Sound (s : Session) : Prop where
  indexed : s.f.Indexed
  flagged : s.unsaved = true → s.f.dirty = true

theorem carefully_sound (i : Input) (s next : Session) (sound : s.Sound) (moved : carefully i s = some next) : next.Sound := by
  obtain ⟨careful, entered⟩ := guarded_inv enter i s next moved
  obtain ⟨indexed, effect⟩ := enter_effect i s next sound.indexed entered
  exact ⟨indexed, (effect_warns_iff i s next effect sound.flagged).mpr careful⟩

theorem unsaved_warning_exact (host : Host) (args : List EditorArg) (f : File)
    (made : newTextEditor host args = .ok (.ok f)) (s : Session) (reach : Reachable carefully ⟨f, false⟩ s) :
    s.Warns ∧ ∀ i next, enter i s = some next → (next.Warns ↔ Careful i s) := by
  have sound : s.Sound := reachable_invariant carefully Session.Sound carefully_sound ⟨f, false⟩ s
    ⟨made_indexed made, fun unsaved => by cases unsaved⟩ reach
  refine ⟨(warns_iff s).mpr sound.flagged, fun i next entered => ?_⟩
  obtain ⟨_, effect⟩ := enter_effect i s next sound.indexed entered
  rw [warns_iff]
  exact effect_warns_iff i s next effect sound.flagged

def matchingHost : Host := { bareHost with compile := fun _ => .ok ⟨fun src => [.hit src]⟩ }

theorem matching_whole (re : Bytes) (r : Regexp) (compiled : matchingHost.compile re = .ok r) : r.Whole := by
  cases compiled
  intro src
  simp [Piece.bytes]

theorem substitution_warns : Session.Warns ⟨⟨1, true, [0], some (str "b")⟩, true⟩ :=
  (unsaved_warning_exact matchingHost [.readerio (.ok (str "a\n"))] ⟨1, false, [0], some (str "a\n")⟩ rfl _
    ⟨[⟨matchingHost, str "1s/x/b/", matching_whole⟩], rfl⟩).1

theorem bare_whole (re : Bytes) (r : Regexp) (compiled : bareHost.compile re = .ok r) : r.Whole := by cases compiled

-- A d leaves the file clean, and the q after it quits.
theorem deleted_line_quits :
    newTextEditor bareHost [.readerio (.ok (str "a\nb\nc\n"))] = .ok (.ok ⟨1, false, [0, 2, 4], some (str "a\nb\nc\n")⟩) ∧
      enter ⟨bareHost, str "1d", bare_whole⟩ ⟨⟨1, false, [0, 2, 4], some (str "a\nb\nc\n")⟩, false⟩ =
        some ⟨⟨1, false, [0, 2], some (str "b\nc\n")⟩, true⟩ ∧
      (doCommand bareHost (str "q")).run ⟨1, false, [0, 2], some (str "b\nc\n")⟩ =
        (.error (.exit 1), ⟨1, false, [0, 2], some (str "b\nc\n")⟩) ∧
      ¬ Session.Warns ⟨⟨1, false, [0, 2], some (str "b\nc\n")⟩, true⟩ := by
  refine ⟨rfl, rfl, rfl, ?_⟩
  rw [warns_iff]
  exact fun flagged => by cases flagged rfl

end Sessions

end URoot.Ed
