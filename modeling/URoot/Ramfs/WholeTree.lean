import URoot.Ramfs.ParentsFirst

set_option autoImplicit false

namespace URoot.Ramfs

open GoLib Cpio Act Filepath

section Written

def Extends (a b : Cpio.Writer Bytes) : Prop :=
  ∀ entries, Holds a entries → ∃ new, Holds b (entries ++ new) ∧ ∀ f ∈ new, f.Reads

theorem extends_refl (w : Cpio.Writer Bytes) : Extends w w := by
  intro entries holds
  refine ⟨[], ?_, fun f impossible => absurd impossible List.not_mem_nil⟩
  rw [List.append_nil]
  exact holds

theorem extends_trans (a b c : Cpio.Writer Bytes) (first : Extends a b) (second : Extends b c) : Extends a c := by
  intro entries holds
  obtain ⟨new, middle, reads⟩ := first entries holds
  obtain ⟨newer, last, laterReads⟩ := second (entries ++ new) middle
  refine ⟨new ++ newer, ?_, ?_⟩
  · rw [← List.append_assoc]
    exact last
  · intro f member
    rcases List.mem_append.mp member with old | young
    · exact reads f old
    · exact laterReads f young

def WriteFails (r : Record) (e : WriteError) : Prop := ∃ cause, e = .record cause ∧ r.Fails cause

theorem embedded_write_ends (r : Record) (w : Cpio.Writer Bytes) :
    Ends (Cpio.writeRecord bytesBuffer r) w (WriteFails r) (fun _ next => Extends w next) := by
  by_cases old : nameOf r ∈ w.alreadyWritten
  · exact ends_of_ok w _ _ () w _ (write_record_seen bytesBuffer r w old) (extends_refl w)
  · have unseen := write_record_unseen bytesBuffer r w old
    have ends := Newc.write_record_ends (stored r) w.rw
    have added := fun entries holds => (holds_new w entries r holds old).1
    rw [unseen] at added
    rw [formatWrite] at unseen added
    rcases ran : (Newc.writeRecord bytesBuffer (stored r)).run w.rw with ⟨result, next⟩
    simp only [ran] at unseen added
    cases result with
    | error e => exact ends_of_error w _ _ _ _ _ unseen ⟨e, rfl, ends.failed e next ran⟩
    | ok u =>
        refine ends_of_ok w _ _ _ _ _ unseen fun entries holds => ⟨[stored r], added entries holds, ?_⟩
        intro f member
        rw [List.mem_singleton.mp member]
        exact stored_reads r (ends.done u next ran)

theorem add_record_ends (r : Record) (i : Initramfs Bytes) :
    Ends (addRecord bytesBuffer r) i (WriteFails r) (fun _ next => Extends i.writer next.writer) := by
  have state : (addRecord bytesBuffer r).run i = (((Cpio.writeRecord bytesBuffer r).run i.writer).1.mapError id,
      { i with files := r.info.name :: i.files, writer := ((Cpio.writeRecord bytesBuffer r).run i.writer).2 }) := rfl
  have ends := embedded_write_ends r i.writer
  rcases ran : (Cpio.writeRecord bytesBuffer r).run i.writer with ⟨result, next⟩
  rw [ran] at state
  cases result with
  | error e => exact ends_of_error i _ _ e _ _ state (ends.failed e next ran)
  | ok u => exact ends_of_ok i _ _ _ _ _ state (ends.done u next ran)

theorem directory_never_fails (name : Bytes) (e : WriteError) : ¬ WriteFails (directory name) e := by
  rintro ⟨cause, -, source, present, -⟩
  cases present

theorem write_record_ends (r : Record) (i : Initramfs Bytes) :
    Ends (writeRecord bytesBuffer r) i (WriteFails r) (fun _ next => Extends i.writer next.writer) := by
  have both := write_record_rule (motive := fun r i outcome => (∀ e, outcome.1 = .error e → WriteFails r e) ∧
    (outcome.1 = .ok () → Extends i.writer outcome.2.writer)) r i ?_ ?_ ?_ ?_
  · refine ⟨fun e next failed => ?_, fun u next done => ?_⟩
    · rw [failed] at both
      exact both.1 e rfl
    · rw [done] at both
      exact both.2 rfl
  · exact fun r i root => ⟨fun e impossible => (by cases impossible), fun _ => extends_refl _⟩
  · intro r i kept present
    exact ⟨fun e failed => (add_record_ends r i).failed e _ (Prod.ext failed rfl),
      fun done => (add_record_ends r i).done () _ (Prod.ext done rfl)⟩
  · intro r i e middle above
    exact absurd (above.1 e rfl) (directory_never_fails _ e)
  · intro r i middle kept _ above
    exact ⟨fun e failed => (add_record_ends r middle).failed e _ (Prod.ext failed rfl),
      fun done => extends_trans _ _ _ (above.2 rfl) ((add_record_ends r middle).done () _ (Prod.ext done rfl))⟩

end Written

section Adds

-- What a call that returns nil does to the archive: exactly these names are new.
structure Adds (i next : Initramfs Bytes) (new : Bytes → Prop) : Prop where
  grown : Extends i.writer next.writer
  names : ∀ s, s ∈ next.writer.alreadyWritten ↔ s ∈ i.writer.alreadyWritten ∨ new s
  filed : Filed next

theorem adds_trans (a b c : Initramfs Bytes) (one two both : Bytes → Prop) (same : ∀ s, both s ↔ one s ∨ two s)
    (first : Adds a b one) (second : Adds b c two) : Adds a c both :=
  ⟨extends_trans _ _ _ first.grown second.grown, fun s => by rw [second.names, first.names, or_assoc, same], second.filed⟩

theorem children_ends (notExist : IoError → Bool) (fn : Bytes → Act FileError (Initramfs Bytes) Unit)
    (new : Bytes → Bytes → Prop) (names : List Bytes) (i : Initramfs Bytes) (filed : Filed i)
    (each : ∀ name ∈ names, ∀ i, Filed i → Ends (fn name) i (fun e => isNotExist notExist e = false)
      (fun _ next => Adds i next (new name))) :
    Ends (children notExist fn names) i (fun e => isNotExist notExist e = false)
      (fun _ next => Adds i next (fun s => ∃ name ∈ names, new name s)) := by
  induction names generalizing i with
  | nil => exact ends_of_ok i _ _ _ _ _ rfl ⟨extends_refl _, by simp, filed⟩
  | cons name rest ih =>
      rw [List.forall_mem_cons] at each
      have first := each.1 i filed
      rcases ran : (fn name).run i with ⟨result, middle⟩
      cases result with
      | error e =>
          have present := first.failed e middle ran
          have stopped : (children notExist fn (name :: rest)).run i = (.error e, middle) := by
            simp only [children, ran, present, Bool.false_eq_true, if_false]
          exact ends_of_error i _ _ _ _ _ stopped present
      | ok u =>
          have added := first.done u middle ran
          have later := ih middle added.filed each.2
          have goesOn : (children notExist fn (name :: rest)).run i = (children notExist fn rest).run middle := by
            simp only [children, ran]
          refine ⟨fun e last failed => later.failed e last (goesOn.symm.trans failed), fun v last done => ?_⟩
          exact adds_trans i middle last _ _ _ (by simp) added (later.done v last (goesOn.symm.trans done))

variable (fs : Tree)

-- The names that a walk which returns nil adds a record for.
def Written (src dest s : Bytes) : Prop :=
  ∃ q, Recorded fs src q ∧ Named (under dest q) s

theorem written_alone (src dest s : Bytes) (sys : Stat) (known : fs.lstat src = .ok sys) (alone : ¬ Plain sys) :
    Written fs src dest s ↔ Named dest s := by
  constructor
  · rintro ⟨q, recorded, named⟩
    cases recorded with
    | here => exact named
    | inside _ name p other names same plain =>
        cases known.symm.trans same
        exact absurd plain alone
  · exact fun named => ⟨[], .here src sys known alone, named⟩

theorem written_inside (src dest s : Bytes) (sys : Stat) (names : List Bytes) (known : fs.lstat src = .ok sys)
    (plain : Plain sys) (listed : fs.readdirnames src = .ok names) :
    Written fs src dest s ↔ ∃ name ∈ names, Written fs (joinTwo src name) (joinTwo dest name) s := by
  constructor
  · rintro ⟨q, recorded, named⟩
    cases recorded with
    | here _ other same alone =>
        cases known.symm.trans same
        exact absurd plain alone
    | inside _ name p other others _ _ same member rest =>
        cases listed.symm.trans same
        exact ⟨name, member, p, rest, named⟩
  · rintro ⟨name, member, q, recorded, named⟩
    exact ⟨name :: q, .inside src name q sys names known plain listed member recorded, named⟩

theorem tree_record_ends (src : Bytes) (i : Initramfs Bytes) (unchanging : Unchanging fs src) :
    Ends (getTreeRecord fs.toFileSystem src : Act FileError (Initramfs Bytes) Record) i
      (fun e => isNotExist fs.notExist e = false) (fun r next => (∃ m, next = { i with inodes := m }) ∧ ∃ sys,
        fs.lstat src = .ok sys ∧ r.info.mode = sys.mode.toUInt64 ∧ ∀ e, r.Fails e → fs.notExist e = false) := by
  have ends := get_record_ends fs src i.inodes
  refine ends_within ⟨?_, ?_⟩
  · intro e next failed
    rcases ends.failed e next failed with noStat | noLink
    · exact unchanging.lstat src e (.here src) noStat
    · exact unchanging.readlink src e (.here src) noLink
  · intro r next done
    obtain ⟨sys, known, mode, failing⟩ := ends.done r next done
    refine ⟨⟨next, rfl⟩, sys, known, mode, ?_⟩
    intro e fails
    rcases failing e fails with unread | unclosed
    · exact unchanging.read src e (.here src) unread
    · exact unchanging.close src e (.here src) unclosed

theorem names_listed_ends (src : Bytes) (i : Initramfs Bytes) (unchanging : Unchanging fs src) :
    Ends (Act.ofExcept ((fs.readdirnames src).mapError .readdir) : Act FileError (Initramfs Bytes) (List Bytes)) i
      (fun e => isNotExist fs.notExist e = false) (fun names next => next = i ∧ fs.readdirnames src = .ok names) := by
  cases listed : fs.readdirnames src with
  | ok names => exact ends_of_ok i _ _ _ _ _ rfl ⟨rfl, rfl⟩
  | error e => exact ends_of_error i _ _ _ _ _ rfl (unchanging.readdirnames src e (.here src) listed)

theorem write_file_ends (depth : Nat) (src dest : Bytes) (i : Initramfs Bytes) (unchanging : Unchanging fs src) (filed : Filed i) :
    Ends (writeFile bytesBuffer fs depth src dest) i (fun e => isNotExist fs.notExist e = false)
      (fun _ next => Adds i next (Written fs src dest)) := by
  induction depth generalizing src dest i with
  | zero => exact ends_of_error i _ _ _ _ _ rfl rfl
  | succ depth ih =>
      rw [writeFile]
      refine ends_bind i _ _ _ _ _ (tree_record_ends fs src i unchanging) ?_
      rintro r start ⟨⟨m, moved⟩, sys, known, mode, failing⟩
      rw [mode, moved]
      by_cases plain : sys.mode.toUInt64 &&& ~~~0o777 = 0o040000
      · rw [if_pos plain]
        refine ends_bind _ _ _ _ _ _ (names_listed_ends fs src { i with inodes := m } unchanging) ?_
        rintro names middle ⟨unmoved, listed⟩
        rw [unmoved]
        have walked := children_ends fs.notExist
          (fun name => writeFile bytesBuffer fs depth (joinTwo src name) (joinTwo dest name))
          (fun name => Written fs (joinTwo src name) (joinTwo dest name)) names { i with inodes := m } filed
          fun name member i filed => ih _ _ i (unchanging_child fs src name names unchanging listed member) filed
        refine ⟨walked.failed, fun u last done => ?_⟩
        have added := walked.done u last done
        refine ⟨added.grown, fun s => ?_, added.filed⟩
        rw [added.names, written_inside fs src dest s sys names known plain listed]
      · rw [if_neg plain]
        have written := write_record_ends (makeReproducible (r.rename dest)) { i with inodes := m }
        have names := write_record_filed (makeReproducible (r.rename dest)) { i with inodes := m } filed
        refine ends_within ⟨?_, ?_⟩
        · intro e next failed
          obtain ⟨cause, rfl, fails⟩ := written.failed e next failed
          exact failing cause fails
        · intro u next done
          have grown := written.done u next done
          rw [show (id { i with inodes := m } : Initramfs Bytes) = { i with inodes := m } from rfl] at done
          rw [done] at names
          refine ⟨grown, fun s => ?_, names.1⟩
          rw [names.2 rfl, written_alone fs src dest s sys known plain]
          rfl

end Adds

section Paths

variable (fs : Tree)

-- Readdirnames gives names of one word, without "." and "..".
def PlainNames (src : Bytes) : Prop :=
  ∀ path names name, Below fs src path → fs.readdirnames path = .ok names → name ∈ names → Filepath.Plain name

theorem reached_plain {opens : Stat → Prop} {src : Bytes} {p : List Bytes} (named : PlainNames fs src)
    (reached : Reached fs opens src p) : ∀ word ∈ p, Filepath.Plain word := by
  induction reached with
  | here => simp
  | inside src name p sys names known opened listed member rest ih =>
      refine List.forall_mem_cons.mpr ⟨named src names name (.here src) listed member, ih ?_⟩
      intro path others word below
      exact named path others word (.child src name path names listed member below)

theorem joined_clean (dir word : Bytes) (plain : Filepath.Plain word) : CleanName (joinTwo dir word) := by
  rw [CleanName, joinTwo, if_pos plain.some]
  split <;> exact clean_idempotent _

theorem under_words (dest : Bytes) (p : List Bytes) (plain : ∀ word ∈ p, Filepath.Plain word) :
    cleanWords (under dest p) = cleanWords dest ++ p := by
  induction p generalizing dest with
  | nil => rw [List.append_nil]; rfl
  | cons word rest ih =>
      rw [List.forall_mem_cons] at plain
      rw [under, List.foldl_cons, ← under, ih _ plain.2, joined_words dest word plain.1, List.append_assoc,
        List.singleton_append]

theorem under_clean (dest : Bytes) (p : List Bytes) (plain : ∀ word ∈ p, Filepath.Plain word) (some : p = [] → CleanName dest) :
    CleanName (under dest p) := by
  induction p generalizing dest with
  | nil => exact some rfl
  | cons word rest ih =>
      rw [List.forall_mem_cons] at plain
      exact ih (joinTwo dest word) plain.2 fun _ => joined_clean dest word plain.1

theorem upward_words (name m : Bytes) (clean : CleanName name) (upward : Upward name m) :
    CleanName m ∧ cleanWords m <+: cleanWords name := by
  induction upward with
  | self name => exact ⟨clean, List.prefix_rfl⟩
  | parent name m notRoot notDot rest ih =>
      obtain ⟨cleaned, ahead⟩ := ih (clean_idempotent _)
      rw [(dir_words name clean).2] at ahead
      exact ⟨cleaned, ahead.trans (List.dropLast_prefix _)⟩

theorem under_not_root (dest : Bytes) (p : List Bytes) (plain : ∀ word ∈ p, Filepath.Plain word) (some : p ≠ []) :
    under dest p ≠ str "." ∧ under dest p ≠ str "/" := by
  have words := under_words dest p plain
  refine ⟨fun dot => ?_, fun root => ?_⟩
  · rw [dot, show cleanWords (str ".") = [] by decide] at words
    exact some (List.append_eq_nil_iff.mp words.symm).2
  · rw [root, show cleanWords (str "/") = [] by decide] at words
    exact some (List.append_eq_nil_iff.mp words.symm).2

-- A record for q brings one for p only if p lies on the way to q.
theorem stored_on_way (dest m s : Bytes) (p q : List Bytes) (plainP : ∀ word ∈ p, Filepath.Plain word)
    (plainQ : ∀ word ∈ q, Filepath.Plain word) (deep : p ≠ []) (clean : q = [] → CleanName dest)
    (upward : Upward (under dest q) m) (here : storedName m = some s) (there : storedName (under dest p) = some s) : p <+: q := by
  obtain ⟨cleaned, ahead⟩ := upward_words _ m (under_clean dest q plainQ clean) upward
  have same := (stored_words m s cleaned here).symm.trans
    (stored_words _ s (under_clean dest p plainP fun none => absurd none deep) there)
  rw [same, under_words dest p plainP, under_words dest q plainQ] at ahead
  exact (List.prefix_append_right_inj _).mp ahead

theorem plain_recorded (src : Bytes) (p : List Bytes) (entry : Entry fs src p) (above : PlainAbove fs src p) :
    Recorded fs src p := by
  induction entry with
  | here src sys known leaf => exact .here src sys known fun plain => leaf (plain_directory sys plain)
  | inside src name p sys names known directory listed member rest ih =>
      exact .inside src name p sys names known (above.1 sys known) listed member (ih above.2)

theorem recorded_plain (src : Bytes) (p q : List Bytes) (entry : Entry fs src p) (recorded : Recorded fs src q)
    (ahead : p <+: q) : PlainAbove fs src p := by
  induction entry generalizing q with
  | here => trivial
  | inside src name p sys names known directory listed member rest ih =>
      cases recorded with
      | here => exact absurd (List.prefix_nil.mp ahead) (List.cons_ne_nil _ _)
      | inside _ other q _ _ same plain _ _ later =>
          obtain ⟨rfl, further⟩ := List.cons_prefix_cons.mp ahead
          refine ⟨fun sys found => ?_, ih q later further⟩
          cases same.symm.trans found
          exact plain

end Paths

variable (fs : Tree)

theorem written_entry_iff (src dest s : Bytes) (p : List Bytes) (named : PlainNames fs src) (entry : Entry fs src p)
    (known : storedName (under dest p) = some s) :
    Written fs src dest s ↔ PlainAbove fs src p ∧ under dest p ≠ str "." ∧ under dest p ≠ str "/" ∨
      (∃ sys, fs.lstat src = .ok sys ∧ ¬ Plain sys) ∧ ¬ CleanName dest ∧ ∃ m, Upward dest m ∧ storedName m = some s := by
  have plain := reached_plain fs named entry
  constructor
  · rintro ⟨q, recorded, notDot, notRoot, m, upward, stored⟩
    have plainQ := reached_plain fs named recorded
    by_cases below : p = []
    · subst below
      cases entry with
      | here _ sys found leaf =>
          cases recorded with
          | here => exact Or.inl ⟨trivial, notDot, notRoot⟩
          | inside _ name q other names same opened =>
              cases found.symm.trans same
              exact absurd (plain_directory sys opened) leaf
    · by_cases clean : q = [] → CleanName dest
      · have ahead := stored_on_way dest m s p q plain plainQ below clean upward stored known
        exact Or.inl ⟨recorded_plain fs src p q entry recorded ahead, under_not_root dest p plain below⟩
      · rw [Classical.not_imp] at clean
        obtain ⟨rfl, dirty⟩ := clean
        cases recorded with
        | here _ sys found alone => exact Or.inr ⟨⟨sys, found, alone⟩, dirty, m, upward, stored⟩
  · rintro (⟨above, notDot, notRoot⟩ | ⟨⟨sys, found, alone⟩, dirty, m, upward, stored⟩)
    · exact ⟨p, plain_recorded fs src p entry above, notDot, notRoot, _, .self _, known⟩
    · have kept : ∀ root, Filepath.clean root = root → dest ≠ root := by
        rintro root clean rfl
        exact dirty clean
      exact ⟨[], .here src sys found alone, kept (str ".") (by decide), kept (str "/") (by decide), m, upward, stored⟩

theorem whole_tree_archived_iff (src dest : Bytes) (start final : Initramfs Bytes) (entries : List Record)
    (holds : Holds start.writer entries) (filed : Filed start) (unchanging : Unchanging fs src) (named : PlainNames fs src)
    (ran : (writeFile bytesBuffer fs fs.nesting src dest).run start = (.ok (), final)) :
    ∃ new, final.writer.rw.w = Newc.layout 0 (entries ++ new) ∧ (∀ f ∈ new, f.Reads) ∧
      ∀ p, Entry fs src p →
        ((∃ f ∈ entries ++ new, storedName (under dest p) = some f.info.name) ↔
          (∃ f ∈ entries, storedName (under dest p) = some f.info.name) ∨
            PlainAbove fs src p ∧ under dest p ≠ str "." ∧ under dest p ≠ str "/" ∨
            (∃ sys, fs.lstat src = .ok sys ∧ ¬ Plain sys) ∧ ¬ CleanName dest ∧
              ∃ m, Upward dest m ∧ storedName m = storedName (under dest p)) := by
  have adds := (write_file_ends fs fs.nesting src dest start unchanging filed).done () final ran
  obtain ⟨new, held, reads⟩ := adds.grown entries holds
  refine ⟨new, held.bytes, reads, fun p entry => ?_⟩
  have known := stored_name_of (directory (under dest p))
  generalize nameOf (directory (under dest p)) = s at known
  rw [show (directory (under dest p)).info.name = under dest p from rfl] at known
  have listed : ∀ (w : Cpio.Writer Bytes) records, Holds w records →
      ((∃ f ∈ records, some s = some f.info.name) ↔ s ∈ w.alreadyWritten) := by
    intro w records whole
    rw [holds_mem w records whole, List.mem_map]
    simp only [Option.some.injEq, eq_comm]
  rw [known, listed _ _ held, listed _ _ holds, adds.names, written_entry_iff fs src dest s p named entry known]

section Box

variable (mode : UInt32)

theorem box_below (path : Bytes) (below : Below (boxTree mode) (str "/t") path) : path = str "/t" ∨ path = str "/t/f" := by
  cases below with
  | here => exact Or.inl rfl
  | child _ name _ names listed member rest =>
      cases listed
      rw [List.mem_singleton.mp member, box_joined] at rest
      cases rest with
      | here => exact Or.inr rfl
      | child _ name _ names listed member rest => cases listed

theorem box_unchanging : Unchanging (boxTree mode) (str "/t") where
  lstat path e below failed := by
    rcases box_below mode path below with rfl | rfl <;> cases failed
  readlink path e below failed := by
    cases failed
    rfl
  readdirnames path e below failed := by
    rcases box_below mode path below with rfl | rfl
    · cases failed
    · cases failed
      rfl
  read path e below failed := by cases failed
  close path e below failed := by cases failed

theorem box_entry (directory : isDirectory (boxStat mode)) : Entry (boxTree mode) (str "/t") [str "f"] := by
  refine .inside _ _ _ _ _ (box_directory mode) directory (box_listed mode) (List.mem_singleton.mpr rfl) ?_
  rw [box_joined]
  exact .here _ _ (box_file mode) file_no_directory

theorem box_names : PlainNames (boxTree mode) (str "/t") := by
  intro path names name below listed member
  rcases box_below mode path below with rfl | rfl
  · cases listed
    rw [List.mem_singleton.mp member]
    exact ⟨by decide, by decide, by decide, by decide⟩
  · cases listed

theorem plain_box_archived :
    ∃ start final, newInitramfs bytesBuffer true .empty (newWriter []) = .ok start ∧
      (writeFile bytesBuffer (boxTree 0o040755) 2 (str "/t") (str "t")).run start = (.ok (), final) ∧
      ∃ entries, final.writer.rw.w = Newc.layout 0 entries ∧ ∃ f ∈ entries, f.info.name = str "t/f" := by
  obtain ⟨start, made, aligned⟩ := new_initramfs_succeeds true .empty
  obtain ⟨final, ran⟩ := plain_box_walked (str "t") start aligned
  have holds := (new_initramfs_holds made).1
  have filed := (new_initramfs_ordered made).2
  obtain ⟨new, bytes, -, archived⟩ := whole_tree_archived_iff (boxTree 0o040755) (str "/t") (str "t") start final _ holds filed
    (box_unchanging _) (box_names _) ran
  obtain ⟨f, member, name⟩ := (archived [str "f"] (box_entry _ (plain_directory _ box_plain))).mpr
    (Or.inr (Or.inl ⟨⟨fun sys known => by cases known; exact box_plain, trivial⟩, by decide, by decide⟩))
  have stored : storedName (under (str "t") [str "f"]) = some (str "t/f") := by decide
  exact ⟨start, final, made, ran, _, bytes, f, member, (Option.some.inj (stored.symm.trans name)).symm⟩

theorem sticky_directory_lost :
    ∃ start final, newInitramfs bytesBuffer true .empty (newWriter []) = .ok start ∧ Unchanging (boxTree 0o041777) (str "/t") ∧
      (writeFile bytesBuffer (boxTree 0o041777) 2 (str "/t") (str "t")).run start = (.ok (), final) ∧
      Entry (boxTree 0o041777) (str "/t") [str "f"] ∧
      ∃ entries, final.writer.rw.w = Newc.layout 0 entries ∧
        ∀ f ∈ entries, storedName (under (str "t") [str "f"]) ≠ some f.info.name := by
  obtain ⟨start, made, aligned⟩ := new_initramfs_succeeds true .empty
  obtain ⟨holds, -⟩ := new_initramfs_holds made
  have special : ¬ Plain (boxStat 0o041777) := by
    unfold Plain
    decide
  have directory : isDirectory (boxStat 0o041777) := by
    unfold isDirectory
    decide
  have readable := box_readable 0o041777 (str "/t") _ (box_directory _) (by decide)
  obtain ⟨final, ran⟩ := write_leaf_succeeds (boxTree 0o041777) 1 (str "/t") (str "t") start readable special aligned
  refine ⟨start, final, made, box_unchanging _, ran, box_entry _ directory, ?_⟩
  have adds := (write_file_ends _ 2 _ _ start (box_unchanging _) (new_initramfs_ordered made).2).done () final ran
  obtain ⟨new, held, -⟩ := adds.grown _ holds
  refine ⟨_, held.bytes, fun f member name => ?_⟩
  have stored : storedName (under (str "t") [str "f"]) = some (str "t/f") := by decide
  have here := Option.some.inj (name.symm.trans stored)
  rcases (adds.names _).mp ((holds_mem _ _ held _).mpr (List.mem_map.mpr ⟨f, member, here⟩)) with old | written
  · rw [holds_mem _ _ holds, dev_cpio_names] at old
    exact absurd old (by decide)
  · rcases (written_entry_iff _ _ _ _ _ (box_names _) (box_entry _ directory) stored).mp written with ⟨above, -⟩ | ⟨-, dirty, -⟩
    · exact special (above.1 _ (box_directory _))
    · exact dirty (by decide : Filepath.clean (str "t") = str "t")

end Box

end URoot.Ramfs
