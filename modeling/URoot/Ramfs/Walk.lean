import URoot.Ramfs.Initramfs

set_option autoImplicit false

namespace URoot.Ramfs

open GoLib Cpio Act Filepath

section Entries

def isDirectory (sys : Stat) : Prop := sys.mode.toUInt64 &&& 0o170000 = 0o040000

def Plain (sys : Stat) : Prop := sys.mode.toUInt64 &&& ~~~0o777 = 0o040000

theorem plain_directory (sys : Stat) (plain : Plain sys) : isDirectory sys := by
  have mask : (0o170000 : UInt64) = ~~~0o777 &&& 0o170000 := by decide
  rw [isDirectory, mask, ← UInt64.and_assoc, show sys.mode.toUInt64 &&& ~~~0o777 = 0o040000 from plain]
  decide

variable (fs : Tree)

inductive Below : Bytes → Bytes → Prop where
  | here (src : Bytes) : Below src src
  | child (src name path : Bytes) (names : List Bytes) (listed : fs.readdirnames src = .ok names) (member : name ∈ names)
      (rest : Below (joinTwo src name) path) : Below src path

-- The paths, relative to the root of a tree, of what is not opened when exactly such directories are.
inductive Reached (opens : Stat → Prop) : Bytes → List Bytes → Prop where
  | here (src : Bytes) (sys : Stat) (known : fs.lstat src = .ok sys) (leaf : ¬ opens sys) : Reached opens src []
  | inside (src name : Bytes) (p : List Bytes) (sys : Stat) (names : List Bytes) (known : fs.lstat src = .ok sys)
      (opened : opens sys) (listed : fs.readdirnames src = .ok names) (member : name ∈ names)
      (rest : Reached opens (joinTwo src name) p) : Reached opens src (name :: p)

abbrev Entry : Bytes → List Bytes → Prop := Reached fs isDirectory

-- What WriteFile gets to: it takes only plain directories for directories.
abbrev Recorded : Bytes → List Bytes → Prop := Reached fs Plain

def PlainAbove : Bytes → List Bytes → Prop
  | _, [] => True
  | src, name :: p => (∀ sys, fs.lstat src = .ok sys → Plain sys) ∧ PlainAbove (joinTwo src name) p

structure Unchanging (src : Bytes) : Prop where
  lstat : ∀ path e, Below fs src path → fs.lstat path = .error e → fs.notExist e = false
  readlink : ∀ path e, Below fs src path → fs.readlink path = .error e → fs.notExist e = false
  readdirnames : ∀ path e, Below fs src path → fs.readdirnames path = .error e → fs.notExist e = false
  read : ∀ path e, Below fs src path → (fs.newDeferReadCloser path).readErr = some e → fs.notExist e = false
  close : ∀ path e, Below fs src path → (fs.newDeferReadCloser path).closeErr = some e → fs.notExist e = false

theorem unchanging_child (src name : Bytes) (names : List Bytes) (unchanging : Unchanging fs src)
    (listed : fs.readdirnames src = .ok names) (member : name ∈ names) : Unchanging fs (joinTwo src name) where
  lstat path e below := unchanging.lstat path e (.child src name path names listed member below)
  readlink path e below := unchanging.readlink path e (.child src name path names listed member below)
  readdirnames path e below := unchanging.readdirnames path e (.child src name path names listed member below)
  read path e below := unchanging.read path e (.child src name path names listed member below)
  close path e below := unchanging.close path e (.child src name path names listed member below)

def under (dest : Bytes) (p : List Bytes) : Bytes := p.foldl joinTwo dest

end Entries

section Records

variable (r : Record) (i : Initramfs Bytes)

def NeedsParent (r : Record) (i : Initramfs Bytes) : Prop :=
  (Filepath.dir r.info.name ≠ str "/" ∧ Filepath.dir r.info.name ≠ str ".") ∧ Filepath.dir r.info.name ∉ i.files

theorem write_record_deep (notRoot : ¬ (r.info.name = str "." ∨ r.info.name = str "/")) (needed : NeedsParent r i) :
    (writeRecord bytesBuffer r).run i =
      (writeRecord bytesBuffer (directory (Filepath.dir r.info.name)) >>= fun _ => addRecord bytesBuffer r).run i := by
  rw [NeedsParent] at needed
  rw [writeRecord, if_neg notRoot, run_get_bind]
  simp only [dif_pos needed]

theorem write_record_flat (notRoot : ¬ (r.info.name = str "." ∨ r.info.name = str "/")) (present : ¬ NeedsParent r i) :
    (writeRecord bytesBuffer r).run i = (addRecord bytesBuffer r).run i := by
  rw [NeedsParent] at present
  rw [writeRecord, if_neg notRoot, run_get_bind]
  simp only [dif_neg present]

-- The recursion of writeRecord as a rule about outcomes; it ends since the parent's name is shorter.
theorem write_record_rule {motive : Record → Initramfs Bytes → Except WriteError Unit × Initramfs Bytes → Prop}
    (root : ∀ r i, r.info.name = str "." ∨ r.info.name = str "/" → motive r i (.ok (), i))
    (flat : ∀ r i, ¬ (r.info.name = str "." ∨ r.info.name = str "/") → ¬ NeedsParent r i →
      motive r i ((addRecord bytesBuffer r).run i))
    (failed : ∀ r i e middle, motive (directory (Filepath.dir r.info.name)) i (.error e, middle) → motive r i (.error e, middle))
    (deep : ∀ r i middle, ¬ (r.info.name = str "." ∨ r.info.name = str "/") →
      (writeRecord bytesBuffer (directory (Filepath.dir r.info.name))).run i = (.ok (), middle) →
      motive (directory (Filepath.dir r.info.name)) i (.ok (), middle) → motive r i ((addRecord bytesBuffer r).run middle)) :
    motive r i ((writeRecord bytesBuffer r).run i) := by
  induction length : r.info.name.length using Nat.strongRecOn generalizing r i with
  | ind length ih =>
      by_cases top : r.info.name = str "." ∨ r.info.name = str "/"
      · rw [writeRecord, if_pos top]
        exact root r i top
      by_cases needed : NeedsParent r i
      · rw [write_record_deep r i top needed]
        have above := ih _ (length ▸ dir_shorter _ needed.1.2 needed.1.1) (directory (Filepath.dir r.info.name)) i rfl
        rcases ran : (writeRecord bytesBuffer (directory (Filepath.dir r.info.name))).run i with ⟨result, middle⟩
        rw [ran] at above
        cases result with
        | error e =>
            rw [run_bind_error ran]
            exact failed r i e middle above
        | ok u =>
            rw [run_bind_ok ran]
            exact deep r i middle top ran above
      · rw [write_record_flat r i top needed]
        exact flat r i top needed

inductive Upward : Bytes → Bytes → Prop where
  | self (name : Bytes) : Upward name name
  | parent (name m : Bytes) (notRoot : Filepath.dir name ≠ str "/") (notDot : Filepath.dir name ≠ str ".")
      (rest : Upward (Filepath.dir name) m) : Upward name m

def Stored (i : Initramfs Bytes) (name : Bytes) : Prop := ∃ s ∈ i.writer.alreadyWritten, storedName name = some s

-- What files stands for: such a name has a record, and so have the directories above it.
def Filed (i : Initramfs Bytes) : Prop := ∀ name ∈ i.files, ∀ m, Upward name m → Stored i m

theorem add_record_names (s : Bytes) :
    s ∈ ((addRecord bytesBuffer r).run i).2.writer.alreadyWritten ↔ s ∈ i.writer.alreadyWritten ∨ s = nameOf r := by
  have state : ((addRecord bytesBuffer r).run i).2.writer = ((Cpio.writeRecord bytesBuffer r).run i.writer).2 := rfl
  rw [state]
  by_cases old : nameOf r ∈ i.writer.alreadyWritten
  · rw [write_record_seen bytesBuffer r i.writer old]
    refine ⟨Or.inl, ?_⟩
    rintro (present | rfl)
    · exact present
    · exact old
  · have names : ((Cpio.writeRecord bytesBuffer r).run i.writer).2.alreadyWritten = nameOf r :: i.writer.alreadyWritten := by
      rw [write_record_unseen bytesBuffer r i.writer old, formatWrite]
      rcases ran : (Newc.writeRecord bytesBuffer (stored r)).run i.writer.rw with ⟨_ | _, next⟩ <;> simp only [ran]
    rw [names, List.mem_cons, or_comm]

def Named (name s : Bytes) : Prop := name ≠ str "." ∧ name ≠ str "/" ∧ ∃ m, Upward name m ∧ storedName m = some s

theorem named_iff (kept : ¬ (r.info.name = str "." ∨ r.info.name = str "/")) (s : Bytes) :
    Named r.info.name s ↔ Named (Filepath.dir r.info.name) s ∨ s = nameOf r := by
  rw [not_or] at kept
  constructor
  · rintro ⟨-, -, m, upward, known⟩
    cases upward with
    | self => exact Or.inr (Option.some.inj (known.symm.trans (stored_name_of r)))
    | parent _ _ notRoot notDot rest => exact Or.inl ⟨notDot, notRoot, m, rest, known⟩
  · rintro (⟨notDot, notRoot, m, upward, known⟩ | rfl)
    · exact ⟨kept.1, kept.2, m, .parent _ m notRoot notDot upward, known⟩
    · exact ⟨kept.1, kept.2, _, .self _, stored_name_of r⟩

theorem filed_named {i : Initramfs Bytes} (filed : Filed i) (present : ¬ NeedsParent r i) (s : Bytes)
    (named : Named (Filepath.dir r.info.name) s) : s ∈ i.writer.alreadyWritten := by
  obtain ⟨notDot, notRoot, m, upward, known⟩ := named
  have listed : Filepath.dir r.info.name ∈ i.files := by
    by_contra missing
    exact present ⟨⟨notRoot, notDot⟩, missing⟩
  obtain ⟨other, stored, same⟩ := filed _ listed m upward
  cases known.symm.trans same
  exact stored

theorem add_record_filed (filed : Filed i) (above : ∀ s, Named (Filepath.dir r.info.name) s → s ∈ i.writer.alreadyWritten) :
    Filed ((addRecord bytesBuffer r).run i).2 := by
  intro name member m upward
  rcases List.mem_cons.mp member with rfl | old
  · cases upward with
    | self => exact ⟨nameOf r, (add_record_names r i _).mpr (Or.inr rfl), stored_name_of r⟩
    | parent _ _ notRoot notDot rest =>
        have known := stored_name_of (directory m)
        exact ⟨_, (add_record_names r i _).mpr (Or.inl (above _ ⟨notDot, notRoot, m, rest, known⟩)), known⟩
  · obtain ⟨s, present, known⟩ := filed name old m upward
    exact ⟨s, (add_record_names r i s).mpr (Or.inl present), known⟩

-- Exactly the names upward of the record's are stored; where the walk up stops early the rest has been.
theorem write_record_filed (filed : Filed i) :
    Filed ((writeRecord bytesBuffer r).run i).2 ∧
      (((writeRecord bytesBuffer r).run i).1 = .ok () → ∀ s,
        s ∈ ((writeRecord bytesBuffer r).run i).2.writer.alreadyWritten ↔ s ∈ i.writer.alreadyWritten ∨ Named r.info.name s) := by
  refine write_record_rule (motive := fun r i outcome => Filed i → Filed outcome.2 ∧ (outcome.1 = .ok () → ∀ s,
    s ∈ outcome.2.writer.alreadyWritten ↔ s ∈ i.writer.alreadyWritten ∨ Named r.info.name s)) r i ?_ ?_ ?_ ?_ filed
  · intro r i root filed
    refine ⟨filed, fun _ s => (or_iff_left ?_).symm⟩
    rintro ⟨notDot, notRoot, -⟩
    exact root.elim notDot notRoot
  · intro r i kept present filed
    refine ⟨add_record_filed r i filed (filed_named r filed present), fun _ s => ?_⟩
    rw [add_record_names, named_iff r kept, ← or_assoc, or_iff_left_of_imp (filed_named r filed present s)]
  · intro r i e middle above filed
    exact ⟨(above filed).1, fun impossible => by cases impossible⟩
  · intro r i middle kept _ above filed
    obtain ⟨between, names⟩ := above filed
    refine ⟨add_record_filed r middle between fun s named => (names rfl s).mpr (Or.inr named), fun _ s => ?_⟩
    rw [add_record_names, names rfl, named_iff r kept, or_assoc]
    rfl

def Aligned (i : Initramfs Bytes) : Prop := i.writer.rw.pos % 4 = 0

theorem add_record_succeeds (reads : r.Reads) (aligned : Aligned i) :
    ∃ next, (addRecord bytesBuffer r).run i = (.ok (), next) ∧ Aligned next := by
  have state : (addRecord bytesBuffer r).run i = (((Cpio.writeRecord bytesBuffer r).run i.writer).1.mapError id,
      { i with files := r.info.name :: i.files, writer := ((Cpio.writeRecord bytesBuffer r).run i.writer).2 }) := rfl
  have written := Cpio.write_record_buffer r i.writer reads aligned
  by_cases old : nameOf r ∈ i.writer.alreadyWritten
  · rw [if_pos old] at written
    rw [state, written]
    exact ⟨_, rfl, aligned⟩
  · rw [if_neg old] at written
    rw [state, written]
    refine ⟨_, rfl, ?_⟩
    have block := Newc.record_bytes_aligned (stored r)
    simp only [Aligned, extend, Newc.grow] at aligned ⊢
    omega

theorem write_record_succeeds (reads : r.Reads) (aligned : Aligned i) :
    ∃ next, (writeRecord bytesBuffer r).run i = (.ok (), next) ∧ Aligned next := by
  refine write_record_rule (motive := fun r i outcome => r.Reads → Aligned i → ∃ next, outcome = (.ok (), next) ∧ Aligned next)
    r i ?_ ?_ ?_ ?_ reads aligned
  · exact fun r i root reads aligned => ⟨i, rfl, aligned⟩
  · exact fun r i kept present reads aligned => add_record_succeeds r i reads aligned
  · intro r i e middle above reads aligned
    obtain ⟨next, impossible, -⟩ := above (no_content_reads _ rfl) aligned
    cases impossible
  · intro r i middle kept _ above reads aligned
    obtain ⟨next, same, between⟩ := above (no_content_reads _ rfl) aligned
    cases same
    exact add_record_succeeds r middle reads between

end Records

section Walk

variable (fs : Tree)

theorem get_record_ends (path : Bytes) (m : Inodes) :
    Ends (getRecord fs.toFileSystem path) m (fun e => fs.lstat path = .error e ∨ fs.readlink path = .error e)
      (fun r _ => ∃ sys, fs.lstat path = .ok sys ∧ r.info.mode = sys.mode.toUInt64 ∧
        ∀ e, r.Fails e → (fs.newDeferReadCloser path).readErr = some e ∨ (fs.newDeferReadCloser path).closeErr = some e) := by
  have mode : ∀ sys m, (inode (sysInfo path sys) m).1.1.mode = sys.mode.toUInt64 := by
    intro sys m
    rw [inode]
    split <;> rfl
  have still : ∀ text info e, ¬ (staticRecord text info).Fails e := by
    rintro text info e ⟨source, present, failing⟩
    cases present
    rcases failing with impossible | impossible <;> cases impossible
  rw [getRecord]
  refine ends_bind m _ _ _ (fun sys _ => fs.lstat path = .ok sys) _
    (ends_of_except m _ _ _ (fun e failed => Or.inl failed) fun sys known => known) fun sys m known => ?_
  refine ends_bind m _ _ _ (fun result _ => result.1.mode = sys.mode.toUInt64) _
    (ends_of_ok m _ _ _ _ _ (run_modify_get _ m) (mode sys m)) fun result m kept => ?_
  cases kind : sys.fileType with
  | regular =>
      refine ends_of_ok m _ _ _ _ _ rfl ⟨sys, known, kept, ?_⟩
      rintro e ⟨source, present, failing⟩
      simp only at present
      split at present
      · cases present
      · cases present
        exact failing
  | symlink =>
      refine ends_bind m _ _ _ (fun _ _ => True) _
        (ends_of_except m _ _ _ (fun e failed => Or.inr failed) fun _ _ => trivial) fun linkname m _ => ?_
      exact ends_of_ok m _ _ _ _ _ rfl ⟨sys, known, kept, fun e failing => absurd failing (still _ _ e)⟩
  | other => exact ends_of_ok m _ _ _ _ _ rfl ⟨sys, known, kept, fun e failing => absurd failing (still _ _ e)⟩

section Keeps

variable (P : Initramfs Bytes → Prop) (apart : ∀ i m, P i → P { i with inodes := m })

theorem children_keep (notExist : IoError → Bool) (fn : Bytes → Act FileError (Initramfs Bytes) Unit)
    (names : List Bytes) (each : ∀ name ∈ names, Keeps P (fn name)) : Keeps P (children notExist fn names) := by
  induction names with
  | nil => exact keeps_pure P ()
  | cons name rest ih =>
      rw [List.forall_mem_cons] at each
      intro i before
      have next := each.1 i before
      rw [children]
      rcases ran : (fn name).run i with ⟨result, after⟩
      rw [ran] at next
      cases result with
      | ok u =>
          simp only [ran]
          exact ih each.2 after next
      | error e =>
          simp only [ran]
          by_cases gone : isNotExist notExist e = true
          · rw [if_pos gone]
            exact ih each.2 after next
          · rw [if_neg gone]
            exact next

include apart

theorem write_file_keeps (depth : Nat) (src dest : Bytes)
    (each : ∀ r q, Recorded fs src q → r.info.name = under dest q → Keeps P (writeFileRecord bytesBuffer r)) :
    Keeps P (writeFile bytesBuffer fs depth src dest) := by
  induction depth generalizing src dest with
  | zero => exact keeps_fail P _
  | succ depth ih =>
      intro i before
      rw [writeFile]
      rcases got : (getRecord fs.toFileSystem src).run i.inodes with ⟨result, m⟩
      have outcome : (getTreeRecord fs.toFileSystem src : Act FileError (Initramfs Bytes) Record).run i =
          (result.mapError .get, { i with inodes := m }) := by
        simp only [getTreeRecord, Act.within, got]
      cases result with
      | error e =>
          rw [run_bind_error outcome]
          exact apart i m before
      | ok r =>
          obtain ⟨sys, known, mode, -⟩ := (get_record_ends fs src i.inodes).done r m got
          rw [run_bind_ok outcome, mode]
          by_cases plain : sys.mode.toUInt64 &&& ~~~0o777 = 0o040000
          · rw [if_pos plain]
            cases listed : fs.readdirnames src with
            | error e => exact apart i m before
            | ok names =>
                have inner := children_keep P fs.notExist
                  (fun name => writeFile bytesBuffer fs depth (joinTwo src name) (joinTwo dest name)) names
                  fun name member => ih _ _ fun r q recorded named =>
                    each r (name :: q) (.inside src name q sys names known plain listed member recorded) named
                exact inner _ (apart i m before)
          · rw [if_neg plain]
            exact each _ [] (.here src sys known plain) rfl _ (apart i m before)

end Keeps

section Readable

variable (depth : Nat) (src dest : Bytes) (i : Initramfs Bytes) (readable : fs.Readable src)

include readable

theorem tree_record_run :
    (getTreeRecord fs.toFileSystem src : Act FileError (Initramfs Bytes) Record).run i =
        (.ok (fs.record src i.inodes), { i with inodes := fs.next src i.inodes }) ∧
      (fs.record src i.inodes).info.mode = (fs.stat src).mode.toUInt64 := by
  have inner := fs.get_record_run src i.inodes readable
  obtain ⟨sys, known, mode, -⟩ := (get_record_ends fs src i.inodes).done _ _ inner
  cases readable.lstat.symm.trans known
  refine ⟨?_, mode⟩
  simp only [getTreeRecord, Act.within, inner]
  rfl

theorem write_file_opens (names : List Bytes) (plain : Plain (fs.stat src)) (listed : fs.readdirnames src = .ok names) :
    (writeFile bytesBuffer fs (depth + 1) src dest).run i =
      (children fs.notExist
        (fun name => writeFile bytesBuffer fs depth (joinTwo src name) (joinTwo dest name)) names).run
        { i with inodes := fs.next src i.inodes } := by
  obtain ⟨got, mode⟩ := tree_record_run fs src i readable
  have names : (Act.ofExcept ((fs.readdirnames src).mapError .readdir) : Act FileError (Initramfs Bytes) (List Bytes)).run
      { i with inodes := fs.next src i.inodes } = (.ok names, { i with inodes := fs.next src i.inodes }) := by
    rw [listed]
    rfl
  rw [writeFile, run_bind_ok got, if_pos (by rw [mode]; exact plain), run_bind_ok names]

theorem write_file_alone (special : ¬ Plain (fs.stat src)) :
    (writeFile bytesBuffer fs (depth + 1) src dest).run i =
      (writeFileRecord bytesBuffer (makeReproducible ((fs.record src i.inodes).rename dest))).run
        { i with inodes := fs.next src i.inodes } := by
  obtain ⟨got, mode⟩ := tree_record_run fs src i readable
  rw [writeFile, run_bind_ok got, if_neg (by rw [mode]; exact special)]

theorem write_leaf_succeeds (special : ¬ Plain (fs.stat src)) (aligned : Aligned i) :
    ∃ next, (writeFile bytesBuffer fs (depth + 1) src dest).run i = (.ok (), next) := by
  obtain ⟨next, written, -⟩ := write_record_succeeds (makeReproducible ((fs.record src i.inodes).rename dest))
    { i with inodes := fs.next src i.inodes } (fs.record_reads src i.inodes readable) aligned
  refine ⟨next, ?_⟩
  rw [write_file_alone fs depth src dest i readable special]
  simp only [writeFileRecord, Act.within, id_eq, written]
  rfl

end Readable

end Walk

section Calls

def Call.Writes : Call → Bytes → Prop
  | .writeRecord r, name => name = r.info.name
  | .writeFile fs src dest, name => ∃ q, Recorded fs src q ∧ name = under dest q
  | .writeFiles fs srcDir destDir files, name =>
      ∃ file ∈ files, ∃ q, Recorded fs (joinTwo srcDir file) q ∧ name = under (joinTwo destDir file) q

variable (P : Initramfs Bytes → Prop) (apart : ∀ i m, P i → P { i with inodes := m })

include apart

theorem write_files_keep {fs : Tree} {srcDir destDir : Bytes} {files : List Bytes}
    (each : ∀ r, (Call.writeFiles fs srcDir destDir files).Writes r.info.name → Keeps P (writeFileRecord bytesBuffer r)) :
    Keeps P (writeFiles bytesBuffer fs srcDir destDir files) := by
  induction files with
  | nil => exact keeps_pure P ()
  | cons file rest ih =>
      refine keeps_bind P _ _ (write_file_keeps fs P apart _ _ _ ?_) fun _ => ih ?_
      · intro r q recorded named
        exact each r ⟨file, List.mem_cons_self, q, recorded, named⟩
      · rintro r ⟨other, member, q, recorded, named⟩
        exact each r ⟨other, List.mem_cons_of_mem _ member, q, recorded, named⟩

theorem perform_keeps (call : Call) (each : ∀ r, call.Writes r.info.name → Keeps P (writeFileRecord bytesBuffer r)) :
    Keeps P (call.perform bytesBuffer) := by
  cases call with
  | writeRecord r => exact each r rfl
  | writeFile fs src dest => exact write_file_keeps fs P apart _ src dest fun r q recorded named => each r ⟨q, recorded, named⟩
  | writeFiles fs srcDir destDir files => exact write_files_keep P apart each

theorem perform_all_keeps (calls : List Call)
    (each : ∀ call ∈ calls, ∀ r, call.Writes r.info.name → Keeps P (writeFileRecord bytesBuffer r)) :
    Keeps P (performAll bytesBuffer calls) := by
  induction calls with
  | nil => exact keeps_pure P ()
  | cons call rest ih =>
      rw [List.forall_mem_cons] at each
      exact keeps_bind P _ _ (perform_keeps P apart call each.1) fun _ => ih each.2

end Calls

theorem perform_all_filed (calls : List Call) : Keeps Filed (performAll bytesBuffer calls) :=
  perform_all_keeps Filed (fun _ _ filed => filed) calls fun _ _ r _ i filed => (write_record_filed r i filed).1

section Box

def boxStat (mode : UInt32) : Stat := ⟨1, 1, 2, mode, 0, 0, 0, 0, 0⟩

def fileStat : Stat := ⟨1, 2, 1, 0o100644, 0, 0, 0, 1, 0⟩

def boxLstat (mode : UInt32) (path : Bytes) : Except IoError Stat :=
  if path = str "/t" then .ok (boxStat mode)
  else if path = str "/t/f" then .ok fileStat
  else .error (.other (str "no such file or directory"))

theorem box_stats {mode : UInt32} {path : Bytes} {sys : Stat} (known : boxLstat mode path = .ok sys) :
    sys = boxStat mode ∨ sys = fileStat := by
  rw [boxLstat] at known
  split at known
  · exact Or.inl (Except.ok.inj known).symm
  · split at known
    · exact Or.inr (Except.ok.inj known).symm
    · cases known

theorem box_same_inode {mode : UInt32} {a b : Bytes} {statA statB : Stat} (okA : boxLstat mode a = .ok statA)
    (okB : boxLstat mode b = .ok statB) (ino : statA.ino = statB.ino) : statA = statB := by
  rcases box_stats okA with rfl | rfl
  · rcases box_stats okB with rfl | rfl
    · rfl
    · cases ino
  · rcases box_stats okB with rfl | rfl
    · cases ino
    · rfl

def boxTree (mode : UInt32) : Tree where
  lstat := boxLstat mode
  readlink _ := .error (.other (str "invalid argument"))
  newDeferReadCloser _ := newBytesReadCloser [7]
  hardLinks := by
    intro a b statA statB okA okB _ ino
    exact ⟨congrArg Stat.fileType (box_same_inode okA okB ino), rfl⟩
  readdirnames path := if path = str "/t" then .ok [str "f"] else .error (.other (str "not a directory"))
  notExist e := e == .other (str "no such file or directory")
  nesting := 2

variable (mode : UInt32)

theorem box_joined : joinTwo (str "/t") (str "f") = str "/t/f" := by decide

theorem box_listed : (boxTree mode).readdirnames (str "/t") = .ok [str "f"] := rfl

theorem box_directory : (boxTree mode).lstat (str "/t") = .ok (boxStat mode) := rfl

theorem box_file : (boxTree mode).lstat (str "/t/f") = .ok fileStat := rfl

theorem file_no_directory : ¬ isDirectory fileStat := by
  unfold isDirectory
  decide

theorem box_stat_of (path : Bytes) (sys : Stat) (known : (boxTree mode).lstat path = .ok sys) : (boxTree mode).stat path = sys := by
  rw [FileSystem.stat, known]

theorem box_readable (path : Bytes) (sys : Stat) (known : (boxTree mode).lstat path = .ok sys)
    (noLink : sys.fileType ≠ .symlink) : (boxTree mode).Readable path := by
  have stat := box_stat_of mode path sys known
  refine ⟨by rw [stat, known], ?_, fun _ => ⟨rfl, rfl⟩⟩
  intro link
  rw [stat] at link
  exact absurd link noLink

theorem box_plain : Plain (boxStat 0o040755) := by
  unfold Plain
  decide

theorem box_recorded (q : List Bytes) (recorded : Recorded (boxTree 0o040755) (str "/t") q) : q = [str "f"] := by
  cases recorded with
  | here _ sys known alone =>
      cases known
      exact absurd box_plain alone
  | inside _ name p sys names known plain listed member rest =>
      cases listed
      rw [List.mem_singleton.mp member] at rest ⊢
      rw [box_joined] at rest
      cases rest with
      | here => rfl
      | inside _ name p sys names known plain listed member rest => cases listed

theorem plain_box_walked (dest : Bytes) (i : Initramfs Bytes) (aligned : Aligned i) :
    ∃ next, (writeFile bytesBuffer (boxTree 0o040755) 2 (str "/t") dest).run i = (.ok (), next) := by
  have readable := box_readable 0o040755 (str "/t") _ (box_directory _) (by decide)
  have fileReadable := box_readable 0o040755 (str "/t/f") _ (box_file _) (by decide)
  have plain : Plain ((boxTree 0o040755).stat (str "/t")) := box_plain
  have leaf : ¬ Plain ((boxTree 0o040755).stat (str "/t/f")) := fun plain => file_no_directory (plain_directory _ plain)
  obtain ⟨next, written⟩ := write_leaf_succeeds (boxTree 0o040755) 0 (str "/t/f") (joinTwo dest (str "f"))
    { i with inodes := (boxTree 0o040755).next (str "/t") i.inodes } fileReadable leaf aligned
  refine ⟨next, ?_⟩
  rw [write_file_opens (boxTree 0o040755) 1 (str "/t") dest i readable [str "f"] plain (box_listed _)]
  simp only [children, box_joined, written]
  rfl

end Box

end URoot.Ramfs
