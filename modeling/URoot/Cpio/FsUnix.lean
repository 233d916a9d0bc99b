import URoot.Cpio.Archive

set_option autoImplicit false

namespace URoot.Cpio

open GoLib

-- syscall.Stat_t; mtim is the seconds of Mtim.
structure Stat where
  dev : UInt64
  ino : UInt64
  nlink : UInt64
  mode : UInt32
  uid : UInt32
  gid : UInt32
  rdev : UInt64
  size : Int64
  mtim : Int64
deriving DecidableEq

inductive FileType where
  | regular
  | symlink
  | other
deriving DecidableEq, Repr

-- fi.Mode() & os.ModeType, of which GetRecord tells three cases apart.
def Stat.fileType (sys : Stat) : FileType :=
  if sys.mode &&& 0o170000 = 0o120000 then .symlink
  else if sys.mode &&& 0o170000 ∈ [0o140000, 0o060000, 0o040000, 0o020000, 0o010000] then .other
  else .regular

def sysInfo (n : Bytes) (sys : Stat) : Info where
  ino := sys.ino
  mode := sys.mode.toUInt64
  uid := sys.uid.toUInt64
  gid := sys.gid.toUInt64
  nlink := sys.nlink
  mtime := sys.mtim.toUInt64
  fileSize := sys.size.toUInt64
  dev := sys.dev
  major := sys.dev >>> 8
  minor := sys.dev &&& 0xff
  rmajor := sys.rdev >>> 8
  rminor := sys.rdev &&& 0xff
  name := n

structure DevInode where
  dev : UInt64
  ino : UInt64
deriving DecidableEq, Repr

structure Inodes where
  inodeMap : List (DevInode × Info)
  inumber : UInt64

def Inodes.empty : Inodes := ⟨[], 0⟩

def inode (i : Info) (m : Inodes) : (Info × Bool) × Inodes :=
  let d : DevInode := ⟨i.dev, i.ino⟩
  match m.inodeMap.lookup d with
  | some known => (({ i with dev := 0, ino := known.ino }, true), m)
  | none =>
      let new : Info := { i with dev := 0, ino := m.inumber }
      ((new, false), ⟨m.inodeMap ++ [(d, new)], m.inumber + 1⟩)

structure FileSystem where
  lstat : Bytes → Except IoError Stat
  readlink : Bytes → Except IoError Bytes
  newDeferReadCloser : Bytes → ReadCloser
  hardLinks : ∀ a b statA statB, lstat a = .ok statA → lstat b = .ok statB → statA.dev = statB.dev →
    statA.ino = statB.ino → statA.fileType = statB.fileType ∧
      (newDeferReadCloser a).content = (newDeferReadCloser b).content

def getRecord (fs : FileSystem) (path : Bytes) : Act IoError Inodes Record := do
  let sys ← Act.ofExcept (fs.lstat path)
  let (info, done) ← Act.modifyGet (inode (sysInfo path sys))
  match sys.fileType with
  | .regular => pure ⟨if done then none else some (fs.newDeferReadCloser path), info⟩
  | .symlink => do
      let linkname ← Act.ofExcept (fs.readlink path)
      pure (staticRecord linkname info)
  | .other => pure (staticRecord [] info)

def makeReproducible (file : Record) : Record := { file with info := { file.info with mtime := 0 } }

inductive ArchiveError where
  | get (err : IoError)
  | write (err : WriteError)

structure Archiver (σ : Type) where
  inodes : Inodes
  writer : Writer σ

section Model

variable {α σ : Type} (io : IoWriter σ) (fs : FileSystem) (path : α → Bytes) (transform : α → Record → Record)

def archiveFile (file : α) : Act ArchiveError (Archiver σ) Unit :=
  ⟨fun s =>
    match (getRecord fs (path file)).run s.inodes with
    | (.error e, inodes) => (.error (.get e), { s with inodes := inodes })
    | (.ok record, inodes) =>
        match (writeRecord io (transform file record)).run s.writer with
        | (.error e, writer) => (.error (.write e), ⟨inodes, writer⟩)
        | (.ok _, writer) => (.ok (), ⟨inodes, writer⟩)⟩

def archiveFiles : List α → Act ArchiveError (Archiver σ) Unit
  | [] => pure ()
  | file :: rest => do
      archiveFile io fs path transform file
      archiveFiles rest

end Model

section Numbers

def Inodes.number (m : Inodes) (d : DevInode) : Option UInt64 := (m.inodeMap.lookup d).map Info.ino

def Info.devInode (i : Info) : DevInode := ⟨i.dev, i.ino⟩

theorem lookup_append_one (entries : List (DevInode × Info)) (d key : DevInode) (i : Info) :
    (entries ++ [(d, i)]).lookup key = (entries.lookup key).or (if key = d then some i else none) := by
  rw [List.lookup_append, List.lookup_cons, List.lookup_nil]
  by_cases same : key = d
  · rw [if_pos same, same]
    simp
  · rw [if_neg same, beq_false_of_ne same]

theorem inode_known {i : Info} {m : Inodes} {n : UInt64} (known : m.number i.devInode = some n) :
    inode i m = (({ i with dev := 0, ino := n }, true), m) := by
  obtain ⟨old, found, rfl⟩ := Option.map_eq_some_iff.mp known
  rw [Info.devInode] at found
  simp only [inode, found]

theorem inode_new (i : Info) (m : Inodes) (unknown : m.number i.devInode = none) :
    (inode i m).1 = ({ i with dev := 0, ino := m.inumber }, false) ∧ (inode i m).2.inumber = m.inumber + 1 ∧
      (inode i m).2.inodeMap.length = m.inodeMap.length + 1 ∧
      ∀ d, (inode i m).2.number d = if d = i.devInode then some m.inumber else m.number d := by
  have missing := Option.map_eq_none_iff.mp unknown
  rw [Info.devInode] at missing
  simp only [inode, missing]
  refine ⟨trivial, trivial, by rw [List.length_append, List.length_singleton], fun d => ?_⟩
  simp only [Inodes.number, lookup_append_one]
  by_cases same : d = i.devInode
  · rw [if_pos same, same, Info.devInode, missing, Option.none_or, if_pos rfl]
    rfl
  · rw [if_neg same, if_neg (show d ≠ ⟨i.dev, i.ino⟩ from same), Option.or_none]

theorem number_kept (i : Info) (m : Inodes) (d : DevInode) (n : UInt64) (given : m.number d = some n) :
    (inode i m).2.number d = some n := by
  cases state : m.number i.devInode with
  | some old =>
      rw [inode_known state]
      exact given
  | none =>
      rw [(inode_new i m state).2.2.2 d, if_neg, given]
      rintro rfl
      rw [state] at given
      cases given

theorem number_shown (i : Info) (m : Inodes) : (inode i m).2.number i.devInode = some (inode i m).1.1.ino := by
  cases state : m.number i.devInode with
  | some old => rw [inode_known state, state]
  | none =>
      obtain ⟨result, _, _, numbers⟩ := inode_new i m state
      rw [result, numbers, if_pos rfl]

theorem inode_result (i : Info) (m : Inodes) :
    (inode i m).1 = ({ i with dev := 0, ino := (m.number i.devInode).getD m.inumber }, (m.number i.devInode).isSome) := by
  cases state : m.number i.devInode with
  | some old =>
      rw [inode_known state]
      rfl
  | none =>
      rw [(inode_new i m state).1]
      rfl

theorem known_after (i : Info) (m : Inodes) (d : DevInode) :
    ((inode i m).2.number d).isSome ↔ d = i.devInode ∨ (m.number d).isSome := by
  cases state : m.number i.devInode with
  | some old =>
      rw [inode_known state]
      constructor
      · exact Or.inr
      · rintro (rfl | known)
        · rw [state]
          rfl
        · exact known
  | none =>
      rw [(inode_new i m state).2.2.2 d]
      by_cases same : d = i.devInode
      · simp [same]
      · simp [same]

end Numbers

namespace FileSystem

variable (fs : FileSystem) (path : Bytes)

def stat : Stat :=
  match fs.lstat path with
  | .ok sys => sys
  | .error _ => ⟨0, 0, 0, 0, 0, 0, 0, 0, 0⟩

def devInode : DevInode := ⟨(fs.stat path).dev, (fs.stat path).ino⟩

def linkname : Bytes :=
  match fs.readlink path with
  | .ok text => text
  | .error _ => []

def content : Bytes := (fs.newDeferReadCloser path).content

structure Readable : Prop where
  lstat : fs.lstat path = .ok (fs.stat path)
  readlink : (fs.stat path).fileType = .symlink → fs.readlink path = .ok (fs.linkname path)
  read : (fs.stat path).fileType = .regular →
    (fs.newDeferReadCloser path).readErr = none ∧ (fs.newDeferReadCloser path).closeErr = none

theorem same_file (a b : Bytes) (readableA : fs.Readable a) (readableB : fs.Readable b)
    (same : fs.devInode a = fs.devInode b) :
    (fs.stat a).fileType = (fs.stat b).fileType ∧ fs.content a = fs.content b := by
  simp only [devInode, DevInode.mk.injEq] at same
  exact fs.hardLinks a b _ _ readableA.lstat readableB.lstat same.1 same.2

def recordOf (result : Info × Bool) : Record :=
  match (fs.stat path).fileType with
  | .regular => ⟨if result.2 then none else some (fs.newDeferReadCloser path), result.1⟩
  | .symlink => staticRecord (fs.linkname path) result.1
  | .other => staticRecord [] result.1

def record (m : Inodes) : Record := fs.recordOf path (inode (sysInfo path (fs.stat path)) m).1

def next (m : Inodes) : Inodes := (inode (sysInfo path (fs.stat path)) m).2

theorem get_record_run (m : Inodes) (readable : fs.Readable path) :
    (getRecord fs path).run m = (.ok (fs.record path m), fs.next path m) := by
  rw [getRecord, Act.run_of_except_bind _ _ readable.lstat,
    Act.run_modify_get_bind, record, recordOf]
  cases kind : (fs.stat path).fileType with
  | regular => rfl
  | symlink => exact Act.run_of_except_bind _ _ (readable.readlink kind)
  | other => rfl

theorem record_reads (m : Inodes) (readable : fs.Readable path) : (fs.record path m).Reads := by
  intro source present
  rw [record, recordOf] at present
  split at present
  · rename_i regular
    simp only at present
    split at present
    · cases present
    · cases present
      exact readable.read regular
  · cases present
    exact ⟨rfl, rfl⟩
  · cases present
    exact ⟨rfl, rfl⟩

theorem record_content (m : Inodes) (regular : (fs.stat path).fileType = .regular) :
    (fs.record path m).content = if (m.number (fs.devInode path)).isSome then [] else fs.content path := by
  have done : (inode (sysInfo path (fs.stat path)) m).1.2 = (m.number (fs.devInode path)).isSome :=
    congrArg Prod.snd (inode_result (sysInfo path (fs.stat path)) m)
  rw [record, recordOf, regular, ← done]
  simp only [Record.content]
  cases (inode (sysInfo path (fs.stat path)) m).1.2 <;> rfl

theorem record_ino (m : Inodes) : (fs.next path m).number (fs.devInode path) = some (fs.record path m).info.ino := by
  have shown : (fs.next path m).number (fs.devInode path) = some (inode (sysInfo path (fs.stat path)) m).1.1.ino :=
    number_shown (sysInfo path (fs.stat path)) m
  rw [shown, record, recordOf]
  split <;> rfl

end FileSystem

section Runs

variable {α : Type} (fs : FileSystem) (path : α → Bytes) (transform : α → Record → Record)

def inodesAfter (m : Inodes) (files : List α) : Inodes := files.foldl (fun m file => fs.next (path file) m) m

def collect (m : Inodes) : List α → List (α × Record)
  | [] => []
  | file :: rest => (file, transform file (fs.record (path file) m)) :: collect (fs.next (path file) m) rest

theorem collect_append (m : Inodes) (a b : List α) :
    collect fs path transform m (a ++ b) =
      collect fs path transform m a ++ collect fs path transform (inodesAfter fs path m a) b := by
  induction a generalizing m with
  | nil => rfl
  | cons file rest ih => simp only [List.cons_append, collect, ih, inodesAfter, List.foldl_cons]

theorem collect_files (m : Inodes) (files : List α) : (collect fs path transform m files).map Prod.fst = files := by
  induction files generalizing m with
  | nil => rfl
  | cons file rest ih => rw [collect, List.map_cons, ih]

theorem archive_files_writes {σ : Type} (io : IoWriter σ) (files : List α) (m : Inodes) (writer last : Writer σ)
    (readable : ∀ file ∈ files, fs.Readable (path file))
    (wrote : (writeRecords io ((collect fs path transform m files).map Prod.snd)).run writer = (.ok (), last)) :
    (archiveFiles io fs path transform files).run ⟨m, writer⟩ = (.ok (), ⟨inodesAfter fs path m files, last⟩) := by
  induction files generalizing m writer with
  | nil =>
      cases wrote
      rfl
  | cons file rest ih =>
      rw [collect, List.map_cons, writeRecords] at wrote
      simp only at wrote
      split at wrote
      · rename_i middle first
        have one : (archiveFile io fs path transform file).run ⟨m, writer⟩ =
            (.ok (), ⟨fs.next (path file) m, middle⟩) := by
          simp only [archiveFile, fs.get_record_run (path file) m (readable file List.mem_cons_self), first]
        rw [archiveFiles, Act.run_bind_ok one]
        exact ih _ _ (fun other member => readable other (List.mem_cons_of_mem _ member)) wrote
      · cases wrote

theorem collect_reads (m : Inodes) (files : List α) (readable : ∀ file ∈ files, fs.Readable (path file))
    (keeps : ∀ file record, (transform file record).readCloser = record.readCloser) :
    ∀ entry ∈ collect fs path transform m files, entry.2.Reads := by
  induction files generalizing m with
  | nil => exact fun _ impossible => by cases impossible
  | cons file rest ih =>
      intro entry member
      rcases List.mem_cons.mp member with rfl | later
      · have reads := fs.record_reads (path file) m (readable file List.mem_cons_self)
        intro source present
        rw [keeps] at present
        exact reads source present
      · exact ih _ (fun other member => readable other (List.mem_cons_of_mem _ member)) entry later

theorem archive_files_buffer {files : List α} (readable : ∀ file ∈ files, fs.Readable (path file))
    (keeps : ∀ file record, (transform file record).readCloser = record.readCloser) :
    ∃ seen, (∀ name, name ∈ seen ↔ name ∈ (collect fs path transform .empty files).map (fun entry => nameOf entry.2)) ∧
      (archiveFiles bytesBuffer fs path transform files).run ⟨.empty, newWriter []⟩ =
        (.ok (), ⟨inodesAfter fs path .empty files, extend (newWriter []) (archiveBytes
          ((fresh (fun entry => nameOf entry.2) [] (collect fs path transform .empty files)).map Prod.snd)) seen⟩) := by
  have reads : ∀ record ∈ (collect fs path transform .empty files).map Prod.snd, record.Reads := by
    intro record member
    obtain ⟨entry, here, rfl⟩ := List.mem_map.mp member
    exact collect_reads fs path transform .empty files readable keeps entry here
  obtain ⟨seen, members, wrote⟩ := write_records_buffer _ (newWriter [])
    (fun record member => reads record (fresh_mem _ _ _ _ member)) rfl
  have kept : fresh nameOf [] ((collect fs path transform .empty files).map Prod.snd) =
      (fresh (fun entry => nameOf entry.2) [] (collect fs path transform .empty files)).map Prod.snd :=
    fresh_map nameOf Prod.snd [] _
  refine ⟨seen, fun name => ?_, ?_⟩
  · rw [members, List.map_map]
    exact or_iff_left List.not_mem_nil
  · rw [archive_files_writes fs path transform bytesBuffer files .empty _ _ readable wrote, ← kept]
    rfl

theorem collect_split (m : Inodes) (files : List α) (before after : List (α × Record)) (entry : α × Record)
    (same : collect fs path transform m files = before ++ entry :: after) :
    ∃ front file back, files = front ++ file :: back ∧ collect fs path transform m front = before ∧
      entry = (file, transform file (fs.record (path file) (inodesAfter fs path m front))) := by
  induction files generalizing m before with
  | nil => cases before <;> cases same
  | cons first rest ih =>
      rw [collect] at same
      cases before with
      | nil =>
          simp only [List.nil_append, List.cons.injEq] at same
          exact ⟨[], first, rest, rfl, rfl, same.1.symm⟩
      | cons head before =>
          simp only [List.cons_append, List.cons.injEq] at same
          obtain ⟨front, file, back, rfl, collected, here⟩ := ih _ before same.2
          exact ⟨first :: front, file, back, rfl, by rw [collect, collected, same.1], here⟩

theorem known_inodes (m : Inodes) (files : List α) (d : DevInode) :
    ((inodesAfter fs path m files).number d).isSome ↔
      d ∈ files.map (fun file => fs.devInode (path file)) ∨ (m.number d).isSome := by
  induction files generalizing m with
  | nil => simp [inodesAfter]
  | cons file rest ih =>
      have step : ((fs.next (path file) m).number d).isSome ↔ d = fs.devInode (path file) ∨ (m.number d).isSome :=
        known_after (sysInfo (path file) (fs.stat (path file))) m d
      rw [inodesAfter, List.foldl_cons, ← inodesAfter, ih, step, List.map_cons, List.mem_cons]
      tauto

theorem numbers_kept (m : Inodes) (files : List α) (d : DevInode) (n : UInt64) (given : m.number d = some n) :
    (inodesAfter fs path m files).number d = some n := by
  induction files generalizing m with
  | nil => exact given
  | cons file rest ih => exact ih _ (number_kept _ m d n given)

end Runs

structure Numbered (m : Inodes) : Prop where
  counter : m.inumber = UInt64.ofNat m.inodeMap.length
  below : ∀ d n, m.number d = some n → n.toNat < m.inodeMap.length
  distinct : ∀ d e n, m.number d = some n → m.number e = some n → d = e

theorem empty_numbered : Numbered Inodes.empty where
  counter := rfl
  below := fun _ _ impossible => by cases impossible
  distinct := fun _ _ _ impossible => by cases impossible

theorem inode_numbered (i : Info) (m : Inodes) (numbered : Numbered m) (room : m.inodeMap.length < 2 ^ 64) :
    Numbered (inode i m).2 ∧ (inode i m).2.inodeMap.length ≤ m.inodeMap.length + 1 := by
  cases state : m.number i.devInode with
  | some old =>
      rw [inode_known state]
      exact ⟨numbered, Nat.le_succ _⟩
  | none =>
      obtain ⟨_, counter, size, numbers⟩ := inode_new i m state
      have fresh : m.inumber.toNat = m.inodeMap.length := by
        rw [numbered.counter]
        exact UInt64.toNat_ofNat_of_lt' room
      have unused : ∀ d, m.number d ≠ some m.inumber := fun d given =>
        absurd (numbered.below d _ given) (by omega)
      refine ⟨⟨?_, ?_, ?_⟩, Nat.le_of_eq size⟩
      · rw [counter, size, numbered.counter, UInt64.ofNat_add]
        rfl
      · intro d n given
        rw [numbers] at given
        rw [size]
        split at given
        · cases given
          omega
        · have bound := numbered.below d n given
          omega
      · intro d e n first second
        rw [numbers] at first second
        split at first <;> split at second
        · rename_i here there
          rw [here, there]
        · cases first
          exact absurd second (unused e)
        · cases second
          exact absurd first (unused d)
        · exact numbered.distinct d e n first second

theorem numbered_after {α : Type} (fs : FileSystem) (path : α → Bytes) (m : Inodes) (files : List α)
    (numbered : Numbered m) (few : m.inodeMap.length + files.length ≤ 2 ^ 64) : Numbered (inodesAfter fs path m files) := by
  induction files generalizing m with
  | nil => exact numbered
  | cons file rest ih =>
      rw [List.length_cons] at few
      obtain ⟨next, size⟩ := inode_numbered (sysInfo (path file) (fs.stat (path file))) m numbered (by omega)
      exact ih _ next (by simp only [FileSystem.next]; omega)

end URoot.Cpio
