import URoot.Lib.CleanPath
import URoot.Cpio.FsUnix

set_option autoImplicit false

namespace URoot.Ramfs

open GoLib Cpio

section Model

def gmt0 : Bytes :=
  str "TZif2\x00\x00\x00\x00\x00\x00\x00\x00\x00\x00\x00\x00\x00\x00\x00\x00\x00\x00\x01\x00\x00\x00\x01\x00" ++
    str "\x00\x00\x00\x00\x00\x00\x00\x00\x00\x00\x01\x00\x00\x00\x04\x00\x00\x00\x00\x00\x00GMT\x00\x00\x00TZif2" ++
    str "\x00\x00\x00\x00\x00\x00\x00\x00\x00\x00\x00\x00\x00\x00\x00\x00\x00\x00\x01\x00\x00\x00\x01\x00\x00\x00" ++
    str "\x00\x00\x00\x00\x01\x00\x00\x00\x01\x00\x00\x00\x04\xf8\x00\x00\x00\x00\x00\x00\x00\x00\x00\x00\x00\x00" ++
    str "\x00\x00GMT\x00\x00\x00\nGMT0\n"

def nameserver : Bytes := str "nameserver 8.8.8.8\n"

def directory (name : Bytes) : Record := { info := { name := name, mode := 0o040755 } }

def device (name : Bytes) (mode rmajor rminor : UInt64) : Record :=
  { info := { name := name, mode := 0o020000 ||| mode, rmajor := rmajor, rminor := rminor } }

-- The readers of the two files are package variables: they deliver their text to
-- the first archive that is made and nothing to the later ones.
def fileRecord (name contents : Bytes) (unread : Bool) : Record :=
  ⟨some (newBytesReadCloser (if unread then contents else [])),
    { name := name, mode := 0o100644, fileSize := UInt64.ofNat contents.length }⟩

def devCpio (unread : Bool) : List Record :=
  [directory (str "tcz"), directory (str "etc"), directory (str "dev"), directory (str "ubin"), directory (str "usr"),
    directory (str "usr/lib"), directory (str "lib64"), directory (str "bin"),
    device (str "dev/console") 0o600 5 1, device (str "dev/tty") 0o666 5 0, device (str "dev/null") 0o666 1 3,
    device (str "dev/port") 0o640 1 4, device (str "dev/urandom") 0o666 1 9,
    fileRecord (str "etc/resolv.conf") nameserver unread, fileRecord (str "etc/localtime") gmt0 unread]

-- The inode numbers are a package variable of cpio; files is a Go map used as a set.
structure Initramfs (σ : Type) where
  inodes : Inodes
  writer : Cpio.Writer σ
  files : List Bytes

variable {σ : Type} (io : IoWriter σ)

def newInitramfs (unread : Bool) (inodes : Inodes) (w : Cpio.Writer σ) : Except WriteError (Initramfs σ) :=
  match (writeRecords io ((devCpio unread).map makeReproducible)).run w with
  | (.ok _, next) => .ok ⟨inodes, next, []⟩
  | (.error e, _) => .error e

def embeddedWrite (r : Record) : Act WriteError (Initramfs σ) Unit :=
  Act.within Initramfs.writer (fun i w => { i with writer := w }) id (Cpio.writeRecord io r)

def addRecord (r : Record) : Act WriteError (Initramfs σ) Unit := do
  Act.modifyGet (fun i => ((), { i with files := r.info.name :: i.files }))
  embeddedWrite io r

def writeRecord (r : Record) : Act WriteError (Initramfs σ) Unit :=
  if r.info.name = str "." ∨ r.info.name = str "/" then pure ()
  else do
    -- Create record for parent directory if needed.
    let i ← Act.get
    if _needed : (Filepath.dir r.info.name ≠ str "/" ∧ Filepath.dir r.info.name ≠ str ".") ∧
        Filepath.dir r.info.name ∉ i.files then
      writeRecord (directory (Filepath.dir r.info.name))
    addRecord io r
termination_by r.info.name.length
decreasing_by exact Filepath.dir_shorter _ _needed.1.2 _needed.1.1

inductive FileError where
  | get (err : IoError)
  | readdir (err : IoError)
  | write (err : WriteError)
  | nesting

-- os.IsNotExist looks at the error value itself; a formatted error is not one.
def isNotExist (notExist : IoError → Bool) : FileError → Bool
  | .get e => notExist e
  | .readdir e => notExist e
  | .write (.record e) => notExist e
  | .write (.notRelative _) => false
  | .write (.records _ _) => false
  | .nesting => false

structure Tree extends FileSystem where
  readdirnames : Bytes → Except IoError (List Bytes)
  notExist : IoError → Bool
  nesting : Nat

def children (notExist : IoError → Bool) (fn : Bytes → Act FileError (Initramfs σ) Unit) :
    List Bytes → Act FileError (Initramfs σ) Unit
  | [] => pure ()
  | name :: rest => ⟨fun i =>
      match (fn name).run i with
      | (.ok _, next) => (children notExist fn rest).run next
      | (.error e, next) =>
          -- File was deleted in the meantime.
          if isNotExist notExist e then (children notExist fn rest).run next else (.error e, next)⟩

def getTreeRecord (fs : FileSystem) (src : Bytes) : Act FileError (Initramfs σ) Record :=
  Act.within Initramfs.inodes (fun i m => { i with inodes := m }) .get (getRecord fs src)

def writeFileRecord (r : Record) : Act FileError (Initramfs σ) Unit :=
  Act.within id (fun _ i => i) .write (writeRecord io r)

def writeFile (fs : Tree) : Nat → Bytes → Bytes → Act FileError (Initramfs σ) Unit
  | 0, _, _ => Act.fail .nesting
  | depth + 1, src, dest => do
      let record ← getTreeRecord fs.toFileSystem src
      if record.info.mode &&& ~~~0o777 = 0o040000 then
        let names ← Act.ofExcept ((fs.readdirnames src).mapError .readdir)
        children fs.notExist
          (fun name => writeFile fs depth (Filepath.joinTwo src name) (Filepath.joinTwo dest name)) names
      else writeFileRecord io (makeReproducible (record.rename dest))

def writeFiles (fs : Tree) (srcDir destDir : Bytes) : List Bytes → Act FileError (Initramfs σ) Unit
  | [] => pure ()
  | file :: rest => do
      writeFile io fs fs.nesting (Filepath.joinTwo srcDir file) (Filepath.joinTwo destDir file)
      writeFiles fs srcDir destDir rest

inductive Call where
  | writeRecord (r : Record)
  | writeFile (fs : Tree) (src dest : Bytes)
  | writeFiles (fs : Tree) (srcDir destDir : Bytes) (files : List Bytes)

def Call.perform : Call → Act FileError (Initramfs σ) Unit
  | .writeRecord r => writeFileRecord io r
  | .writeFile fs src dest => Ramfs.writeFile io fs fs.nesting src dest
  | .writeFiles fs srcDir destDir files => Ramfs.writeFiles io fs srcDir destDir files

def performAll : List Call → Act FileError (Initramfs σ) Unit
  | [] => pure ()
  | call :: rest => do
      call.perform io
      performAll rest

end Model

section DevCpio

theorem no_content_reads (r : Record) (none : r.readCloser = none) : r.Reads := by
  intro source present
  rw [none] at present
  cases present

theorem dev_cpio_reads (unread : Bool) : ∀ r ∈ (devCpio unread).map makeReproducible, r.Reads := by
  intro r member
  obtain ⟨base, listed, rfl⟩ := List.mem_map.mp member
  have shape : base.readCloser = none ∨ ∃ contents, base.readCloser = some (newBytesReadCloser contents) := by
    simp only [devCpio, List.mem_cons, List.not_mem_nil, or_false] at listed
    rcases listed with rfl | rfl | rfl | rfl | rfl | rfl | rfl | rfl | rfl | rfl | rfl | rfl | rfl | rfl | rfl <;>
      first
        | exact Or.inl rfl
        | exact Or.inr ⟨_, rfl⟩
  rcases shape with none | ⟨contents, held⟩
  · exact no_content_reads _ none
  · intro source present
    rw [show (makeReproducible base).readCloser = base.readCloser from rfl, held] at present
    cases present
    exact ⟨rfl, rfl⟩

end DevCpio

end URoot.Ramfs
