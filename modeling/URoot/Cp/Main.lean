import URoot.Cp.Copy
import URoot.Lib.CleanPath
import URoot.Lib.Fuel

set_option autoImplicit false

namespace URoot.Cp

open GoLib

inductive OsError where
  | notExist
  | other (text : Bytes)
deriving DecidableEq, Repr

inductive CpError where
  | os (err : OsError)
  | cantStat (src : Bytes) (err : OsError)
  | cantEvalSymlink (src : Bytes) (err : OsError)
  | isDirectory (src : Bytes)
  | sameFile (src dst : Bytes)
  | cantOpen (src : Bytes) (err : OsError)
  | cantCreate (dst : Bytes) (err : OsError)
  | cantOverwriteNonDir (dst src : Bytes)
  | cantListFiles (src : Bytes) (err : OsError)
  | copying (err : CopyError)
deriving DecidableEq, Repr

structure FileInfo where
  symlink : Bool
  isDir : Bool
  mode : Nat
  dev : Nat
  ino : Nat
deriving DecidableEq, Repr

structure Flags where
  recursive : Bool
  ask : Bool
  force : Bool
  symlink : Bool
deriving DecidableEq, Repr

-- The system calls cp makes, and copyOneFile, each with any outcome at any time.
structure Os (σ : Type) where
  lstat : Bytes → Act OsError σ FileInfo
  stat : Bytes → Act OsError σ FileInfo
  evalSymlinks : Bytes → Act OsError σ Bytes
  symlink : Bytes → Bytes → Act OsError σ Unit
  readString : Act OsError σ Bytes
  openRead : Bytes → Act OsError σ Unit
  openFile : Bytes → Nat → Act OsError σ Unit
  mkdir : Bytes → Nat → Act OsError σ Unit
  readDir : Bytes → Act OsError σ (List Bytes)
  copyOneFile : Bytes → Bytes → Act CopyError σ Unit

inductive Trouble where
  | failed (err : CpError)
  | panic
  | fatal (to_ : Bytes)
deriving DecidableEq, Repr

structure World (σ : Type) where
  os : σ
  failed : List (Bytes × CpError)

-- Directories can be nested without end, so what is run has a budget of levels.
abbrev Run (σ : Type) := Act (Stop Trouble) (World σ)

section Model

variable {σ α : Type}

def tried (x : Act OsError σ α) : Run σ (Except OsError α) :=
  ⟨fun w => (.ok (x.run w.os).1, { w with os := (x.run w.os).2 })⟩

def sys {ε : Type} (wrap : ε → CpError) (x : Act ε σ α) : Run σ α :=
  Act.within World.os (fun w next => { w with os := next }) (fun e => .raised (.failed (wrap e))) x

def raise (err : CpError) : Run σ α := Act.fail (.raised (.failed err))

def panics : Run σ α := Act.fail (.raised .panic)

def note (src : Bytes) (err : CpError) : Run σ Unit :=
  Act.modifyGet fun w => ((), { w with failed := w.failed ++ [(src, err)] })

def noted (src : Bytes) (x : Run σ Unit) : Run σ Unit := do
  let result ← Act.attempt x
  match result with
  | .ok _ => pure ()
  | .error (.failed err) => do
      note src err
      raise err
  | .error other => Act.fail (.raised other)

def returned (x : Run σ Unit) : Run σ (Option CpError) := do
  let result ← Act.attempt x
  match result with
  | .ok _ => pure none
  | .error (.failed err) => pure (some err)
  | .error other => Act.fail (.raised other)

variable (flags : Flags) (os : Os σ)

def promptOverwrite : Run σ Bool := do
  let answer ← sys .os os.readString
  match answer with
  | [] => panics
  | b :: _ => pure (b = 121 ∨ b = 89)

def sameFile (sys1 sys2 : FileInfo) : Bool := sys1.dev = sys2.dev ∧ sys1.ino = sys2.ino

-- Whether to go on, after os.Stat(dst). Only a destination that does not exist is
-- taken as missing; after any other error dstb is nil.
def overwrite (srcb : FileInfo) (src dst : Bytes) : Except OsError FileInfo → Run σ Bool
  | .error .notExist => pure true
  | .error (.other _) => panics
  | .ok dstb =>
      if sameFile srcb dstb then raise (.sameFile src dst)
      else if flags.ask ∧ ¬ flags.force then promptOverwrite os
      else pure true

def copyContent (srcb : FileInfo) (src dst : Bytes) : Run σ Unit := do
  sys (.cantOpen src) (os.openRead src)
  sys (.cantCreate dst) (os.openFile dst (srcb.mode % 512))
  sys .copying (os.copyOneFile src dst)

def createDir (src dst : Bytes) : Run σ Unit := do
  let dstInfo ← tried (os.stat dst)
  match dstInfo with
  | .error .notExist => do
      let srcInfo ← sys .os (os.stat src)
      sys .os (os.mkdir dst srcInfo.mode)
  | .error err => raise (.os err)
  | .ok info => if info.isDir then pure () else raise (.cantOverwriteNonDir dst src)

def copyNames (copy : Bytes → Run σ Unit) : List Bytes → Run σ Unit
  | [] => pure ()
  | name :: rest => do
      let _ ← returned (copy name)
      copyNames copy rest

def copyDir (copyFile : Bytes → Bytes → Run σ Unit) (src dst : Bytes) : Run σ Unit := do
  createDir os src dst
  let files ← sys (.cantListFiles src) (os.readDir src)
  copyNames (fun name => copyFile (Filepath.joinTwo src name) (Filepath.joinTwo dst name)) files

def copyBody (copyFile : Bytes → Bytes → Run σ Unit) (src dst : Bytes) : Run σ Unit := do
  let srcb ← sys (.cantStat src) (os.lstat src)
  if flags.symlink ∧ srcb.symlink then do
    let linkPath ← sys (.cantEvalSymlink src) (os.evalSymlinks src)
    sys .os (os.symlink linkPath dst)
  else if srcb.isDir then
    if flags.recursive then copyDir os copyFile src dst else raise (.isDirectory src)
  else do
    let found ← tried (os.stat dst)
    let go ← overwrite flags os srcb src dst found
    if go then copyContent os srcb src dst else pure ()

def copyFile : Nat → Bytes → Bytes → Bool → Run σ Unit
  | 0, _, _, _ => Act.fail .fuel
  | depth + 1, src, dst, todir =>
      noted src (copyBody flags os (fun src dst => copyFile depth src dst false) src
        (if todir then Filepath.joinTwo dst (Filepath.base src) else dst))

def copyEach (copy : Bytes → Run σ Unit) : List Bytes → Option CpError → Run σ (Option CpError)
  | [], lastErr => pure lastErr
  | file :: rest, lastErr => do
      let err ← returned (copy file)
      copyEach copy rest (err.or lastErr)

def isDirStat : Except OsError FileInfo → Bool
  | .ok info => info.isDir
  | .error _ => false

def statErr : Except OsError FileInfo → Option CpError
  | .error err => some (.os err)
  | .ok _ => none

-- The named result lastErr is set in the loop, and then the return statement sets it to err.
def cp (sources : List Bytes) (to_ : Bytes) (depth : Nat) : Run σ (Option CpError) := do
  let toStat ← tried (os.stat to_)
  if sources.length + 1 > 2 ∧ isDirStat toStat = false then Act.fail (.raised (.fatal to_))
  else do
    let _lastErr ← copyEach (fun file => copyFile flags os depth file to_ (isDirStat toStat)) sources none
    pure (statErr toStat)

end Model

end URoot.Cp
