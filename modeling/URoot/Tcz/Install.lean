import URoot.Lib.CleanPath
import URoot.Lib.Fuel
import Mathlib.Data.List.TakeWhile
import Mathlib.Logic.Function.Basic

set_option autoImplicit false

namespace URoot.Tcz

open GoLib

-- What http.Get and the copy of the body into the local file come to. A status other
-- than "200 OK" is a missing file; a copy that breaks off leaves what it has written.
inductive Reply where
  | failed (err : Bytes)
  | status (text : Bytes)
  | ok (body : Bytes) (broken : Option Bytes)
deriving DecidableEq, Repr

inductive Entry where
  | missing
  | file (content : Bytes)
  | unreadable (err : Bytes)
deriving DecidableEq, Repr

structure World where
  disk : Bytes → Entry
  deps : Bytes → Bool

namespace World

def store (w : World) (path content : Bytes) : World := { w with disk := Function.update w.disk path (.file content) }

def mark (w : World) (tczName : Bytes) : World := { w with deps := Function.update w.deps tczName true }

end World

-- tczServerDir, tczLocalPackageDir and ignorePackage as main sets them, the server, and
-- the errors with which the local disk refuses to create or write a file.
structure Setup where
  serverDir : Bytes
  localDir : Bytes
  ignorePackage : Bytes → Bool
  server : Bytes → Reply
  refuses : Bytes → Option Bytes

-- Every one of these ends the process, by l.Fatal or through main.
inductive Failure where
  | get (packageName err : Bytes)
  | create (fullpath err : Bytes)
  | copy (err : Bytes)
  | noEntry
  | cannotRead (depName err : Bytes)
  | rewrite (err : Bytes)
deriving DecidableEq, Repr

namespace Setup

variable (setup : Setup)

def fullPath (name : Bytes) : Bytes := Filepath.joinTwo setup.localDir name

def packageName (name : Bytes) : Bytes := Filepath.joinTwo setup.serverDir name

-- false is syscall.ENOENT. A local file of any kind counts as downloaded.
def fetch (name : Bytes) : Act (Stop Failure) World Bool := do
  let w ← Act.get
  match w.disk (setup.fullPath name) with
  | .file _ => pure true
  | .unreadable _ => pure true
  | .missing =>
      match setup.server (setup.packageName name) with
      | .failed err => Act.fail (.raised (.get (setup.packageName name) err))
      | .status _ => pure false
      | .ok body broken =>
          match setup.refuses (setup.fullPath name) with
          | some err => Act.fail (.raised (.create (setup.fullPath name) err))
          | none => do
              Act.set (w.store (setup.fullPath name) body)
              Act.check (broken.map (fun err => .raised (.copy err)))
              pure true

-- ioutil.WriteFile
def writeFile (path content : Bytes) : Act (Stop Failure) World (Option Bytes) := do
  let w ← Act.get
  match setup.refuses path with
  | some err => pure (some err)
  | none => do
      Act.set (w.store path content)
      pure none

def readFile (depName : Bytes) : Act (Stop Failure) World Bytes := do
  let w ← Act.get
  match w.disk (setup.fullPath depName) with
  | .file content => pure content
  | .unreadable err => Act.fail (.raised (.cannotRead depName err))
  | .missing => Act.fail (.raised (.cannotRead depName (str "no such file or directory")))

def depName (tczName : Bytes) : Bytes := tczName ++ str ".dep"

def depLoop (install : Bytes → Act (Stop Failure) World Unit) : List Bytes → Bytes → Act (Stop Failure) World Bytes
  | [], realDepList => pure realDepList
  | v :: rest, realDepList =>
      if v.isEmpty then pure realDepList
      else if setup.ignorePackage v then depLoop install rest realDepList
      else do
        let w ← Act.get
        if w.deps v then depLoop install rest (realDepList ++ (v ++ [10]))
        else do
          install v
          depLoop install rest (realDepList ++ (v ++ [10]))

def installDeps (install : Bytes → Act (Stop Failure) World Unit) (tczName : Bytes) : Act (Stop Failure) World Unit := do
  let deplist ← setup.readFile (depName tczName)
  let realDepList ← setup.depLoop install (deplist.splitOn 10) []
  if deplist = realDepList then pure ()
  else do
    let refused ← setup.writeFile (setup.fullPath (depName tczName)) realDepList
    Act.check (refused.map (fun err => .raised (.rewrite err)))

-- The error of writing the blank file is only printed.
def installPackage : Nat → Bytes → Act (Stop Failure) World Unit
  | 0, _ => Act.fail .fuel
  | fuel + 1, tczName => do
      let fetched ← setup.fetch tczName
      Act.require (fetched = true) (.raised .noEntry)
      Act.modifyGet (fun w => ((), w.mark tczName))
      let listed ← setup.fetch (depName tczName)
      if listed then setup.installDeps (installPackage fuel) tczName
      else do
        let _ ← setup.writeFile (setup.fullPath (depName tczName)) []
        pure ()

def installEach (fuel : Nat) : List Bytes → Act (Stop Failure) World Unit
  | [] => pure ()
  | cmdName :: rest => do
      setup.installPackage fuel (cmdName ++ str ".tcz")
      installEach fuel rest

end Setup

section Graph

variable (setup : Setup)

def listed (lines : List Bytes) : List Bytes :=
  (lines.takeWhile (fun v => !v.isEmpty)).filter (fun v => !setup.ignorePackage v)

def dependencies (content : Bytes) : List Bytes := listed setup (content.splitOn 10)

def contentOf (w : World) (name : Bytes) : Bytes :=
  match w.disk (setup.fullPath name) with
  | .file content => content
  | .unreadable _ => []
  | .missing =>
      match setup.server (setup.packageName name) with
      | .ok body none => body
      | _ => []

def Edge (w : World) (p q : Bytes) : Prop := q ∈ dependencies setup (contentOf setup w (Setup.depName p))

def Requested (packages : List Bytes) (tczName : Bytes) : Prop := ∃ cmdName ∈ packages, tczName = cmdName ++ str ".tcz"

@[simp] theorem listed_nil : listed setup [] = [] := rfl

theorem listed_stop (rest : List Bytes) : listed setup ([] :: rest) = [] := rfl

theorem listed_ignored (v : Bytes) (rest : List Bytes) (some : v.isEmpty = false) (ignored : setup.ignorePackage v = true) :
    listed setup (v :: rest) = listed setup rest := by
  rw [listed, List.takeWhile_cons_of_pos (by rw [some]; rfl), List.filter_cons_of_neg (by simp [ignored]), listed]

theorem listed_kept (v : Bytes) (rest : List Bytes) (some : v.isEmpty = false) (kept : setup.ignorePackage v = false) :
    listed setup (v :: rest) = v :: listed setup rest := by
  rw [listed, List.takeWhile_cons_of_pos (by rw [some]; rfl), List.filter_cons_of_pos (by simp [kept]), listed]

theorem listed_lines (lines : List Bytes) (v : Bytes) (member : v ∈ listed setup lines) :
    v ∈ lines ∧ v.isEmpty = false ∧ setup.ignorePackage v = false := by
  obtain ⟨before, kept⟩ := List.mem_filter.mp member
  have some := List.mem_takeWhile_imp before
  exact ⟨(List.takeWhile_sublist _).subset before, by simpa using some, by simpa using kept⟩

theorem listed_names (names : List Bytes) (plain : ∀ v ∈ names, v.isEmpty = false ∧ setup.ignorePackage v = false) :
    listed setup (names ++ [[]]) = names := by
  induction names with
  | nil => rfl
  | cons v rest ih =>
      obtain ⟨⟨some, kept⟩, later⟩ := List.forall_mem_cons.mp plain
      rw [List.cons_append, listed_kept setup v _ some kept, ih later]

theorem rewritten_dependencies (content : Bytes) :
    dependencies setup ((dependencies setup content).flatMap (· ++ [10])) = dependencies setup content := by
  have plain : ∀ v ∈ dependencies setup content, v ∈ content.splitOn 10 ∧ v.isEmpty = false ∧ setup.ignorePackage v = false :=
    fun v member => listed_lines setup _ v member
  rw [dependencies, split_ended 10 _ (fun v member => split_clear v (plain v member).1)]
  exact listed_names setup _ (fun v member => (plain v member).2)

theorem dependencies_nil : dependencies setup [] = [] := rfl

end Graph

end URoot.Tcz
