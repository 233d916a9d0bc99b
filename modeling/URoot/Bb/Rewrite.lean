import URoot.Lib.Codec

set_option autoImplicit false

namespace URoot.Bb

open GoLib

-- The go/ast nodes of a body as ast.Inspect walks them. Other is every node the rewrite
-- does not look at, with the nodes below it.
inductive Node where
  | ident (name : Bytes)
  | selector (x : Node) (sel : Bytes)
  | call (fn : Node) (args : List Node)
  | other (kind : Bytes) (parts : List Node)

-- recv is the type of the receiver; a function without a body is one written in assembly.
structure FuncDecl where
  recv : Option Bytes
  name : Bytes
  body : Option (List Node)

inductive Decl where
  | func (f : FuncDecl)
  | gen (names : List Bytes) (values : List Node)

-- The comments are those on the line of the package clause.
structure File where
  package : Bytes
  comments : List Bytes
  decls : List Decl

structure Command where
  cmdName : Bytes

structure Wrapper where
  cmdName : Bytes
  init : Bytes
deriving DecidableEq

structure Output where
  files : List File
  wrapper : Option Wrapper

inductive BbError where
  | nilBody
  | sliceOutOfRange
  | writing
deriving DecidableEq, Repr

section Flags

variable (c : Command)

def Command.flagSet : Bytes := c.cmdName ++ str "flag"

def flagSelector : Node → Option Bytes
  | .selector (.ident name) sel => if name = str "flag" then some sel else none
  | _ => none

mutual

def rewriteNode : Node → Node
  | .ident name => .ident name
  | .selector x sel => .selector (rewriteNode x) sel
  | .call fn args =>
      match flagSelector fn with
      | some sel =>
          if sel = str "Parse" then .call (.selector (.ident c.flagSet) sel) [.ident (str "os.Args[1:]")]
          else if sel = str "Flag" then .call (.selector (.ident (str "flag")) sel) (rewriteNodes args)
          else .call (.selector (.ident c.flagSet) sel) (rewriteNodes args)
      | none => .call (rewriteNode fn) (rewriteNodes args)
  | .other kind parts => .other kind (rewriteNodes parts)

def rewriteNodes : List Node → List Node
  | [] => []
  | node :: rest => rewriteNode node :: rewriteNodes rest

end

end Flags

section Files

variable (c : Command)

def returnStmt : Node := .other (str "ReturnStmt") []

-- A method called main is renamed as well, a method called init is not.
def rewriteFunc (f : FuncDecl) : FuncDecl :=
  if f.name = str "main" then ⟨f.recv, str "Main", f.body.map (fun list => rewriteNodes c (list ++ [returnStmt]))⟩
  else if f.recv = none ∧ f.name = str "init" then ⟨none, str "Init", f.body.map (rewriteNodes c)⟩
  else ⟨f.recv, f.name, f.body.map (rewriteNodes c)⟩

def rewriteDecl : Decl → Decl
  | .func f => .func (rewriteFunc c f)
  | .gen names values => .gen names (rewriteNodes c values)

def rewriteComment (text : Bytes) : Bytes :=
  if text.take 9 = str "// import" then str "// Import" ++ text.drop 9 else text

def rewriteFile (f : File) : File := ⟨c.cmdName, f.comments.map rewriteComment, f.decls.map (rewriteDecl c)⟩

def Decl.isMain : Decl → Bool
  | .func f => f.name = str "main"
  | .gen _ _ => false

def Decl.isInit : Decl → Bool
  | .func f => f.recv = none ∧ f.name = str "init"
  | .gen _ _ => false

def Decl.noBody : Decl → Bool
  | .func f => f.name = str "main" ∧ f.body.isNone
  | .gen _ _ => false

def File.isMain (f : File) : Bool := f.decls.any Decl.isMain

-- c.Init is reset for each file: it is set only if this file has an init.
def initCall (f : File) : Bytes := if f.decls.any Decl.isInit then c.cmdName ++ str ".Init()" else []

def wrapperOf (f : File) : Wrapper := ⟨c.cmdName, initCall c f⟩

-- The generated files have mode 0444, so a second write needs a process that may
-- overwrite them.
def oneFile (overwrite : Bool) (f : File) (out : Output) : Except BbError Output :=
  if f.decls.any Decl.noBody then .error .nilBody
  else if f.comments.any (fun text => text.length < 9) then .error .sliceOutOfRange
  else if f.isMain then
    if out.wrapper.isSome && !overwrite then .error .writing
    else .ok ⟨out.files ++ [rewriteFile c f], some (wrapperOf c f)⟩
  else .ok ⟨out.files ++ [rewriteFile c f], out.wrapper⟩

-- The files of the package are the values of a map: they come in any order.
def eachFile (overwrite : Bool) : List File → Output → Except BbError Output
  | [], out => .ok out
  | f :: rest, out =>
      match oneFile c overwrite f out with
      | .ok next => eachFile overwrite rest next
      | .error e => .error e

def oneCmd (overwrite : Bool) (order : List File) : Except BbError Output := eachFile c overwrite order ⟨[], none⟩

theorem one_file_inv (overwrite : Bool) (f : File) (out next : Output) (done : oneFile c overwrite f out = .ok next) :
    next.files = out.files ++ [rewriteFile c f] ∧
      next.wrapper = if f.isMain then some (wrapperOf c f) else out.wrapper := by
  rw [oneFile] at done
  split at done
  · cases done
  · split at done
    · cases done
    · split at done
      · rename_i main
        split at done
        · cases done
        · cases done
          exact ⟨rfl, by rw [if_pos main]⟩
      · rename_i noMain
        cases done
        exact ⟨rfl, by rw [if_neg noMain]⟩

def lastMain (order : List File) : Option File := (order.filter File.isMain).getLast?

theorem each_file_inv (overwrite : Bool) (order : List File) (start out : Output)
    (done : eachFile c overwrite order start = .ok out) :
    out.files = start.files ++ order.map (rewriteFile c) ∧
      out.wrapper = ((lastMain order).map (wrapperOf c)).or start.wrapper := by
  induction order generalizing start with
  | nil =>
      cases done
      exact ⟨by rw [List.map_nil, List.append_nil], rfl⟩
  | cons f rest ih =>
      rcases one : oneFile c overwrite f start with e | next
      · simp only [eachFile, one] at done
        cases done
      · simp only [eachFile, one] at done
        obtain ⟨files, wrapper⟩ := one_file_inv c overwrite f start next one
        obtain ⟨allFiles, lastWrapper⟩ := ih next done
        refine ⟨by rw [allFiles, files, List.append_assoc, List.map_cons, List.singleton_append], ?_⟩
        rw [lastWrapper, wrapper, lastMain, lastMain]
        by_cases main : f.isMain
        · rw [if_pos main, List.filter_cons_of_pos main, List.getLast?_cons]
          cases (rest.filter File.isMain).getLast? with
          | none => rfl
          | some last => rfl
        · rw [if_neg main, List.filter_cons_of_neg main]

end Files

end URoot.Bb
