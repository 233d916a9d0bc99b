import URoot.Lib.CleanPath
import URoot.Lib.Lines
import URoot.Lib.Runs

set_option autoImplicit false

namespace URoot.Grep

open GoLib Lines

structure Flags where
  match_ : Bool
  recursive : Bool
  noshowmatch : Bool
  quiet : Bool
deriving DecidableEq, Repr

structure GrepResult where
  match_ : Bool
  name : Bytes
  line : Bytes
deriving DecidableEq, Repr

-- The content is what reading the file delivers up to its end or to a read error.
structure GrepCommand where
  name : Bytes
  content : Bytes
deriving DecidableEq, Repr

section Walk

-- What is at a path: nothing that Lstat can find, a file, or a directory, which opens as well.
mutual
inductive Node where
  | missing
  | file (opens : Option Bytes)
  | dir (opens : Option Bytes) (listing : Listing)
inductive Listing where
  | unreadable
  | done
  | entry (name : Bytes) (node : Node) (rest : Listing)
end

structure Found where
  name : Bytes
  opens : Option Bytes
deriving DecidableEq, Repr

inductive Visit where
  | send (found : Found)
  | panic
deriving DecidableEq, Repr

-- filepath.Walk with main's function: the names it sends, and whether it returns an error
-- that ends the walk. The function asks a nil FileInfo whether it is a directory.
mutual
def walk (recursive : Bool) (name : Bytes) : Node → List Visit × Bool
  | .missing => ([.panic], true)
  | .file opens => ([.send ⟨name, opens⟩], false)
  | .dir opens listing =>
      if recursive then
        let (visits, failed) := walkListing recursive name listing
        (.send ⟨name, opens⟩ :: visits, failed)
      else ([], false)
def walkListing (recursive : Bool) (name : Bytes) : Listing → List Visit × Bool
  | .unreadable => ([], true)
  | .done => ([], false)
  | .entry child node rest =>
      let (visits, failed) := walk recursive (Filepath.joinTwo name child) node
      if failed then (visits, true)
      else
        let (more, failed) := walkListing recursive name rest
        (visits ++ more, failed)
end

end Walk

section Actors

-- Where the goroutine that opens the files is: files is an unbuffered channel.
inductive Opener where
  | waiting
  | sending (c : GrepCommand)
  | closed
deriving DecidableEq, Repr

inductive GrepPc where
  | started
  | announcing
  | reading
  | sending (r : GrepResult)
  | closing
  | closed
deriving DecidableEq, Repr

-- res is the channel of results, with room for one.
structure Worker where
  command : GrepCommand
  pc : GrepPc
  rest : Bytes
  res : Option GrepResult
deriving DecidableEq, Repr

def newWorker (c : GrepCommand) : Worker := ⟨c, .started, c.content, none⟩

inductive MainPc where
  | spawning
  | receiving
  | draining (k : Nat)
  | testing
  | ended
  | exited (code : Nat)
deriving DecidableEq, Repr

structure State where
  visits : List Visit
  treenames : List Found
  namesClosed : Bool
  opener : Opener
  workers : List Worker
  nGrep : Int
  main : MainPc
  printed : List (Nat × Bytes)
  crashed : Bool
deriving DecidableEq, Repr

inductive Actor where
  | walker
  | opener
  | main
  | receive (k : Nat)
  | grep (k : Nat)
deriving DecidableEq, Repr

def State.alive (s : State) : Bool :=
  !s.crashed && match s.main with
    | .ended | .exited _ => false
    | _ => true

def treenamesSize : Nat := 128

def stepWalker (s : State) : Option State :=
  match s.visits with
  | [] => if s.namesClosed then none else some { s with namesClosed := true }
  | .send found :: rest =>
      if s.treenames.length < treenamesSize then some { s with visits := rest, treenames := s.treenames ++ [found] } else none
  | .panic :: rest => some { s with visits := rest, crashed := true }

def stepOpener (s : State) : Option State :=
  match s.opener, s.treenames with
  | .waiting, ⟨name, some content⟩ :: rest => some { s with treenames := rest, opener := .sending ⟨name, content⟩ }
  | .waiting, ⟨_, none⟩ :: rest => some { s with treenames := rest }
  | .waiting, [] => if s.namesClosed then some { s with opener := .closed } else none
  | _, _ => none

end Actors

structure Invocation where
  flags : Flags
  re : Bytes → Bool
  args : List (Bytes × Node)
  stdin : Bytes

namespace Invocation

variable (i : Invocation)

def showname : Bool := i.args.length > 1

def printmatch (r : GrepResult) : Bytes :=
  (if i.showname then r.name else []) ++
    if i.flags.noshowmatch then []
    else if r.match_ = i.flags.match_ then (if i.showname then str ":" else []) ++ r.line
    else []

def stepGrep (s : State) (k : Nat) (w : Worker) : Option State :=
  match w.pc with
  | .started => some { s with nGrep := s.nGrep + 1, workers := s.workers.set k { w with pc := .announcing } }
  | .announcing => none
  | .reading =>
      match readString newline w.rest with
      | some (line, rest) =>
          let pc := if i.re line = i.flags.match_ then .sending ⟨i.re line, w.command.name, line⟩ else .reading
          some { s with workers := s.workers.set k { w with rest := rest, pc := pc } }
      | none => some { s with workers := s.workers.set k { w with pc := .closing } }
  | .sending r =>
      if w.res = none then
        let pc := if i.flags.noshowmatch then .closing else .reading
        some { s with workers := s.workers.set k { w with res := some r, pc := pc } }
      else none
  | .closing => some { s with workers := s.workers.set k { w with pc := .closed } }
  | .closed => none

def stepReceive (s : State) (k : Nat) (w : Worker) : Option State :=
  if s.main = .receiving ∧ w.pc = .announcing then
    some { s with main := .draining k, workers := s.workers.set k { w with pc := .reading } }
  else none

def stepDrain (s : State) (k : Nat) (w : Worker) : Option State :=
  match w.res with
  | some r =>
      if i.flags.quiet then some { s with main := .exited 0 }
      else some { s with workers := s.workers.set k { w with res := none }, printed := s.printed ++ [(k, i.printmatch r)] }
  | none => if w.pc = .closed then some { s with nGrep := s.nGrep - 1, main := .testing } else none

def stepMain (s : State) : Option State :=
  match s.main with
  | .spawning =>
      match s.opener with
      | .waiting => none
      | .sending c => some { s with opener := .waiting, workers := s.workers ++ [newWorker c] }
      | .closed => some { s with main := .receiving }
  | .receiving => none
  | .draining k => s.workers[k]?.bind (i.stepDrain s k)
  | .testing =>
      if s.nGrep = 0 then some { s with main := if i.flags.quiet then .exited 1 else .ended }
      else some { s with main := .receiving }
  | .ended => none
  | .exited _ => none

def step (a : Actor) (s : State) : Option State :=
  if s.alive then
    match a with
    | .walker => stepWalker s
    | .opener => stepOpener s
    | .main => i.stepMain s
    | .receive k => s.workers[k]?.bind (stepReceive s k)
    | .grep k => s.workers[k]?.bind (i.stepGrep s k)
  else none

def visits : List Visit := i.args.flatMap (fun (name, node) => (walk i.flags.recursive name node).1)

def start : State :=
  if i.args = [] then ⟨[], [], true, .closed, [newWorker ⟨str "<stdin>", i.stdin⟩], 0, .receiving, [], false⟩
  else ⟨i.visits, [], false, .waiting, [], 0, .spawning, [], false⟩

end Invocation

end URoot.Grep
