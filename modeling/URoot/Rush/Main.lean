import URoot.Rush.Parse

set_option autoImplicit false

namespace URoot.Rush

open GoLib

section Jobs

inductive Trouble where
  | panic
  | failed (text : Bytes)
deriving DecidableEq, Repr

abbrev Stage (α : Type) := Except Trouble α

inductive Stream where
  | std (fd : Nat)
  | file (path : Bytes)
  | pipe (i : Nat)
deriving DecidableEq, Repr

structure SysProcAttr where
  cloneflags : UInt64
deriving DecidableEq, Repr

-- exec.Cmd
structure Cmd where
  args : List Bytes
  stdin : Option Stream
  stdout : Option Stream
  stderr : Option Stream
  sysProcAttr : Option SysProcAttr
deriving DecidableEq, Repr

-- A command of the parser with what the shell adds to it. The Cmd is a nil pointer at first.
structure Job where
  command : Command
  files : List (Nat × Bytes)
  cmd : Bytes
  argv : List Bytes
  exec : Option Cmd
deriving DecidableEq, Repr

def newJob (c : Command) : Job := ⟨c, [], [], [], none⟩

structure System where
  readFile : Files
  glob : Bytes → Except Bytes (List Bytes)
  openFile : Nat → Bytes → Option Bytes
  create : Nat → Bytes → Option Bytes
  stdinPipe : Nat → Option Bytes
  stdoutPipe : Nat → Option Bytes

end Jobs

section Stages

variable (sys : System)

def expand (v : Arg) : Stage (List Bytes) :=
  if v.mod = .ENV then
    match sys.readFile (envPath v.val) with
    | .ok b => .ok [b]
    | .error e => .error (.failed e)
  else
    match sys.glob v.val with
    | .ok (first :: globs) => .ok (first :: globs)
    | _ => .ok [v.val]

def globArgs : List Arg → Stage (List Bytes)
  | [] => .ok []
  | v :: rest => do
      let here ← expand sys v
      let more ← globArgs rest
      .ok (here ++ more)

def setArgs (c : Job) : List Bytes → Stage Job
  | [] => .error .panic
  | cmd :: argv => .ok { c with cmd := cmd, argv := argv }

def doArgs : List Job → Stage (List Job)
  | [] => .ok []
  | c :: rest => do
      let globargv ← globArgs sys c.command.args
      let c' ← setArgs c globargv
      let rest' ← doArgs rest
      .ok (c' :: rest')

-- exec.Command leaves SysProcAttr nil.
def execCommand (name : Bytes) (arg : List Bytes) : Cmd := ⟨name :: arg, none, none, none, none⟩

def cloneNewNS : UInt64 := 0x20000

def unshare (cmd : Cmd) : Stage Cmd :=
  match cmd.sysProcAttr with
  | none => .error .panic
  | some attr => .ok { cmd with sysProcAttr := some ⟨attr.cloneflags ||| cloneNewNS⟩ }

def makeCommand (c : Job) : Stage Job :=
  if c.cmd = str "builtin" then do
    let cmd ← unshare (execCommand c.cmd c.argv)
    .ok { c with exec := some cmd }
  else .ok { c with exec := some (execCommand c.cmd c.argv) }

def commands : List Job → Stage (List Job)
  | [] => .ok []
  | c :: rest => do
      let c' ← makeCommand c
      let rest' ← commands rest
      .ok (c' :: rest')

def deref (c : Job) : Stage Cmd :=
  match c.exec with
  | none => .error .panic
  | some cmd => .ok cmd

def openWith (result : Bytes → Option Bytes) (c : Job) (default : Stream) (fd : Nat) : Stage (Stream × Job) :=
  if c.command.fd fd ≠ [] then
    match result (c.command.fd fd) with
    | some e => .error (.failed e)
    | none => .ok (.file (c.command.fd fd), { c with files := (fd, c.command.fd fd) :: c.files })
  else .ok (default, c)

def openRead (i : Nat) : Job → Stream → Nat → Stage (Stream × Job) := openWith (sys.openFile i)

def openWrite (i : Nat) : Job → Stream → Nat → Stage (Stream × Job) := openWith (sys.create i)

def wireStdin (i : Nat) (c : Job) : Stage Job := do
  let cmd ← deref c
  if cmd.stdin = none then do
    let (stream, c') ← openRead sys i c (.std 0) 0
    .ok { c' with exec := some { cmd with stdin := some stream } }
  else .ok c

def wireStdout (i : Nat) (c : Job) : Stage Job := do
  let cmd ← deref c
  if c.command.link ≠ str "|" then do
    let (stream, c') ← openWrite sys i c (.std 1) 1
    .ok { c' with exec := some { cmd with stdout := some stream } }
  else .ok c

def wireStderr (i : Nat) (c : Job) : Stage Job := do
  let cmd ← deref c
  let (stream, c') ← openWrite sys i c (.std 2) 2
  .ok { c' with exec := some { cmd with stderr := some stream } }

def wireOne (i : Nat) (c : Job) : Stage Job := do
  let c ← wireStdin sys i c
  let c ← wireStdout sys i c
  wireStderr sys i c

def stdinPipe (i : Nat) (c : Job) : Stage Job := do
  let cmd ← deref c
  if cmd.stdin ≠ none then .error (.failed (str "exec: Stdin already set"))
  else
    match sys.stdinPipe i with
    | some e => .error (.failed e)
    | none => .ok { c with exec := some { cmd with stdin := some (.pipe i) } }

def stdoutPipe (i : Nat) (c : Job) : Stage Job := do
  let cmd ← deref c
  if cmd.stdout ≠ none then .error (.failed (str "exec: Stdout already set"))
  else
    match sys.stdoutPipe i with
    | some e => .error (.failed e)
    | none => .ok { c with exec := some { cmd with stdout := some (.pipe i) } }

def index (cmds : List Job) (i : Nat) : Stage Job :=
  match cmds[i]? with
  | some c => .ok c
  | none => .error .panic

def wireLoop : Nat → Nat → List Job → Stage (List Job)
  | 0, _, cmds => .ok cmds
  | left + 1, i, cmds => do
      let c ← index cmds i
      let c ← wireOne sys i c
      let cmds := cmds.set i c
      if c.command.link ≠ str "|" then wireLoop left (i + 1) cmds
      else do
        let after ← index cmds (i + 1)
        let after ← stdinPipe sys i after
        let c ← stdoutPipe sys i c
        wireLoop left (i + 1) ((cmds.set (i + 1) after).set i c)

def wire (cmds : List Job) : Stage (List Job) := wireLoop sys cmds.length 0 cmds

def stages (cmds : List Command) : Stage (List Job) := do
  let jobs ← doArgs sys (cmds.map newJob)
  let jobs ← commands jobs
  wire sys jobs

end Stages

section Running

-- A command in the background reports no error.
def command (c : Command) (runit : Option Bytes) : Option Bytes := if c.bg then none else runit

def runCommands (runit : Nat → Option Bytes) : Nat → List Command → List Nat
  | _, [] => []
  | i, c :: rest =>
      i :: match command c (runit i) with
        | some _ => if c.link = str "||" then runCommands runit (i + 1) rest else []
        | none => if c.link = str "||" then [] else runCommands runit (i + 1) rest

end Running

end URoot.Rush
