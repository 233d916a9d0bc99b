import URoot.Lib.Fuel
import URoot.Lib.CleanPath

set_option autoImplicit false

namespace URoot.Rush

open GoLib

section Tokens

-- bufio.Reader over a finite stream: the byte the last successful read
-- delivered, as long as it has not been unread, and what is still to come.
structure Reader where
  last : Option UInt8
  rest : Bytes
deriving DecidableEq, Repr

def newReader (data : Bytes) : Reader := ⟨none, data⟩

inductive TokType where
  | EOF
  | FD
  | ENV
  | ARG
  | white
  | EOL
  | LINK
  | BG
deriving DecidableEq, Repr

def TokType.text : TokType → Bytes
  | .EOF => str "EOF"
  | .FD => str "FD"
  | .ENV => str "ENV"
  | .ARG => str "ARG"
  | .white => str "white"
  | .EOL => str "EOL"
  | .LINK => str "LINK"
  | .BG => str "BG"

structure Token where
  type : TokType
  s : Bytes
deriving DecidableEq, Repr

-- A panic carries the text of its error.
abbrev Parser (α : Type) := Act (Stop Bytes) Reader α

def punct : Bytes := str "<>|&$ \t\n"

def pushback : Parser Unit :=
  ⟨fun r =>
    match r.last with
    | some c => (.ok (), ⟨none, c :: r.rest⟩)
    | none => (.error (.raised (str "unreading bufio: bufio: invalid use of UnreadByte")), r)⟩

-- At the end of the stream ReadByte fails and leaves the last byte as it is.
def one : Parser UInt8 :=
  ⟨fun r =>
    match r.rest with
    | [] => (.ok 0, r)
    | c :: rest => (.ok c, ⟨some c, rest⟩)⟩

def next : Parser UInt8 := do
  let c ← one
  if c = 92 then one else pure c

def gather : Nat → UInt8 → Bytes → Parser Bytes
  | 0, _, _ => Act.fail .fuel
  | n + 1, c, arg =>
      if c = 0 then pure arg
      else if c ∈ punct then do
        pushback
        pure arg
      else do
        let c' ← next
        gather n c' (arg ++ utf8 c)

def quoted : Nat → Bytes → Parser Bytes
  | 0, _ => Act.fail .fuel
  | n + 1, arg => do
      let nc ← next
      if nc = 39 then pure arg else quoted n (arg ++ utf8 nc)

-- | and &: the byte after is read as it is, without next.
def link (c : UInt8) : Parser Token := do
  let nc ← one
  if nc = c then pure ⟨.LINK, utf8 c ++ utf8 c⟩
  else do
    pushback
    if c = 38 then pure ⟨.BG, if nc = 0 then TokType.EOL.text else TokType.BG.text⟩ else pure ⟨.LINK, utf8 c⟩

def tok (n : Nat) : Parser Token := do
  let c ← next
  if c = 0 then pure ⟨.EOF, []⟩
  else if c = 62 then pure ⟨.FD, str "1"⟩
  else if c = 60 then pure ⟨.FD, str "0"⟩
  else if c = 36 then do
    let c' ← next
    let arg ← gather n c' []
    pure ⟨.ENV, arg⟩
  else if c = 39 then do
    let arg ← quoted n []
    pure ⟨.ARG, arg⟩
  else if c = 32 ∨ c = 9 then pure ⟨.white, utf8 c⟩
  else if c = 10 then pure ⟨.EOL, []⟩
  else if c = 124 ∨ c = 38 then link c
  else do
    let arg ← gather n c []
    pure ⟨.ARG, arg⟩

end Tokens

section Commands

structure Arg where
  val : Bytes
  mod : TokType
deriving DecidableEq, Repr

structure Command where
  args : List Arg
  fdmap : List (Nat × Bytes)
  link : Bytes
  bg : Bool
deriving DecidableEq, Repr

def newCommand : Command := ⟨[], [], [], false⟩

-- A key that is not in the map reads as the empty string.
def Command.fd (c : Command) (x : Nat) : Bytes := (c.fdmap.lookup x).getD []

def getArg : Nat → TokType → Parser Bytes
  | 0, _ => Act.fail .fuel
  | n + 1, what => do
      let t ← tok n
      match t.type with
      | .EOF | .EOL => Act.fail (.raised (what.text ++ str " requires an argument"))
      | .white => getArg n what
      | .ARG => pure t.s
      | other => Act.fail (.raised (what.text ++ str " requires an argument, not " ++ other.text))

theorem get_arg_succ (n : Nat) (what : TokType) : getArg (n + 1) what = tok n >>= fun t =>
    match t.type with
    | .EOF | .EOL => Act.fail (.raised (what.text ++ str " requires an argument"))
    | .white => getArg n what
    | .ARG => pure t.s
    | other => Act.fail (.raised (what.text ++ str " requires an argument, not " ++ other.text)) := rfl

abbrev Files := Bytes → Except Bytes Bytes

def envDir : Bytes := str "/env"

def envPath (s : Bytes) : Bytes := if Filepath.isAbs s then s else Filepath.joinTwo envDir s

def readEnv (files : Files) (s : Bytes) : Parser Bytes :=
  match files (envPath s) with
  | .ok data => pure data
  | .error e => Act.fail (.raised (envPath s ++ str ": " ++ e))

-- fmt.Sscanf of the two numbers tok hands out.
def fdNumber (s : Bytes) : Parser Nat :=
  if s = str "0" then pure 0
  else if s = str "1" then pure 1
  else Act.fail (.raised (str "bad FD on redirect: " ++ s ++ str ", expected integer"))

-- What parsestring returns: whether it returns its command or nil, the type of
-- the token it stopped at, and the command, which it changes in place either way.
structure Parsed where
  found : Bool
  type : TokType
  c : Command
deriving DecidableEq, Repr

-- parseLoop is the for loop of parsestring, on the token t. An ENV token runs
-- parsestring on the contents of the file, with the same command.
mutual
def parsestring (files : Files) : Nat → Command → Parser Parsed
  | 0, _ => Act.fail .fuel
  | n + 1, c => do
      let t ← tok n
      if t.s = str "\n" ∨ t.type = .EOF ∨ t.type = .EOL then pure ⟨false, t.type, c⟩ else parseLoop files n t c
def parseLoop (files : Files) : Nat → Token → Command → Parser Parsed
  | 0, _, _ => Act.fail .fuel
  | n + 1, t, c =>
      match t.type with
      | .ENV => do
          let data ← readEnv files t.s
          let inner ← Act.isolated (newReader data) (parsestring files n c)
          let t' ← tok n
          parseLoop files n t' inner.c
      | .ARG => do
          let t' ← tok n
          parseLoop files n t' { c with args := c.args ++ [⟨t.s, t.type⟩] }
      | .white => do
          let t' ← tok n
          parseLoop files n t' c
      | .FD => do
          let x ← fdNumber t.s
          let s ← getArg n t.type
          let t' ← tok n
          parseLoop files n t' { c with fdmap := (x, s) :: c.fdmap }
      | .LINK => pure ⟨true, t.type, { c with link := t.s }⟩
      | .BG => pure ⟨true, t.type, { c with bg := true }⟩
      | .EOF | .EOL => pure ⟨true, t.type, c⟩
end

def parse (files : Files) (n : Nat) : Parser Parsed := parsestring files n newCommand

def parsecommands (files : Files) : Nat → List Command → Parser (List Command × TokType)
  | 0, _ => Act.fail .fuel
  | n + 1, cmds => do
      let parsed ← parse files n
      if parsed.found = false then pure (cmds, parsed.type)
      else if parsed.type = .EOF ∨ parsed.type = .EOL then pure (cmds ++ [parsed.c], parsed.type)
      else parsecommands files n (cmds ++ [parsed.c])

def commandError (c : Command) (following : Option Command) : Option Bytes :=
  if c.args = [] then some (str "empty commands not allowed (yet)")
  else if c.link = str "|" ∧ c.fd 1 ≠ [] then some (str "Can't have a pipe and > on one command")
  else
    match following with
    | none => if c.link = str "|" then some (str "Can't have a pipe to nowhere") else none
    | some after =>
        if c.link = str "|" ∧ after.fd 0 ≠ [] then some (str "Can't have a pipe to command with redirect on stdin") else none

def commandsError : List Command → Option Bytes
  | [] => none
  | c :: rest =>
      match commandError c rest.head? with
      | some e => some e
      | none => commandsError rest

-- The status is "" when getCommand returns an error.
structure Result where
  cmds : List Command
  status : Option TokType
  err : Option Bytes
deriving DecidableEq, Repr

def judge : Except Bytes (List Command × TokType) → Result
  | .error e => ⟨[], none, some e⟩
  | .ok (cmds, t) =>
      match commandsError cmds with
      | some e => ⟨[], none, some e⟩
      | none => ⟨cmds, some t, none⟩

def getCommand (files : Files) (n : Nat) : Parser Result := do
  let outcome ← Act.attempt (parsecommands files n [])
  pure (judge outcome)

end Commands

end URoot.Rush
