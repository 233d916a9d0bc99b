import URoot.Ed.Text

set_option autoImplicit false

namespace URoot.Ed

open GoLib

section Addresses

def digits (l : Bytes) : Bytes := l.takeWhile (fun b => 48 ≤ b ∧ b ≤ 57)

def atoi (n : Bytes) : Except EdError Int64 :=
  match Strconv.atoi n with
  | (line, none) => .ok (Int64.ofInt line)
  | (_, some err) => .error (.number n err)

-- The match of ^/[^/]/ in the line.
def startsearch : Bytes → Bytes
  | 47 :: rest =>
      if rest = [] ∨ rest.head? = some 47 ∨ rest[runeWidth rest]? ≠ some 47 then []
      else 47 :: rest.take (runeWidth rest + 1)
  | _ => []

def File.move (f : File) (dot : Int64) : File := { f with dot := dot }

def startAddress (f : File) (l : Bytes) : Except EdError (Int64 × File × Bytes) :=
  if l.head? = some 46 then .ok (f.dot, f, l.tail)
  else if l.head? = some 36 then .ok (f.range.2, f.move f.range.2, l.tail)
  else if startsearch l ≠ [] then .ok (f.dot, f, l.drop (startsearch l).length)
  else if digits l ≠ [] then do
    let startLine ← atoi (digits l)
    return (startLine, f.move startLine, l.drop (digits l).length)
  else .ok (f.dot, f, l)

-- A pattern as the second address is left in the line.
def endAddress (f : File) (l : Bytes) : Except EdError (Int64 × Bytes) :=
  if l.head? = some 44 then
    let l := l.tail
    if l = [] then .error .lineEnded
    else if l.head? = some 46 then .ok (f.dot, l.tail)
    else if l.head? = some 36 then .ok (f.range.2, l.tail)
    else if startsearch l ≠ [] then .ok (f.dot, l)
    else if digits l ≠ [] then do
      let endLine ← atoi (digits l)
      return (endLine, l.drop (digits l).length)
    else .ok (f.dot, l)
  else .ok (f.dot, l)

end Addresses

section Command

inductive Verb where
  | d
  | q
  | e
  | r
  | s
  | w
  | p
  | other (c : UInt8)
deriving DecidableEq, Repr

def verb (c : UInt8) : Verb :=
  if c = 100 then .d
  else if c = 113 then .q
  else if c = 101 then .e
  else if c = 114 then .r
  else if c = 115 then .s
  else if c = 119 then .w
  else if c = 112 then .p
  else .other c

def trimLeft (a : Bytes) : Bytes := a.dropWhile (fun b => b = 32 ∨ b = 9)

-- strings.SplitN with a separator of one byte.
def splitN (sep : UInt8) : Nat → Bytes → List Bytes
  | 0, _ => []
  | 1, s => [s]
  | n + 2, s => if sep ∈ s then s.takeWhile (· ≠ sep) :: splitN sep (n + 1) (s.dropWhile (· ≠ sep)).tail else [s]

def subArgs : Bytes → Option (Bytes × Bytes × Bytes)
  | [] => none
  | sep :: a =>
      match splitN sep 3 a with
      | [re, n, opt] => some (re, n, opt)
      | _ => none

def readCommand (host : Host) (a : Bytes) (startLine endLine : Int64) : Edit (Option EdError) :=
  match host.openFile (trimLeft a) with
  | .error text => return some (.reading text)
  | .ok r => do
      let (_, err) ← read r startLine endLine
      return err

def command (host : Host) (c : Bytes) (startLine endLine : Int64) : Edit (Option EdError) := do
  let f ← Act.get
  match c with
  | [] =>
      let (_, err) ← write host.stdout f.dot f.dot
      Act.set (f.move (endLine + 1))
      return err
  | letter :: a =>
      if (verb letter = .q ∨ verb letter = .e) ∧ f.dirty then
        Act.set { f with dirty := false }
        return some .dirty
      else
        match verb letter with
        | .d =>
            let _ ← replace (some []) startLine endLine
            return none
        | .q => Act.fail (.exit 1)
        | .e => readCommand host a 0 f.range.2
        | .r => readCommand host a startLine endLine
        | .s =>
            let (re, n, opt) ← Act.ofOption (subArgs a) .panic
            sub host re n opt startLine endLine
        | .w =>
            let (_, err) ← write host.stdout startLine endLine
            return err
        | .p =>
            let (_, err) ← print host.stdout startLine endLine
            return err
        | .other c => return some (.unknown c)

def parseLine (f : File) (l : Bytes) : File × Except EdError (Bytes × Int64 × Int64) :=
  match startAddress f l with
  | .error err => (f, .error err)
  | .ok (startLine, moved, rest) =>
      match endAddress moved rest with
      | .error err => (moved, .error err)
      | .ok (endLine, c) => (moved, .ok (c, startLine, endLine + 1))

def doCommand (host : Host) (l : Bytes) : Edit (Option EdError) := do
  let f ← Act.get
  if l = [] then
    let (_, err) ← write host.stdout f.dot f.dot
    Act.set (f.move (f.dot + 1))
    return err
  else
    Act.set (parseLine f l).1
    match (parseLine f l).2 with
    | .error err => return some err
    | .ok (c, startLine, endLine) => command host c startLine endLine

theorem run_warned (host : Host) (f : File) (letter : UInt8) (arg : Bytes) (a b : Int64)
    (warned : (verb letter = .q ∨ verb letter = .e) ∧ f.dirty = true) :
    (command host (letter :: arg) a b).run f = (.ok (some .dirty), { f with dirty := false }) := by
  rw [command, Act.run_get_bind]
  dsimp only
  rw [if_pos warned]
  rfl

theorem run_command (host : Host) (f : File) (letter : UInt8) (arg : Bytes) (a b : Int64)
    (quiet : ¬ ((verb letter = .q ∨ verb letter = .e) ∧ f.dirty = true)) :
    (command host (letter :: arg) a b).run f = (match verb letter with
      | .d => replace (some []) a b >>= fun _ => pure none
      | .q => Act.fail (.exit 1)
      | .e => readCommand host arg 0 f.range.2
      | .r => readCommand host arg a b
      | .s => Act.ofOption (subArgs arg) .panic >>= fun (re, n, opt) => sub host re n opt a b
      | .w => write host.stdout a b >>= fun (_, err) => pure err
      | .p => print host.stdout a b >>= fun (_, err) => pure err
      | .other c => pure (some (.unknown c)) : Edit (Option EdError)).run f := by
  rw [command, Act.run_get_bind]
  dsimp only
  rw [if_neg quiet]

-- The loop of main over the lines of its input. An error's text is the format of a call of
-- log.Printf without operands: these are the formats, not yet what is printed for them.
def mainLoop (host : Host) : List Bytes → Edit (List Bytes)
  | [] => return []
  | l :: rest => do
      let err ← doCommand host l
      let formats ← mainLoop host rest
      return (err.map EdError.text).toList ++ formats

end Command

end URoot.Ed
