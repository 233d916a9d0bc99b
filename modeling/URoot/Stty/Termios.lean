import URoot.Lib.Io
import URoot.Lib.Strconv
import URoot.Lib.Tables

set_option autoImplicit false

namespace URoot.Stty

open GoLib

inductive Word where
  | I
  | O
  | C
  | L
deriving DecidableEq, Repr

structure Bit where
  word : Word
  mask : UInt32
deriving DecidableEq, Repr

-- syscall.Termios
structure Termios where
  iflag : UInt32
  oflag : UInt32
  cflag : UInt32
  lflag : UInt32
  line : UInt8
  cc : Vector UInt8 32
  ispeed : UInt32
  ospeed : UInt32
deriving DecidableEq

structure Winsize where
  row : UInt16
  col : UInt16
  xpixel : UInt16
  ypixel : UInt16
deriving DecidableEq, Repr

structure Terminal where
  term : Termios
  size : Winsize
deriving DecidableEq

-- A name that is not in a map reads as the zero value.
structure Tty where
  ispeed : Int64
  ospeed : Int64
  row : Int64
  col : Int64
  cc : Bytes → UInt8
  opts : Bytes → Bool

def boolFields : List (Bytes × Bit) :=
  [(str "ignbrk", ⟨.I, 0x1⟩), (str "brkint", ⟨.I, 0x2⟩), (str "ignpar", ⟨.I, 0x4⟩), (str "parmrk", ⟨.I, 0x8⟩),
    (str "inpck", ⟨.I, 0x10⟩), (str "istrip", ⟨.I, 0x20⟩), (str "inlcr", ⟨.I, 0x40⟩), (str "igncr", ⟨.I, 0x80⟩),
    (str "icrnl", ⟨.I, 0x100⟩), (str "iuclc", ⟨.I, 0x200⟩), (str "ixon", ⟨.I, 0x400⟩), (str "ixany", ⟨.I, 0x800⟩),
    (str "ixoff", ⟨.I, 0x1000⟩), (str "imaxbel", ⟨.I, 0x2000⟩), (str "iutf8", ⟨.I, 0x4000⟩),
    (str "opost", ⟨.O, 0x1⟩), (str "olcuc", ⟨.O, 0x2⟩), (str "onlcr", ⟨.O, 0x4⟩), (str "ocrnl", ⟨.O, 0x8⟩),
    (str "onocr", ⟨.O, 0x10⟩), (str "onlret", ⟨.O, 0x20⟩), (str "ofill", ⟨.O, 0x40⟩), (str "ofdel", ⟨.O, 0x80⟩),
    (str "isig", ⟨.L, 0x1⟩), (str "icanon", ⟨.L, 0x2⟩), (str "xcase", ⟨.L, 0x4⟩), (str "echo", ⟨.L, 0x8⟩),
    (str "echoe", ⟨.L, 0x10⟩), (str "echok", ⟨.L, 0x20⟩), (str "echonl", ⟨.L, 0x40⟩), (str "noflsh", ⟨.L, 0x80⟩),
    (str "tostop", ⟨.L, 0x100⟩), (str "echoctl", ⟨.L, 0x200⟩), (str "echoprt", ⟨.L, 0x400⟩),
    (str "echoke", ⟨.L, 0x800⟩), (str "flusho", ⟨.L, 0x1000⟩), (str "pendin", ⟨.L, 0x4000⟩),
    (str "iexten", ⟨.L, 0x8000⟩),
    (str "cstopb", ⟨.C, 0x40⟩), (str "cread", ⟨.C, 0x80⟩), (str "parenb", ⟨.C, 0x100⟩), (str "parodd", ⟨.C, 0x200⟩),
    (str "hupcl", ⟨.C, 0x400⟩), (str "clocal", ⟨.C, 0x800⟩)]

-- "time" and VINTR are both 0.
def cc : List (Bytes × Fin 32) :=
  [(str "min", 5), (str "time", 0), (str "lnext", 15), (str "intr", 0), (str "quit", 1), (str "erase", 2),
    (str "kill", 3), (str "eof", 4), (str "eol", 11), (str "eol2", 16), (str "start", 8), (str "stop", 9),
    (str "susp", 10), (str "werase", 14)]

-- reflect.ValueOf(term).Elem().Field(word)
def Termios.field (term : Termios) : Word → UInt32
  | .I => term.iflag
  | .O => term.oflag
  | .C => term.cflag
  | .L => term.lflag

def Termios.setField (term : Termios) (word : Word) (value : UInt32) : Termios :=
  match word with
  | .I => { term with iflag := value }
  | .O => { term with oflag := value }
  | .C => { term with cflag := value }
  | .L => { term with lflag := value }

-- The orders in which one range over boolFields and one over cc visit the entries.
structure Ranges where
  bools : List (Bytes × Bit)
  chars : List (Bytes × Fin 32)
  boolsPerm : bools.Perm boolFields
  charsPerm : chars.Perm cc

inductive Call where
  | tiGet
  | wsGet
  | tiSet
  | wsSet
deriving DecidableEq, Repr

inductive Failure where
  | ioctl (call : Call) (errno : Nat)
  | requiresArg (name : Bytes)
  | notNumber (opts : List Bytes)
  | unknownOption (name : Bytes)
  | indexRange
deriving DecidableEq, Repr

section Ioctl

variable (errno : Call → Option Nat)

def tiGet : Act Failure Terminal Termios := do
  Act.check ((errno .tiGet).map (.ioctl .tiGet))
  let s ← Act.get
  pure s.term

def wsGet : Act Failure Terminal Winsize := do
  Act.check ((errno .wsGet).map (.ioctl .wsGet))
  let s ← Act.get
  pure s.size

def tiSet (term : Termios) : Act Failure Terminal Unit := do
  Act.check ((errno .tiSet).map (.ioctl .tiSet))
  Act.modifyGet (fun s => ((), { s with term := term }))

def wsSet (size : Winsize) : Act Failure Terminal Unit := do
  Act.check ((errno .wsSet).map (.ioctl .wsSet))
  Act.modifyGet (fun s => ((), { s with size := size }))

def report (order : Ranges) (term : Termios) (size : Winsize) : Tty where
  ispeed := term.ispeed.toUInt64.toInt64
  ospeed := term.ospeed.toUInt64.toInt64
  row := size.row.toUInt64.toInt64
  col := size.col.toUInt64.toInt64
  cc := Tables.fill (fun e => term.cc.get e.2) (fun _ => 0) order.chars
  opts := Tables.fill (fun e => decide (term.field e.2.word &&& e.2.mask ≠ 0)) (fun _ => false) order.bools

def gtty (order : Ranges) : Act Failure Terminal Tty := do
  let term ← tiGet errno
  let size ← wsGet errno
  pure (report order term size)

-- The words are widened to 64 bits for the change and cut again by SetUint.
def putBit (t : Tty) (term : Termios) (e : Bytes × Bit) : Termios :=
  let i := (term.field e.2.word).toUInt64
  let mask := e.2.mask.toUInt64
  term.setField e.2.word (if t.opts e.1 then i ||| mask else i &&& ~~~mask).toUInt32

def putChar (t : Tty) (term : Termios) (e : Bytes × Fin 32) : Termios :=
  { term with cc := term.cc.set e.2.val (t.cc e.1) e.2.isLt }

def filled (order : Ranges) (t : Tty) (term : Termios) : Termios :=
  { order.chars.foldl (putChar t) (order.bools.foldl (putBit t) term) with
    ispeed := t.ispeed.toUInt64.toUInt32
    ospeed := t.ospeed.toUInt64.toUInt32 }

def stty (order after : Ranges) (t : Tty) : Act Failure Terminal Tty := do
  let term ← tiGet errno
  tiSet errno (filled order t term)
  wsSet errno ⟨t.row.toUInt64.toUInt16, t.col.toUInt64.toUInt16, 0, 0⟩
  gtty errno after

end Ioctl

section Options

def intarg : List Bytes → Except Failure Int64
  | o :: arg :: rest =>
      match Strconv.atoi arg with
      | (i, none) => .ok (Int64.ofInt i)
      | (_, some _) => .error (.notNumber (o :: arg :: rest))
  | [o] => .error (.requiresArg o)
  | [] => .error .indexRange

def setBool (t : Tty) (o : Bytes) : Except Failure Tty :=
  match o with
  | [] => .error .indexRange
  | c :: name =>
      let set := c ≠ 126
      let o := if set then o else name
      if boolFields.any (fun e => e.1 = o) then .ok { t with opts := Function.update t.opts o (decide set) }
      else .error (.unknownOption o)

def numbered (t : Tty) (o : Bytes) : Option (Int64 → Tty) :=
  if o = str "row" then some (fun i => { t with row := i })
  else if o = str "col" then some (fun i => { t with col := i })
  else if o = str "speed" then some (fun i => { t with ispeed := i })
  else if cc.any (fun e => e.1 = o) then some (fun i => { t with cc := Function.update t.cc o i.toUInt64.toUInt8 })
  else none

def setOpts : List Bytes → Tty → Except Failure Tty
  | [], t => .ok t
  | [o], t =>
      match numbered t o with
      | some set => (intarg [o]).map set
      | none => setBool t o
  | o :: arg :: rest, t =>
      match numbered t o with
      | some set => do
          let i ← intarg (o :: arg :: rest)
          setOpts rest (set i)
      | none => do
          let t ← setBool t o
          setOpts (arg :: rest) t

end Options

section Commands

variable (errno : Call → Option Nat)

def setOptions (before order after : Ranges) (opts : List Bytes) : Act Failure Terminal (Tty × Tty) := do
  let t ← gtty errno before
  let t ← Act.ofExcept (setOpts opts t)
  let result ← stty errno order after t
  pure (t, result)

def rawOptions : List Bytes :=
  [str "~ignbrk", str "~brkint", str "~parmrk", str "~istrip", str "~inlcr", str "~igncr", str "~icrnl", str "~ixon",
    str "~opost", str "~echo", str "~echonl", str "~icanon", str "~isig", str "~iexten", str "~parenb", str "min", str "1",
    str "time", str "0"]

def setRaw (before order after : Ranges) : Act Failure Terminal (Tty × Tty) := setOptions errno before order after rawOptions

end Commands

end URoot.Stty
