import URoot.Lib.Io
import URoot.Lib.Lines
import URoot.Lib.Strconv

set_option autoImplicit false

namespace URoot.Ed

open GoLib Lines

inductive EdError where
  | reading (text : Bytes)
  | output (text : Bytes)
  | regexp (text : Bytes)
  | range (lines : Nat) (startLine endLine : Int64)
  | emptyRE
  | number (digits : Bytes) (err : Strconv.NumError)
  | lineEnded
  | dirty
  | unknown (c : UInt8)
deriving DecidableEq, Repr

def decimal (i : Int) : Bytes := str (toString i)

def EdError.text : EdError → Bytes
  | .reading text | .output text | .regexp text => text
  | .range lines startLine endLine =>
      str "file is " ++ decimal lines ++ str " lines and [start, end] is [" ++ decimal startLine.toInt ++ str ", " ++
        decimal endLine.toInt ++ str "]"
  | .emptyRE => str "Empty RE"
  | .number digits err => str "strconv.Atoi: parsing \"" ++ digits ++ str "\": " ++ err.text
  | .lineEnded => str "line ended at a ,?"
  | .dirty => str "f was dirty, no longer is, try again"
  | .unknown c => utf8 c ++ str ": unknown command"

inductive Halt where
  | panic
  | exit (code : Nat)
deriving DecidableEq, Repr

section Host

inductive Piece where
  | kept (b : Bytes)
  | hit (b : Bytes)
deriving DecidableEq, Repr

def Piece.bytes : Piece → Bytes
  | .kept b => b
  | .hit b => b

structure Regexp where
  pieces : Bytes → List Piece

def Regexp.pieceStep {σ : Type} (repl : Bytes → σ → Bytes × σ) (state : Bytes × σ) : Piece → Bytes × σ
  | .kept b => (state.1 ++ b, state.2)
  | .hit b => (state.1 ++ (repl b state.2).1, (repl b state.2).2)

def Regexp.replaceAllFunc {σ : Type} (r : Regexp) (src : Bytes) (repl : Bytes → σ → Bytes × σ) (s : σ) : Bytes × σ :=
  (r.pieces src).foldl (Regexp.pieceStep repl) ([], s)

-- The packages the editor calls: regexp.Compile, os.Open with the ioutil.ReadAll
-- of what it opened, and the Write of standard output.
structure Host where
  compile : Bytes → Except Bytes Regexp
  openFile : Bytes → Except Bytes (Except Bytes Bytes)
  stdout : Bytes → Int64 × Option Bytes

def bareHost : Host := ⟨fun _ => .error [], fun _ => .error [], fun p => (Int64.ofNat p.length, none)⟩

end Host

section File

-- The data is nil as long as nothing has been stored in it.
structure File where
  dot : Int64
  dirty : Bool
  lines : List Nat
  data : Option Bytes
deriving DecidableEq, Repr

def File.bytes (f : File) : Bytes := f.data.getD []

abbrev Edit (α : Type) := Act Halt File α

def goIndex (l : List Nat) (i : Int64) : Option Nat := if i < 0 then none else l[i.toInt.toNat]?

def goSlice (b : Bytes) (start stop : Nat) : Option Bytes :=
  if start ≤ stop ∧ stop ≤ b.length then some ((b.drop start).take (stop - start)) else none

-- bytes.Buffer has no storage before its first byte is written.
def bufferBytes (b : Bytes) : Option Bytes := if b = [] then none else some b

def makeLines (n : Bytes) : List Bytes :=
  if n.length = 0 then []
  else
    let (data, pos) := scan newline (cutStep n) ([], 0) n
    if pos ≤ n.length - 1 then data ++ [n.drop pos] else data

def File.fixLines (f : File) : File :=
  if f.bytes.length = 0 then { f with lines := [] }
  else
    let (lines, table) := scan newline (fun state i => (state.1 + 1, state.2 ++ [i])) (1, [0]) f.bytes
    let dot := if f.dot < 1 then 1 else f.dot
    let dot := if dot.toInt > (lines : Nat) then Int64.ofNat lines else dot
    { f with lines := table, dot := dot }

def File.sliceX (f : File) (startLine endLine : Int64) : Option (Nat × Nat) :=
  if startLine.toInt > f.lines.length then some (f.bytes.length, f.bytes.length)
  else do
    let start ← (if startLine > 0 then goIndex f.lines (startLine - 1) else some 0)
    let endLine := if endLine < startLine then startLine else endLine
    if endLine ≠ startLine then
      if endLine.toInt ≥ f.lines.length then some (start, f.bytes.length)
      else
        let stop ← goIndex f.lines (endLine - 1)
        some (start, stop)
    else some (start, start)

def File.slice (f : File) (startLine endLine : Int64) : Option (Bytes × Nat × Nat) := do
  let (s, e) ← f.sliceX startLine endLine
  let o ← goSlice f.bytes s e
  some (o, s, e)

def File.splice (f : File) (n : Bytes) (startLine endLine : Int64) : Option Bytes := do
  let (start, stop) ← f.sliceX startLine endLine
  let pre ← goSlice f.bytes 0 start
  let post ← goSlice f.bytes stop f.bytes.length
  some (pre ++ n ++ post)

def replace (n : Option Bytes) (startLine endLine : Int64) : Edit Int64 := do
  let f ← Act.get
  match f.data with
  | some _ =>
      let b ← Act.ofOption (f.splice (n.getD []) startLine endLine) .panic
      Act.set { f with data := bufferBytes b }.fixLines
  | none => Act.set { f with data := n }.fixLines
  return Int64.ofNat (n.getD []).length

def read (r : Except Bytes Bytes) (startLine endLine : Int64) : Edit (Int64 × Option EdError) :=
  match r with
  | .error text => return (-1, some (.reading text))
  | .ok d => do
      let amt ← replace (some d) (startLine + 1) endLine
      return (amt, none)

def File.write (f : File) (w : Bytes → Int64 × Option Bytes) (startLine endLine : Int64) :
    Option (Int64 × Option EdError) :=
  if endLine < startLine ∨ startLine < 1 ∨ endLine.toInt > f.lines.length + 1 then
    some (-1, some (.range f.lines.length startLine endLine))
  else do
    let (start, stop) ← f.sliceX startLine endLine
    let p ← goSlice f.bytes start stop
    some ((w p).1, (w p).2.map .output)

def write (w : Bytes → Int64 × Option Bytes) (startLine endLine : Int64) : Edit (Int64 × Option EdError) := do
  let f ← Act.get
  Act.ofOption (f.write w startLine endLine) .panic

def print (w : Bytes → Int64 × Option Bytes) (start stop : Int64) : Edit (Int64 × Option EdError) := do
  let (i, err) ← write w start stop
  if err.isSome ∧ start < stop then Act.modifyGet (fun f => ((i, err), { f with dot := stop + 1 }))
  else return (i, err)

end File

section Sub

def subMatch (n : Bytes) (everywhere : Bool) (o : Bytes) (state : Bool × Bool) : Bytes × Bool × Bool :=
  if everywhere ∨ ¬ state.2 then (n, true, true) else (o, state)

def subLine (r : Regexp) (n : Bytes) (everywhere : Bool) (state : List Bytes × Bool) (line : Bytes) : List Bytes × Bool :=
  let (text, dirty, _) := r.replaceAllFunc line (subMatch n everywhere) (state.2, false)
  (state.1 ++ [text], dirty)

def File.subst (f : File) (r : Regexp) (n opt : Bytes) (startLine endLine : Int64) : Option (Option File) := do
  let (o, start, stop) ← f.slice startLine endLine
  let b := makeLines o
  if b = [] then some none
  else
    let (b, dirty) := b.foldl (subLine r n (103 ∈ opt)) ([], f.dirty)
    let pre ← goSlice f.bytes 0 start
    let post ← goSlice f.bytes stop f.bytes.length
    some (some { f with dirty := dirty, data := some (pre ++ b.flatten ++ post) }.fixLines)

def sub (host : Host) (re n opt : Bytes) (startLine endLine : Int64) : Edit (Option EdError) :=
  if re = [] then return some .emptyRE
  else
    match host.compile re with
    | .error text => return some (.regexp text)
    | .ok r => do
        let f ← Act.get
        match ← Act.ofOption (f.subst r n opt startLine endLine) .panic with
        | none => return none
        | some next =>
            Act.set next
            if 112 ∈ opt then
              let (_, err) ← write host.stdout startLine endLine
              return err
            else return none

end Sub

section Editor

def File.range (f : File) : Int64 × Int64 := if f.lines = [] then (0, 0) else (1, Int64.ofNat f.lines.length)

inductive EditorArg where
  | readerio (r : Except Bytes Bytes)
  | readFile (n : Bytes)

def EditorArg.apply (host : Host) : EditorArg → Edit (Option EdError)
  | .readerio r => do
      let (_, err) ← read r 0 0
      return err
  | .readFile n =>
      match host.openFile n with
      | .error text => return some (.reading text)
      | .ok r => do
          let (_, err) ← read r 0 0
          return err

def applyArgs (host : Host) : List EditorArg → Edit (Option EdError)
  | [] => return none
  | v :: rest => do
      match ← v.apply host with
      | some err => return some err
      | none => applyArgs host rest

def newFile : File := ⟨0, false, [], none⟩

def newTextEditor (host : Host) (args : List EditorArg) : Except Halt (Except EdError File) :=
  match (applyArgs host args).run newFile with
  | (.ok none, f) => .ok (.ok { f with dot := 1 })
  | (.ok (some err), _) => .ok (.error err)
  | (.error halt, _) => .error halt

end Editor

end URoot.Ed
