import URoot.Lib.Digits
import URoot.Lib.Fields
import URoot.Lib.Fuel
import URoot.Lib.Strconv

set_option autoImplicit false

namespace URoot.Field

open GoLib

structure Frange where
  begin_ : Int
  end_ : Int
deriving DecidableEq, Repr

def lastField : Int := 0x7fffffff

inductive Toktype where
  | error
  | eof
  | comma
  | pipe
  | dash
  | num
  | space
  | nf
deriving DecidableEq, Repr

structure Lexer where
  input : Bytes
  tok : Bytes
  typ : Toktype
  start : Nat
  pos : Nat
  width : Nat
deriving DecidableEq, Repr

namespace Lexer

def nextrune (lex : Lexer) : Option Nat × Lexer :=
  if lex.input.length ≤ lex.pos then (none, { lex with width := 0 })
  else
    (some (decodeRune (lex.input.drop lex.pos)).1, { lex with width := (decodeRune (lex.input.drop lex.pos)).2 })

def consume (lex : Lexer) : Lexer := { lex with pos := lex.pos + lex.width, width := 0 }

def ignore (lex : Lexer) : Lexer := { lex with width := 0 }

def token (lex : Lexer) : Bytes × Lexer :=
  let next := lex.consume
  ((next.input.drop next.start).take (next.pos - next.start), { next with start := next.pos })

def consumeRun (run : Nat → Bool) : Nat → Lexer → Lexer
  | 0, lex => lex
  | n + 1, lex =>
      match lex.nextrune with
      | (none, next) => next
      | (some r, next) => if run r then consumeRun run n next.consume else next

section Scan

variable (unicode : DigitTable)

def scanned (lex : Lexer) (typ : Toktype) : Except Bytes ((Bytes × Toktype) × Lexer) :=
  .ok ((lex.token.1, typ), lex.token.2)

def scanNF (lex : Lexer) : Lexer :=
  match lex.consume.nextrune with
  | (r, next) => if r = some 70 then next.consume.ignore else next.ignore

def scan (lex : Lexer) : Except Bytes ((Bytes × Toktype) × Lexer) :=
  match lex.nextrune with
  | (none, next) => .ok (([], .eof), next)
  | (some r, next) =>
      if r = 44 then scanned next .comma
      else if r = 124 then scanned next .pipe
      else if r = 45 then scanned next .dash
      else if r = 78 then scanned (scanNF next) .nf
      -- The first rune has not been consumed: the loop reads it again.
      else if unicode.isDigit r then scanned (consumeRun unicode.isDigit next.input.length next).ignore .num
      else if isSpace r then scanned (consumeRun isSpace next.input.length next).ignore .space
      else .error (str "Lexical error at character '" ++ Digits.numeral 10 r ++ str "'")

end Scan

end Lexer

section Parser

variable (unicode : DigitTable)

abbrev Parser (α : Type) : Type := Act (Stop Bytes) Lexer α

def fatal {α : Type} (text : Bytes) : Parser α := Act.fail (.raised text)

def peektype : Parser Toktype := do
  let lex ← Act.get
  pure lex.typ

def peektok : Parser Bytes := do
  let lex ← Act.get
  pure lex.tok

def next : Parser (Bytes × Toktype) := do
  let lex ← Act.get
  match lex.scan unicode with
  | .error text => fatal text
  | .ok (got, after) =>
      Act.set { after with tok := got.1, typ := got.2 }
      pure (lex.tok, lex.typ)

def isdelim (typ : Toktype) : Bool := typ = .comma ∨ typ = .pipe ∨ typ = .space

def parsenegated : Parser Int := do
  let second ← next unicode
  if second.2 = .eof then fatal (str "negative number parse error: unexpected EOF")
  else if second.2 ≠ .num then fatal (str "number parser error: bad lexical token '" ++ second.1 ++ str "'")
  else pure (-(Strconv.atoi second.1).1)

-- The error of Atoi is dropped: what is out of range is the nearest int.
def parsenum : Parser Int := do
  let first ← next unicode
  if first.2 = .eof then fatal (str "EOF in number parser")
  else if first.2 = .num then pure (Strconv.atoi first.1).1
  else if first.2 ≠ .dash then fatal (str "number parser error: unexpected token '" ++ first.1 ++ str "'")
  else parsenegated unicode

def parsefield : Parser (Int × Toktype) := do
  let typ ← peektype
  if typ = .nf then
    let _ ← next unicode
    pure (lastField, .nf)
  else
    let num ← parsenum unicode
    pure (num, .num)

def parseend (fnum : Int) : Parser Frange := do
  let typ ← peektype
  if typ ≠ .dash then pure ⟨fnum, fnum⟩
  else
    let _ ← next unicode
    let typ ← peektype
    if typ ≠ .eof ∧ isdelim typ = false then
      let last ← parsefield unicode
      pure ⟨fnum, last.1⟩
    else pure ⟨fnum, lastField⟩

def parserange : Parser Frange := do
  let typ ← peektype
  if typ = .eof then fatal (str "EOF at start of range")
  else
    let field ← parsefield unicode
    if field.2 = .nf then pure ⟨field.1, field.1⟩
    else parseend unicode field.1

def skipSpace : Parser Unit := do
  let typ ← peektype
  if typ = .space then
    let _ ← next unicode
    pure ()
  else pure ()

def parserangesLoop : Nat → List Frange → Parser (List Frange)
  | 0, _ => Act.fail .fuel
  | rounds + 1, rs => do
      skipSpace unicode
      let r ← parserange unicode
      let typ ← peektype
      if typ = .eof then pure (rs ++ [r])
      else if isdelim typ = false then
        let tok ← peektok
        fatal (str "Syntax error in field list, tok = " ++ tok)
      else
        let _ ← next unicode
        parserangesLoop rounds (rs ++ [r])

def parseranges (input : Bytes) : Except (Stop Bytes) (List Frange) :=
  if input = [] then .error (.raised (str "Empty field range"))
  else
    ((do
      let _ ← next unicode
      parserangesLoop unicode (input.length + 1) [] : Parser (List Frange)).run ⟨input, [], .error, 0, 0, 0⟩).1

end Parser

end URoot.Field
