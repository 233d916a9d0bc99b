import URoot.Lib.Io
import URoot.Lib.Json

set_option autoImplicit false

namespace URoot.Archive

open GoLib

-- time.Time in encoding/json: a year outside [0, 9999] has no text, and every text
-- that is written can be read.
structure TimeFormat where
  Time : Type
  zero : Time
  marshalJSON : Time → Except Bytes Bytes
  unmarshalJSON : Bytes → Option Time
  reads : ∀ t text, marshalJSON t = .ok text → (unmarshalJSON (Json.toValid text)).isSome

-- A json.Decoder returns once it has the whole value; how far it has then read
-- into its input is its own choice.
structure Decoder where
  taken : Bytes → Nat
  complaint : Bytes → Bytes
  inside : ∀ input, taken input ≤ input.length
  whole : ∀ input value rest, Json.parse input = some (value, rest) → input.length ≤ taken input + rest.length

structure File (Time : Type) where
  name : Bytes
  size : Int64
  mode : UInt32
  modTime : Time
  isDir : Bool
  link : Bytes
  uid : Int64
  gid : Int64
  dev : UInt64
deriving DecidableEq

section Mode

-- The first byte of os.FileMode.String.
def letter (mode : UInt32) : UInt8 :=
  (((str "dalTLDpSugct").zipIdx.find? (fun pair => mode.toNat.testBit (31 - pair.2))).map (·.1)).getD 45

-- os.ModeDir | os.ModeSymlink | os.ModeNamedPipe | os.ModeSocket | os.ModeDevice
def modeType : UInt32 := 0x8f000000

def isRegular (mode : UInt32) : Bool := mode &&& modeType = 0

def modeDevice : UInt32 := 0x4000000

def modeCharDevice : UInt32 := 0x200000

def nodeMode (mode : UInt32) : UInt32 :=
  (mode &&& 0o777) ||| (if mode &&& (modeDevice ||| modeCharDevice) = modeDevice then 0x6000 else 0x2000)

end Mode

section Table

variable (times : TimeFormat)

def fields (f : File times.Time) (modTime : Bytes) : List (Bytes × Bytes) :=
  [(str "Name", Json.quote f.name), (str "Size", Json.intText f.size.toInt), (str "Mode", Json.intText f.mode.toNat),
    (str "ModTime", Json.quote modTime), (str "IsDir", Json.boolText f.isDir), (str "Link", Json.quote f.link),
    (str "Uid", Json.intText f.uid.toInt), (str "Gid", Json.intText f.gid.toInt), (str "Dev", Json.intText f.dev.toNat)]

def fileText (f : File times.Time) : Except Bytes Bytes := do
  let modTime ← times.marshalJSON f.modTime
  pure (Json.objText (fields times f modTime))

def tableText (vtoc : List (File times.Time)) : Except Bytes Bytes := do
  let texts ← vtoc.mapM (fileText times)
  pure (Json.arrText texts)

-- Decoding into a field: null leaves it as it is, another kind of value is an error.
def textField (old : Bytes) : Json.Value → Option Bytes
  | .null => some old
  | .str s => some s
  | _ => none

def boolField (old : Bool) : Json.Value → Option Bool
  | .null => some old
  | .bool b => some b
  | _ => none

def timeField (old : times.Time) : Json.Value → Option times.Time
  | .null => some old
  | .str s => times.unmarshalJSON s
  | _ => none

def parseDigits (text : Bytes) : Option Nat := if text ≠ [] ∧ text.all Json.isDigit then some (Digits.value 10 text) else none

def parseInt : Bytes → Option Int
  | 45 :: rest => (parseDigits rest).map (fun n : Nat => -(n : Int))
  | text => (parseDigits text).map (fun n : Nat => (n : Int))

def intField (low high old : Int) : Json.Value → Option Int
  | .null => some old
  | .num text => (parseInt text).filter (fun z => low ≤ z ∧ z < high)
  | _ => none

-- A name matches a field in any case; other names are skipped.
def assign (f : File times.Time) (entry : Bytes × Json.Value) : Option (File times.Time) :=
  let key := toUpper entry.1
  if key = str "NAME" then (textField f.name entry.2).map (fun s => { f with name := s })
  else if key = str "SIZE" then
    (intField (-2 ^ 63) (2 ^ 63) f.size.toInt entry.2).map (fun z => { f with size := Int64.ofInt z })
  else if key = str "MODE" then
    (intField 0 (2 ^ 32) f.mode.toNat entry.2).map (fun z => { f with mode := UInt32.ofNat z.toNat })
  else if key = str "MODTIME" then (timeField times f.modTime entry.2).map (fun t => { f with modTime := t })
  else if key = str "ISDIR" then (boolField f.isDir entry.2).map (fun b => { f with isDir := b })
  else if key = str "LINK" then (textField f.link entry.2).map (fun s => { f with link := s })
  else if key = str "UID" then
    (intField (-2 ^ 63) (2 ^ 63) f.uid.toInt entry.2).map (fun z => { f with uid := Int64.ofInt z })
  else if key = str "GID" then
    (intField (-2 ^ 63) (2 ^ 63) f.gid.toInt entry.2).map (fun z => { f with gid := Int64.ofInt z })
  else if key = str "DEV" then
    (intField 0 (2 ^ 64) f.dev.toNat entry.2).map (fun z => { f with dev := UInt64.ofNat z.toNat })
  else some f

def zeroFile : File times.Time := ⟨[], 0, 0, times.zero, false, [], 0, 0, 0⟩

def decodeFile : Json.Value → Option (File times.Time)
  | .null => some (zeroFile times)
  | .obj members => members.foldlM (assign times) (zeroFile times)
  | _ => none

def decodeTable : Json.Value → Option (List (File times.Time))
  | .null => some []
  | .arr items => items.mapM (decodeFile times)
  | _ => none

end Table

section Encode

inductive Failure where
  | indexOutOfRange
  | failed (e : IoError)
deriving DecidableEq, Repr

variable (times : TimeFormat) {σ : Type} (write : Bytes → Act IoError σ Nat)

def cleanName : Bytes → Option Bytes
  | [] => none
  | c :: rest => some (if c = 47 then rest else c :: rest)

def cleanFile (f : File times.Time) : Option (File times.Time) := (cleanName f.name).map (fun name => { f with name := name })

def raising {α : Type} (x : Act IoError σ α) : Act Failure σ α := x.within id (fun _ s => s) .failed

def writeVTOC (vtoc : List (File times.Time)) : Act Failure σ Nat := do
  let outvtoc ← Act.ofOption (vtoc.mapM (cleanFile times)) .indexOutOfRange
  let text ← Act.ofExcept ((tableText times outvtoc).mapError (fun why => .failed (.other (str "Encoding files: " ++ why))))
  -- Encode ends the value with a newline, which counts.
  let v := text ++ [10]
  let _ ← raising (write (Digits.padded 16 7 v.length ++ [10]))
  raising (write v)

variable (opens : Bytes → Except IoError ReadCloser)

def encodeOne (f : File times.Time) : Act IoError σ Unit :=
  if f.size = 0 ∨ isRegular f.mode = false then pure ()
  else do
    let source ← Act.ofExcept (opens f.name)
    let _ ← ioCopy write source
    pure ()

def encodeEach : List (File times.Time) → Act IoError σ Unit
  | [] => pure ()
  | f :: rest => do
      encodeOne times write opens f
      encodeEach rest

-- The error of writeVTOC is returned only when there is no file: the loop
-- over the files assigns to the same variable.
def encodeBuilt (vtoc : List (File times.Time)) : Act Failure σ Unit :=
  ⟨fun s =>
    match (writeVTOC times write vtoc).run s with
    | (.error .indexOutOfRange, next) => (.error .indexOutOfRange, next)
    | (.error (.failed e), next) =>
        if vtoc.isEmpty then (.error (.failed e), next) else (raising (encodeEach times write opens vtoc)).run next
    | (.ok _, next) => (raising (encodeEach times write opens vtoc)).run next⟩

def encode (buildVTOC : List Bytes → Except IoError (List (File times.Time))) (dirs : List Bytes) : Act Failure σ Unit := do
  let vtoc ← Act.ofExcept ((buildVTOC (if dirs.isEmpty then [str "."] else dirs)).mapError .failed)
  encodeBuilt times write opens vtoc

end Encode

section Decode

-- fmt.Fscanf with %x on a plain reader: the number, and how many bytes are gone. One byte
-- behind the digits is read and lost.
def fscanfHex (input : Bytes) : Except Bytes (Int × Nat) :=
  let blank := input.takeWhile (fun c => c = 32 ∨ c = 9 ∨ c = 11 ∨ c = 12 ∨ c = 13)
  match input.drop blank.length with
  | [] => .error (str "unexpected EOF")
  | 10 :: _ => .error (str "unexpected newline")
  | c :: rest =>
      let sign := if c = 43 ∨ c = 45 then 1 else 0
      let digits := ((c :: rest).drop sign).takeWhile (fun d => (fromHexChar d).isSome)
      if (c :: rest).drop sign = [] then .error (str "unexpected EOF")
      else if digits = [] then .error (str "expected integer")
      else
        let used := blank.length + sign + digits.length
        let n : Int := Digits.value 16 digits
        .ok (if c = 45 then -n else n, if used < input.length then used + 1 else used)

variable (times : TimeFormat) (dec : Decoder)

structure Fd where
  data : Bytes
  pos : Nat
deriving DecidableEq, Repr

def loadVTOC (archives : Bytes → Except Bytes Bytes) (name : Bytes) : Except Bytes (Fd × List (File times.Time)) := do
  let data ← archives name
  let (l, used) ← (fscanfHex (data.take 8)).mapError (fun why => name ++ str ": can't scan vtoc length: " ++ why)
  let window := (data.drop used).take l.toNat
  match (Json.parse window).bind (fun (value, _) => decodeTable times value) with
  | none => .error (name ++ str ": can't decode: " ++ dec.complaint window)
  | some vtoc => .ok (⟨data, used + dec.taken window⟩, vtoc)

inductive Op where
  | mkdirAll (name : Bytes) (mode : UInt32)
  | openFile (name : Bytes) (mode : UInt32)
  | copy (name content : Bytes)
  | symlink (link name : Bytes)
  | mknod (name : Bytes) (mode : UInt32) (dev : UInt64)
  | lchown (name : Bytes) (uid gid : Int64)
deriving DecidableEq, Repr

structure Machine where
  fd : Fd
  log : List Op
deriving DecidableEq, Repr

variable (refuses : List Op → Op → Option IoError)

def perform (op : Op) : Act IoError Machine Unit := do
  let m ← Act.get
  Act.check (refuses m.log op)
  Act.set { m with log := m.log ++ [op] }

def readLimited (size : Int) : Act IoError Machine Bytes :=
  Act.modifyGet (fun m =>
    let content := (m.fd.data.drop m.fd.pos).take size.toNat
    (content, { m with fd := { m.fd with pos := m.fd.pos + content.length } }))

def doOneFile (v : File times.Time) : Act IoError Machine Unit :=
  let owned := perform refuses (.lchown v.name v.uid v.gid)
  match letter v.mode with
  | 100 => do
      perform refuses (.mkdirAll v.name v.mode)
      owned
  | 45 => do
      perform refuses (.openFile v.name v.mode)
      let content ← readLimited v.size.toInt
      perform refuses (.copy v.name content)
      owned
  | 76 => do
      perform refuses (.symlink v.link v.name)
      owned
  | 68 => do
      perform refuses (.mknod v.name (nodeMode v.mode) v.dev)
      owned
  | _ => pure ()

def doFiles : List (File times.Time) → Act IoError Machine Unit
  | [] => pure ()
  | v :: rest => do
      doOneFile times refuses v
      doFiles rest

def decode (archives : Bytes → Except Bytes Bytes) : List Bytes → Act IoError Machine Unit
  | [] => pure ()
  | f :: rest => do
      match loadVTOC times dec archives f with
      | .error _ => decode archives rest
      | .ok (fd, vtoc) =>
          let m ← Act.get
          Act.set { m with fd := fd }
          doFiles times refuses vtoc
          decode archives rest

end Decode

end URoot.Archive
