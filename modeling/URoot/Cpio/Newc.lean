import URoot.Lib.Io
import URoot.Lib.Codec

set_option autoImplicit false

namespace URoot.Cpio

open GoLib

structure Info where
  ino : UInt64 := 0
  mode : UInt64 := 0
  uid : UInt64 := 0
  gid : UInt64 := 0
  nlink : UInt64 := 0
  mtime : UInt64 := 0
  fileSize : UInt64 := 0
  dev : UInt64 := 0
  major : UInt64 := 0
  minor : UInt64 := 0
  rmajor : UInt64 := 0
  rminor : UInt64 := 0
  name : Bytes := []
deriving DecidableEq, Repr

structure Record where
  readCloser : Option ReadCloser := none
  info : Info
deriving DecidableEq, Repr

def trailer : Bytes := str "TRAILER!!!"

def staticRecord (contents : Bytes) (info : Info) : Record :=
  ⟨some (newBytesReadCloser contents), { info with fileSize := UInt64.ofNat contents.length }⟩

def trailerRecord : Record := staticRecord [] { name := trailer }

def Record.content (record : Record) : Bytes :=
  match record.readCloser with
  | none => []
  | some source => source.content

def Record.Reads (record : Record) : Prop :=
  ∀ source, record.readCloser = some source → source.readErr = none ∧ source.closeErr = none

def Record.Fails (record : Record) (e : IoError) : Prop :=
  ∃ source, record.readCloser = some source ∧ (source.readErr = some e ∨ source.closeErr = some e)

theorem static_reads (contents : Bytes) (info : Info) : (staticRecord contents info).Reads := by
  intro source present
  cases present
  exact ⟨rfl, rfl⟩

end URoot.Cpio

namespace URoot.Newc

open GoLib Cpio

def newcMagic : Bytes := str "070701"

def magicLen : Nat := 6

structure Header where
  ino : UInt32
  mode : UInt32
  uid : UInt32
  gid : UInt32
  nlink : UInt32
  mtime : UInt32
  fileSize : UInt32
  major : UInt32
  minor : UInt32
  rmajor : UInt32
  rminor : UInt32
  nameLength : UInt32
  crc : UInt32
deriving DecidableEq, Repr

def headerFromInfo (i : Info) : Header where
  ino := i.ino.toUInt32
  mode := i.mode.toUInt32
  uid := i.uid.toUInt32
  gid := i.gid.toUInt32
  nlink := i.nlink.toUInt32
  mtime := i.mtime.toUInt32
  fileSize := i.fileSize.toUInt32
  major := i.major.toUInt32
  minor := i.minor.toUInt32
  rmajor := i.rmajor.toUInt32
  rminor := i.rminor.toUInt32
  nameLength := UInt32.ofNat i.name.length + 1
  crc := 0

def Header.info (h : Header) : Info where
  ino := h.ino.toUInt64
  mode := h.mode.toUInt64
  uid := h.uid.toUInt64
  gid := h.gid.toUInt64
  nlink := h.nlink.toUInt64
  mtime := h.mtime.toUInt64
  fileSize := h.fileSize.toUInt64
  major := h.major.toUInt64
  minor := h.minor.toUInt64
  rmajor := h.rmajor.toUInt64
  rminor := h.rminor.toUInt64

abbrev HeaderWords :=
  UInt32 × UInt32 × UInt32 × UInt32 × UInt32 × UInt32 × UInt32 × UInt32 × UInt32 × UInt32 × UInt32 × UInt32 × UInt32

def Header.words (h : Header) : HeaderWords :=
  (h.ino, h.mode, h.uid, h.gid, h.nlink, h.mtime, h.fileSize, h.major, h.minor, h.rmajor, h.rminor, h.nameLength, h.crc)

def Header.ofWords : HeaderWords → Header
  | (ino, mode, uid, gid, nlink, mtime, fileSize, major, minor, rmajor, rminor, nameLength, crc) =>
      ⟨ino, mode, uid, gid, nlink, mtime, fileSize, major, minor, rmajor, rminor, nameLength, crc⟩

-- encoding/binary in big-endian order, field by field as the struct declares them.
def headerWords : Codec HeaderWords :=
  Codec.be32.pair (Codec.be32.pair (Codec.be32.pair (Codec.be32.pair (Codec.be32.pair (Codec.be32.pair
    (Codec.be32.pair (Codec.be32.pair (Codec.be32.pair (Codec.be32.pair (Codec.be32.pair
      (Codec.be32.pair Codec.be32)))))))))))

def headerCodec : Codec Header :=
  headerWords.mapped Header.ofWords Header.words (fun _ => rfl) (fun _ => rfl)

theorem header_width : headerCodec.width = 52 := rfl

def round4 (n : Nat) : Nat := (n + 3) / 4 * 4

section Writer

structure Writer (σ : Type) where
  w : σ
  pos : Nat

variable {σ : Type}

def write (io : IoWriter σ) (bytes : Bytes) : Act IoError (Writer σ) Nat :=
  ⟨fun s =>
    match io.write s.w bytes with
    | (next, n, none) => (.ok n, ⟨next, s.pos + n⟩)
    | (next, _, some e) => (.error e, ⟨next, s.pos⟩)⟩

def pad (io : IoWriter σ) : Act IoError (Writer σ) Unit := do
  let s ← Act.get
  if round4 s.pos ≠ s.pos then
    let _ ← write io (List.replicate (round4 s.pos - s.pos) 0)

def recordHeader (f : Record) : Header :=
  if f.readCloser = none then { headerFromInfo f.info with fileSize := 0, crc := 0 }
  else { headerFromInfo f.info with crc := 0 }

def headerText (f : Record) : Bytes := toUpper (hexEncode (headerCodec.encode (recordHeader f)))

def writeRecord (io : IoWriter σ) (f : Record) : Act IoError (Writer σ) Unit := do
  let _ ← write io newcMagic
  let _ ← write io (headerText f)
  let _ ← write io (f.info.name ++ [0])
  pad io
  match f.readCloser with
  | none => pure ()
  | some source =>
      let m ← ioCopy (write io) source
      Act.check source.closeErr
      if 0 < m then pad io

end Writer

section Reader

structure Reader where
  r : Bytes
  pos : Nat

inductive ReadError where
  | eof
  | readAt (pos got want : Nat) (err : Option IoError)
  | magic (got want : Bytes)
  | hex (text : Bytes)
  | panic
deriving DecidableEq, Repr

def read (len : Nat) : Act ReadError Reader Bytes := do
  let s ← Act.get
  match readAt s.r len s.pos with
  | (_, some .eof) => Act.fail .eof
  | (bytes, some e) => Act.fail (.readAt s.pos bytes.length len (some e))
  | (bytes, none) =>
      Act.require (bytes.length = len) (.readAt s.pos bytes.length len none)
      Act.set { s with pos := s.pos + bytes.length }
      pure bytes

-- The position is rounded up whether or not the read succeeded.
def readAligned (len : Nat) : Act ReadError Reader Bytes :=
  ⟨fun s =>
    match (read len).run s with
    | (result, next) => (result, { next with pos := round4 next.pos })⟩

def decodeHeader (text : Bytes) : Option Header := (hexDecode text).map headerCodec.decode

def readHeader : Act ReadError Reader Header := do
  let buf ← read (2 * headerCodec.width + magicLen)
  Act.require (buf.take magicLen = newcMagic) (.magic (buf.take magicLen) newcMagic)
  Act.ofOption (decodeHeader (buf.drop magicLen)) (.hex (buf.drop magicLen))

-- nameBuf[:NameLength-1] is computed in uint32: a zero length wraps past the buffer.
def readName (hdr : Header) : Act ReadError Reader Bytes := do
  let nameBuf ← readAligned hdr.nameLength.toNat
  Act.require ((hdr.nameLength - 1).toNat ≤ nameBuf.length) .panic
  pure (nameBuf.take (hdr.nameLength - 1).toNat)

-- The content is a section of the archive that starts at the current position;
-- it is not read here, and may be cut short by the end of the archive.
def sectionContent (hdr : Header) : Act ReadError Reader ReadCloser := do
  let s ← Act.get
  Act.set { s with pos := round4 (s.pos + hdr.fileSize.toNat) }
  pure (newBytesReadCloser ((s.r.drop s.pos).take hdr.fileSize.toNat))

def readRecord : Act ReadError Reader Record := do
  let hdr ← readHeader
  let name ← readName hdr
  let content ← sectionContent hdr
  pure ⟨some content, { hdr.info with name := name }⟩

end Reader

end URoot.Newc
