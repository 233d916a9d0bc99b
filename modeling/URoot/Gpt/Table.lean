import URoot.Lib.Device
import URoot.Lib.Crc32

set_option autoImplicit false

namespace URoot.Gpt

open GoLib

def blockSize : Nat := 512
def headerSize : UInt32 := 0x5c
def signature : UInt64 := 0x5452415020494645
def revision : UInt32 := 0x10000
def maxNPart : UInt32 := 0x80

structure Header where
  signature : UInt64
  revision : UInt32
  headerSize : UInt32
  crc : UInt32
  reserved : UInt32
  currentLBA : UInt64
  backupLBA : UInt64
  firstLBA : UInt64
  lastLBA : UInt64
  diskGUID : Fixed 16
  partStart : UInt64
  nPart : UInt32
  partSize : UInt32
  partCRC : UInt32
deriving DecidableEq

structure Part where
  partGUID : Fixed 16
  uniqueGUID : Fixed 16
  firstLBA : UInt64
  lastLBA : UInt64
  attr : UInt64
  name : Fixed 72
deriving DecidableEq

structure GPT where
  header : Header
  parts : List Part
deriving DecidableEq

section Layout

-- encoding/binary in little-endian order. The header is cut at its CRC field,
-- which both the reader and the writer treat apart from the rest.
def frontCodec : Codec (UInt64 × UInt32 × UInt32) := Codec.le64.pair (Codec.le32.pair Codec.le32)

abbrev BackFields :=
  UInt32 × UInt64 × UInt64 × UInt64 × UInt64 × Fixed 16 × UInt64 × UInt32 × UInt32 × UInt32

def backCodec : Codec BackFields :=
  Codec.le32.pair (Codec.le64.pair (Codec.le64.pair (Codec.le64.pair (Codec.le64.pair ((Codec.fixed 16).pair
    (Codec.le64.pair (Codec.le32.pair (Codec.le32.pair Codec.le32))))))))

def Header.front (h : Header) : UInt64 × UInt32 × UInt32 := (h.signature, h.revision, h.headerSize)

def Header.back (h : Header) : BackFields :=
  (h.reserved, h.currentLBA, h.backupLBA, h.firstLBA, h.lastLBA, h.diskGUID, h.partStart, h.nPart, h.partSize, h.partCRC)

def Header.ofFields : (UInt64 × UInt32 × UInt32) × UInt32 × BackFields → Header
  | ((signature, revision, headerSize), crc, reserved, currentLBA, backupLBA, firstLBA, lastLBA, diskGUID, partStart,
      nPart, partSize, partCRC) =>
      ⟨signature, revision, headerSize, crc, reserved, currentLBA, backupLBA, firstLBA, lastLBA, diskGUID, partStart,
        nPart, partSize, partCRC⟩

def headerCodec : Codec Header :=
  (frontCodec.pair (Codec.le32.pair backCodec)).mapped Header.ofFields (fun h => (h.front, h.crc, h.back))
    (fun _ => rfl) (fun _ => rfl)

def partCodec : Codec Part :=
  ((Codec.fixed 16).pair ((Codec.fixed 16).pair (Codec.le64.pair (Codec.le64.pair (Codec.le64.pair (Codec.fixed 72)))))).mapped
    (fun (partGUID, uniqueGUID, firstLBA, lastLBA, attr, name) =>
      ⟨partGUID, uniqueGUID, firstLBA, lastLBA, attr, name⟩)
    (fun p => (p.partGUID, p.uniqueGUID, p.firstLBA, p.lastLBA, p.attr, p.name))
    (fun _ => rfl) (fun _ => rfl)

theorem header_width : headerCodec.width = 92 := rfl

theorem header_encode (h : Header) :
    headerCodec.encode h = frontCodec.encode h.front ++ (Codec.le32.encode h.crc ++ backCodec.encode h.back) := rfl

-- int64(lba*BlockSize): the product is taken in uint64.
def blockOffset (lba : UInt64) : Int := int64 (lba * 512).toNat

-- int64(lba)*BlockSize: the product is taken in int64.
def blockProduct (lba : UInt64) : Int := int64 (int64 lba.toNat * 512)

theorem block_product_offset (lba : UInt64) : blockProduct lba = blockOffset lba := by
  have word : ((lba * 512).toNat : Int) = (lba.toNat * 512 : Int) % (2 ^ 64 : Nat) := by
    rw [UInt64.toNat_mul]
    exact Int.natCast_emod _ _
  rw [blockProduct, blockOffset, word, int64, int64, int64, Int.bmod_mul_bmod, Int.emod_bmod]

theorem block_offset_exact {lba : UInt64} (small : lba.toNat * 512 < 2 ^ 63) : blockOffset lba = (lba.toNat * 512 : Nat) := by
  have word : (lba * 512).toNat = lba.toNat * 512 := by
    rw [UInt64.toNat_mul]
    exact Nat.mod_eq_of_lt (by simpa using Nat.lt_trans small (by decide))
  rw [blockOffset, word]
  exact int64_exact (by omega) (by omega)

end Layout

section Read

inductive Which where
  | primary
  | backup
deriving DecidableEq, Repr

inductive TableError where
  | header (err : IoError)
  | signature (which : Which) (got : UInt64)
  | revision (which : Which) (got : UInt32)
  | headerSize (which : Which) (got : UInt32)
  | maxNPart (which : Which) (got : UInt32)
  | readingPartitions (which : Which) (wanted got : Nat) (err : Option IoError)
  | partitionCRC (which : Which) (g : GPT) (computed stored : UInt32)
  | readingHeader (which : Which) (wanted got : Nat) (err : Option IoError)
  | headerCRC (which : Which) (computed stored : UInt32)
  | partition (which : Which) (i : Nat) (err : IoError)
deriving DecidableEq

-- Some failures hand back the table read so far next to the error.
structure TableFailure where
  g : Option GPT
  err : TableError
deriving DecidableEq

def readBlock (r : Image) (len : Nat) (off : Int) (failure : Nat → Option IoError → TableError) :
    Except TableFailure Bytes :=
  match r.readAt len off with
  | (bytes, none) => if bytes.length = len then .ok bytes else .error ⟨none, failure bytes.length none⟩
  | (bytes, some e) => .error ⟨none, failure bytes.length (some e)⟩

-- copy(hdr[16:], []byte{0, 0, 0, 0})
def zapCRC (hdr : Bytes) : Bytes := hdr.take 16 ++ ([0, 0, 0, 0] ++ hdr.drop 20)

def partOffset (h : Header) (i : Nat) : Int := int64 (blockOffset h.partStart + i * h.partSize.toNat)

def readParts (which : Which) (r : Image) (h : Header) : Nat → Except TableFailure (List Part)
  | 0 => .ok []
  | n + 1 => do
      let parts ← readParts which r h n
      match r.readFull (partOffset h n) h.partSize.toNat partCodec.width with
      | .ok bytes => .ok (parts ++ [partCodec.decode bytes])
      | .error e => .error ⟨none, .partition which n e⟩

def readHeader (r : Image) (off : Int) : Except TableFailure Header :=
  match r.readFull off headerSize.toNat headerCodec.width with
  | .ok bytes => .ok (headerCodec.decode bytes)
  | .error e => .error ⟨none, .header e⟩

def table (r : Image) (off : Int) : Except TableFailure GPT := do
  let which := if off ≠ blockSize then Which.backup else Which.primary
  let h ← readHeader r off
  ensure (h.signature = signature) ⟨none, .signature which h.signature⟩
  ensure (h.revision = revision) ⟨none, .revision which h.revision⟩
  ensure (h.headerSize = headerSize) ⟨none, .headerSize which h.headerSize⟩
  ensure (h.nPart ≤ maxNPart) ⟨none, .maxNPart which h.nPart⟩
  let size := h.nPart.toNat * h.partSize.toNat
  let partBlocks ← readBlock r size (blockProduct h.partStart) (fun n err => .readingPartitions which n size err)
  let partSum := Crc32.checksumIEEE partBlocks
  ensure (partSum = h.partCRC) ⟨some ⟨h, []⟩, .partitionCRC which ⟨h, []⟩ partSum h.partCRC⟩
  let hdr ← readBlock r h.headerSize.toNat off (fun n err => .readingHeader which n h.headerSize.toNat err)
  let sum := Crc32.checksumIEEE (zapCRC hdr)
  ensure (sum = h.crc) ⟨some ⟨h, []⟩, .headerCRC which sum h.crc⟩
  let parts ← readParts which r h h.nPart.toNat
  .ok ⟨h, parts⟩

end Read

section Write

inductive WriteError where
  | partitions (len : Nat) (start : Int) (err : IoError)
  | header (err : IoError)
  | panic
deriving DecidableEq, Repr

structure Disk where
  dev : Image
  g : GPT

-- copy(h[off:], source), which panics when off is past the end of h.
def copyInto (h : Bytes) (off : Nat) (source : Bytes) : Option Bytes :=
  if off ≤ h.length then some (h.take off ++ (source.take (h.length - off) ++ h.drop (off + source.length))) else none

def fillParts (parts : List Part) (size : Nat) : Nat → Bytes → Option Bytes
  | 0, h => some h
  | n + 1, h => do
      let filled ← fillParts parts size n h
      let part ← parts[n]?
      copyInto filled (n * size) (partCodec.encode part)

-- The length is computed in uint32.
def partBlock (g : GPT) : Option Bytes :=
  fillParts g.parts g.header.partSize.toNat g.header.nPart.toNat
    (List.replicate (g.header.nPart * g.header.partSize).toNat 0)

def writeDevice (bytes : Bytes) (off : Int) (failure : IoError → WriteError) : Act WriteError Disk Unit :=
  ⟨fun s =>
    match s.dev.writeAt bytes off with
    | .ok dev => (.ok (), { s with dev := dev })
    | .error e => (.error (failure e), s)⟩

def setHeader (h : Header) : Act WriteError Disk Unit :=
  ⟨fun s => (.ok (), { s with g := { s.g with header := h } })⟩

-- The second half of Write: the sum over the header with its CRC field zero goes
-- into the table and into bytes 16..20 of the encoded header.
def writeHeader (unsealed : Header) : Act WriteError Disk Unit := do
  setHeader unsealed
  let h ← Act.ofOption (copyInto (List.replicate unsealed.headerSize.toNat 0) 0 (headerCodec.encode unsealed)) .panic
  setHeader { unsealed with crc := Crc32.checksumIEEE h }
  let h ← Act.ofOption (copyInto h 16 (Codec.le32.encode (Crc32.checksumIEEE h))) .panic
  writeDevice h (blockOffset unsealed.currentLBA) .header

def write : Act WriteError Disk Unit := do
  let s ← Act.get
  let block ← Act.ofOption (partBlock s.g) .panic
  let ps := blockOffset s.g.header.partStart
  writeDevice block ps (.partitions block.length ps)
  writeHeader { s.g.header with partCRC := Crc32.checksumIEEE block, crc := 0 }

end Write

section Both

def equalHeader (p b : Header) : Bool :=
  p.signature == b.signature && p.revision == b.revision && p.headerSize == b.headerSize && p.currentLBA == b.backupLBA &&
    p.backupLBA == b.currentLBA && p.firstLBA == b.firstLBA && p.lastLBA == b.lastLBA && p.diskGUID == b.diskGUID &&
    p.nPart == b.nPart && p.partSize == b.partSize && p.partCRC == b.partCRC

inductive NewError where
  | table (err : TableError)
  | headersDiffer (g b : GPT)
  | crcSame (g b : Header)
  | partsDiffer (g b : GPT)
deriving DecidableEq

structure Found where
  g : Option GPT
  b : Option GPT
  err : Option NewError
deriving DecidableEq

def headerOff : Int := 0x200

-- The rest of New, once the primary table is known. Tables whose entries differ
-- come back in the other order.
def withBackup (g : GPT) : Except TableFailure GPT → Found
  | .error failure => ⟨some g, none, some (.table failure.err)⟩
  | .ok b =>
      if equalHeader g.header b.header = false then ⟨some g, some b, some (.headersDiffer g b)⟩
      else if g.header.crc = b.header.crc then ⟨some g, some b, some (.crcSame g.header b.header)⟩
      else if g.parts ≠ b.parts then ⟨some b, some g, some (.partsDiffer g b)⟩
      else ⟨some g, some b, none⟩

def new (r : Image) : Found :=
  match table r headerOff with
  | .error failure => ⟨none, none, some (.table failure.err)⟩
  | .ok g => withBackup g (table r (blockOffset g.header.backupLBA))

def writeBack (dev : Image) (g b : GPT) : Except WriteError Image :=
  match write.run ⟨dev, g⟩ with
  | (.error e, _) => .error e
  | (.ok _, s) =>
      match write.run ⟨s.dev, b⟩ with
      | (.error e, _) => .error e
      | (.ok _, s) => .ok s.dev

end Both

end URoot.Gpt
