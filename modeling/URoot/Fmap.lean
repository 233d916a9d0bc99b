import URoot.Lib.Device
import URoot.Lib.Search

set_option autoImplicit false

namespace URoot.Fmap

open GoLib Search

def signature : Bytes := str "__FMAP__"

section Model

structure Header where
  signature : Fixed 8
  verMajor : UInt8
  verMinor : UInt8
  base : UInt64
  size : UInt32
  name : Fixed 32
  nAreas : UInt16
deriving DecidableEq

structure Area where
  offset : UInt32
  size : UInt32
  name : Fixed 32
  flags : UInt16
deriving DecidableEq

structure FMap where
  header : Header
  areas : List Area
deriving DecidableEq

structure Metadata where
  start : UInt64
deriving DecidableEq

-- encoding/binary in little-endian order, field by field as the structs declare them.
def headerCodec : Codec Header :=
  ((Codec.fixed 8).pair (Codec.byte.pair (Codec.byte.pair (Codec.le64.pair (Codec.le32.pair
    ((Codec.fixed 32).pair Codec.le16)))))).mapped
    (fun (signature, verMajor, verMinor, base, size, name, nAreas) =>
      ⟨signature, verMajor, verMinor, base, size, name, nAreas⟩)
    (fun h => (h.signature, h.verMajor, h.verMinor, h.base, h.size, h.name, h.nAreas)) (fun _ => rfl) (fun _ => rfl)

def areaCodec : Codec Area :=
  (Codec.le32.pair (Codec.le32.pair ((Codec.fixed 32).pair Codec.le16))).mapped
    (fun (offset, size, name, flags) => ⟨offset, size, name, flags⟩)
    (fun a => (a.offset, a.size, a.name, a.flags)) (fun _ => rfl) (fun _ => rfl)

inductive ReadError where
  | readAll (err : IoError)
  | multipleSignatures
  | noSignature
  | unexpectedEOF
deriving DecidableEq, Repr

def ReadError.text (ioText : IoError → Bytes) : ReadError → Bytes
  | .readAll err => ioText err
  | .multipleSignatures => str "Found multiple signatures"
  | .noSignature => str "Cannot find fmap signature"
  | .unexpectedEOF => str "Unexpected EOF while parsing fmap"

-- binary.Read of size bytes: what it takes and what is left, or any of its errors as one.
def readField (size : Nat) (r : Bytes) : Except ReadError (Bytes × Bytes) :=
  if r.length < size then .error .unexpectedEOF else .ok (r.take size, r.drop size)

def readFields (r : Bytes) : Except ReadError FMap := do
  let (head, rest) ← readField headerCodec.width r
  let header := headerCodec.decode head
  let (areas, _) ← readField (areaCodec.width * header.nAreas.toNat) rest
  .ok ⟨header, areaCodec.decodeAll header.nAreas.toNat areas⟩

-- The argument is what ioutil.ReadAll gives.
def read : Except IoError Bytes → Except ReadError (FMap × Metadata)
  | .error err => .error (.readAll err)
  | .ok data =>
      if 2 ≤ count signature data then .error .multipleSignatures
      else
        match index signature data with
        | none => .error .noSignature
        | some start => (readFields (data.drop start)).map (fun fmap => (fmap, ⟨UInt64.ofNat start⟩))

def write (fmap : FMap) (m : Metadata) : Act IoError SeekFile Unit := do
  SeekFile.seekStart (int64 m.start.toNat)
  SeekFile.write (headerCodec.encode fmap.header)
  SeekFile.write (areaCodec.encodeAll fmap.areas)

end Model

section Bytes

theorem header_width : headerCodec.width = 56 := rfl

theorem area_width : areaCodec.width = 42 := rfl

def FMap.bytes (m : FMap) : Bytes := headerCodec.encode m.header ++ areaCodec.encodeAll m.areas

theorem bytes_length (m : FMap) : m.bytes.length = 56 + 42 * m.areas.length := by
  rw [FMap.bytes, List.length_append, headerCodec.encode_length, areaCodec.encode_all_length, header_width, area_width]

theorem bytes_signature (m : FMap) : m.bytes.take 8 = m.header.signature.bytes := by
  have front : headerCodec.encode m.header = m.header.signature.bytes ++ _ := rfl
  rw [FMap.bytes, front, List.append_assoc, List.take_left' m.header.signature.size]

def FMap.Counted (m : FMap) : Prop := m.header.nAreas.toNat = m.areas.length

theorem read_field_inv (size : Nat) (r taken rest : Bytes) (done : readField size r = .ok (taken, rest)) :
    size ≤ r.length ∧ taken = r.take size ∧ rest = r.drop size := by
  rw [readField] at done
  split at done
  · cases done
  · rename_i full
    cases done
    exact ⟨by omega, rfl, rfl⟩

theorem read_fields_inv (r : Bytes) (m : FMap) (done : readFields r = .ok m) : m.Counted ∧ ∃ rest, r = m.bytes ++ rest := by
  obtain ⟨⟨head, behind⟩, headRead, later⟩ := except_bind_inv done
  obtain ⟨⟨areas, rest⟩, areasRead, final⟩ := except_bind_inv later
  obtain ⟨headFits, headEq, behindEq⟩ := read_field_inv _ _ _ _ headRead
  obtain ⟨areasFit, areasEq, restEq⟩ := read_field_inv _ _ _ _ areasRead
  cases final
  have headSize : head.length = headerCodec.width := by
    rw [headEq, List.length_take]
    omega
  have areasSize : areas.length = areaCodec.width * (headerCodec.decode head).nAreas.toNat := by
    rw [areasEq, List.length_take]
    exact Nat.min_eq_left areasFit
  refine ⟨(areaCodec.decode_all_length _ _).symm, rest, ?_⟩
  rw [FMap.bytes, headerCodec.encode_decode _ headSize, areaCodec.encode_decode_all _ _ areasSize, List.append_assoc, areasEq,
    restEq, List.take_append_drop, headEq, behindEq, List.take_append_drop]

theorem read_fields_bytes (m : FMap) (rest : Bytes) (counted : m.Counted) : readFields (m.bytes ++ rest) = .ok m := by
  have headSize := headerCodec.encode_length m.header
  have areasSize : (areaCodec.encodeAll m.areas).length = areaCodec.width * m.header.nAreas.toNat := by
    rw [areaCodec.encode_all_length, counted]
  have headRead : readField headerCodec.width (m.bytes ++ rest) =
      .ok (headerCodec.encode m.header, areaCodec.encodeAll m.areas ++ rest) := by
    rw [readField, if_neg (by rw [List.length_append, bytes_length, header_width]; omega), FMap.bytes, List.append_assoc,
      List.take_left' headSize, List.drop_left' headSize]
  have areasRead : readField (areaCodec.width * m.header.nAreas.toNat) (areaCodec.encodeAll m.areas ++ rest) =
      .ok (areaCodec.encodeAll m.areas, rest) := by
    rw [readField, if_neg (by rw [List.length_append, areasSize]; omega), List.take_left' areasSize, List.drop_left' areasSize]
  rw [readFields, except_bind_ok headRead]
  simp only [headerCodec.decode_encode]
  rw [except_bind_ok areasRead, show m.header.nAreas.toNat = m.areas.length from counted]
  simp only [areaCodec.decode_encode_all]

end Bytes

section Image

theorem signature_occurs (data rest : Bytes) (start : Nat) (m : FMap) (here : data.drop start = m.bytes ++ rest)
    (signed : m.header.signature.bytes = signature) : OccursAt signature data start := by
  have enough : 8 ≤ m.bytes.length := by
    rw [bytes_length]
    omega
  rw [OccursAt, here, show signature.length = 8 by decide, List.take_append_of_le_length enough, bytes_signature, signed]

theorem read_inv (data : Bytes) (m : FMap) (md : Metadata) (found : read (.ok data) = .ok (m, md)) :
    ∃ start rest, data.drop start = m.bytes ++ rest ∧ m.Counted ∧ m.header.signature.bytes = signature ∧
      md = ⟨UInt64.ofNat start⟩ := by
  rw [read] at found
  split at found
  · cases found
  split at found
  · cases found
  rename_i start first
  cases parsed : readFields (data.drop start) with
  | error e =>
      rw [parsed] at found
      cases found
  | ok fmap =>
      rw [parsed] at found
      cases found
      obtain ⟨counted, rest, here⟩ := read_fields_inv _ _ parsed
      refine ⟨start, rest, here, counted, ?_, rfl⟩
      have occurs : (data.drop start).take 8 = signature := ((index_some_iff _ _ _).mp first).1
      have enough : 8 ≤ m.bytes.length := by
        rw [bytes_length]
        omega
      rw [here, List.take_append_of_le_length enough, bytes_signature] at occurs
      exact occurs

theorem read_once (data rest : Bytes) (start : Nat) (m : FMap) (here : data.drop start = m.bytes ++ rest)
    (counted : m.Counted) (signed : m.header.signature.bytes = signature)
    (only : ∀ i, OccursAt signature data i → i = start) : read (.ok data) = .ok (m, ⟨UInt64.ofNat start⟩) := by
  have occurs := signature_occurs data rest start m here signed
  have once := count_once signature data start occurs only (by decide)
  rw [read, if_neg (by omega), index_once signature data start occurs only]
  simp only [here, read_fields_bytes m rest counted]
  rfl

theorem start_word (image : GoLib.Image) (start : Nat) (inside : start ≤ image.bytes.length) :
    (UInt64.ofNat start).toNat = start := by
  have small := image.small
  have bound : start < 2 ^ 64 := by omega
  exact UInt64.toNat_ofNat_of_lt' bound

theorem run_write (m : FMap) (md : Metadata) (start offset : Nat) (image : GoLib.Image) (place : md.start.toNat = start)
    (fits : start + m.bytes.length ≤ image.bytes.length) :
    ∃ next, (write m md).run ⟨image, offset⟩ = (.ok (), ⟨next, start + m.bytes.length⟩) ∧
      next.bytes = overwrite image.bytes m.bytes start := by
  have small := image.small
  have size := fits
  rw [FMap.bytes, List.length_append] at size
  have seek : int64 md.start.toNat = start := by
    rw [place]
    exact int64_exact (by omega) (by omega)
  obtain ⟨first, headWrite, headBytes⟩ := SeekFile.run_write (headerCodec.encode m.header) image start (by omega)
  have kept : first.bytes.length = image.bytes.length := by
    rw [headBytes, overwrite_length _ _ _ (by omega)]
  obtain ⟨next, areasWrite, areasBytes⟩ := SeekFile.run_write (areaCodec.encodeAll m.areas) first
    (start + (headerCodec.encode m.header).length) (by omega)
  refine ⟨next, ?_, ?_⟩
  · rw [write, seek, Act.run_bind_ok (SeekFile.run_seek_start start _), Act.run_bind_ok headWrite,
      areasWrite, FMap.bytes, List.length_append, Nat.add_assoc]
  · rw [areasBytes, headBytes, FMap.bytes, overwrite_append _ _ _ _ (by rw [List.length_append]; omega)]

end Image

theorem fmap_write_back (image : GoLib.Image) (offset : Nat) (m : FMap) (md : Metadata)
    (found : read (.ok image.bytes) = .ok (m, md)) :
    (∃ offset', (write m md).run ⟨image, offset⟩ = (.ok (), ⟨image, offset'⟩)) ∧
      ∀ m' : FMap, m'.header.signature = m.header.signature → m'.header.nAreas.toNat = m'.areas.length →
        md.start.toNat + (56 + 42 * m'.areas.length) ≤ image.bytes.length →
        ∃ next, (write m' md).run ⟨image, offset⟩ = (.ok (), next) ∧
          next.image.bytes.length = image.bytes.length ∧
          (∀ i, ¬ (md.start.toNat ≤ i ∧ i < md.start.toNat + (56 + 42 * m'.header.nAreas.toNat)) →
            next.image.bytes[i]? = image.bytes[i]?) ∧
          ((∀ i, OccursAt signature next.image.bytes i → i = md.start.toNat) →
            read (.ok next.image.bytes) = .ok (m', md)) := by
  obtain ⟨start, rest, here, counted, signed, word⟩ := read_inv _ _ _ found
  have fits : start + m.bytes.length ≤ image.bytes.length := by
    have size := congrArg List.length here
    have some := bytes_length m
    rw [List.length_drop, List.length_append] at size
    omega
  have place : md.start.toNat = start := by
    rw [word]
    exact start_word image start (by omega)
  simp only [place]
  constructor
  · obtain ⟨next, ran, bytes⟩ := run_write m md start offset image place fits
    have same : next = image := by
      rw [overwrite_same _ _ _ _ here] at bytes
      cases next
      cases image
      cases bytes
      rfl
    exact ⟨_, by rw [ran, same]⟩
  · intro m' sameSignature sizes room
    have length := bytes_length m'
    obtain ⟨next, ran, bytes⟩ := run_write m' md start offset image place (by omega)
    have fits' : start + m'.bytes.length ≤ image.bytes.length := by omega
    refine ⟨_, ran, ?_, ?_, ?_⟩
    · simp only [bytes, overwrite_length _ _ _ fits']
    · intro i outside
      simp only [bytes]
      rw [overwrite_get _ _ _ _ fits', if_neg (by omega)]
    · intro only
      rw [word]
      exact read_once _ _ start m' (by rw [bytes]; exact drop_overwrite _ _ _ fits') sizes
        (by rw [sameSignature, signed]) only

def smallHeader : Header := ⟨Fixed.ofBytes 8 signature, 1, 0, 0xdeadbeef, 160, Fixed.ofBytes 32 (str "FLASH"), 1⟩

def smallMap : FMap := ⟨smallHeader, [⟨0, 16, Fixed.ofBytes 32 (str "RO"), 4⟩]⟩

def renamedMap : FMap := ⟨smallHeader, [⟨0, 16, Fixed.ofBytes 32 (str "RW"), 0⟩]⟩

def smallFlash : GoLib.Image where
  bytes := str "boot" ++ (smallMap.bytes ++ str "__FMAP_")
  small := by decide +kernel

theorem renamed_area_reads_back :
    (∃ offset, (write smallMap ⟨4⟩).run ⟨smallFlash, 0⟩ = (.ok (), ⟨smallFlash, offset⟩)) ∧
      ∃ next, (write renamedMap ⟨4⟩).run ⟨smallFlash, 0⟩ = (.ok (), next) ∧
        read (.ok next.image.bytes) = .ok (renamedMap, ⟨4⟩) := by
  obtain ⟨same, edits⟩ := fmap_write_back smallFlash 0 smallMap ⟨4⟩ (by decide +kernel)
  obtain ⟨next, ran, length, _, readBack⟩ := edits renamedMap (by decide) (by decide) (by decide +kernel)
  refine ⟨same, next, ran, readBack ?_⟩
  have bytes : next.image.bytes = ((write renamedMap ⟨4⟩).run ⟨smallFlash, 0⟩).2.image.bytes := by rw [ran]
  intro i here
  have inside := occurs_inside signature _ i (by decide) here
  rw [length, show smallFlash.bytes.length = 109 by decide +kernel] at inside
  rw [bytes] at here
  revert here
  have all : ∀ i < 110, OccursAt signature ((write renamedMap ⟨4⟩).run ⟨smallFlash, 0⟩).2.image.bytes i → i = 4 := by
    decide +kernel
  exact all i (by omega)

end URoot.Fmap
