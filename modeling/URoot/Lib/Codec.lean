import Mathlib.Algebra.Order.Ring.Nat
import Mathlib.Data.List.Basic

set_option autoImplicit false

namespace GoLib

abbrev Bytes := List UInt8

-- Go source texts used as data here are ASCII, one byte for each character.
def str (text : String) : Bytes := text.toList.map Char.toUInt8

-- string(c) of a byte: the UTF-8 encoding of the code point with that number.
def utf8 (c : UInt8) : Bytes := if c < 0x80 then [c] else [(0xc0 : UInt8) ||| (c >>> 6), (0x80 : UInt8) ||| (c &&& 0x3f)]

def runeTail (b : UInt8) : Option (Nat × UInt8 × UInt8) :=
  if 0xc2 ≤ b ∧ b ≤ 0xdf then some (1, 0x80, 0xbf)
  else if b = 0xe0 then some (2, 0xa0, 0xbf)
  else if b = 0xed then some (2, 0x80, 0x9f)
  else if 0xe1 ≤ b ∧ b ≤ 0xef then some (2, 0x80, 0xbf)
  else if b = 0xf0 then some (3, 0x90, 0xbf)
  else if 0xf1 ≤ b ∧ b ≤ 0xf3 then some (3, 0x80, 0xbf)
  else if b = 0xf4 then some (3, 0x80, 0x8f)
  else none

def runeWidth : Bytes → Nat
  | [] => 0
  | b :: rest =>
      match runeTail b with
      | none => 1
      | some (more, low, high) =>
          let tail := rest.take more
          if tail.length = more ∧ tail.head?.all (fun x => low ≤ x ∧ x ≤ high) ∧ tail.tail.all (fun x => 0x80 ≤ x ∧ x ≤ 0xbf) then
            more + 1
          else 1

def leBytes : Nat → Nat → Bytes
  | 0, _ => []
  | width + 1, value => UInt8.ofNat value :: leBytes width (value / 256)

def leNat : Bytes → Nat
  | [] => 0
  | byte :: tail => byte.toNat + 256 * leNat tail

@[simp] theorem le_bytes_length (width value : Nat) : (leBytes width value).length = width := by
  induction width generalizing value with
  | zero => rfl
  | succ width ih => simp [leBytes, ih]

theorem le_nat_bound (bytes : Bytes) : leNat bytes < 256 ^ bytes.length := by
  induction bytes with
  | nil => simp [leNat]
  | cons byte tail ih =>
      have small := byte.toNat_lt
      rw [leNat, List.length_cons, Nat.pow_succ]
      omega

theorem le_nat_le_bytes (width value : Nat) (fits : value < 256 ^ width) :
    leNat (leBytes width value) = value := by
  induction width generalizing value with
  | zero =>
      have zero : value = 0 := by simpa using fits
      simp [leBytes, leNat, zero]
  | succ width ih =>
      have rest : value / 256 < 256 ^ width := by
        apply Nat.div_lt_of_lt_mul
        rw [Nat.pow_succ] at fits
        omega
      rw [leBytes, leNat, ih _ rest]
      simp only [UInt8.toNat_ofNat', Nat.reducePow]
      omega

theorem le_bytes_le_nat (bytes : Bytes) : leBytes bytes.length (leNat bytes) = bytes := by
  induction bytes with
  | nil => rfl
  | cons byte tail ih =>
      have small := byte.toNat_lt
      have quotient : (byte.toNat + 256 * leNat tail) / 256 = leNat tail := by omega
      have low : UInt8.ofNat (byte.toNat + 256 * leNat tail) = byte := by
        apply UInt8.toNat_inj.mp
        simp only [UInt8.toNat_ofNat', Nat.reducePow]
        omega
      rw [List.length_cons, leNat, leBytes, quotient, ih, low]

-- A fixed-width binary format together with the proofs that make it one:
-- encoding always fills the width and the two directions are inverse. This is
-- what encoding/binary does for a value whose size does not depend on its data.
structure Codec (α : Type) where
  width : Nat
  encode : α → Bytes
  decode : Bytes → α
  encode_length : ∀ value, (encode value).length = width
  decode_encode : ∀ value, decode (encode value) = value
  encode_decode : ∀ bytes, bytes.length = width → encode (decode bytes) = bytes

attribute [simp] Codec.encode_length Codec.decode_encode

namespace Codec

variable {α β : Type}

theorem encode_injective (codec : Codec α) (a b : α) (same : codec.encode a = codec.encode b) : a = b := by
  have decoded := congrArg codec.decode same
  simpa only [codec.decode_encode] using decoded

def word (width : Nat) (toNat : α → Nat) (ofNat : Nat → α) (small : ∀ value, toNat value < 256 ^ width)
    (back : ∀ value, ofNat (toNat value) = value) (exact : ∀ n < 256 ^ width, toNat (ofNat n) = n) : Codec α where
  width := width
  encode value := leBytes width (toNat value)
  decode bytes := ofNat (leNat bytes)
  encode_length value := le_bytes_length width (toNat value)
  decode_encode value := by rw [le_nat_le_bytes width _ (small value), back]
  encode_decode bytes full := by
    have bound := le_nat_bound bytes
    rw [full] at bound
    rw [exact _ bound, ← full, le_bytes_le_nat]

def byte : Codec UInt8 := word 1 UInt8.toNat UInt8.ofNat UInt8.toNat_lt (by simp) (fun _ small => UInt8.toNat_ofNat_of_lt' small)

def le16 : Codec UInt16 :=
  word 2 UInt16.toNat UInt16.ofNat UInt16.toNat_lt (by simp) (fun _ small => UInt16.toNat_ofNat_of_lt' small)

def le32 : Codec UInt32 :=
  word 4 UInt32.toNat UInt32.ofNat UInt32.toNat_lt (by simp) (fun _ small => UInt32.toNat_ofNat_of_lt' small)

def le64 : Codec UInt64 :=
  word 8 UInt64.toNat UInt64.ofNat UInt64.toNat_lt (by simp) (fun _ small => UInt64.toNat_ofNat_of_lt' small)

def reversed (codec : Codec α) : Codec α where
  width := codec.width
  encode value := (codec.encode value).reverse
  decode bytes := codec.decode bytes.reverse
  encode_length value := by simp
  decode_encode value := by simp
  encode_decode bytes full := by
    rw [codec.encode_decode bytes.reverse (by simpa using full), List.reverse_reverse]

def be32 : Codec UInt32 := le32.reversed

def pair (first : Codec α) (second : Codec β) : Codec (α × β) where
  width := first.width + second.width
  encode value := first.encode value.1 ++ second.encode value.2
  decode bytes := (first.decode (bytes.take first.width), second.decode (bytes.drop first.width))
  encode_length value := by simp
  decode_encode value := by
    have left : (first.encode value.1 ++ second.encode value.2).take first.width = first.encode value.1 :=
      List.take_left' (first.encode_length value.1)
    have right : (first.encode value.1 ++ second.encode value.2).drop first.width = second.encode value.2 :=
      List.drop_left' (first.encode_length value.1)
    simp only [left, right, first.decode_encode, second.decode_encode]
  encode_decode bytes full := by
    rw [first.encode_decode _ (by simp only [List.length_take]; omega),
      second.encode_decode _ (by simp only [List.length_drop]; omega), List.take_append_drop]

def mapped (codec : Codec α) (make : α → β) (view : β → α)
    (makeView : ∀ value, make (view value) = value) (viewMake : ∀ value, view (make value) = value) : Codec β where
  width := codec.width
  encode value := codec.encode (view value)
  decode bytes := make (codec.decode bytes)
  encode_length value := by simp
  decode_encode value := by simp [makeView]
  encode_decode bytes full := by rw [viewMake, codec.encode_decode bytes full]

section Many

variable (codec : Codec α)

def encodeAll (values : List α) : Bytes := values.flatMap codec.encode

def decodeAll : Nat → Bytes → List α
  | 0, _ => []
  | n + 1, bytes => codec.decode (bytes.take codec.width) :: decodeAll n (bytes.drop codec.width)

theorem encode_all_length (values : List α) : (codec.encodeAll values).length = codec.width * values.length := by
  induction values with
  | nil => rfl
  | cons value rest ih =>
      rw [encodeAll, List.flatMap_cons, List.length_append, codec.encode_length, ← encodeAll, ih, List.length_cons,
        Nat.mul_succ, Nat.add_comm]

theorem decode_all_length (n : Nat) (bytes : Bytes) : (codec.decodeAll n bytes).length = n := by
  induction n generalizing bytes with
  | zero => rfl
  | succ n ih => rw [decodeAll, List.length_cons, ih]

theorem decode_encode_all (values : List α) : codec.decodeAll values.length (codec.encodeAll values) = values := by
  induction values with
  | nil => rfl
  | cons value rest ih =>
      have size := codec.encode_length value
      rw [encodeAll, List.flatMap_cons, List.length_cons, decodeAll, List.take_left' size, List.drop_left' size, ← encodeAll,
        ih, codec.decode_encode]

theorem encode_decode_all (n : Nat) (bytes : Bytes) (full : bytes.length = codec.width * n) :
    codec.encodeAll (codec.decodeAll n bytes) = bytes := by
  induction n generalizing bytes with
  | zero =>
      have empty : bytes = [] := List.length_eq_zero_iff.mp (by simpa using full)
      rw [empty]
      rfl
  | succ n ih =>
      rw [Nat.mul_succ] at full
      have later := ih (bytes.drop codec.width) (by rw [List.length_drop]; omega)
      rw [encodeAll] at later
      rw [decodeAll, encodeAll, List.flatMap_cons, later, codec.encode_decode _ (by rw [List.length_take]; omega),
        List.take_append_drop]

end Many

end Codec

-- A Go array [n]byte: the length is part of the type.
structure Fixed (n : Nat) where
  bytes : Bytes
  size : bytes.length = n
deriving DecidableEq

theorem Fixed.eq_of_bytes {n : Nat} (a b : Fixed n) (same : a.bytes = b.bytes) : a = b := by
  cases a
  cases b
  simpa using same

def Fixed.ofBytes (n : Nat) (bytes : Bytes) : Fixed n :=
  ⟨(bytes ++ List.replicate n 0).take n, by simp⟩

def Codec.fixed (n : Nat) : Codec (Fixed n) where
  width := n
  encode value := value.bytes
  decode bytes := Fixed.ofBytes n bytes
  encode_length value := value.size
  decode_encode value := by
    apply Fixed.eq_of_bytes
    exact List.take_left' value.size
  encode_decode bytes full := List.take_left' full

section Hex

def hexDigit (nibble : Nat) : UInt8 := UInt8.ofNat (if nibble < 10 then 48 + nibble else 87 + nibble)

def hexEncode : Bytes → Bytes
  | [] => []
  | byte :: tail => hexDigit (byte.toNat / 16) :: hexDigit (byte.toNat % 16) :: hexEncode tail

def fromHexChar (char : UInt8) : Option Nat :=
  if 48 ≤ char ∧ char ≤ 57 then some (char.toNat - 48)
  else if 97 ≤ char ∧ char ≤ 102 then some (char.toNat - 87)
  else if 65 ≤ char ∧ char ≤ 70 then some (char.toNat - 55)
  else none

def hexDecode : Bytes → Option Bytes
  | [] => some []
  | [_] => none
  | high :: low :: tail =>
      match fromHexChar high, fromHexChar low, hexDecode tail with
      | some a, some b, some rest => some (UInt8.ofNat (16 * a + b) :: rest)
      | _, _, _ => none

-- bytes.ToUpper on a slice whose bytes are all ASCII.
def toUpper (bytes : Bytes) : Bytes :=
  bytes.map (fun char => if 97 ≤ char ∧ char ≤ 122 then char - 32 else char)

@[simp] theorem hex_encode_length (bytes : Bytes) : (hexEncode bytes).length = 2 * bytes.length := by
  induction bytes with
  | nil => rfl
  | cons byte tail ih =>
      simp only [hexEncode, List.length_cons, ih]
      omega

@[simp] theorem to_upper_length (bytes : Bytes) : (toUpper bytes).length = bytes.length := by
  simp [toUpper]

theorem upper_digit_decodes : ∀ nibble < 16,
    fromHexChar (if 97 ≤ hexDigit nibble ∧ hexDigit nibble ≤ 122 then hexDigit nibble - 32 else hexDigit nibble) =
      some nibble := by
  decide

theorem hex_decode_upper (bytes : Bytes) : hexDecode (toUpper (hexEncode bytes)) = some bytes := by
  induction bytes with
  | nil => rfl
  | cons byte tail ih =>
      have small := byte.toNat_lt
      have high := upper_digit_decodes (byte.toNat / 16) (by omega)
      have low := upper_digit_decodes (byte.toNat % 16) (by omega)
      have whole : 16 * (byte.toNat / 16) + byte.toNat % 16 = byte.toNat := by omega
      simp only [toUpper] at ih
      simp [hexEncode, toUpper, hexDecode, high, low, ih, whole]

end Hex

theorem flat_map_eq_iff {α β : Type} (f g : α → List β) (items : List α)
    (sizes : ∀ item ∈ items, (f item).length = (g item).length) :
    items.flatMap f = items.flatMap g ↔ ∀ item ∈ items, f item = g item := by
  induction items with
  | nil => simp
  | cons item rest ih =>
      rw [List.flatMap_cons, List.flatMap_cons, List.forall_mem_cons,
        ← ih fun other member => sizes other (List.mem_cons_of_mem _ member)]
      constructor
      · intro same
        exact List.append_inj same (sizes item List.mem_cons_self)
      · rintro ⟨first, later⟩
        rw [first, later]

end GoLib
