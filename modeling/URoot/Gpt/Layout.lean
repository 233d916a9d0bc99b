import URoot.Gpt.Table

set_option autoImplicit false

namespace URoot.Gpt

open GoLib

structure TableAt (r : Image) (off : Int) (g : GPT) : Prop where
  start : 0 ≤ off
  headerFits : off.toNat + 92 ≤ r.bytes.length
  header : headerCodec.encode g.header = slice r.bytes off.toNat 92
  signature : g.header.signature = signature
  revision : g.header.revision = revision
  headerSize : g.header.headerSize = headerSize
  maxNPart : g.header.nPart ≤ maxNPart
  partStart : 0 ≤ blockOffset g.header.partStart
  partsFit : (blockOffset g.header.partStart).toNat + g.header.nPart.toNat * g.header.partSize.toNat ≤ r.bytes.length
  partCRC : Crc32.checksumIEEE (slice r.bytes (blockOffset g.header.partStart).toNat
    (g.header.nPart.toNat * g.header.partSize.toNat)) = g.header.partCRC
  crc : Crc32.checksumIEEE (zapCRC (headerCodec.encode g.header)) = g.header.crc
  parts : ∃ which, readParts which r g.header g.header.nPart.toNat = .ok g.parts

theorem read_header_inv (r : Image) (off : Int) (h : Header) (done : readHeader r off = .ok h) :
    0 ≤ off ∧ off.toNat + 92 ≤ r.bytes.length ∧ headerCodec.encode h = slice r.bytes off.toNat 92 := by
  unfold readHeader at done
  split at done
  · rename_i bytes read
    obtain ⟨_, start, fits, taken⟩ := r.read_full_inv off _ _ bytes read
    cases done
    have size : bytes.length = headerCodec.width := by rw [taken, slice_length fits]
    exact ⟨start, fits, by rw [headerCodec.encode_decode bytes size, taken, header_width]⟩
  · cases done

theorem read_block_inv (r : Image) (len : Nat) (off : Int) (failure : Nat → Option IoError → TableError) (bytes : Bytes)
    (done : readBlock r len off failure = .ok bytes) :
    0 ≤ off ∧ off.toNat + len ≤ r.bytes.length ∧ bytes = slice r.bytes off.toNat len := by
  unfold readBlock at done
  split at done
  · rename_i got read
    split at done
    · cases done
      exact r.read_at_inv len off _ read
    · cases done
  · cases done

theorem table_inv {r : Image} {off : Int} {g : GPT} (done : table r off = .ok g) : TableAt r off g := by
  obtain ⟨h, headerRead, rest⟩ := except_bind_inv done
  obtain ⟨start, headerFits, header⟩ := read_header_inv r off h headerRead
  obtain ⟨_, signature, rest⟩ := except_bind_inv rest
  obtain ⟨_, revision, rest⟩ := except_bind_inv rest
  obtain ⟨_, headerSize, rest⟩ := except_bind_inv rest
  obtain ⟨_, maxNPart, rest⟩ := except_bind_inv rest
  obtain ⟨partBlocks, partsRead, rest⟩ := except_bind_inv rest
  obtain ⟨_, partCRC, rest⟩ := except_bind_inv rest
  obtain ⟨hdr, hdrRead, rest⟩ := except_bind_inv rest
  obtain ⟨_, crc, rest⟩ := except_bind_inv rest
  obtain ⟨parts, entries, rest⟩ := except_bind_inv rest
  cases rest
  have size := ensure_inv _ _ _ headerSize
  obtain ⟨partStart, partsFit, rfl⟩ := read_block_inv _ _ _ _ _ partsRead
  obtain ⟨_, _, rfl⟩ := read_block_inv _ _ _ _ _ hdrRead
  have crc := ensure_inv _ _ _ crc
  have width : h.headerSize.toNat = 92 := by rw [size]; rfl
  rw [width, ← header] at crc
  rw [block_product_offset] at partStart partsFit partCRC
  exact ⟨start, headerFits, header, ensure_inv _ _ _ signature, ensure_inv _ _ _ revision, size,
    ensure_inv _ _ _ maxNPart, partStart, partsFit, ensure_inv _ _ _ partCRC, crc, ⟨_, entries⟩⟩

theorem read_parts_which (first second : Which) (r : Image) (h : Header) (n : Nat) (parts : List Part)
    (done : readParts first r h n = .ok parts) : readParts second r h n = .ok parts := by
  induction n generalizing parts with
  | zero => exact done
  | succ n ih =>
      obtain ⟨before, earlier, last⟩ := except_bind_inv done
      rw [readParts, except_bind_ok (ih before earlier)]
      split at last
      · exact last
      · cases last

theorem read_block_slice (r : Image) (size off : Nat) (failure : Nat → Option IoError → TableError)
    (inside : off < r.bytes.length) (fits : off + size ≤ r.bytes.length) :
    readBlock r size off failure = .ok (slice r.bytes off size) := by
  rw [readBlock, r.read_at_slice _ _ inside fits]
  simp only [if_pos (slice_length fits)]

theorem read_header_slice (r : Image) (off : Nat) (h : Header) (fits : off + 92 ≤ r.bytes.length)
    (header : headerCodec.encode h = slice r.bytes off 92) : readHeader r off = .ok h := by
  have whole := r.read_full_slice headerSize.toNat headerCodec.width off (by decide) (by decide) fits
  rw [header_width, ← header] at whole
  rw [readHeader, header_width, whole]
  simp only [headerCodec.decode_encode]

-- Conversely nothing else is checked. Only an empty array past the end of the
-- device is refused although its (no) bytes have the right sum.
theorem table_of_at (r : Image) (off : Int) (g : GPT) (valid : TableAt r off g)
    (inside : (blockOffset g.header.partStart).toNat < r.bytes.length) : table r off = .ok g := by
  obtain ⟨h, parts⟩ := g
  obtain ⟨start, headerFits, header, signature, revision, size, maxNPart, partStart, partsFit, partCRC, crc, _, entries⟩ :=
    valid
  obtain ⟨pos, rfl⟩ := Int.eq_ofNat_of_zero_le start
  obtain ⟨array, array_eq⟩ := Int.eq_ofNat_of_zero_le partStart
  rw [Int.toNat_natCast] at header headerFits
  rw [array_eq, Int.toNat_natCast] at partsFit inside partCRC
  have width : h.headerSize.toNat = 92 := by rw [size]; rfl
  rw [table, except_bind_ok (read_header_slice r pos h headerFits header),
    except_bind_ok (ensure_true _ _ signature), except_bind_ok (ensure_true _ _ revision),
    except_bind_ok (ensure_true _ _ size), except_bind_ok (ensure_true _ _ maxNPart), block_product_offset,
    array_eq, except_bind_ok (read_block_slice r _ array _ inside partsFit),
    except_bind_ok (ensure_true _ _ partCRC), width,
    except_bind_ok (read_block_slice r 92 pos _ (by omega) headerFits), ← header,
    except_bind_ok (ensure_true _ _ crc), except_bind_ok (read_parts_which _ _ _ _ _ _ entries)]

theorem header_take (h : Header) : (headerCodec.encode h).take 16 = frontCodec.encode h.front := by
  have front : (frontCodec.encode h.front).length = 16 := frontCodec.encode_length _
  rw [header_encode, List.take_left' front]

theorem header_drop (h : Header) : (headerCodec.encode h).drop 20 = backCodec.encode h.back := by
  have front : (frontCodec.encode h.front).length = 16 := frontCodec.encode_length _
  have word : (Codec.le32.encode h.crc).length = 4 := Codec.le32.encode_length _
  have both : (frontCodec.encode h.front ++ Codec.le32.encode h.crc).length = 20 := by
    rw [List.length_append, front, word]
  rw [header_encode, ← List.append_assoc, List.drop_left' both]

theorem zap_encode (h : Header) :
    zapCRC (headerCodec.encode h) = frontCodec.encode h.front ++ (Codec.le32.encode 0 ++ backCodec.encode h.back) := by
  have zero : Codec.le32.encode 0 = [0, 0, 0, 0] := by decide
  rw [zapCRC, header_take, header_drop, zero]

end URoot.Gpt
