import URoot.Gpt.RoundTrip

set_option autoImplicit false

namespace URoot.Gpt

open GoLib

theorem set_around (a c b a' c' b' : Bytes) (k : Nat) (value : UInt8) (frontSize : a'.length = a.length)
    (middleSize : c'.length = c.length) (same : a' ++ (c' ++ b') = (a ++ (c ++ b)).set k value) :
    (a' = a ∧ b' = b) ∨
      (c' = c ∧ ∀ z, z.length = c.length → a' ++ (z ++ b') = (a ++ (z ++ b)).set k value) := by
  rw [List.set_append] at same
  split at same
  · rename_i before
    obtain ⟨rfl, rest⟩ := List.append_inj same (by rw [List.length_set, frontSize])
    obtain ⟨rfl, rfl⟩ := List.append_inj rest middleSize
    refine Or.inr ⟨rfl, fun z _ => ?_⟩
    rw [List.set_append, if_pos before]
  · rename_i after
    obtain ⟨rfl, rest⟩ := List.append_inj same frontSize
    rw [List.set_append] at rest
    split at rest
    · obtain ⟨_, rfl⟩ := List.append_inj rest (by rw [List.length_set, middleSize])
      exact Or.inl ⟨rfl, rfl⟩
    · rename_i behind
      obtain ⟨rfl, rfl⟩ := List.append_inj rest middleSize
      refine Or.inr ⟨rfl, fun z size => ?_⟩
      rw [List.set_append, if_neg after, List.set_append, if_neg (by omega), size]

theorem set_changes (bytes : Bytes) (k : Nat) (value : UInt8) (bound : k < bytes.length)
    (changed : bytes[k]? ≠ some value) : bytes.set k value ≠ bytes := by
  intro same
  apply changed
  rw [← same, List.getElem?_set_self bound]

theorem checksum_detects (bytes : Bytes) (k : Nat) (value : UInt8) (changed : bytes.set k value ≠ bytes) :
    Crc32.checksumIEEE (bytes.set k value) ≠ Crc32.checksumIEEE bytes := by
  by_cases bound : k < bytes.length
  · apply Crc32.checksum_set_ne bytes k bound value
    intro same
    apply changed
    rw [← same, List.set_getElem_self]
  · exact absurd (List.set_eq_of_length_le (by omega)) changed

-- Both headers carry a correct CRC, so they cannot differ in a single byte:
-- inside the CRC field the zapped bytes would agree and the stored sums differ,
-- elsewhere the stored sums agree and the zapped bytes differ in one byte.
theorem header_change_detected (a b : Header) (k : Nat) (value : UInt8)
    (validA : Crc32.checksumIEEE (zapCRC (headerCodec.encode a)) = a.crc)
    (validB : Crc32.checksumIEEE (zapCRC (headerCodec.encode b)) = b.crc)
    (set : headerCodec.encode b = (headerCodec.encode a).set k value) :
    headerCodec.encode b = headerCodec.encode a := by
  rw [zap_encode] at validA validB
  rw [header_encode, header_encode] at set
  rcases set_around _ _ _ _ _ _ k value (by simp) (by simp) set with ⟨front, back⟩ | ⟨crc, other⟩
  · have sums : b.crc = a.crc := by rw [← validA, ← validB, front, back]
    rw [header_encode, header_encode, front, back, sums]
  · have zapped := other (Codec.le32.encode 0) (by simp)
    have sums : b.crc = a.crc := Codec.le32.encode_injective _ _ crc
    have unchanged : (frontCodec.encode a.front ++ (Codec.le32.encode 0 ++ backCodec.encode a.back)).set k value =
        frontCodec.encode a.front ++ (Codec.le32.encode 0 ++ backCodec.encode a.back) := by
      by_contra changed
      apply checksum_detects _ k value changed
      rw [← zapped, validA, validB, sums]
    obtain ⟨front, rest⟩ := List.append_inj (zapped.trans unchanged) (by simp)
    rw [header_encode, header_encode, front, crc, List.append_cancel_left rest]

theorem corruption_detected (r : Image) (off : Int) (g : GPT) (valid : table r off = .ok g) (pos : Nat) (value : UInt8)
    (inside : (off ≤ pos ∧ pos < off + 92) ∨
      (blockOffset g.header.partStart ≤ pos ∧
        pos < blockOffset g.header.partStart + g.header.nPart.toNat * g.header.partSize.toNat))
    (changed : r.bytes[pos]? ≠ some value) : ∃ failure, table (r.set pos value) off = .error failure := by
  have before := table_inv valid
  cases result : table (r.set pos value) off with
  | error failure => exact ⟨failure, rfl⟩
  | ok g' =>
      exfalso
      have after := table_inv result
      have start := before.start
      have bytes : (r.set pos value).bytes = r.bytes.set pos value := rfl
      by_cases inHeader : off.toNat ≤ pos ∧ pos < off.toNat + 92
      · have header : headerCodec.encode g'.header = (headerCodec.encode g.header).set (pos - off.toNat) value := by
          rw [after.header, before.header, bytes, slice_set_inside _ _ _ _ _ before.headerFits inHeader]
        have same := header_change_detected _ _ _ _ before.crc after.crc header
        rw [header] at same
        apply set_changes _ _ _ _ _ same
        · rw [headerCodec.encode_length, header_width]
          omega
        · rw [before.header, slice_get, if_pos (by omega)]
          simpa only [Nat.add_sub_cancel' inHeader.1] using changed
      · have header : g'.header = g.header := by
          apply headerCodec.encode_injective
          rw [after.header, before.header, bytes, slice_set_outside _ _ _ _ _ inHeader]
        have partStart := before.partStart
        have inParts : (blockOffset g.header.partStart).toNat ≤ pos ∧
            pos < (blockOffset g.header.partStart).toNat + g.header.nPart.toNat * g.header.partSize.toNat := by
          rcases inside with contradiction | parts
          · exact absurd (by omega) inHeader
          · have size : ((g.header.nPart.toNat * g.header.partSize.toNat : Nat) : Int) =
                g.header.nPart.toNat * g.header.partSize.toNat := by push_cast; rfl
            rw [← size] at parts
            omega
        have partCRC := after.partCRC
        rw [header, bytes, slice_set_inside _ _ _ _ _ before.partsFit inParts, ← before.partCRC] at partCRC
        apply checksum_detects _ _ _ _ partCRC
        apply set_changes
        · rw [slice_length before.partsFit]
          omega
        · rw [slice_get, if_pos (by omega)]
          simpa only [Nat.add_sub_cancel' inParts.1] using changed

def smallImage : Image := (write.run smallDisk).2.dev

def smallTable : GPT := (write.run smallDisk).2.g

theorem small_image_valid : table smallImage 0 = .ok smallTable := by
  obtain ⟨block, filled, len, holds⟩ := part_block_holds smallDisk small_disk_writable
  obtain ⟨after, done, written⟩ := write_writes smallDisk block small_disk_writable len filled
  rw [smallImage, smallTable, done]
  exact table_written smallDisk after block small_disk_writable len written holds

theorem small_image_corruption : ∃ failure, table (smallImage.set 600 1) 0 = .error failure :=
  corruption_detected smallImage 0 smallTable small_image_valid 600 1 (Or.inr (by decide +kernel)) (by decide +kernel)

end URoot.Gpt
