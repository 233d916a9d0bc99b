import URoot.Cpio.RecordBytes

set_option autoImplicit false

namespace URoot.Newc

open GoLib Cpio Act

theorem read_inv (len : Nat) (s next : Reader) (bytes : Bytes) (done : (read len).run s = (.ok bytes, next)) :
    s.pos + len ≤ s.r.length ∧ bytes = (s.r.drop s.pos).take len ∧ bytes.length = len ∧
      next = { s with pos := s.pos + len } := by
  rw [read, run_get_bind] at done
  split at done
  · cases done
  · cases done
  · rename_i got full
    obtain ⟨inside, taken, size⟩ := read_at_none_inv full
    rw [run_require_bind _ _ _ size, run_set_bind,
      run_pure, size] at done
    cases done
    exact ⟨inside, taken, size, rfl⟩

theorem read_aligned_inv (len : Nat) (s next : Reader) (bytes : Bytes)
    (done : (readAligned len).run s = (.ok bytes, next)) :
    s.pos + len ≤ s.r.length ∧ bytes = (s.r.drop s.pos).take len ∧ bytes.length = len ∧
      next = { s with pos := round4 (s.pos + len) } := by
  rcases step : (read len).run s with ⟨result, middle⟩
  simp only [readAligned, step, Prod.mk.injEq] at done
  obtain ⟨rfl, rfl⟩ := done
  obtain ⟨inside, taken, size, rfl⟩ := read_inv len s middle bytes step
  exact ⟨inside, taken, size, rfl⟩

structure RecordAt (data : Bytes) (pos : Nat) (hdr : Header) (record : Record) : Prop where
  headFits : pos + 110 ≤ data.length
  magic : (data.drop pos).take 6 = newcMagic
  decoded : decodeHeader ((data.drop (pos + 6)).take 104) = some hdr
  named : 0 < hdr.nameLength.toNat
  nameFits : pos + 110 + hdr.nameLength.toNat ≤ data.length
  record_eq : record = ⟨some (newBytesReadCloser
      ((data.drop (round4 (pos + 110 + hdr.nameLength.toNat))).take hdr.fileSize.toNat)),
    { hdr.info with name := (data.drop (pos + 110)).take (hdr.nameLength.toNat - 1) }⟩

def recordEnd (pos : Nat) (hdr : Header) : Nat :=
  round4 (round4 (pos + 110 + hdr.nameLength.toNat) + hdr.fileSize.toNat)

theorem header_split (data : Bytes) (pos : Nat) :
    ((data.drop pos).take 110).take 6 = (data.drop pos).take 6 ∧
      ((data.drop pos).take 110).drop 6 = (data.drop (pos + 6)).take 104 := by
  constructor
  · rw [List.take_take]
    rfl
  · rw [List.drop_take, List.drop_drop]

theorem read_header_inv (s next : Reader) (hdr : Header) (done : readHeader.run s = (.ok hdr, next)) :
    s.pos + 110 ≤ s.r.length ∧ (s.r.drop s.pos).take 6 = newcMagic ∧
      decodeHeader ((s.r.drop (s.pos + 6)).take 104) = some hdr ∧ next = ⟨s.r, s.pos + 110⟩ := by
  obtain ⟨buf, afterHead, headRead, rest⟩ := run_bind_inv done
  obtain ⟨fits, rfl, -, rfl⟩ := read_inv 110 _ _ _ headRead
  obtain ⟨_, _, checked, final⟩ := run_bind_inv rest
  obtain ⟨magic, rfl⟩ := run_require_inv _ _ _ _ checked
  obtain ⟨decoded, rfl⟩ := run_of_option_inv final
  obtain ⟨magicPart, hexPart⟩ := header_split s.r s.pos
  exact ⟨fits, magicPart.symm.trans magic, by rw [← hexPart]; exact decoded, rfl⟩

theorem zero_length_wraps {length : UInt32} (bound : (length - 1).toNat ≤ length.toNat) :
    0 < length.toNat ∧ (length - 1).toNat = length.toNat - 1 := by
  have small := length.toNat_lt
  simp only [UInt32.toNat_sub, UInt32.toNat_one] at bound ⊢
  omega

theorem read_name_inv (hdr : Header) (s next : Reader) (name : Bytes) (done : (readName hdr).run s = (.ok name, next)) :
    0 < hdr.nameLength.toNat ∧ s.pos + hdr.nameLength.toNat ≤ s.r.length ∧
      name = (s.r.drop s.pos).take (hdr.nameLength.toNat - 1) ∧
      next = ⟨s.r, round4 (s.pos + hdr.nameLength.toNat)⟩ := by
  obtain ⟨nameBuf, afterName, nameRead, rest⟩ := run_bind_inv done
  obtain ⟨fits, nameEq, size, rfl⟩ := read_aligned_inv _ _ _ _ nameRead
  obtain ⟨_, _, checked, final⟩ := run_bind_inv rest
  obtain ⟨bound, rfl⟩ := run_require_inv _ _ _ _ checked
  rw [size] at bound
  obtain ⟨named, less⟩ := zero_length_wraps bound
  cases final
  refine ⟨named, fits, ?_, rfl⟩
  rw [nameEq, List.take_take, less, Nat.min_eq_left (Nat.sub_le _ _)]

theorem read_record_inv (s next : Reader) (record : Record) (done : readRecord.run s = (.ok record, next)) :
    ∃ hdr, RecordAt s.r s.pos hdr record ∧ next = ⟨s.r, recordEnd s.pos hdr⟩ := by
  obtain ⟨hdr, afterHead, headRead, rest⟩ := run_bind_inv done
  obtain ⟨headFits, magic, decoded, rfl⟩ := read_header_inv _ _ _ headRead
  obtain ⟨name, afterName, nameRead, final⟩ := run_bind_inv rest
  obtain ⟨named, nameFits, rfl, rfl⟩ := read_name_inv _ _ _ _ nameRead
  simp only [sectionContent, run_bind, run_get, run_set, run_pure, Prod.mk.injEq,
    Except.ok.injEq] at final
  obtain ⟨recordEq, rfl⟩ := final
  exact ⟨hdr, ⟨headFits, magic, decoded, named, nameFits, recordEq.symm⟩, rfl⟩

theorem read_record_progress (s next : Reader) (record : Record) (done : readRecord.run s = (.ok record, next)) :
    next.r = s.r ∧ s.pos + 110 ≤ s.r.length ∧ s.pos + 110 ≤ next.pos := by
  obtain ⟨hdr, place, rfl⟩ := read_record_inv s next record done
  have name := round4_le (s.pos + 110 + hdr.nameLength.toNat)
  have body := round4_le (round4 (s.pos + 110 + hdr.nameLength.toNat) + hdr.fileSize.toNat)
  exact ⟨rfl, place.headFits, by simp only [recordEnd]; omega⟩

end URoot.Newc
