import URoot.Gpt.Layout

set_option autoImplicit false

namespace URoot.Gpt

open GoLib Act

def Header.partsLen (h : Header) : Nat := h.nPart.toNat * h.partSize.toNat

-- A table that Write can lay out on the device: both regions lie inside it and
-- do not meet. Entries may be longer than the 128 bytes a Part takes.
structure Writable (s : Disk) : Prop where
  signature : s.g.header.signature = signature
  revision : s.g.header.revision = revision
  headerSize : s.g.header.headerSize = headerSize
  someParts : 1 ≤ s.g.header.nPart
  maxNPart : s.g.header.nPart ≤ maxNPart
  count : s.g.parts.length = s.g.header.nPart.toNat
  entry : 128 ≤ s.g.header.partSize.toNat
  word : s.g.header.partsLen < 2 ^ 32
  partsFit : s.g.header.partStart.toNat * 512 + s.g.header.partsLen ≤ s.dev.bytes.length
  headerFits : s.g.header.currentLBA.toNat * 512 + 92 ≤ s.dev.bytes.length
  disjoint : s.g.header.partStart.toNat * 512 + s.g.header.partsLen ≤ s.g.header.currentLBA.toNat * 512 ∨
    s.g.header.currentLBA.toNat * 512 + 92 ≤ s.g.header.partStart.toNat * 512

section PartBlock

theorem copy_into_fits {h source : Bytes} {off : Nat} (fits : off + source.length ≤ h.length) :
    copyInto h off source = some (overwrite h source off) := by
  have whole : source.take (h.length - off) = source := List.take_of_length_le (by omega)
  rw [copyInto, if_pos (by omega), whole, overwrite]

def HoldsParts (block : Bytes) (parts : List Part) (size n : Nat) : Prop :=
  ∀ i, i < n → ∀ part, parts[i]? = some part → slice block (i * size) 128 = partCodec.encode part

theorem fill_parts_holds (parts : List Part) (size : Nat) (h : Bytes) (entry : 128 ≤ size) (n : Nat)
    (count : n ≤ parts.length) (fits : n * size ≤ h.length) :
    ∃ block, fillParts parts size n h = some block ∧ block.length = h.length ∧ HoldsParts block parts size n := by
  induction n with
  | zero => exact ⟨h, rfl, rfl, fun i bound => absurd bound (Nat.not_lt_zero i)⟩
  | succ n ih =>
      rw [Nat.succ_mul] at fits
      obtain ⟨before, filled, size_eq, holds⟩ := ih (by omega) (by omega)
      have present : parts[n]? = some parts[n] := List.getElem?_eq_getElem (by omega)
      have width : (partCodec.encode parts[n]).length = 128 := partCodec.encode_length _
      have room : n * size + (partCodec.encode parts[n]).length ≤ before.length := by omega
      refine ⟨overwrite before (partCodec.encode parts[n]) (n * size), ?_, ?_, ?_⟩
      · simp only [fillParts, filled, present, Option.bind_eq_bind, Option.bind_some]
        exact copy_into_fits room
      · rw [overwrite_length _ _ _ room, size_eq]
      · intro i bound part found
        by_cases last : i = n
        · subst last
          rw [present] at found
          cases found
          have same := slice_overwrite_same _ _ _ room
          rwa [width] at same
        · -- An earlier entry ends where the next one starts at the latest.
          have below : (i + 1) * size ≤ n * size := Nat.mul_le_mul_right size (by omega)
          rw [Nat.succ_mul] at below
          rw [slice_overwrite_other _ _ _ _ _ room (by omega)]
          exact holds i (by omega) part found

theorem part_block_holds (s : Disk) (ok : Writable s) :
    ∃ block, partBlock s.g = some block ∧ block.length = s.g.header.partsLen ∧
      HoldsParts block s.g.parts s.g.header.partSize.toNat s.g.header.nPart.toNat := by
  have len : (s.g.header.nPart * s.g.header.partSize).toNat = s.g.header.partsLen := by
    rw [UInt32.toNat_mul]
    exact Nat.mod_eq_of_lt ok.word
  obtain ⟨block, filled, size, holds⟩ := fill_parts_holds s.g.parts s.g.header.partSize.toNat
    (List.replicate (s.g.header.nPart * s.g.header.partSize).toNat 0) ok.entry s.g.header.nPart.toNat
    (Nat.le_of_eq ok.count.symm) (by rw [List.length_replicate, len]; exact Nat.le_refl _)
  exact ⟨block, filled, by rw [size, List.length_replicate, len], holds⟩

end PartBlock

section Sealed

def unsealed (h : Header) (block : Bytes) : Header := { h with partCRC := Crc32.checksumIEEE block, crc := 0 }

def Header.stamped (h : Header) : Header := { h with crc := Crc32.checksumIEEE (headerCodec.encode h) }

theorem stamped_eq (h : Header) : { h with crc := Crc32.checksumIEEE (headerCodec.encode h) } = h.stamped := rfl

def sealed (h : Header) (block : Bytes) : Header := (unsealed h block).stamped

theorem zap_crc (h : Header) (sum : UInt32) :
    zapCRC (headerCodec.encode { h with crc := sum }) = headerCodec.encode { h with crc := 0 } := by
  rw [zap_encode, header_encode]
  rfl

theorem copy_crc (h : Header) (sum : UInt32) :
    copyInto (headerCodec.encode h) 16 (Codec.le32.encode sum) = some (headerCodec.encode { h with crc := sum }) := by
  have new : (Codec.le32.encode sum).length = 4 := Codec.le32.encode_length _
  have size : (headerCodec.encode h).length = 92 := headerCodec.encode_length _
  rw [copy_into_fits (by omega), overwrite, new, header_take, header_drop]
  rfl

theorem unsealed_current_lba (h : Header) (block : Bytes) : (unsealed h block).currentLBA = h.currentLBA := rfl

theorem sealed_part_start (h : Header) (block : Bytes) : (sealed h block).partStart = h.partStart := rfl

theorem sealed_n_part (h : Header) (block : Bytes) : (sealed h block).nPart = h.nPart := rfl

theorem sealed_part_size (h : Header) (block : Bytes) : (sealed h block).partSize = h.partSize := rfl

theorem sealed_crc (h : Header) (block : Bytes) :
    Crc32.checksumIEEE (zapCRC (headerCodec.encode (sealed h block))) = (sealed h block).crc := by
  rw [sealed, Header.stamped, zap_crc]
  rfl

theorem copy_header (h : Header) (width : h.headerSize = headerSize) :
    copyInto (List.replicate h.headerSize.toNat 0) 0 (headerCodec.encode h) = some (headerCodec.encode h) := by
  have size : (headerCodec.encode h).length = 92 := headerCodec.encode_length _
  have room : (List.replicate h.headerSize.toNat (0 : UInt8)).length = 92 := by
    rw [List.length_replicate, width]
    rfl
  rw [copy_into_fits (by omega), overwrite, List.take_zero, List.nil_append,
    List.drop_of_length_le (by omega), List.append_nil]

end Sealed

section Written

theorem write_device_fits (bytes : Bytes) (off : Nat) (failure : IoError → WriteError) (s : Disk)
    (fits : off + bytes.length ≤ s.dev.bytes.length) :
    ∃ dev, (writeDevice bytes off failure).run s = (.ok (), ⟨dev, s.g⟩) ∧
      dev.bytes = overwrite s.dev.bytes bytes off := by
  obtain ⟨dev, written, bytes_eq⟩ := s.dev.write_at_fits bytes off fits
  refine ⟨dev, ?_, bytes_eq⟩
  simp only [writeDevice, written]

theorem write_header_device (h : Header) (s : Disk) (width : h.headerSize = headerSize) :
    (writeHeader h).run s =
      (writeDevice (headerCodec.encode h.stamped) (blockOffset h.currentLBA) .header).run
        ⟨s.dev, ⟨h.stamped, s.g.parts⟩⟩ := by
  have first : (setHeader h).run s = (.ok (), ⟨s.dev, ⟨h, s.g.parts⟩⟩) := rfl
  have second : (setHeader h.stamped).run ⟨s.dev, ⟨h, s.g.parts⟩⟩ = (.ok (), ⟨s.dev, ⟨h.stamped, s.g.parts⟩⟩) := rfl
  rw [writeHeader, run_bind_ok first, copy_header h width,
    run_of_option_bind, copy_crc, stamped_eq, run_bind_ok second,
    run_of_option_bind]

theorem run_write_header (h : Header) (s : Disk) (off : Nat) (width : h.headerSize = headerSize)
    (lba : blockOffset h.currentLBA = off) (fits : off + 92 ≤ s.dev.bytes.length) :
    ∃ dev, (writeHeader h).run s = (.ok (), ⟨dev, ⟨h.stamped, s.g.parts⟩⟩) ∧
      dev.bytes = overwrite s.dev.bytes (headerCodec.encode h.stamped) off := by
  obtain ⟨dev, wrote, bytes⟩ := write_device_fits (headerCodec.encode h.stamped) off .header
    ⟨s.dev, ⟨h.stamped, s.g.parts⟩⟩ (by rw [headerCodec.encode_length]; exact fits)
  rw [← lba, ← write_header_device h s width] at wrote
  exact ⟨dev, wrote, bytes⟩

theorem run_write_parts (s : Disk) (block : Bytes) (start : Nat) (filled : partBlock s.g = some block)
    (placed : blockOffset s.g.header.partStart = start) (fits : start + block.length ≤ s.dev.bytes.length) :
    ∃ mid, mid.bytes = overwrite s.dev.bytes block start ∧
      write.run s = (writeHeader (unsealed s.g.header block)).run ⟨mid, s.g⟩ := by
  obtain ⟨mid, wrote, bytes⟩ := write_device_fits block start
    (.partitions block.length (blockOffset s.g.header.partStart)) s fits
  rw [← placed] at wrote
  refine ⟨mid, bytes, ?_⟩
  rw [write, run_get_bind, filled, run_of_option_bind,
    run_bind_ok wrote, ← unsealed]

theorem run_write (s : Disk) (block : Bytes) (start off : Nat) (filled : partBlock s.g = some block)
    (width : s.g.header.headerSize = headerSize) (placed : blockOffset s.g.header.partStart = start)
    (lba : blockOffset s.g.header.currentLBA = off) (fits : start + block.length ≤ s.dev.bytes.length)
    (headerFits : off + 92 ≤ s.dev.bytes.length) :
    ∃ dev, write.run s = (.ok (), ⟨dev, ⟨sealed s.g.header block, s.g.parts⟩⟩) ∧
      dev.bytes = overwrite (overwrite s.dev.bytes block start) (headerCodec.encode (sealed s.g.header block)) off := by
  obtain ⟨mid, midBytes, wrote⟩ := run_write_parts s block start filled placed fits
  have midLength : mid.bytes.length = s.dev.bytes.length := by rw [midBytes, overwrite_length _ _ _ fits]
  obtain ⟨dev, wroteHeader, bytes⟩ := run_write_header (unsealed s.g.header block) ⟨mid, s.g⟩ off width lba
    (by rw [midLength]; exact headerFits)
  rw [← sealed, midBytes] at bytes
  rw [← sealed] at wroteHeader
  exact ⟨dev, by rw [wrote, wroteHeader], bytes⟩

structure WrittenTo (s : Disk) (block : Bytes) (after : Disk) : Prop where
  g : after.g = ⟨sealed s.g.header block, s.g.parts⟩
  bytes : after.dev.bytes =
    overwrite (overwrite s.dev.bytes block (s.g.header.partStart.toNat * 512))
      (headerCodec.encode (sealed s.g.header block)) (s.g.header.currentLBA.toNat * 512)

variable (s after : Disk) (block : Bytes) (ok : Writable s) (len : block.length = s.g.header.partsLen)
  (written : WrittenTo s block after)

include ok len

theorem block_fits : s.g.header.partStart.toNat * 512 + block.length ≤ s.dev.bytes.length := by
  rw [len]
  exact ok.partsFit

omit len in
theorem parts_start : blockOffset s.g.header.partStart = (s.g.header.partStart.toNat * 512 : Nat) := by
  have small := s.dev.small
  have partsFit := ok.partsFit
  exact block_offset_exact (by omega)

omit len in
theorem sealed_fits (h : Header) :
    s.g.header.currentLBA.toNat * 512 + (headerCodec.encode h).length ≤ s.dev.bytes.length := by
  rw [headerCodec.encode_length]
  exact ok.headerFits

theorem write_writes (filled : partBlock s.g = some block) :
    ∃ after, write.run s = (.ok (), after) ∧ WrittenTo s block after := by
  have small := s.dev.small
  have headerFits := ok.headerFits
  obtain ⟨dev, done, bytes⟩ := run_write s block _ _ filled ok.headerSize (parts_start s ok)
    (block_offset_exact (by omega)) (block_fits s block ok len) headerFits
  exact ⟨_, done, rfl, bytes⟩

include written

theorem written_length : after.dev.bytes.length = s.dev.bytes.length := by
  rw [written.bytes, overwrite_two_length _ _ _ _ _ (block_fits s block ok len) (sealed_fits s ok _)]

theorem written_parts : slice after.dev.bytes (s.g.header.partStart.toNat * 512) s.g.header.partsLen = block := by
  rw [written.bytes, ← len]
  apply slice_two_first _ _ _ _ _ (block_fits s block ok len) (sealed_fits s ok _)
  rw [len, headerCodec.encode_length]
  exact ok.disjoint

theorem written_header :
    slice after.dev.bytes (s.g.header.currentLBA.toNat * 512) 92 = headerCodec.encode (sealed s.g.header block) := by
  have same := slice_two_second _ _ _ _ _ (block_fits s block ok len) (sealed_fits s ok (sealed s.g.header block))
  rwa [← written.bytes, headerCodec.encode_length, header_width] at same

theorem written_elsewhere (i : Nat)
    (notParts : ¬ (s.g.header.partStart.toNat * 512 ≤ i ∧ i < s.g.header.partStart.toNat * 512 + s.g.header.partsLen))
    (notHeader : ¬ (s.g.header.currentLBA.toNat * 512 ≤ i ∧ i < s.g.header.currentLBA.toNat * 512 + 92)) :
    after.dev.bytes[i]? = s.dev.bytes[i]? := by
  rw [written.bytes]
  apply overwrite_two_elsewhere _ _ _ _ _ (block_fits s block ok len) (sealed_fits s ok _)
  · rw [len]
    exact notParts
  · rw [headerCodec.encode_length]
    exact notHeader

omit ok len written in
theorem part_offset_exact (h : Header) (start i : Nat) (placed : blockOffset h.partStart = start)
    (small : start + i * h.partSize.toNat < 2 ^ 63) : partOffset h i = (start + i * h.partSize.toNat : Nat) := by
  have whole : (i : Int) * h.partSize.toNat = (i * h.partSize.toNat : Nat) := by push_cast; rfl
  rw [partOffset, whole, placed, ← Int.natCast_add]
  exact int64_exact (Int.natCast_nonneg _) (Int.ofNat_lt.mpr small)

omit ok len written in
theorem read_parts_next (which : Which) (r : Image) (h : Header) (n : Nat) (parts : List Part) (part : Part)
    (before : readParts which r h n = .ok parts)
    (read : r.readFull (partOffset h n) h.partSize.toNat partCodec.width = .ok (partCodec.encode part)) :
    readParts which r h (n + 1) = .ok (parts ++ [part]) := by
  rw [readParts, except_bind_ok before, read]
  simp only [partCodec.decode_encode]

omit ok len written in
theorem entry_inside (start n count size : Nat) (bound : n + 1 ≤ count) (entry : 128 ≤ size) :
    n * size + 128 ≤ count * size ∧ start + n * size + 128 ≤ start + count * size := by
  have inside : (n + 1) * size ≤ count * size := Nat.mul_le_mul_right size bound
  rw [Nat.succ_mul] at inside
  omega

theorem read_parts_written (which : Which)
    (holds : HoldsParts block s.g.parts s.g.header.partSize.toNat s.g.header.nPart.toNat) (n : Nat)
    (bound : n ≤ s.g.header.nPart.toNat) :
    readParts which after.dev (sealed s.g.header block) n = .ok (s.g.parts.take n) := by
  induction n with
  | zero => rfl
  | succ n ih =>
      obtain ⟨inside, within⟩ := entry_inside (s.g.header.partStart.toNat * 512) n _ _ bound ok.entry
      have fits : s.g.header.partStart.toNat * 512 + n * s.g.header.partSize.toNat + 128 ≤ s.dev.bytes.length := by
        apply Nat.le_trans within
        exact ok.partsFit
      have offset := part_offset_exact s.g.header _ n (parts_start s ok) (by
        apply Nat.lt_of_le_of_lt _ s.dev.small
        exact Nat.le_trans (Nat.le_add_right _ _) fits)
      obtain ⟨part, present⟩ : ∃ part, s.g.parts[n]? = some part :=
        ⟨_, List.getElem?_eq_getElem (by rw [ok.count]; exact bound)⟩
      have entryBytes : slice after.dev.bytes (s.g.header.partStart.toNat * 512 + n * s.g.header.partSize.toNat) 128 =
          partCodec.encode part := by
        rw [← slice_slice _ _ s.g.header.partsLen _ _ inside, written_parts s after block ok len written]
        exact holds n bound part present
      have read := after.dev.read_full_slice s.g.header.partSize.toNat 128
        (s.g.header.partStart.toNat * 512 + n * s.g.header.partSize.toNat) (by decide) ok.entry
        (by rw [written_length s after block ok len written]; exact fits)
      rw [entryBytes, ← offset] at read
      rw [read_parts_next which after.dev (sealed s.g.header block) n _ _ (ih (Nat.le_of_succ_le bound)) read,
        List.take_add_one, present]
      rfl

theorem written_table_at (holds : HoldsParts block s.g.parts s.g.header.partSize.toNat s.g.header.nPart.toNat) :
    TableAt after.dev ((s.g.header.currentLBA.toNat * 512 : Nat) : Int) ⟨sealed s.g.header block, s.g.parts⟩ := by
  have start := parts_start s ok
  have length := written_length s after block ok len written
  have entries := read_parts_written s after block ok len written .primary holds _ (Nat.le_refl _)
  rw [List.take_of_length_le (Nat.le_of_eq ok.count)] at entries
  constructor
  case start => exact Int.natCast_nonneg _
  case headerFits =>
    rw [Int.toNat_natCast, length]
    exact ok.headerFits
  case header =>
    rw [Int.toNat_natCast]
    exact (written_header s after block ok len written).symm
  case signature => exact ok.signature
  case revision => exact ok.revision
  case headerSize => exact ok.headerSize
  case maxNPart => exact ok.maxNPart
  case partStart =>
    rw [sealed_part_start, start]
    exact Int.natCast_nonneg _
  case partsFit =>
    rw [sealed_part_start, start, Int.toNat_natCast, length]
    exact ok.partsFit
  case partCRC =>
    rw [sealed_part_start, start, Int.toNat_natCast]
    exact congrArg Crc32.checksumIEEE (written_parts s after block ok len written)
  case crc => exact sealed_crc s.g.header block
  case parts => exact ⟨.primary, entries⟩

theorem table_written (holds : HoldsParts block s.g.parts s.g.header.partSize.toNat s.g.header.nPart.toNat) :
    table after.dev ((s.g.header.currentLBA.toNat * 512 : Nat) : Int) = .ok after.g := by
  have positive : 0 < s.g.header.partsLen :=
    Nat.mul_pos (UInt32.le_iff_toNat_le.mp ok.someParts) (Nat.lt_of_lt_of_le (by decide) ok.entry)
  have partsFit := ok.partsFit
  rw [written.g]
  apply table_of_at _ _ _ (written_table_at s after block ok len written holds)
  rw [sealed_part_start, parts_start s ok, Int.toNat_natCast, written_length s after block ok len written]
  omega

end Written

theorem write_table_round_trip (s : Disk) (ok : Writable s) :
    ∃ after, write.run s = (.ok (), after) ∧
      table after.dev ((s.g.header.currentLBA.toNat * 512 : Nat) : Int) = .ok after.g ∧
      after.g.parts = s.g.parts ∧
      after.g.header = { s.g.header with partCRC := after.g.header.partCRC, crc := after.g.header.crc } ∧
      after.dev.bytes.length = s.dev.bytes.length ∧
      ∀ i, ¬ (s.g.header.partStart.toNat * 512 ≤ i ∧ i < s.g.header.partStart.toNat * 512 + s.g.header.partsLen) →
        ¬ (s.g.header.currentLBA.toNat * 512 ≤ i ∧ i < s.g.header.currentLBA.toNat * 512 + 92) →
        after.dev.bytes[i]? = s.dev.bytes[i]? := by
  obtain ⟨block, filled, len, holds⟩ := part_block_holds s ok
  obtain ⟨after, done, written⟩ := write_writes s block ok len filled
  refine ⟨after, done, table_written s after block ok len written holds, by rw [written.g], by rw [written.g]; rfl,
    written_length s after block ok len written, written_elsewhere s after block ok len written⟩

-- Two entries of 136 bytes, the last eight of each unused.
def smallDisk : Disk where
  dev := ⟨List.replicate 800 0xff, by rw [List.length_replicate]; decide⟩
  g :=
    { header :=
        { signature := signature, revision := revision, headerSize := headerSize, crc := 1, reserved := 2,
          currentLBA := 0, backupLBA := 3, firstLBA := 4, lastLBA := 5, diskGUID := ⟨List.replicate 16 6, rfl⟩,
          partStart := 1, nPart := 2, partSize := 136, partCRC := 7 },
      parts :=
        [{ partGUID := ⟨List.replicate 16 8, rfl⟩, uniqueGUID := ⟨List.replicate 16 9, rfl⟩, firstLBA := 10,
           lastLBA := 11, attr := 12, name := ⟨List.replicate 72 13, rfl⟩ },
         { partGUID := ⟨List.replicate 16 14, rfl⟩, uniqueGUID := ⟨List.replicate 16 15, rfl⟩, firstLBA := 16,
           lastLBA := 17, attr := 18, name := ⟨List.replicate 72 19, rfl⟩ }] }

theorem small_disk_writable : Writable smallDisk := by
  constructor <;> decide +kernel

theorem small_disk_round_trip :
    ∃ after, write.run smallDisk = (.ok (), after) ∧ table after.dev 0 = .ok after.g ∧
      after.g.parts = smallDisk.g.parts := by
  obtain ⟨after, done, read, parts, _⟩ := write_table_round_trip smallDisk small_disk_writable
  exact ⟨after, done, read, parts⟩

end URoot.Gpt
