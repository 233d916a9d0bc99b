import URoot.Gpt.Rebuilt

set_option autoImplicit false

namespace URoot.Gpt

open GoLib

section Runs

def HeaderFits (g : GPT) (size : Nat) : Prop :=
  0 ≤ blockOffset g.header.currentLBA ∧ (blockOffset g.header.currentLBA).toNat + 92 ≤ size

def areas (g : GPT) (block : Bytes) : List Area :=
  [((blockOffset g.header.partStart).toNat, block),
    ((blockOffset g.header.currentLBA).toNat, headerCodec.encode (sealed g.header block))]

theorem areas_fit (g : GPT) (block data : Bytes) (laid : Laid g data.length) (len : block.length = g.header.partsLen)
    (room : HeaderFits g data.length) (area : Area) (there : area ∈ areas g block) : area.Fits data := by
  rw [areas, List.mem_cons, List.mem_singleton] at there
  rcases there with rfl | rfl
  · simp only [Area.Fits, len, laid.partsFit]
  · simp only [Area.Fits, headerCodec.encode_length, header_width]
    exact room.2

theorem write_device_refused (bytes : Bytes) (off : Int) (failure : IoError → WriteError) (s : Disk) (e : IoError)
    (refused : s.dev.writeAt bytes off = .error e) : (writeDevice bytes off failure).run s = (.error (failure e), s) := by
  simp only [writeDevice, refused]

theorem write_header_refused (h : Header) (s : Disk) (e : IoError) (width : h.headerSize = headerSize)
    (refused : s.dev.writeAt (headerCodec.encode h.stamped) (blockOffset h.currentLBA) = .error e) :
    (writeHeader h).run s = (.error (.header e), ⟨s.dev, ⟨h.stamped, s.g.parts⟩⟩) := by
  rw [write_header_device h s width]
  exact write_device_refused _ _ .header ⟨s.dev, ⟨h.stamped, s.g.parts⟩⟩ e refused

variable (s : Disk) (block : Bytes) (filled : partBlock s.g = some block) (laid : Laid s.g s.dev.bytes.length)
  (len : block.length = s.g.header.partsLen)

include filled laid len

theorem write_overlays (room : HeaderFits s.g s.dev.bytes.length) :
    ∃ after, write.run s = (.ok (), after) ∧ after.dev.bytes = overlay s.dev.bytes (areas s.g block) := by
  obtain ⟨start, placed⟩ := Int.eq_ofNat_of_zero_le laid.partStart
  obtain ⟨off, lba⟩ := Int.eq_ofNat_of_zero_le room.1
  have partsFit := laid.partsFit
  have headerFits := room.2
  rw [placed, Int.toNat_natCast, ← len] at partsFit
  rw [lba, Int.toNat_natCast] at headerFits
  obtain ⟨dev, done, bytes⟩ := run_write s block start off filled laid.headerSize placed lba partsFit headerFits
  refine ⟨_, done, ?_⟩
  rw [bytes, areas, placed, lba]
  rfl

theorem write_refused (outside : ¬ HeaderFits s.g s.dev.bytes.length) : ∃ e after, write.run s = (.error e, after) := by
  obtain ⟨start, placed⟩ := Int.eq_ofNat_of_zero_le laid.partStart
  have partsFit := laid.partsFit
  rw [placed, Int.toNat_natCast, ← len] at partsFit
  obtain ⟨mid, midBytes, wrote⟩ := run_write_parts s block start filled placed partsFit
  have midLength : mid.bytes.length = s.dev.bytes.length := by rw [midBytes, overwrite_length _ _ _ partsFit]
  have refused : ∃ e, mid.writeAt (headerCodec.encode (unsealed s.g.header block).stamped)
      (blockOffset (unsealed s.g.header block).currentLBA) = .error e := by
    apply mid.write_at_refused
    rw [headerCodec.encode_length, header_width, midLength, unsealed_current_lba]
    exact outside
  obtain ⟨e, refused⟩ := refused
  have stopped := write_header_refused (unsealed s.g.header block) ⟨mid, s.g⟩ e laid.headerSize refused
  exact ⟨_, _, wrote.trans stopped⟩

omit filled laid len in
theorem write_panics (unfilled : partBlock s.g = none) : write.run s = (.error .panic, s) := by
  rw [write, Act.run_get_bind, unfilled]
  rfl

end Runs

section Exact

structure Accepted (dev : Image) (g b : GPT) : Prop where
  primary : TableAt dev headerOff g
  backup : TableAt dev (blockOffset b.header.currentLBA) b
  nPart : g.header.nPart = b.header.nPart
  partSize : g.header.partSize = b.header.partSize
  partCRC : g.header.partCRC = b.header.partCRC
  parts : g.parts = b.parts

theorem with_backup_inv (p g b : GPT) (found : Except TableFailure GPT) (done : withBackup p found = ⟨some g, some b, none⟩) :
    found = .ok b ∧ p = g ∧ equalHeader g.header b.header = true ∧ g.parts = b.parts := by
  cases found with
  | error failure => cases done
  | ok q =>
      rw [withBackup] at done
      split at done
      · cases done
      · rename_i equal
        split at done
        · cases done
        · split at done
          · cases done
          · rename_i parts
            cases done
            exact ⟨rfl, rfl, Bool.of_not_eq_false equal, not_not.mp parts⟩

theorem new_inv (dev : Image) (g b : GPT) (read : new dev = ⟨some g, some b, none⟩) : Accepted dev g b := by
  cases first : table dev headerOff with
  | error failure =>
      rw [new, first] at read
      cases read
  | ok p =>
      have rest : new dev = withBackup p (table dev (blockOffset p.header.backupLBA)) := by rw [new, first]
      obtain ⟨second, rfl, equal, parts⟩ := with_backup_inv p g b _ (rest.symm.trans read)
      have backup := table_inv second
      simp only [equalHeader, Bool.and_eq_true, beq_iff_eq] at equal
      obtain ⟨⟨⟨⟨⟨⟨⟨_, place⟩, _⟩, _⟩, _⟩, nPart⟩, partSize⟩, partCRC⟩ := equal
      rw [place] at backup
      exact ⟨table_inv first, backup, nPart, partSize, partCRC, parts⟩

def InEntries (g : GPT) (i : Nat) : Prop :=
  (blockOffset g.header.partStart).toNat ≤ i ∧ i < (blockOffset g.header.partStart).toNat + g.header.partsLen

def InHeader (g : GPT) (i : Nat) : Prop :=
  (blockOffset g.header.currentLBA).toNat ≤ i ∧ i < (blockOffset g.header.currentLBA).toNat + 92

-- What the device has to look like. The bytes of an entry behind its Part have
-- to be zero and the primary header has to stand where its CurrentLBA points;
-- bytes that one of the later writes reaches again are free, as long as the sum
-- over the entries comes out as before.
structure Restorable (dev : Image) (g b : GPT) : Prop where
  word : g.header.partsLen < 2 ^ 32
  room : HeaderFits g dev.bytes.length
  sum : Crc32.checksumIEEE (blanked g.header.partSize.toNat (g.array dev)) = g.header.partCRC
  primaryPadding : ∀ j, j < g.header.partsLen → 128 ≤ j % g.header.partSize.toNat →
    ¬ InHeader g ((blockOffset g.header.partStart).toNat + j) → ¬ InEntries b ((blockOffset g.header.partStart).toNat + j) →
    ¬ InHeader b ((blockOffset g.header.partStart).toNat + j) →
    dev.bytes[(blockOffset g.header.partStart).toNat + j]? = some 0
  primaryHeader : ∀ k, k < 92 → ¬ InEntries b ((blockOffset g.header.currentLBA).toNat + k) →
    ¬ InHeader b ((blockOffset g.header.currentLBA).toNat + k) →
    dev.bytes[(blockOffset g.header.currentLBA).toNat + k]? = dev.bytes[512 + k]?
  backupPadding : ∀ j, j < b.header.partsLen → 128 ≤ j % b.header.partSize.toNat →
    ¬ InHeader b ((blockOffset b.header.partStart).toNat + j) →
    dev.bytes[(blockOffset b.header.partStart).toNat + j]? = some 0

theorem array_length (dev : Image) (off : Int) (g : GPT) (valid : TableAt dev off g) :
    (g.array dev).length = g.header.partsLen := slice_length valid.partsFit

theorem padding_iff (dev : Image) (off : Int) (g : GPT) (valid : TableAt dev off g) (j : Nat) (inside : j < g.header.partsLen) :
    dev.bytes[(blockOffset g.header.partStart).toNat + j]? = (blanked g.header.partSize.toNat (g.array dev))[j]? ↔
      (128 ≤ j % g.header.partSize.toNat → dev.bytes[(blockOffset g.header.partStart).toNat + j]? = some 0) := by
  rw [blanked_get _ _ _ (by rw [array_length dev off g valid]; exact inside), GPT.array, slice_get, if_pos inside]
  split
  · rename_i kept
    exact ⟨fun _ padding => absurd kept (Nat.not_lt.mpr padding), fun _ => rfl⟩
  · rename_i padding
    exact ⟨fun zero _ => zero, fun zero => zero (Nat.le_of_not_lt padding)⟩

theorem sealed_same {dev : Image} {off : Int} {g : GPT} (valid : TableAt dev off g) (block : Bytes)
    (sum : Crc32.checksumIEEE block = g.header.partCRC) : sealed g.header block = g.header := by
  have crc := valid.crc
  rw [zap_crc g.header g.header.crc] at crc
  rw [sealed, unsealed, Header.stamped, sum, crc]

theorem header_get {dev : Image} {off : Int} {g : GPT} (valid : TableAt dev off g) (k : Nat) (inside : k < 92) :
    (headerCodec.encode g.header)[k]? = dev.bytes[off.toNat + k]? := by
  rw [valid.header, slice_get, if_pos inside]

theorem header_sum_iff (dev : Image) (off : Int) (g : GPT) (valid : TableAt dev off g) (block : Bytes) :
    (∀ k, k < 92 → dev.bytes[off.toNat + k]? = (headerCodec.encode (sealed g.header block))[k]?) ↔
      Crc32.checksumIEEE block = g.header.partCRC := by
  constructor
  · intro stored
    have same : headerCodec.encode (sealed g.header block) = headerCodec.encode g.header := by
      apply List.ext_getElem?
      intro k
      by_cases inside : k < 92
      · rw [← stored k inside, header_get valid k inside]
      · rw [List.getElem?_eq_none (by rw [headerCodec.encode_length]; exact Nat.le_of_not_lt inside),
          List.getElem?_eq_none (by rw [headerCodec.encode_length]; exact Nat.le_of_not_lt inside)]
    have decoded := congrArg headerCodec.decode same
    rw [headerCodec.decode_encode, headerCodec.decode_encode] at decoded
    exact congrArg Header.partCRC decoded
  · intro sum k inside
    rw [sealed_same valid block sum, header_get valid k inside]

theorem covers_entries (g : GPT) (block : Bytes) (len : block.length = g.header.partsLen) (i : Nat) :
    Area.Covers ((blockOffset g.header.partStart).toNat, block) i ↔ InEntries g i := by
  simp only [Area.Covers, InEntries, len]

theorem covers_header (g : GPT) (h : Header) (i : Nat) :
    Area.Covers ((blockOffset g.header.currentLBA).toNat, headerCodec.encode h) i ↔ InHeader g i := by
  simp only [Area.Covers, InHeader, headerCodec.encode_length, header_width]

theorem stays_areas (data : Bytes) (g b : GPT) (block : Bytes) (backupLen : block.length = b.header.partsLen) :
    Stays data (areas g block ++ areas b block) ↔
      (∀ j, j < block.length → ¬ InHeader g ((blockOffset g.header.partStart).toNat + j) →
        ¬ InEntries b ((blockOffset g.header.partStart).toNat + j) → ¬ InHeader b ((blockOffset g.header.partStart).toNat + j) →
        data[(blockOffset g.header.partStart).toNat + j]? = block[j]?) ∧
      (∀ k, k < 92 → ¬ InEntries b ((blockOffset g.header.currentLBA).toNat + k) →
        ¬ InHeader b ((blockOffset g.header.currentLBA).toNat + k) →
        data[(blockOffset g.header.currentLBA).toNat + k]? = (headerCodec.encode (sealed g.header block))[k]?) ∧
      (∀ j, j < block.length → ¬ InHeader b ((blockOffset b.header.partStart).toNat + j) →
        data[(blockOffset b.header.partStart).toNat + j]? = block[j]?) ∧
      (∀ k, k < 92 →
        data[(blockOffset b.header.currentLBA).toNat + k]? = (headerCodec.encode (sealed b.header block))[k]?) := by
  simp only [areas, List.cons_append, List.nil_append, Stays, List.forall_mem_cons, List.not_mem_nil, false_implies,
    implies_true, forall_const, and_true, covers_entries b block backupLen, covers_header, headerCodec.encode_length,
    header_width, and_imp]

theorem stays_restorable (dev : Image) (g b : GPT) (accepted : Accepted dev g b) (word : g.header.partsLen < 2 ^ 32)
    (room : HeaderFits g dev.bytes.length) (block : Bytes) (len : block.length = g.header.partsLen)
    (backupLen : block.length = b.header.partsLen) (rebuilt : block = blanked g.header.partSize.toNat (g.array dev))
    (backupRebuilt : block = blanked b.header.partSize.toNat (b.array dev)) :
    Stays dev.bytes (areas g block ++ areas b block) ↔ Restorable dev g b := by
  have sums := header_sum_iff dev _ b accepted.backup block
  have primary : ∀ j, j < block.length → _ := fun j inside =>
    padding_iff dev _ g accepted.primary j (by rw [← len]; exact inside)
  have backup : ∀ j, j < block.length → _ := fun j inside =>
    padding_iff dev _ b accepted.backup j (by rw [← backupLen]; exact inside)
  rw [← rebuilt] at primary
  rw [← backupRebuilt] at backup
  rw [stays_areas dev.bytes g b block backupLen]
  constructor
  · intro ⟨entries, header, backupEntries, backupHeader⟩
    have sum : Crc32.checksumIEEE block = g.header.partCRC := by rw [accepted.partCRC, sums.mp backupHeader]
    constructor
    case word => exact word
    case room => exact room
    case sum => rw [← rebuilt, sum]
    case primaryPadding =>
      intro j inside padding inHeader inBackup inBackupHeader
      rw [← len] at inside
      exact (primary j inside).mp (entries j inside inHeader inBackup inBackupHeader) padding
    case primaryHeader =>
      intro k inside inBackup inBackupHeader
      rw [header k inside inBackup inBackupHeader, sealed_same accepted.primary block sum,
        header_get accepted.primary k inside]
      rfl
    case backupPadding =>
      intro j inside padding inBackupHeader
      rw [← backupLen] at inside
      exact (backup j inside).mp (backupEntries j inside inBackupHeader) padding
  · intro restorable
    have sum : Crc32.checksumIEEE block = g.header.partCRC := by rw [rebuilt, restorable.sum]
    refine ⟨fun j inside inHeader inBackup inBackupHeader => ?_, fun k inside inBackup inBackupHeader => ?_,
      fun j inside inBackupHeader => ?_, sums.mpr (by rw [← accepted.partCRC, sum])⟩
    · apply (primary j inside).mpr
      intro padding
      exact restorable.primaryPadding j (by rw [← len]; exact inside) padding inHeader inBackup inBackupHeader
    · rw [restorable.primaryHeader k inside inBackup inBackupHeader, sealed_same accepted.primary block sum,
        header_get accepted.primary k inside]
      rfl
    · apply (backup j inside).mpr
      intro padding
      exact restorable.backupPadding j (by rw [← backupLen]; exact inside) padding inBackupHeader

theorem backup_block (dev : Image) (g b : GPT) (accepted : Accepted dev g b) : partBlock b = partBlock g := by
  rw [partBlock, partBlock, accepted.nPart, accepted.partSize, accepted.parts]

theorem backup_parts_len (dev : Image) (g b : GPT) (accepted : Accepted dev g b) :
    b.header.partsLen = g.header.partsLen := by
  rw [Header.partsLen, Header.partsLen, accepted.nPart, accepted.partSize]

theorem backup_room (dev : Image) (g b : GPT) (accepted : Accepted dev g b) : HeaderFits b dev.bytes.length :=
  ⟨accepted.backup.start, accepted.backup.headerFits⟩

theorem write_back_overlays (dev : Image) (g b : GPT) (accepted : Accepted dev g b) (room : HeaderFits g dev.bytes.length)
    (block : Bytes) (filled : partBlock g = some block) (len : block.length = g.header.partsLen) :
    ∃ after, writeBack dev g b = .ok after ∧ after.bytes = overlay dev.bytes (areas g block ++ areas b block) := by
  have laid := table_laid dev _ g accepted.primary
  obtain ⟨mid, wrote, midBytes⟩ := write_overlays ⟨dev, g⟩ block filled laid len room
  have midLength : mid.dev.bytes.length = dev.bytes.length := by
    rw [midBytes]
    exact overlay_length _ _ (areas_fit g block dev.bytes laid len room)
  have backupFilled : partBlock b = some block := by rw [backup_block dev g b accepted, filled]
  obtain ⟨last, wroteBackup, lastBytes⟩ := write_overlays ⟨mid.dev, b⟩ block backupFilled
    (by rw [midLength]; exact table_laid dev _ b accepted.backup) (by rw [len, backup_parts_len dev g b accepted])
    (by rw [midLength]; exact backup_room dev g b accepted)
  refine ⟨last.dev, by rw [writeBack, wrote]; simp only [wroteBackup], ?_⟩
  rw [lastBytes, midBytes, overlay_append]

theorem write_back_fails (dev : Image) (g b : GPT) (e : WriteError) (s : Disk)
    (failed : write.run ⟨dev, g⟩ = (.error e, s)) : writeBack dev g b = .error e := by
  rw [writeBack, failed]

theorem write_back_iff (dev : Image) (g b : GPT) (accepted : Accepted dev g b) :
    (∃ after, writeBack dev g b = .ok after ∧ after.bytes = dev.bytes) ↔ Restorable dev g b := by
  have laid := table_laid dev _ g accepted.primary
  by_cases word : g.header.partsLen < 2 ^ 32
  · have filled := part_block_rebuilt dev _ g accepted.primary word
    have backupFilled := part_block_rebuilt dev _ b accepted.backup (by rwa [backup_parts_len dev g b accepted])
    rw [backup_block dev g b accepted, filled] at backupFilled
    generalize rebuilt : blanked g.header.partSize.toNat (g.array dev) = block at filled backupFilled
    have len : block.length = g.header.partsLen := by
      rw [← rebuilt, blanked_length, array_length dev _ g accepted.primary]
    have backupLen : block.length = b.header.partsLen := by rw [len, backup_parts_len dev g b accepted]
    by_cases room : HeaderFits g dev.bytes.length
    · have fits : ∀ area ∈ areas g block ++ areas b block, area.Fits dev.bytes := by
        intro area there
        rcases List.mem_append.mp there with first | second
        · exact areas_fit g block dev.bytes laid len room area first
        · exact areas_fit b block dev.bytes (table_laid dev _ b accepted.backup) backupLen (backup_room dev g b accepted)
            area second
      obtain ⟨after, wrote, bytes⟩ := write_back_overlays dev g b accepted room block filled len
      rw [← stays_restorable dev g b accepted word room block len backupLen rebuilt.symm (Option.some.inj backupFilled),
        ← overlay_same_iff dev.bytes _ fits, ← bytes]
      constructor
      · intro ⟨other, done, same⟩
        rw [wrote] at done
        cases done
        exact same
      · intro same
        exact ⟨after, wrote, same⟩
    · obtain ⟨e, s, failed⟩ := write_refused ⟨dev, g⟩ block filled laid len room
      rw [write_back_fails dev g b e s failed]
      constructor
      · intro ⟨_, done, _⟩
        cases done
      · intro restorable
        exact absurd restorable.room room
  · have failed := write_panics ⟨dev, g⟩ (part_block_overflow g (Nat.le_of_not_lt word))
    rw [write_back_fails dev g b _ _ failed]
    constructor
    · intro ⟨_, done, _⟩
      cases done
    · intro restorable
      exact absurd restorable.word word

def pairPart : Part :=
  { partGUID := ⟨List.replicate 16 1, rfl⟩, uniqueGUID := ⟨List.replicate 16 2, rfl⟩, firstLBA := 5, lastLBA := 6,
    attr := 7, name := ⟨List.replicate 72 8, rfl⟩ }

def pairTable (current backup : UInt64) : GPT :=
  ⟨sealed
      { signature := signature, revision := revision, headerSize := headerSize, crc := 0, reserved := 0,
        currentLBA := current, backupLBA := backup, firstLBA := 5, lastLBA := 6, diskGUID := ⟨List.replicate 16 7, rfl⟩,
        partStart := 2, nPart := 1, partSize := 128, partCRC := 0 }
      (partCodec.encode pairPart),
    [pairPart]⟩

def inBlock (bytes : Bytes) : Bytes := bytes ++ List.replicate (512 - bytes.length) 0

def pairBytes (current : UInt64) : Bytes :=
  inBlock [] ++ (inBlock (headerCodec.encode (pairTable current 3).header) ++ (inBlock (partCodec.encode pairPart) ++
    inBlock (headerCodec.encode (pairTable 3 current).header)))

def pairDisk (current : UInt64) : Image where
  bytes := pairBytes current
  small := by
    simp only [pairBytes, inBlock, List.length_append, List.length_replicate, headerCodec.encode_length,
      partCodec.encode_length]
    decide

theorem in_block_length (bytes : Bytes) (small : bytes.length ≤ 512) : (inBlock bytes).length = 512 := by
  rw [inBlock, List.length_append, List.length_replicate]
  omega

theorem slice_in_block (front bytes back : Bytes) (off size : Nat) (before : front.length = off) (len : bytes.length = size) :
    slice (front ++ (inBlock bytes ++ back)) off size = bytes := by
  rw [slice, List.drop_left' before, inBlock, List.append_assoc, List.take_left' len]

theorem one_part_table (dev : Image) (off start : Nat) (h : Header) (part : Part) (signed : h.signature = signature)
    (revised : h.revision = revision) (width : h.headerSize = headerSize) (one : h.nPart = 1) (entry : h.partSize = 128)
    (placed : blockOffset h.partStart = start) (headerFits : off + 92 ≤ dev.bytes.length)
    (fits : start + 128 ≤ dev.bytes.length)
    (header : slice dev.bytes off 92 = headerCodec.encode (sealed h (partCodec.encode part)))
    (stored : slice dev.bytes start 128 = partCodec.encode part) :
    table dev off = .ok ⟨sealed h (partCodec.encode part), [part]⟩ := by
  have count : h.nPart.toNat = 1 := by rw [one]; rfl
  have size : h.partSize.toNat = 128 := by rw [entry]; rfl
  have small := dev.small
  have offset := part_offset_exact (sealed h (partCodec.encode part)) start 0 placed (by omega)
  have read := dev.read_full_slice 128 partCodec.width start (by decide) (by decide) fits
  have taken : slice dev.bytes start partCodec.width = partCodec.encode part := stored
  rw [taken] at read
  rw [Nat.zero_mul, Nat.add_zero] at offset
  apply table_of_at
  · constructor
    case start => exact Int.natCast_nonneg _
    case headerFits => exact headerFits
    case header => rw [Int.toNat_natCast, header]
    case signature => exact signed
    case revision => exact revised
    case headerSize => exact width
    case maxNPart =>
      rw [sealed_n_part, one]
      decide
    case partStart =>
      rw [sealed_part_start, placed]
      exact Int.natCast_nonneg _
    case partsFit =>
      rw [sealed_part_start, sealed_n_part, sealed_part_size, placed, Int.toNat_natCast, count, size]
      exact fits
    case partCRC =>
      rw [sealed_part_start, sealed_n_part, sealed_part_size, placed, Int.toNat_natCast, count, size, stored]
      rfl
    case crc => exact sealed_crc h _
    case parts =>
      refine ⟨.primary, ?_⟩
      rw [sealed_n_part, count]
      apply read_parts_next _ _ _ 0 [] part rfl
      rw [offset, sealed_part_size, size, read]
  · rw [sealed_part_start, placed, Int.toNat_natCast]
    omega

section Pair

variable (current : UInt64)

theorem header_block (h : Header) : (inBlock (headerCodec.encode h)).length = 512 :=
  in_block_length _ (by rw [headerCodec.encode_length]; decide)

theorem part_block (part : Part) : (inBlock (partCodec.encode part)).length = 512 :=
  in_block_length _ (by rw [partCodec.encode_length]; decide)

theorem empty_block : (inBlock []).length = 512 := in_block_length [] (Nat.zero_le _)

theorem pair_length : (pairDisk current).bytes.length = 2048 := by
  simp only [pairDisk, pairBytes, List.length_append, header_block, part_block, empty_block]

theorem pair_entry : slice (pairDisk current).bytes 1024 128 = partCodec.encode pairPart := by
  have stored := slice_in_block (inBlock [] ++ inBlock (headerCodec.encode (pairTable current 3).header))
    (partCodec.encode pairPart) (inBlock (headerCodec.encode (pairTable 3 current).header))
    1024 128 (by simp only [List.length_append, empty_block, header_block]) (partCodec.encode_length _)
  rwa [List.append_assoc] at stored

theorem pair_primary : table (pairDisk current) headerOff = .ok (pairTable current 3) := by
  have length := pair_length current
  have place : blockOffset 2 = (1024 : Nat) := by decide
  have header := slice_in_block (inBlock []) (headerCodec.encode (pairTable current 3).header)
    (inBlock (partCodec.encode pairPart) ++ inBlock (headerCodec.encode (pairTable 3 current).header))
    512 92 empty_block (headerCodec.encode_length _)
  exact one_part_table (pairDisk current) 512 1024 _ pairPart rfl rfl rfl rfl rfl place (by omega) (by omega) header
    (pair_entry current)

theorem pair_backup : table (pairDisk current) (blockOffset 3) = .ok (pairTable 3 current) := by
  have length := pair_length current
  have place : blockOffset 2 = (1024 : Nat) := by decide
  have header := slice_in_block
    (inBlock [] ++ (inBlock (headerCodec.encode (pairTable current 3).header) ++ inBlock (partCodec.encode pairPart)))
    (headerCodec.encode (pairTable 3 current).header) []
    1536 92 (by simp only [List.length_append, empty_block, header_block, part_block]) (headerCodec.encode_length _)
  simp only [List.append_assoc, List.append_nil] at header
  rw [show blockOffset 3 = (1536 : Nat) by decide]
  exact one_part_table (pairDisk current) 1536 1024 _ pairPart rfl rfl rfl rfl rfl place (by omega) (by omega) header
    (pair_entry current)

def pairFront (current backup : UInt64) : Bytes :=
  frontCodec.encode (signature, revision, headerSize) ++
    (Codec.le32.encode 0 ++ (Codec.le32.encode 0 ++ (Codec.le64.encode current ++ Codec.le64.encode backup)))

def pairBack : Bytes :=
  Codec.le64.encode 5 ++ (Codec.le64.encode 6 ++ (List.replicate 16 7 ++ (Codec.le64.encode 2 ++ (Codec.le32.encode 1 ++
    (Codec.le32.encode 128 ++ Codec.le32.encode (Crc32.checksumIEEE (partCodec.encode pairPart)))))))

theorem pair_crc (backup : UInt64) :
    (pairTable current backup).header.crc = Crc32.checksumIEEE (pairFront current backup ++ pairBack) := by
  simp only [pairFront, List.append_assoc]
  rfl

theorem pair_new (different : Crc32.run 0xffffffff#32 (pairFront current 3) ≠ Crc32.run 0xffffffff#32 (pairFront 3 current)) :
    new (pairDisk current) = ⟨some (pairTable current 3), some (pairTable 3 current), none⟩ := by
  have sums : (pairTable current 3).header.crc ≠ (pairTable 3 current).header.crc := by
    rw [pair_crc, pair_crc]
    exact Crc32.checksum_suffix_ne _ _ pairBack different
  have equal : equalHeader (pairTable current 3).header (pairTable 3 current).header = true := by
    simp only [equalHeader, pairTable, sealed, unsealed, Header.stamped, beq_self_eq_true, Bool.and_self]
  have parts : ¬ (pairTable current 3).parts ≠ (pairTable 3 current).parts := not_not.mpr rfl
  rw [new, pair_primary]
  simp only
  rw [show (pairTable current 3).header.backupLBA = 3 from rfl, pair_backup, withBackup, equal, if_neg (by decide),
    if_neg sums, if_neg parts]

end Pair

theorem write_back_exact (dev : Image) (g b : GPT) (read : new dev = ⟨some g, some b, none⟩) :
    (∃ after, writeBack dev g b = .ok after ∧ after.bytes = dev.bytes) ↔ Restorable dev g b :=
  write_back_iff dev g b (new_inv dev g b read)

theorem pair_restorable : Restorable (pairDisk 1) (pairTable 1 3) (pairTable 3 1) := by
  have primary := table_inv (pair_primary 1)
  have kept : ∀ array : Bytes, blanked 128 array = array := by
    intro array
    apply List.ext_getElem?
    intro j
    by_cases inside : j < array.length
    · rw [blanked_get _ _ _ inside, if_pos (Nat.mod_lt _ (by decide))]
    · rw [List.getElem?_eq_none (by rw [blanked_length]; omega), List.getElem?_eq_none (by omega)]
  constructor
  case word => decide
  case room => exact ⟨by decide, by rw [pair_length]; decide⟩
  case sum =>
    have stored := primary.partCRC
    exact (congrArg Crc32.checksumIEEE (kept _)).trans stored
  case primaryPadding =>
    intro j _ padding
    exact absurd padding (Nat.not_le.mpr (Nat.mod_lt _ (by decide)))
  case primaryHeader =>
    intro k _ _ _
    rw [show (blockOffset (pairTable 1 3).header.currentLBA).toNat = 512 by decide]
  case backupPadding =>
    intro j _ padding
    exact absurd padding (Nat.not_le.mpr (Nat.mod_lt _ (by decide)))

theorem pair_disk_restored :
    new (pairDisk 1) = ⟨some (pairTable 1 3), some (pairTable 3 1), none⟩ ∧
      ∃ after, writeBack (pairDisk 1) (pairTable 1 3) (pairTable 3 1) = .ok after ∧
        after.bytes = (pairDisk 1).bytes := by
  have read := pair_new 1 (by decide +kernel)
  exact ⟨read, (write_back_exact _ _ _ read).mpr pair_restorable⟩

-- A primary header whose CurrentLBA is 0 is read from block 1 and written to block 0.
theorem misplaced_primary_changes_device :
    new (pairDisk 0) = ⟨some (pairTable 0 3), some (pairTable 3 0), none⟩ ∧
      ¬ ∃ after, writeBack (pairDisk 0) (pairTable 0 3) (pairTable 3 0) = .ok after ∧
        after.bytes = (pairDisk 0).bytes := by
  have read := pair_new 0 (by decide +kernel)
  have primary := table_inv (pair_primary 0)
  refine ⟨read, fun unchanged => ?_⟩
  have restorable := (write_back_iff _ _ _ (new_inv _ _ _ read)).mp unchanged
  have moved := restorable.primaryHeader 0 (by decide) (fun inside => absurd inside.1 (by decide))
    (fun inside => absurd inside.1 (by decide))
  have stored : (pairDisk 0).bytes[512 + 0]? = some 0x45 := (header_get primary 0 (by decide)).symm
  have zero : (pairDisk 0).bytes[(blockOffset 0).toNat + 0]? = some 0 := by
    rw [show (blockOffset 0).toNat + 0 = 0 by decide]
    rfl
  rw [stored] at moved
  exact absurd (zero.symm.trans moved) (by decide)

end Exact

end URoot.Gpt
