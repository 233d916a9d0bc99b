import URoot.Gpt.Rewrite

set_option autoImplicit false

namespace URoot.Gpt

open GoLib

-- Whatever New returns first was read at byte 512, whatever it returns second at
-- the backup place the primary table names.
structure KeptApart (r : Image) : Prop where
  primary : ∀ g, (new r).g = some g → table r headerOff = .ok g
  backup : ∀ b, (new r).b = some b → ∃ g, table r headerOff = .ok g ∧ table r (blockOffset g.header.backupLBA) = .ok b

structure Exchanged (r : Image) (g b : GPT) : Prop where
  primary : table r headerOff = .ok g
  backup : table r (blockOffset g.header.backupLBA) = .ok b
  headers : equalHeader g.header b.header = true
  sums : g.header.crc ≠ b.header.crc
  parts : g.parts ≠ b.parts

theorem with_backup_kept {g : GPT} {second : Except TableFailure GPT}
    (agree : ∀ b, second = .ok b → equalHeader g.header b.header = true → g.header.crc ≠ b.header.crc → g.parts = b.parts) :
    (withBackup g second).g = some g ∧ ∀ b, (withBackup g second).b = some b → second = .ok b := by
  cases second with
  | error failure => exact ⟨rfl, fun b returned => by cases returned⟩
  | ok backup =>
      have same : ∀ b, some backup = some b → Except.ok (ε := TableFailure) backup = .ok b := by
        intro b returned
        rw [Option.some.inj returned]
      rw [withBackup]
      split
      · exact ⟨rfl, same⟩
      · split
        · exact ⟨rfl, same⟩
        · rename_i headers sums
          have parts := agree backup rfl (by simpa using headers) sums
          rw [if_neg (not_not.mpr parts)]
          exact ⟨rfl, same⟩

theorem exchanged_returns (r : Image) (g b : GPT) (exchanged : Exchanged r g b) :
    new r = ⟨some b, some g, some (.partsDiffer g b)⟩ := by
  rw [new, exchanged.primary]
  simp only
  rw [exchanged.backup, withBackup, exchanged.headers, if_neg (by decide), if_neg exchanged.sums, if_pos exchanged.parts]

theorem kept_apart_of_agree (r : Image) (agree : ∀ g b, ¬ Exchanged r g b) : KeptApart r := by
  cases first : table r headerOff with
  | error failure =>
      have nothing : new r = ⟨none, none, some (.table failure.err)⟩ := by rw [new, first]
      constructor
      · intro g returned
        rw [nothing] at returned
        cases returned
      · intro b returned
        rw [nothing] at returned
        cases returned
  | ok g =>
      have rest : new r = withBackup g (table r (blockOffset g.header.backupLBA)) := by rw [new, first]
      obtain ⟨primary, backup⟩ := with_backup_kept (by
        intro b second headers sums
        by_contra parts
        exact agree g b ⟨first, second, headers, sums, parts⟩)
      rw [← rest] at primary backup
      constructor
      · intro other returned
        rw [primary] at returned
        rw [first, Option.some.inj returned]
      · intro b returned
        exact ⟨g, first, backup b returned⟩

theorem kept_apart_iff (r : Image) : KeptApart r ↔ ∀ g b, ¬ Exchanged r g b := by
  refine ⟨?_, kept_apart_of_agree r⟩
  intro kept g b exchanged
  have returned := exchanged_returns r g b exchanged
  have swapped := kept.primary b (by rw [returned])
  rw [exchanged.primary] at swapped
  cases swapped
  exact exchanged.parts rfl

section Twins

def blocks (contents : List Bytes) : Bytes := (contents.map inBlock).flatten

theorem blocks_length (contents : List Bytes) (small : ∀ content ∈ contents, content.length ≤ 512) :
    (blocks contents).length = 512 * contents.length := by
  induction contents with
  | nil => rfl
  | cons content rest ih =>
      have first := in_block_length content (small content List.mem_cons_self)
      have later := ih (fun other member => small other (List.mem_cons_of_mem _ member))
      rw [blocks, List.map_cons, List.flatten_cons, List.length_append, ← blocks, first, later, List.length_cons]
      omega

theorem slice_blocks (before : List Bytes) (content : Bytes) (after : List Bytes) (off size : Nat)
    (small : ∀ other ∈ before, other.length ≤ 512) (place : off = 512 * before.length) (len : content.length = size) :
    slice (blocks (before ++ content :: after)) off size = content := by
  have split : blocks (before ++ content :: after) = blocks before ++ (inBlock content ++ blocks after) := by
    simp [blocks]
  rw [split]
  exact slice_in_block _ _ _ off size (by rw [blocks_length before small, place]) len

-- Two entries whose difference is the generator polynomial, so that their sums agree.
def twinPart (front : Bytes) (five : front.length = 5) : Part :=
  { pairPart with partGUID := ⟨front ++ List.replicate 11 1, by simp [five]⟩ }

def firstTwin : Part := twinPart [0, 0, 0, 0, 0] rfl

def secondTwin : Part := twinPart [0x41, 0x06, 0x71, 0xdb, 0x01] rfl

def twinHeader (current backup start : UInt64) : Header := { (pairTable current backup).header with partStart := start }

def twinTable (current backup start : UInt64) (part : Part) : GPT :=
  ⟨sealed (twinHeader current backup start) (partCodec.encode part), [part]⟩

def primaryTwin : GPT := twinTable 1 3 2 firstTwin

def backupTwin : GPT := twinTable 3 1 4 secondTwin

def twinBlocks : List Bytes :=
  [[], headerCodec.encode primaryTwin.header, partCodec.encode firstTwin, headerCodec.encode backupTwin.header,
    partCodec.encode secondTwin]

theorem twin_blocks_small : ∀ content ∈ twinBlocks, content.length ≤ 512 := by
  intro content member
  simp only [twinBlocks, List.mem_cons, List.not_mem_nil, or_false] at member
  rcases member with rfl | rfl | rfl | rfl | rfl
  · exact Nat.zero_le _
  · rw [headerCodec.encode_length]
    decide
  · rw [partCodec.encode_length]
    decide
  · rw [headerCodec.encode_length]
    decide
  · rw [partCodec.encode_length]
    decide

theorem twin_length : (blocks twinBlocks).length = 2560 := blocks_length _ twin_blocks_small

def twinDisk : Image where
  bytes := blocks twinBlocks
  small := by
    rw [twin_length]
    decide

theorem twin_slice (before : List Bytes) (content : Bytes) (after : List Bytes) (off size : Nat)
    (split : twinBlocks = before ++ content :: after) (place : off = 512 * before.length) (len : content.length = size) :
    slice twinDisk.bytes off size = content := by
  have small : ∀ other ∈ before, other.length ≤ 512 :=
    fun other member => twin_blocks_small other (by rw [split]; exact List.mem_append_left _ member)
  rw [show twinDisk.bytes = blocks twinBlocks from rfl, split]
  exact slice_blocks before content after off size small place len

theorem twin_primary : table twinDisk headerOff = .ok primaryTwin := by
  have length : twinDisk.bytes.length = 2560 := twin_length
  have header := twin_slice [[]] _ _ 512 92 rfl rfl (headerCodec.encode_length _)
  have entry := twin_slice [[], headerCodec.encode primaryTwin.header] _ _ 1024 128 rfl rfl (partCodec.encode_length _)
  exact one_part_table twinDisk 512 1024 (twinHeader 1 3 2) firstTwin rfl rfl rfl rfl rfl (by decide) (by omega) (by omega)
    header entry

theorem twin_backup : table twinDisk (blockOffset 3) = .ok backupTwin := by
  have length : twinDisk.bytes.length = 2560 := twin_length
  have header := twin_slice [[], headerCodec.encode primaryTwin.header, partCodec.encode firstTwin] _ _ 1536 92 rfl rfl
    (headerCodec.encode_length _)
  have entry := twin_slice [[], headerCodec.encode primaryTwin.header, partCodec.encode firstTwin,
    headerCodec.encode backupTwin.header] _ _ 2048 128 rfl rfl (partCodec.encode_length _)
  rw [show blockOffset 3 = (1536 : Nat) by decide]
  exact one_part_table twinDisk 1536 2048 (twinHeader 3 1 4) secondTwin rfl rfl rfl rfl rfl (by decide) (by omega) (by omega)
    header entry

def twinTail : Bytes :=
  List.replicate 11 1 ++ (List.replicate 16 2 ++ (Codec.le64.encode 5 ++ (Codec.le64.encode 6 ++ (Codec.le64.encode 7 ++
    List.replicate 72 8))))

theorem twin_encode (front : Bytes) (five : front.length = 5) : partCodec.encode (twinPart front five) = front ++ twinTail := by
  rw [twinTail, ← List.append_assoc]
  rfl

theorem twin_sums : Crc32.checksumIEEE (partCodec.encode firstTwin) = Crc32.checksumIEEE (partCodec.encode secondTwin) := by
  have collide : Crc32.run 0xffffffff#32 [0, 0, 0, 0, 0] = Crc32.run 0xffffffff#32 [0x41, 0x06, 0x71, 0xdb, 0x01] := by
    decide +kernel
  rw [firstTwin, secondTwin, twin_encode, twin_encode]
  exact Crc32.checksum_suffix_eq _ _ twinTail collide

theorem twin_headers : equalHeader primaryTwin.header backupTwin.header = true := by
  have sums : primaryTwin.header.partCRC = backupTwin.header.partCRC := twin_sums
  simp only [equalHeader, sums, beq_self_eq_true, Bool.and_true]
  decide

def twinMiddle (start : UInt64) : Bytes :=
  Codec.le64.encode 5 ++ (Codec.le64.encode 6 ++ (List.replicate 16 7 ++ Codec.le64.encode start))

def twinFront (current backup start : UInt64) : Bytes := pairFront current backup ++ twinMiddle start

theorem twin_crc (current backup start : UInt64) (part : Part) :
    (twinTable current backup start part).header.crc = Crc32.checksumIEEE (twinFront current backup start ++
      (Codec.le32.encode 1 ++ (Codec.le32.encode 128 ++ Codec.le32.encode (Crc32.checksumIEEE (partCodec.encode part))))) := by
  simp only [twinFront, twinMiddle, pairFront, List.append_assoc]
  rfl

-- The state of the sum is evaluated in two parts: after 40 bytes and after 80.
theorem twin_states : Crc32.run 0xffffffff#32 (twinFront 1 3 2) ≠ Crc32.run 0xffffffff#32 (twinFront 3 1 4) := by
  have primaryFront : Crc32.run 0xffffffff#32 (pairFront 1 3) = 0x4a266d30#32 := by decide +kernel
  have backupFront : Crc32.run 0xffffffff#32 (pairFront 3 1) = 0x8fa34f2e#32 := by decide +kernel
  have primary : Crc32.run 0xffffffff#32 (twinFront 1 3 2) = Crc32.run 0x4a266d30#32 (twinMiddle 2) := by
    rw [← primaryFront]
    exact List.foldl_append
  have backup : Crc32.run 0xffffffff#32 (twinFront 3 1 4) = Crc32.run 0x8fa34f2e#32 (twinMiddle 4) := by
    rw [← backupFront]
    exact List.foldl_append
  rw [primary, backup]
  decide +kernel

theorem twin_exchange : Exchanged twinDisk primaryTwin backupTwin where
  primary := twin_primary
  backup := twin_backup
  headers := twin_headers
  sums := by
    rw [primaryTwin, backupTwin, twin_crc, twin_crc, ← twin_sums]
    exact Crc32.checksum_suffix_ne _ _ _ twin_states
  parts := by decide

end Twins

theorem twins_exchanged :
    table twinDisk headerOff = .ok primaryTwin ∧ table twinDisk (blockOffset primaryTwin.header.backupLBA) = .ok backupTwin ∧
      new twinDisk = ⟨some backupTwin, some primaryTwin, some (.partsDiffer primaryTwin backupTwin)⟩ ∧
      ¬ KeptApart twinDisk := by
  refine ⟨twin_primary, twin_backup, exchanged_returns _ _ _ twin_exchange, ?_⟩
  intro kept
  have swapped := kept.primary backupTwin (by rw [exchanged_returns _ _ _ twin_exchange])
  rw [twin_primary] at swapped
  exact twin_exchange.parts (congrArg GPT.parts (Except.ok.inj swapped))

end URoot.Gpt
