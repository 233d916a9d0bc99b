import URoot.Cpio.ReadOutcome

set_option autoImplicit false

namespace URoot.Newc

open GoLib Cpio Act

def freshWriter : Writer Bytes := ⟨[], 0⟩

-- The states of a newc writer on a fresh buffer: every earlier write returned nil.
inductive Written : Writer Bytes → Prop
  | fresh : Written freshWriter
  | next (s after : Writer Bytes) (f : Record) : Written s → (writeRecord bytesBuffer f).run s = (.ok (), after) →
      Written after

theorem write_record_reads {σ : Type} (io : IoWriter σ) (f : Record) (s after : Writer σ)
    (done : (writeRecord io f).run s = (.ok (), after)) : f.Reads := by
  intro source present
  obtain ⟨_, _, _, afterMagic⟩ := run_bind_inv done
  obtain ⟨_, _, _, afterHeader⟩ := run_bind_inv afterMagic
  obtain ⟨_, _, _, afterName⟩ := run_bind_inv afterHeader
  obtain ⟨_, _, _, body⟩ := run_bind_inv afterName
  rw [present] at body
  obtain ⟨_, _, copied, afterCopy⟩ := run_bind_inv body
  obtain ⟨_, _, closed, _⟩ := run_bind_inv afterCopy
  exact ⟨io_copy_inv copied, (run_check_inv closed).1⟩

theorem written_position (s : Writer Bytes) (written : Written s) : s.pos = s.w.length ∧ s.pos % 4 = 0 := by
  induction written with
  | fresh => exact ⟨rfl, rfl⟩
  | next s after f _ done ih =>
      obtain ⟨position, aligned⟩ := ih
      rw [write_record_buffer f s (write_record_reads _ _ _ _ done) aligned] at done
      cases done
      have block := record_bytes_aligned f
      refine ⟨?_, ?_⟩
      · simp only [grow, List.length_append, position]
      · simp only [grow]
        omega

theorem record_header_in (before after : Bytes) (f : Record) :
    HeaderAt (before ++ (recordBytes f ++ after)) before.length (recordHeader f) := by
  have split : before ++ (recordBytes f ++ after) = before ++ (newcMagic ++ (headerText f ++ ((f.info.name ++ [0]) ++
      (padding (recordHead f).length ++ (f.content ++ (padding f.content.length ++ after)))))) := by
    simp only [recordBytes, recordHead, List.append_assoc]
  have magicSize : newcMagic.length = 6 := by decide
  rw [split]
  refine ⟨?_, ?_, ?_⟩
  · simp only [List.length_append, magicSize, header_text_length, List.length_singleton]
    omega
  · rw [List.drop_left, List.take_left' magicSize]
  · rw [← List.drop_drop, List.drop_left, List.drop_left' magicSize, List.take_left' (header_text_length f),
      decode_header_text]

theorem header_name_word (f : Record) : (recordHeader f).nameLength.toNat = (f.info.name.length + 1) % 2 ^ 32 := by
  rw [record_header_name, UInt32.toNat_add, UInt32.toNat_ofNat', UInt32.toNat_one]
  omega

theorem header_size_word (f : Record) :
    (recordHeader f).fileSize.toNat = f.content.length ↔
      f.readCloser = none ∨ f.info.fileSize.toNat % 2 ^ 32 = f.content.length := by
  cases source : f.readCloser with
  | none => simp [recordHeader, source, Record.content]
  | some stream =>
      have word : (recordHeader f).fileSize = f.info.fileSize.toUInt32 := by simp [recordHeader, source, headerFromInfo]
      rw [word, UInt64.toNat_toUInt32]
      simp

-- The declared lengths put the reader where the writer stopped only when they
-- are the true ones: a name length that wrapped falls short by at least 2^32.
theorem declared_lengths_exact (start size name content : Nat) (aligned : start % 4 = 0)
    (same : round4 (round4 (start + 110 + (name + 1) % 2 ^ 32) + size) =
      start + (round4 (111 + name) + round4 content)) (sizes : size = content) :
    name + 1 < 2 ^ 32 := by
  subst sizes
  simp only [round4] at same
  omega

theorem write_record_parseable_iff (s next : Writer Bytes) (f : Record) (after : Bytes) (reached : Written s)
    (done : (writeRecord bytesBuffer f).run s = (.ok (), next)) :
    (∃ record, readRecord.run ⟨next.w ++ after, s.pos⟩ = (.ok record, ⟨next.w ++ after, next.pos⟩) ∧
      record.content = f.content) ↔
      f.info.name.length + 1 < 2 ^ 32 ∧
        (f.readCloser = none ∨ f.info.fileSize.toNat % 2 ^ 32 = f.content.length) := by
  obtain ⟨position, aligned⟩ := written_position s reached
  rw [write_record_buffer f s (write_record_reads _ _ _ _ done) aligned] at done
  cases done
  simp only [grow, List.append_assoc]
  rw [← header_size_word, position]
  rw [position] at aligned
  constructor
  · rintro ⟨record, ran, same⟩
    obtain ⟨hdr, place, moved⟩ := read_record_inv _ _ _ ran
    cases header_at_unique (record_header_at place) (record_header_in s.w after f)
    have finish : recordEnd s.w.length (recordHeader f) = s.w.length + (recordBytes f).length :=
      congrArg Reader.pos moved.symm
    have inside : round4 (s.w.length + 110 + (recordHeader f).nameLength.toNat) + (recordHeader f).fileSize.toNat ≤
        s.w.length + (recordBytes f).length := by
      rw [← finish]
      exact round4_le _
    have size : (recordHeader f).fileSize.toNat = f.content.length := by
      have length := congrArg List.length same
      rw [place.record_eq] at length
      simp only [Record.content, newBytesReadCloser, List.length_take, List.length_drop, List.length_append] at length
      simp only [Record.content]
      omega
    refine ⟨?_, size⟩
    rw [recordEnd, header_name_word, record_bytes_length, record_head_length] at finish
    exact declared_lengths_exact _ _ _ _ aligned finish size
  · rintro ⟨short, size⟩
    exact ⟨readBack f, read_record_bytes s.w after f aligned short size, rfl⟩

def sizedFile : Record := staticRecord (str "hi") { name := str "a" }

theorem sized_file_parseable :
    ∃ next, (writeRecord bytesBuffer sizedFile).run freshWriter = (.ok (), next) ∧
      ∃ record, readRecord.run ⟨next.w ++ str "070701", freshWriter.pos⟩ =
          (.ok record, ⟨next.w ++ str "070701", next.pos⟩) ∧
        record.content = sizedFile.content := by
  have written := write_record_buffer sizedFile freshWriter (static_reads _ _) rfl
  have read := (write_record_parseable_iff _ _ _ (str "070701") .fresh written).mpr ⟨by decide, Or.inr (by decide)⟩
  exact ⟨_, written, read⟩

-- A file of two bytes at stat time that has grown to six when it is read.
def grownFile : Record := ⟨some (newBytesReadCloser (str "grown!")), { name := str "a", fileSize := 2 }⟩

theorem grown_file_unparseable :
    ∃ next, (writeRecord bytesBuffer grownFile).run freshWriter = (.ok (), next) ∧ next.pos = 120 ∧
      (readRecord.run ⟨next.w, freshWriter.pos⟩).2.pos = 116 ∧
      ((readRecord.run ⟨next.w, freshWriter.pos⟩).1.toOption.map Record.content) = some (str "gr") := by
  have written := write_record_buffer grownFile freshWriter (by intro source present; cases present; exact ⟨rfl, rfl⟩) rfl
  have length : (recordBytes grownFile).length = 120 := by decide +kernel
  refine ⟨grow freshWriter (recordBytes grownFile), written, ?_, by decide +kernel, by decide +kernel⟩
  rw [grow, length]
  rfl

end URoot.Newc
