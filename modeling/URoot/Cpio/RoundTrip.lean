import URoot.Cpio.Archive

set_option autoImplicit false

namespace URoot.Cpio

open GoLib Act Newc

def Info.numbers (info : Info) : List UInt64 :=
  [info.ino, info.mode, info.uid, info.gid, info.nlink, info.mtime, info.fileSize, info.dev,
    info.major, info.minor, info.rmajor, info.rminor]

-- The records a newc archive can hold without loss: static content or none,
-- and everything that goes into a 32-bit header word fits in one.
structure Archivable (record : Record) : Prop where
  origin : record.readCloser = none ∨ ∃ contents info, record = staticRecord contents info
  small : ∀ number ∈ record.info.numbers, number.toNat < 2 ^ 32
  contentShort : record.content.length < 2 ^ 32
  nameShort : record.info.name.length + 1 < 2 ^ 32
  notTrailer : storedName record.info.name ≠ some trailer

def archived (record : Record) : Record :=
  ⟨some (newBytesReadCloser record.content),
    { record.info with name := nameOf record, dev := 0, fileSize := UInt64.ofNat record.content.length }⟩

theorem word_survives (number : UInt64) (small : number.toNat < 2 ^ 32) : number.toUInt32.toUInt64 = number := by
  apply UInt64.toNat_inj.mp
  simp only [UInt32.toNat_toUInt64, UInt64.toNat_toUInt32]
  omega

theorem archivable_reads (record : Record) (ok : Archivable record) : record.Reads := by
  rcases ok.origin with absent | ⟨contents, info, rfl⟩
  · intro source present
    rw [absent] at present
    cases present
  · exact static_reads contents info

theorem stored_header_size (record : Record) (ok : Archivable record) :
    (Newc.recordHeader (stored record)).fileSize.toUInt64 = UInt64.ofNat record.content.length ∧
      (Newc.recordHeader (stored record)).fileSize.toNat = record.content.length := by
  rcases ok.origin with absent | ⟨contents, info, rfl⟩
  · have none : (stored record).readCloser = none := absent
    have empty : record.content = [] := by simp [Record.content, absent]
    simp [Newc.recordHeader, none, empty]
  · have short : contents.length < 2 ^ 32 := ok.contentShort
    have word : (UInt64.ofNat contents.length).toNat = contents.length :=
      UInt64.toNat_ofNat_of_lt' (Nat.lt_trans short (by decide))
    have header : (Newc.recordHeader (stored (staticRecord contents info))).fileSize =
        (UInt64.ofNat contents.length).toUInt32 := rfl
    rw [header]
    refine ⟨word_survives _ (by rw [word]; exact short), ?_⟩
    rw [UInt64.toNat_toUInt32, word]
    exact Nat.mod_eq_of_lt short

theorem record_header_info (record : Record) :
    (Newc.recordHeader record).info =
      { (Newc.headerFromInfo record.info).info with fileSize := (Newc.recordHeader record).fileSize.toUInt64 } := by
  unfold Newc.recordHeader
  split <;> rfl

theorem read_back_stored (record : Record) (ok : Archivable record) : Newc.readBack (stored record) = archived record := by
  have survive : ∀ number ∈ record.info.numbers, number.toUInt32.toUInt64 = number :=
    fun number member => word_survives number (ok.small number member)
  simp only [Info.numbers, List.forall_mem_cons, List.not_mem_nil, false_imp_iff, implies_true, and_true] at survive
  obtain ⟨ino, mode, uid, gid, nlink, mtime, _, _, major, minor, rmajor, rminor⟩ := survive
  rw [Newc.readBack, record_header_info, (stored_header_size record ok).1]
  simp only [Newc.headerFromInfo, Newc.Header.info, stored, Record.rename, ino, mode, uid, gid, nlink, mtime,
    major, minor, rmajor, rminor]
  rfl

theorem stored_name_short (record : Record) (ok : Archivable record) : (stored record).info.name.length + 1 < 2 ^ 32 := by
  have bound := name_of_length record
  have short := ok.nameShort
  have name : (stored record).info.name = nameOf record := rfl
  rw [name]
  omega

theorem read_stored (before after : Bytes) (record : Record) (aligned : before.length % 4 = 0) (ok : Archivable record) :
    readRecord.run ⟨before ++ (Newc.recordBytes (stored record) ++ after), before.length⟩ =
      (.ok (archived record), ⟨before ++ (Newc.recordBytes (stored record) ++ after),
        (before ++ Newc.recordBytes (stored record)).length⟩) := by
  have inner := read_record_bytes before after (stored record) aligned (stored_name_short record ok)
    (stored_header_size record ok).2
  have named : (archived record).info.name ≠ trailer := by
    intro same
    apply ok.notTrailer
    rw [stored_name_of, ← same]
    rfl
  rw [readRecord, run_bind_ok inner, read_back_stored record ok,
    run_require_bind _ _ _ named, run_pure, List.length_append]

theorem trailer_stops (before : Bytes) (aligned : before.length % 4 = 0) :
    ∃ next, readRecord.run ⟨before ++ Newc.recordBytes (stored trailerRecord), before.length⟩ = (.error .eof, next) := by
  have inner := read_record_bytes before [] (stored trailerRecord) aligned (by decide) (by decide)
  rw [List.append_nil] at inner
  have name : (Newc.readBack (stored trailerRecord)).info.name = trailer := by decide
  rw [readRecord, run_bind_ok inner, Act.require, if_neg (by simp [name])]
  exact ⟨_, run_bind_error (run_fail _ _)⟩

-- The reader's position is always the length of what has been read, so each
-- step finds the next record at an aligned offset.
theorem read_archive_loop (records files : List Record) (before : Bytes) (aligned : before.length % 4 = 0)
    (ok : ∀ record ∈ records, Archivable record) :
    readRecordsLoop ⟨before ++ (archiveBytes records ++ Newc.recordBytes (stored trailerRecord)), before.length⟩ files =
      .ok (files ++ records.map archived) := by
  induction records generalizing before files with
  | nil =>
      obtain ⟨next, stop⟩ := trailer_stops before aligned
      simpa [archiveBytes] using read_records_loop_eof files stop
  | cons record rest ih =>
      have here := read_stored before (archiveBytes rest ++ Newc.recordBytes (stored trailerRecord)) record aligned
        (ok record (by simp))
      have block := record_bytes_aligned (stored record)
      have later := ih (files ++ [archived record]) (before ++ Newc.recordBytes (stored record))
        (by rw [List.length_append]; omega) (fun r member => ok r (List.mem_cons_of_mem _ member))
      simp only [archiveBytes, List.flatMap_cons, List.append_assoc] at here later ⊢
      rw [read_records_loop_next _ _ _ _ here, later]
      simp

theorem fresh_written {records : List Record} (ok : ∀ record ∈ records, Archivable record) :
    ∃ seen, trailer ∉ seen ∧ (writeRecords bytesBuffer records).run (newWriter []) =
      (.ok (), extend (newWriter []) (archiveBytes (firsts nameOf records)) seen) := by
  obtain ⟨seen, members, done⟩ := write_records_buffer records (newWriter [])
    (fun record member => archivable_reads record (ok record (fresh_mem _ _ _ _ member))) rfl
  refine ⟨seen, ?_, by rw [← fresh_firsts]; exact done⟩
  rw [members]
  rintro (used | impossible)
  · obtain ⟨record, member, same⟩ := List.mem_map.mp used
    apply (ok record member).notTrailer
    rw [stored_name_of, same]
  · cases impossible

theorem trailed_reads (records : List Record) (seen : List Bytes) (ok : ∀ record ∈ records, Archivable record)
    (unused : trailer ∉ seen) :
    ∃ finished, (writeTrailer bytesBuffer).run (extend (newWriter []) (archiveBytes records) seen) = (.ok (), finished) ∧
      readRecords finished.rw.w = .ok (records.map archived) := by
  have written := archive_bytes_aligned records
  have trailerWrite := write_trailer_buffer (extend (newWriter []) (archiveBytes records) seen)
    (by simpa [extend, newWriter, grow] using written)
  have notSeen : trailer ∉ (extend (newWriter []) (archiveBytes records) seen).alreadyWritten := unused
  rw [if_neg notSeen] at trailerWrite
  refine ⟨_, trailerWrite, ?_⟩
  have loop := read_archive_loop records [] [] rfl ok
  simpa [readRecords, extend, newWriter, grow] using loop

theorem firsts_archivable (records : List Record) (ok : ∀ record ∈ records, Archivable record) :
    ∀ record ∈ firsts nameOf records, Archivable record := by
  intro record member
  rw [← fresh_firsts] at member
  exact ok record (fresh_mem _ _ _ _ member)

theorem archive_round_trip (records : List Record) (ok : ∀ record ∈ records, Archivable record) :
    ∃ written finished,
      (writeRecords bytesBuffer records).run (newWriter []) = (.ok (), written) ∧
      (writeTrailer bytesBuffer).run written = (.ok (), finished) ∧
      readRecords finished.rw.w = .ok ((firsts nameOf records).map archived) := by
  obtain ⟨seen, unused, done⟩ := fresh_written ok
  obtain ⟨finished, trailed, back⟩ := trailed_reads (firsts nameOf records) seen (firsts_archivable records ok) unused
  exact ⟨_, finished, done, trailed, back⟩

theorem duplicate_names_round_trip :
    ∃ written finished,
      (writeRecords bytesBuffer [staticRecord (str "hi") { name := str "/a/../b", ino := 7 }, { info := { name := str "b" } },
        { info := { name := str "d" } }]).run (newWriter []) = (.ok (), written) ∧
      (writeTrailer bytesBuffer).run written = (.ok (), finished) ∧
      readRecords finished.rw.w =
        .ok [staticRecord (str "hi") { name := str "b", ino := 7 }, staticRecord [] { name := str "d" }] := by
  obtain ⟨written, finished, wrote, trailed, read⟩ := archive_round_trip
    [staticRecord (str "hi") { name := str "/a/../b", ino := 7 }, { info := { name := str "b" } },
      { info := { name := str "d" } }] (by
    simp only [List.forall_mem_cons, List.not_mem_nil, false_imp_iff, implies_true, and_true]
    exact ⟨⟨Or.inr ⟨_, _, rfl⟩, by simp [Info.numbers, staticRecord, str], by decide, by decide, by decide⟩,
      ⟨Or.inl rfl, by simp [Info.numbers], by decide, by decide, by decide⟩,
      ⟨Or.inl rfl, by simp [Info.numbers], by decide, by decide, by decide⟩⟩)
  exact ⟨written, finished, wrote, trailed, read⟩

end URoot.Cpio
