import URoot.Cpio.Archive
import URoot.Cpio.Parseable

set_option autoImplicit false

namespace URoot.Cpio

open GoLib Act Newc

section Rejection

-- Following the declared lengths from an offset, a reader comes to 110 bytes
-- that are not a header before it comes to a trailer or to the end.
inductive MeetsBadHeader (data : Bytes) : Nat → Prop
  | here (pos : Nat) : Newc.BadHeader data pos → MeetsBadHeader data pos
  | later (pos : Nat) (hdr : Newc.Header) (record : Record) : RecordAt data pos hdr record →
      record.info.name ≠ trailer → MeetsBadHeader data (recordEnd pos hdr) → MeetsBadHeader data pos

variable (data : Bytes) (pos : Nat) (files : List Record)

theorem loop_failed (e : Newc.ReadError) (stop : Nat) (notEof : e ≠ .eof)
    (failed : Newc.readRecord.run ⟨data, pos⟩ = (.error e, ⟨data, stop⟩)) :
    readRecordsLoop ⟨data, pos⟩ files = .error e :=
  read_records_loop_error _ _ (run_bind_error failed) notEof

theorem loop_ended (stop : Nat) (ended : Newc.readRecord.run ⟨data, pos⟩ = (.error .eof, ⟨data, stop⟩)) :
    readRecordsLoop ⟨data, pos⟩ files = .ok files :=
  read_records_loop_eof _ (run_bind_error ended)

theorem loop_trailer (stop : Nat) (record : Record) (named : record.info.name = trailer)
    (found : Newc.readRecord.run ⟨data, pos⟩ = (.ok record, ⟨data, stop⟩)) :
    readRecordsLoop ⟨data, pos⟩ files = .ok files := by
  apply read_records_loop_eof
  rw [readRecord, run_bind_ok found, Act.require, if_neg (not_not_intro named)]
  exact run_bind_error (run_fail _ _)

theorem loop_found {stop : Nat} {record : Record} (named : record.info.name ≠ trailer)
    (found : Newc.readRecord.run ⟨data, pos⟩ = (.ok record, ⟨data, stop⟩)) :
    readRecordsLoop ⟨data, pos⟩ files = readRecordsLoop ⟨data, stop⟩ (files ++ [record]) := by
  apply read_records_loop_next
  rw [readRecord, run_bind_ok found, run_require_bind _ _ _ named,
    run_pure]

theorem rejected_meets (e : Newc.ReadError) (notPanic : e ≠ .panic)
    (rejected : readRecordsLoop ⟨data, pos⟩ files = .error e) : MeetsBadHeader data pos := by
  -- The induction is on what is left of the archive: every record found takes some of it.
  induction left : data.length - pos using Nat.strongRecOn generalizing pos files with
  | ind left ih =>
      rcases reader_places ⟨data, pos⟩ with ends | bad | zero | ⟨hdr, place, named, fits⟩
      · obtain ⟨next, ran⟩ := read_record_ends _ ends
        rw [loop_ended data pos files next ran] at rejected
        cases rejected
      · exact .here pos bad
      · obtain ⟨next, ran⟩ := read_record_zero _ zero
        rw [loop_failed data pos files .panic next (by decide) ran] at rejected
        cases rejected
        exact absurd rfl notPanic
      · obtain ⟨record, found, ran⟩ := read_record_at _ hdr place named fits
        by_cases last : record.info.name = trailer
        · rw [loop_trailer data pos files _ record last ran] at rejected
          cases rejected
        · obtain ⟨-, room, moved⟩ := read_record_progress _ _ _ ran
          rw [loop_found data pos files last ran] at rejected
          simp only at room moved
          exact .later pos hdr record found last (ih _ (by omega) _ _ rejected rfl)

theorem meets_rejected (meets : MeetsBadHeader data pos) :
    ∃ e, e ≠ .panic ∧ readRecordsLoop ⟨data, pos⟩ files = .error e := by
  induction meets generalizing files with
  | here pos bad =>
      obtain ⟨e, next, notEof, notPanic, ran⟩ := read_record_bad ⟨data, pos⟩ bad
      exact ⟨e, notPanic, loop_failed data pos files e next notEof ran⟩
  | later pos hdr record found last _ ih =>
      obtain ⟨same, recordFound, ran⟩ := read_record_at ⟨data, pos⟩ hdr (record_header_at found)
        found.named found.nameFits
      cases found.record_eq.trans recordFound.record_eq.symm
      rw [loop_found data pos files last ran]
      exact ih _

theorem rejected_iff :
    (∃ e, e ≠ .panic ∧ readRecordsLoop ⟨data, pos⟩ files = .error e) ↔ MeetsBadHeader data pos := by
  constructor
  · rintro ⟨e, notPanic, rejected⟩
    exact rejected_meets data pos files e notPanic rejected
  · exact meets_rejected data pos files

end Rejection

section Sized

structure Declared (f : Record) : Prop where
  name : f.info.name.length + 1 < 2 ^ 32
  size : f.readCloser = none ∨ f.info.fileSize.toNat % 2 ^ 32 = f.content.length

theorem header_at_cut (data : Bytes) (pos cut : Nat) (hdr : Newc.Header) (place : Newc.HeaderAt data pos hdr)
    (fits : pos + 110 ≤ (data.take cut).length) : Newc.HeaderAt (data.take cut) pos hdr := by
  have inside : pos + 110 ≤ cut := by
    rw [List.length_take] at fits
    omega
  refine ⟨fits, ?_, ?_⟩
  · rw [List.drop_take, List.take_take, Nat.min_eq_left (by omega), place.magic]
  · rw [List.drop_take, List.take_take, Nat.min_eq_left (by omega), place.decoded]

theorem declared_end (before after : Bytes) (f : Record) (aligned : before.length % 4 = 0) (declared : Declared f) :
    recordEnd before.length (Newc.recordHeader f) = (before ++ Newc.recordBytes f).length := by
  have ran := read_record_bytes before after f aligned declared.name
    ((header_size_word f).mpr declared.size)
  obtain ⟨hdr, place, moved⟩ := read_record_inv _ _ _ ran
  cases header_at_unique (record_header_at place) (record_header_in before after f)
  rw [List.length_append]
  exact congrArg Newc.Reader.pos moved.symm

theorem declared_name_positive (f : Record) (declared : Declared f) : 0 < (Newc.recordHeader f).nameLength.toNat := by
  rw [(name_length_word f declared.name).1]
  exact Nat.succ_pos _

theorem sized_cut_accepted (records files : List Record) (before : Bytes) (cut : Nat) (aligned : before.length % 4 = 0)
    (declared : ∀ f ∈ records, Declared f) :
    ∃ found, readRecordsLoop ⟨(before ++ records.flatMap Newc.recordBytes).take cut, before.length⟩ files =
      .ok found := by
  induction records generalizing before files with
  | nil =>
      have short : Newc.EndsAt ((before ++ ([] : List Record).flatMap Newc.recordBytes).take cut) before.length := by
        left
        simp only [List.flatMap_nil, List.append_nil, List.length_take]
        omega
      obtain ⟨next, ran⟩ := read_record_ends ⟨_, _⟩ short
      exact ⟨files, loop_ended _ _ files next ran⟩
  | cons f rest ih =>
      generalize dataEq : (before ++ (f :: rest).flatMap Newc.recordBytes).take cut = data
      have here := declared f List.mem_cons_self
      have header : before.length + 110 ≤ data.length → Newc.HeaderAt data before.length (Newc.recordHeader f) := by
        intro fits
        rw [← dataEq, List.flatMap_cons] at fits ⊢
        exact header_at_cut _ _ _ _ (record_header_in before _ f) fits
      rcases reader_places ⟨data, before.length⟩ with ends | bad | zero | ⟨hdr, place, named, fits⟩
      · obtain ⟨next, ran⟩ := read_record_ends _ ends
        exact ⟨files, loop_ended _ _ files next ran⟩
      · exact absurd (header bad.1) (bad.2 _)
      · obtain ⟨hdr, place, none, -⟩ := zero
        cases header_at_unique place (header place.fits)
        have positive := declared_name_positive f here
        rw [none] at positive
        cases positive
      · cases header_at_unique place (header place.fits)
        obtain ⟨record, found, ran⟩ := read_record_at _ _ place named fits
        by_cases last : record.info.name = trailer
        · exact ⟨files, loop_trailer _ _ files _ record last ran⟩
        · rw [loop_found _ _ files last ran,
            declared_end before (rest.flatMap Newc.recordBytes) f aligned here]
          have block := record_bytes_aligned f
          have next := ih (files ++ [record]) (before ++ Newc.recordBytes f) (by rw [List.length_append]; omega)
            fun other member => declared other (List.mem_cons_of_mem _ member)
          rw [← dataEq, List.flatMap_cons, ← List.append_assoc]
          exact next

end Sized

section Written

theorem write_record_new_reads {record : Record} {s next : Writer Bytes} (new : nameOf record ∉ s.alreadyWritten)
    (done : (writeRecord bytesBuffer record).run s = (.ok (), next)) : record.Reads := by
  rw [write_record_unseen bytesBuffer record s new, formatWrite] at done
  rcases inner : (Newc.writeRecord bytesBuffer (stored record)).run s.rw with ⟨result, after⟩
  cases result with
  | ok u => exact write_record_reads bytesBuffer (stored record) s.rw after inner
  | error e =>
      simp only [inner] at done
      cases done

theorem write_record_aligned (record : Record) (s next : Writer Bytes) (aligned : s.rw.pos % 4 = 0)
    (done : (writeRecord bytesBuffer record).run s = (.ok (), next)) : next.rw.pos % 4 = 0 := by
  by_cases old : nameOf record ∈ s.alreadyWritten
  · rw [write_record_seen bytesBuffer record s old] at done
    cases done
    exact aligned
  · rw [write_record_new record s (write_record_new_reads old done) aligned old] at done
    cases done
    have block := record_bytes_aligned (stored record)
    simp only [extend, grow]
    omega

theorem write_records_reads (records : List Record) (s last : Writer Bytes) (aligned : s.rw.pos % 4 = 0)
    (done : (writeRecords bytesBuffer records).run s = (.ok (), last)) :
    ∀ record ∈ fresh nameOf s.alreadyWritten records, record.Reads := by
  induction records generalizing s with
  | nil => simp [fresh]
  | cons first rest ih =>
      rcases here : (writeRecord bytesBuffer first).run s with ⟨result, next⟩
      cases result with
      | error e =>
          simp only [writeRecords, here] at done
          cases done
      | ok u =>
          simp only [writeRecords, here] at done
          have later := ih next (write_record_aligned first s next aligned here) done
          rw [fresh]
          by_cases old : nameOf first ∈ s.alreadyWritten
          · rw [write_record_seen bytesBuffer first s old] at here
            cases here
            rw [if_pos old]
            exact later
          · have reads := write_record_new_reads old here
            rw [write_record_new first s reads aligned old] at here
            cases here
            rw [if_neg old, List.forall_mem_cons]
            exact ⟨reads, later⟩

theorem write_records_then {σ : Type} (io : IoWriter σ) (records : List Record) (last : Record) (s middle final : Writer σ)
    (wrote : (writeRecords io records).run s = (.ok (), middle))
    (more : (writeRecord io last).run middle = (.ok (), final)) :
    (writeRecords io (records ++ [last])).run s = (.ok (), final) := by
  induction records generalizing s with
  | nil =>
      cases wrote
      simp only [List.nil_append, writeRecords, more, run_pure]
  | cons first rest ih =>
      rcases here : (writeRecord io first).run s with ⟨result, next⟩
      cases result with
      | error e =>
          simp only [writeRecords, here] at wrote
          cases wrote
      | ok u =>
          simp only [writeRecords, here] at wrote
          simp only [List.cons_append, writeRecords, here]
          exact ih next wrote

theorem written_archive {records : List Record} {written finished : Writer Bytes}
    (wrote : (writeRecords bytesBuffer records).run (newWriter []) = (.ok (), written))
    (closed : (writeTrailer bytesBuffer).run written = (.ok (), finished)) :
    finished.rw.w = archiveBytes (fresh nameOf [] (records ++ [trailerRecord])) := by
  have all := write_records_then bytesBuffer records trailerRecord _ _ _ wrote closed
  obtain ⟨seen, -, done⟩ := write_records_buffer _ (newWriter []) (write_records_reads _ _ _ rfl all) rfl
  cases all.symm.trans done
  rfl

theorem declared_stored (record : Record) (declared : Declared record) : Declared (stored record) := by
  have shorter := name_of_length record
  have short := declared.name
  exact ⟨by rw [show (stored record).info.name = nameOf record from rfl]; omega, declared.size⟩

theorem truncated_rejected_iff (records : List Record) (written finished : Writer Bytes) (cut : Nat)
    (wrote : (writeRecords bytesBuffer records).run (newWriter []) = (.ok (), written))
    (closed : (writeTrailer bytesBuffer).run written = (.ok (), finished)) :
    ((∃ e, e ≠ .panic ∧ readRecords (finished.rw.w.take cut) = .error e) ↔
        MeetsBadHeader (finished.rw.w.take cut) 0) ∧
      ((∀ record ∈ records, Declared record) → ∃ found, readRecords (finished.rw.w.take cut) = .ok found) := by
  refine ⟨rejected_iff _ _ _, ?_⟩
  intro declared
  have kept : ∀ f ∈ (fresh nameOf [] (records ++ [trailerRecord])).map stored, Declared f := by
    intro f member
    obtain ⟨record, here, rfl⟩ := List.mem_map.mp member
    rcases List.mem_append.mp (fresh_mem _ _ _ _ here) with listed | last
    · exact declared_stored record (declared record listed)
    · cases List.mem_singleton.mp last
      exact ⟨by decide, Or.inr (by decide)⟩
  have bytes : finished.rw.w = [] ++ ((fresh nameOf [] (records ++ [trailerRecord])).map stored).flatMap Newc.recordBytes := by
    rw [written_archive wrote closed, archiveBytes, List.nil_append, List.flatMap_map]
  rw [bytes]
  exact sized_cut_accepted _ [] [] cut rfl kept

end Written

theorem archive_writes (records : List Record) (reads : ∀ record ∈ records, record.Reads) :
    ∃ written finished, (writeRecords bytesBuffer records).run (newWriter []) = (.ok (), written) ∧
      (writeTrailer bytesBuffer).run written = (.ok (), finished) := by
  obtain ⟨seen, -, done⟩ := write_records_buffer records (newWriter [])
    (fun record member => reads record (fresh_mem _ _ _ _ member)) rfl
  have block := archive_bytes_aligned (fresh nameOf [] records)
  have trailed := write_trailer_buffer (extend (newWriter []) (archiveBytes (fresh nameOf [] records)) seen)
    (by simpa only [extend, newWriter, grow, Nat.zero_add] using block)
  by_cases used : trailer ∈ (extend (newWriter []) (archiveBytes (fresh nameOf [] records)) seen).alreadyWritten
  · exact ⟨_, _, done, trailed.trans (if_pos used)⟩
  · exact ⟨_, _, done, trailed.trans (if_neg used)⟩

def cutFile : Record := staticRecord (str "hello") { name := str "a" }

theorem cut_file_declared : ∀ record ∈ [cutFile], Declared record := by
  intro record member
  cases List.mem_singleton.mp member
  exact ⟨by decide, Or.inr (by decide)⟩

theorem cut_file_reads : ∀ record ∈ [cutFile], record.Reads := by
  intro record member
  cases List.mem_singleton.mp member
  exact static_reads _ _

theorem cut_archive_never_rejected :
    ∃ written finished, (writeRecords bytesBuffer [cutFile]).run (newWriter []) = (.ok (), written) ∧
      (writeTrailer bytesBuffer).run written = (.ok (), finished) ∧
      ∃ found, readRecords (finished.rw.w.take 114) = .ok found := by
  obtain ⟨written, finished, wrote, closed⟩ := archive_writes [cutFile] cut_file_reads
  exact ⟨written, finished, wrote, closed,
    (truncated_rejected_iff [cutFile] written finished 114 wrote closed).2 cut_file_declared⟩

theorem cut_archive_accepted :
    ∃ written finished, (writeRecords bytesBuffer [cutFile]).run (newWriter []) = (.ok (), written) ∧
      (writeTrailer bytesBuffer).run written = (.ok (), finished) ∧ finished.rw.w.length = 244 ∧
      readRecords (finished.rw.w.take 114) =
        .ok [⟨some (newBytesReadCloser (str "he")), { name := str "a", fileSize := 5 }⟩] := by
  obtain ⟨written, finished, wrote, closed⟩ := archive_writes [cutFile] cut_file_reads
  refine ⟨written, finished, wrote, closed, ?_⟩
  rw [written_archive wrote closed]
  refine ⟨by decide +kernel, ?_⟩
  generalize dataEq : (archiveBytes (fresh nameOf [] ([cutFile] ++ [trailerRecord]))).take 114 = data
  have kept := read_record_keeps_archive ⟨data, 0⟩
  have stop : (Newc.readRecord.run ⟨data, 0⟩).2.pos = 120 := by
    rw [← dataEq]
    decide +kernel
  have record : (Newc.readRecord.run ⟨data, 0⟩).1 =
      .ok ⟨some (newBytesReadCloser (str "he")), { name := str "a", fileSize := 5 }⟩ := by
    rw [← dataEq]
    decide +kernel
  have ended : Newc.EndsAt data 120 := by
    left
    rw [← dataEq, List.length_take]
    omega
  rcases ran : Newc.readRecord.run ⟨data, 0⟩ with ⟨result, next, pos⟩
  rw [ran] at kept stop record
  cases kept
  cases stop
  cases record
  obtain ⟨last, ranOut⟩ := read_record_ends ⟨data, 120⟩ ended
  rw [readRecords, loop_found data 0 [] (by decide) ran, loop_ended data 120 _ last ranOut, List.nil_append]

end URoot.Cpio
