import URoot.Cpio.ReadInversion
import URoot.Lib.Filepath
import URoot.Lib.Firsts

set_option autoImplicit false

namespace URoot.Cpio

open GoLib Act Newc

inductive WriteError where
  | notRelative (name : Bytes)
  | record (err : IoError)
  | records (name : Bytes) (err : WriteError)
deriving DecidableEq, Repr

-- alreadyWritten is a Go map used as a set, shared by every copy of the Writer.
structure Writer (σ : Type) where
  rw : Newc.Writer σ
  alreadyWritten : List Bytes

section Model

variable {σ : Type}

def storedName (name : Bytes) : Option Bytes :=
  if Filepath.isAbs name then Filepath.relRoot name else some name

def Record.rename (record : Record) (name : Bytes) : Record :=
  { record with info := { record.info with name := name } }

def formatWrite (io : IoWriter σ) (record : Record) : Act WriteError (Writer σ) Unit :=
  ⟨fun s =>
    match (Newc.writeRecord io record).run s.rw with
    | (.ok _, next) => (.ok (), { s with rw := next })
    | (.error e, next) => (.error (.record e), { s with rw := next })⟩

def writeRecord (io : IoWriter σ) (record : Record) : Act WriteError (Writer σ) Unit := do
  let name ← Act.ofOption (storedName record.info.name) (.notRelative record.info.name)
  let s ← Act.get
  if name ∈ s.alreadyWritten then pure ()
  else
    Act.set { s with alreadyWritten := name :: s.alreadyWritten }
    formatWrite io (record.rename name)

def writeRecords (io : IoWriter σ) : List Record → Act WriteError (Writer σ) Unit
  | [] => pure ()
  | f :: rest => ⟨fun s =>
      match (writeRecord io f).run s with
      | (.ok _, next) => (writeRecords io rest).run next
      | (.error e, next) => (.error (.records f.info.name e), next)⟩

def writeTrailer (io : IoWriter σ) : Act WriteError (Writer σ) Unit := writeRecord io trailerRecord

def newWriter (sink : σ) : Writer σ := ⟨⟨sink, 0⟩, []⟩

def readRecord : Act Newc.ReadError Newc.Reader Record := do
  let record ← Newc.readRecord
  -- The end of a CPIO archive is marked by a record whose name is "TRAILER!!!".
  Act.require (record.info.name ≠ trailer) .eof
  pure record

theorem read_record_advances {s next : Newc.Reader} {record : Record} (done : readRecord.run s = (.ok record, next)) :
    next.r.length - next.pos < s.r.length - s.pos := by
  obtain ⟨first, middle, inner, rest⟩ := run_bind_inv done
  obtain ⟨_, _, checked, final⟩ := run_bind_inv rest
  obtain ⟨_, rfl⟩ := run_require_inv _ _ _ _ checked
  cases final
  obtain ⟨same, fits, moved⟩ := read_record_progress _ _ _ inner
  rw [same]
  omega

-- Every record read takes at least its 110 header bytes, so the loop ends.
def readRecordsLoop (s : Newc.Reader) (files : List Record) : Except Newc.ReadError (List Record) :=
  match _step : readRecord.run s with
  | (.ok f, next) => readRecordsLoop next (files ++ [f])
  | (.error .eof, _) => .ok files
  | (.error e, _) => .error e
termination_by s.r.length - s.pos
decreasing_by exact read_record_advances _step

theorem read_records_loop_next (s next : Newc.Reader) (f : Record) (files : List Record)
    (step : readRecord.run s = (.ok f, next)) : readRecordsLoop s files = readRecordsLoop next (files ++ [f]) := by
  rw [readRecordsLoop]
  split
  · rename_i same
    cases step.symm.trans same
    rfl
  · rename_i same
    cases step.symm.trans same
  · rename_i same
    cases step.symm.trans same

theorem read_records_loop_eof {s next : Newc.Reader} (files : List Record)
    (step : readRecord.run s = (.error .eof, next)) : readRecordsLoop s files = .ok files := by
  rw [readRecordsLoop]
  split
  · rename_i same
    cases step.symm.trans same
  · rfl
  · rename_i notEof same
    cases step.symm.trans same
    exact absurd rfl notEof

theorem read_records_loop_error {s next : Newc.Reader} (files : List Record) (e : Newc.ReadError)
    (step : readRecord.run s = (.error e, next)) (notEof : e ≠ .eof) : readRecordsLoop s files = .error e := by
  rw [readRecordsLoop]
  split
  · rename_i same
    cases step.symm.trans same
  · rename_i same
    cases step.symm.trans same
    exact absurd rfl notEof
  · rename_i same
    cases step.symm.trans same
    rfl

def readRecords (data : Bytes) : Except Newc.ReadError (List Record) := readRecordsLoop ⟨data, 0⟩ []

end Model

section Buffer

theorem stored_name_exists (name : Bytes) : ∃ stored, storedName name = some stored ∧ stored.length ≤ name.length := by
  by_cases absolute : Filepath.isAbs name = true
  · obtain ⟨rel, found, bound⟩ := Filepath.rel_root_absolute name absolute
    exact ⟨rel, by rw [storedName, if_pos absolute, found], bound⟩
  · exact ⟨name, by rw [storedName, if_neg absolute], Nat.le_refl _⟩

def nameOf (record : Record) : Bytes := (storedName record.info.name).getD []

theorem stored_name_of (record : Record) : storedName record.info.name = some (nameOf record) := by
  obtain ⟨stored, found, _⟩ := stored_name_exists record.info.name
  rw [nameOf, found]
  rfl

def Writer.seen {σ : Type} (w : Writer σ) (record : Record) : Bool := nameOf record ∈ w.alreadyWritten

theorem name_of_length (record : Record) : (nameOf record).length ≤ record.info.name.length := by
  obtain ⟨stored, found, bound⟩ := stored_name_exists record.info.name
  simpa [nameOf, found] using bound

def stored (record : Record) : Record := record.rename (nameOf record)

theorem stored_reads (record : Record) (reads : record.Reads) : (stored record).Reads := reads

def archiveBytes (records : List Record) : Bytes := records.flatMap (fun record => Newc.recordBytes (stored record))

theorem archive_bytes_aligned (records : List Record) : (archiveBytes records).length % 4 = 0 := by
  induction records with
  | nil => rfl
  | cons record rest ih =>
      have head := record_bytes_aligned (stored record)
      simp only [archiveBytes, List.flatMap_cons, List.length_append] at ih ⊢
      omega

def extend (s : Writer Bytes) (bytes : Bytes) (seen : List Bytes) : Writer Bytes := ⟨grow s.rw bytes, seen⟩

theorem write_record_seen {σ : Type} (io : IoWriter σ) (record : Record) (s : Writer σ)
    (old : nameOf record ∈ s.alreadyWritten) : (writeRecord io record).run s = (.ok (), s) := by
  rw [writeRecord, stored_name_of, run_of_option_bind,
    run_get_bind, if_pos old, run_pure]

theorem write_record_unseen {σ : Type} (io : IoWriter σ) (record : Record) (s : Writer σ)
    (new : nameOf record ∉ s.alreadyWritten) :
    (writeRecord io record).run s =
      (formatWrite io (stored record)).run { s with alreadyWritten := nameOf record :: s.alreadyWritten } := by
  rw [writeRecord, stored_name_of, run_of_option_bind,
    run_get_bind, if_neg new, run_set_bind, ← stored]

theorem write_record_new (record : Record) (s : Writer Bytes) (reads : record.Reads) (aligned : s.rw.pos % 4 = 0)
    (new : nameOf record ∉ s.alreadyWritten) :
    (writeRecord bytesBuffer record).run s =
      (.ok (), extend s (Newc.recordBytes (stored record)) (nameOf record :: s.alreadyWritten)) := by
  rw [write_record_unseen bytesBuffer record s new, formatWrite]
  simp only [write_record_buffer (stored record) s.rw (stored_reads record reads) aligned]
  rfl

theorem write_record_buffer (record : Record) (s : Writer Bytes) (reads : record.Reads) (aligned : s.rw.pos % 4 = 0) :
    (writeRecord bytesBuffer record).run s =
      if nameOf record ∈ s.alreadyWritten then (.ok (), s)
      else (.ok (), extend s (Newc.recordBytes (stored record)) (nameOf record :: s.alreadyWritten)) := by
  by_cases old : nameOf record ∈ s.alreadyWritten
  · rw [if_pos old, write_record_seen bytesBuffer record s old]
  · rw [if_neg old, write_record_new record s reads aligned old]

theorem trailer_name : nameOf trailerRecord = trailer := by decide

theorem write_trailer_buffer (s : Writer Bytes) (aligned : s.rw.pos % 4 = 0) :
    (writeTrailer bytesBuffer).run s =
      if trailer ∈ s.alreadyWritten then (.ok (), s)
      else (.ok (), extend s (Newc.recordBytes (stored trailerRecord)) (trailer :: s.alreadyWritten)) := by
  rw [writeTrailer, write_record_buffer trailerRecord s (static_reads _ _) aligned, trailer_name]

theorem write_records_buffer (records : List Record) (s : Writer Bytes)
    (reads : ∀ record ∈ fresh nameOf s.alreadyWritten records, record.Reads) (aligned : s.rw.pos % 4 = 0) :
    ∃ seen, (∀ name, name ∈ seen ↔ name ∈ records.map nameOf ∨ name ∈ s.alreadyWritten) ∧
      (writeRecords bytesBuffer records).run s =
        (.ok (), extend s (archiveBytes (fresh nameOf s.alreadyWritten records)) seen) := by
  induction records generalizing s with
  | nil => exact ⟨s.alreadyWritten, by simp, by simp [writeRecords, fresh, archiveBytes, extend, grow_empty]⟩
  | cons record rest ih =>
      by_cases old : nameOf record ∈ s.alreadyWritten
      · have here := write_record_seen bytesBuffer record s old
        rw [fresh, if_pos old] at reads
        obtain ⟨seen, members, done⟩ := ih s reads aligned
        refine ⟨seen, ?_, ?_⟩
        · intro name
          rw [members name, List.map_cons, List.mem_cons]
          constructor
          · rintro (later | before)
            · exact Or.inl (Or.inr later)
            · exact Or.inr before
          · rintro ((rfl | later) | before)
            · exact Or.inr old
            · exact Or.inl later
            · exact Or.inr before
        · simp only [writeRecords, here, done, fresh, if_pos old]
      · rw [fresh, if_neg old] at reads
        have here := write_record_new record s (reads record List.mem_cons_self) aligned old
        have nextAligned : (extend s (Newc.recordBytes (stored record)) (nameOf record :: s.alreadyWritten)).rw.pos % 4 = 0 := by
          have block := record_bytes_aligned (stored record)
          simp only [extend, grow]
          omega
        obtain ⟨seen, members, done⟩ := ih _ (fun r member => reads r (List.mem_cons_of_mem _ member)) nextAligned
        refine ⟨seen, ?_, ?_⟩
        · intro name
          rw [members name, List.map_cons]
          simp only [extend, List.mem_cons]
          tauto
        · simp only [writeRecords, here, done, fresh, if_neg old]
          simp only [extend, grow_append, archiveBytes, List.flatMap_cons]

end Buffer

end URoot.Cpio
