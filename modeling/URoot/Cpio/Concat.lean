import URoot.Cpio.RoundTrip

set_option autoImplicit false

namespace URoot.Cpio

open GoLib

inductive ConcatError where
  | read (err : Newc.ReadError)
  | write (err : WriteError)
deriving DecidableEq, Repr

section Model

variable {σ : Type} (io : IoWriter σ) (transform : Option (Record → Record))

def concatLoop (r : Newc.Reader) (w : Writer σ) : Except ConcatError Unit × Writer σ :=
  match _step : readRecord.run r with
  | (.error .eof, _) => (.ok (), w)
  | (.error e, _) => (.error (.read e), w)
  | (.ok f, next) =>
      match (writeRecord io (transform.getD id f)).run w with
      | (.error e, last) => (.error (.write e), last)
      | (.ok _, last) => concatLoop next last
termination_by r.r.length - r.pos
decreasing_by exact read_record_advances _step

def concat (data : Bytes) : Act ConcatError (Writer σ) Unit := ⟨concatLoop io transform ⟨data, 0⟩⟩

def concatEach : List Bytes → Act ConcatError (Writer σ) Unit
  | [] => pure ()
  | data :: rest => do
      concat io transform data
      concatEach rest

end Model

section Batch

variable {σ : Type} (io : IoWriter σ) (transform : Option (Record → Record))

theorem concat_loop_next (r next : Newc.Reader) (f : Record) (w : Writer σ) (step : readRecord.run r = (.ok f, next)) :
    concatLoop io transform r w = match (writeRecord io (transform.getD id f)).run w with
      | (.error e, last) => (.error (.write e), last)
      | (.ok _, last) => concatLoop io transform next last := by
  rw [concatLoop]
  split
  · rename_i same
    cases step.symm.trans same
  · rename_i same
    cases step.symm.trans same
  · rename_i same
    cases step.symm.trans same
    rfl

theorem concat_loop_eof (r next : Newc.Reader) (w : Writer σ) (step : readRecord.run r = (.error .eof, next)) :
    concatLoop io transform r w = (.ok (), w) := by
  rw [concatLoop]
  split
  · rfl
  · rename_i notEof same
    cases step.symm.trans same
    exact absurd rfl notEof
  · rename_i same
    cases step.symm.trans same

def Agrees {ε ε' τ : Type} (x : Except ε Unit × τ) (y : Except ε' Unit × τ) : Prop :=
  x.2 = y.2 ∧ (x.1 = .ok () ↔ y.1 = .ok ())

theorem concat_loop_agrees (r : Newc.Reader) (files found : List Record) (read : readRecordsLoop r files = .ok found) :
    ∃ more, found = files ++ more ∧
      ∀ w, Agrees (concatLoop io transform r w) ((writeRecords io (more.map (transform.getD id))).run w) := by
  rcases step : readRecord.run r with ⟨result, next⟩
  cases result with
  | error e =>
      by_cases eof : e = .eof
      · subst eof
        rw [read_records_loop_eof files step] at read
        cases read
        refine ⟨[], (List.append_nil files).symm, fun w => ?_⟩
        rw [concat_loop_eof io transform r next w step]
        exact ⟨rfl, fun _ => rfl, fun _ => rfl⟩
      · rw [read_records_loop_error files e step eof] at read
        cases read
  | ok f =>
      have shorter := read_record_advances step
      rw [read_records_loop_next r next f files step] at read
      obtain ⟨more, rfl, agrees⟩ := concat_loop_agrees next (files ++ [f]) found read
      refine ⟨f :: more, by rw [List.append_assoc, List.singleton_append], fun w => ?_⟩
      rw [concat_loop_next io transform r next f w step, List.map_cons]
      rcases written : (writeRecord io (transform.getD id f)).run w with ⟨outcome, last⟩
      cases outcome with
      | error e =>
          simp only [writeRecords, written]
          exact ⟨rfl, by constructor <;> exact fun impossible => by cases impossible⟩
      | ok _ =>
          simp only [writeRecords, written]
          exact agrees last
termination_by r.r.length - r.pos

theorem write_records_append (a b : List Record) (w : Writer σ) :
    (writeRecords io (a ++ b)).run w = match (writeRecords io a).run w with
      | (.ok _, next) => (writeRecords io b).run next
      | (.error e, next) => (.error e, next) := by
  induction a generalizing w with
  | nil => rfl
  | cons f rest ih =>
      rcases written : (writeRecord io f).run w with ⟨outcome, last⟩
      cases outcome with
      | error e => simp only [List.cons_append, writeRecords, written]
      | ok _ =>
          simp only [List.cons_append, writeRecords, written]
          exact ih last

theorem concat_each_agrees (archives : List (Bytes × List Record)) (w : Writer σ)
    (read : ∀ archive ∈ archives, readRecords archive.1 = .ok archive.2) :
    Agrees ((concatEach io transform (archives.map Prod.fst)).run w)
      ((writeRecords io ((archives.flatMap Prod.snd).map (transform.getD id))).run w) := by
  induction archives generalizing w with
  | nil => exact ⟨rfl, fun _ => rfl, fun _ => rfl⟩
  | cons archive rest ih =>
      obtain ⟨more, same, agrees⟩ := concat_loop_agrees io transform _ [] _ (read archive List.mem_cons_self)
      rw [List.nil_append] at same
      obtain ⟨state, success⟩ := agrees w
      rcases one : concatLoop io transform ⟨archive.1, 0⟩ w with ⟨outcome, last⟩
      rcases batch : (writeRecords io (more.map (transform.getD id))).run w with ⟨outcome', last'⟩
      rw [one, batch] at state success
      cases state
      have run : (concat io transform archive.1).run w = (outcome, last) := one
      rw [List.flatMap_cons, List.map_append, same, write_records_append, batch, List.map_cons, concatEach]
      cases outcome with
      | ok _ =>
          have done : outcome' = .ok () := success.mp rfl
          rw [done, Act.run_bind_ok run]
          exact ih last fun other member => read other (List.mem_cons_of_mem _ member)
      | error e =>
          cases outcome' with
          | ok _ => cases success.mpr rfl
          | error e' =>
              rw [Act.run_bind_error run]
              exact ⟨rfl, success⟩

end Batch

section Merge

theorem read_records_all (P : Record → Prop) (each : ∀ s next f, readRecord.run s = (.ok f, next) → P f) (data : Bytes)
    (found : List Record) (read : readRecords data = .ok found) : ∀ f ∈ found, P f := by
  have loop : ∀ n s files, s.r.length - s.pos < n → (∀ f ∈ files, P f) → readRecordsLoop s files = .ok found →
      ∀ f ∈ found, P f := by
    intro n
    induction n with
    | zero => exact fun _ _ impossible => absurd impossible (Nat.not_lt_zero _)
    | succ n ih =>
        intro s files bound all done
        rcases step : readRecord.run s with ⟨result, next⟩
        cases result with
        | error e =>
            by_cases eof : e = .eof
            · subst eof
              rw [read_records_loop_eof files step] at done
              cases done
              exact all
            · rw [read_records_loop_error files e step eof] at done
              cases done
        | ok f =>
            have shorter := read_record_advances step
            rw [read_records_loop_next s next f files step] at done
            refine ih next _ (by omega) ?_ done
            intro other member
            rcases List.mem_append.mp member with before | here
            · exact all other before
            · rw [List.mem_singleton.mp here]
              exact each s next f step
  exact loop _ ⟨data, 0⟩ [] (Nat.lt_succ_self _) (by simp) read

def Sectioned (f : Record) : Prop := (∃ content, f.readCloser = some (newBytesReadCloser content)) ∧ f.info.fileSize.toNat < 2 ^ 32

theorem read_record_sectioned (s next : Newc.Reader) (f : Record) (done : readRecord.run s = (.ok f, next)) : Sectioned f := by
  obtain ⟨first, middle, inner, rest⟩ := Act.run_bind_inv done
  obtain ⟨_, _, checked, final⟩ := Act.run_bind_inv rest
  cases final
  obtain ⟨hdr, place, -⟩ := Newc.read_record_inv _ _ _ inner
  rw [place.record_eq]
  exact ⟨⟨_, rfl⟩, by simpa [Newc.Header.info] using hdr.fileSize.toNat_lt⟩

structure Transforms (transform : Option (Record → Record)) (f : Record) : Prop where
  content : (transform.getD id f).readCloser = f.readCloser
  size : (transform.getD id f).info.fileSize = f.info.fileSize
  small : ∀ number ∈ (transform.getD id f).info.numbers, number.toNat < 2 ^ 32
  nameShort : (transform.getD id f).info.name.length + 1 < 2 ^ 32
  notTrailer : storedName (transform.getD id f).info.name ≠ some trailer

theorem transformed_archivable (transform : Option (Record → Record)) (f : Record) (sectioned : Sectioned f)
    (present : f.content.length = f.info.fileSize.toNat) (transforms : Transforms transform f) :
    Archivable (transform.getD id f) := by
  obtain ⟨⟨content, source⟩, word⟩ := sectioned
  have bytes : f.content = content := by rw [Record.content, source]; rfl
  have same : (transform.getD id f).content = content := by
    rw [Record.content, transforms.content, source]
    rfl
  rw [bytes] at present
  refine ⟨Or.inr ⟨content, (transform.getD id f).info, ?_⟩, transforms.small, by rw [same]; omega, transforms.nameShort,
    transforms.notTrailer⟩
  have size : UInt64.ofNat content.length = (transform.getD id f).info.fileSize := by
    rw [present, transforms.size, UInt64.ofNat_toNat]
  rw [staticRecord, size, ← source, ← transforms.content]

theorem concat_first_wins (transform : Option (Record → Record)) (archives : List (Bytes × List Record))
    (read : ∀ archive ∈ archives, readRecords archive.1 = .ok archive.2)
    (present : ∀ archive ∈ archives, ∀ f ∈ archive.2, f.content.length = f.info.fileSize.toNat)
    (transforms : ∀ archive ∈ archives, ∀ f ∈ archive.2, Transforms transform f) :
    (∀ (σ : Type) (io : IoWriter σ) (w : Writer σ),
      Agrees ((concatEach io transform (archives.map Prod.fst)).run w)
        ((writeRecords io ((archives.flatMap Prod.snd).map (transform.getD id))).run w)) ∧
      ∃ written finished, (concatEach bytesBuffer transform (archives.map Prod.fst)).run (newWriter []) = (.ok (), written) ∧
        (writeTrailer bytesBuffer).run written = (.ok (), finished) ∧
        readRecords finished.rw.w =
          .ok ((firsts nameOf ((archives.flatMap Prod.snd).map (transform.getD id))).map archived) := by
  have agrees := fun (σ : Type) (io : IoWriter σ) (w : Writer σ) => concat_each_agrees io transform archives w read
  have archivable : ∀ f ∈ (archives.flatMap Prod.snd).map (transform.getD id), Archivable f := by
    intro g member
    obtain ⟨f, inside, rfl⟩ := List.mem_map.mp member
    obtain ⟨archive, listed, there⟩ := List.mem_flatMap.mp inside
    exact transformed_archivable transform f
      (read_records_all Sectioned read_record_sectioned archive.1 archive.2 (read archive listed) f there)
      (present archive listed f there) (transforms archive listed f there)
  obtain ⟨seen, unused, wrote⟩ := fresh_written archivable
  obtain ⟨finished, trailed, back⟩ := trailed_reads _ seen (firsts_archivable _ archivable) unused
  obtain ⟨state, success⟩ := agrees Bytes bytesBuffer (newWriter [])
  rw [wrote] at state success
  exact ⟨agrees, _, finished, Prod.ext (success.mpr rfl) state, trailed, back⟩

def twoFiles : List Record := [staticRecord (str "hi") { name := str "a" }, staticRecord [] { name := str "/b" }]

def twoFilesArchive : Bytes := archiveBytes twoFiles ++ Newc.recordBytes (stored trailerRecord)

def intoBoot (f : Record) : Record := f.rename (if f.info.name = str "a" then str "/boot" else f.info.name)

theorem two_files_read : readRecords twoFilesArchive = .ok (twoFiles.map archived) := by
  have loop := read_archive_loop twoFiles [] [] rfl (by
    simp only [twoFiles, List.forall_mem_cons, List.not_mem_nil, false_imp_iff, implies_true, and_true]
    exact ⟨⟨Or.inr ⟨_, _, rfl⟩, by simp [Info.numbers, staticRecord, str], by decide, by decide, by decide⟩,
      ⟨Or.inr ⟨_, _, rfl⟩, by simp [Info.numbers, staticRecord], by decide, by decide, by decide⟩⟩)
  exact loop

theorem moved_files_merge :
    ∃ written finished,
      (concatEach bytesBuffer (some intoBoot) [twoFilesArchive, twoFilesArchive]).run (newWriter []) = (.ok (), written) ∧
      (writeTrailer bytesBuffer).run written = (.ok (), finished) ∧
      readRecords finished.rw.w =
        .ok [staticRecord (str "hi") { name := str "boot" }, staticRecord [] { name := str "b" }] := by
  have listed : ∀ archive ∈ [(twoFilesArchive, twoFiles.map archived), (twoFilesArchive, twoFiles.map archived)],
      archive = (twoFilesArchive, twoFiles.map archived) := by simp
  refine (concat_first_wins (some intoBoot)
    [(twoFilesArchive, twoFiles.map archived), (twoFilesArchive, twoFiles.map archived)] ?_ ?_ ?_).2
  · intro archive member
    rw [listed archive member]
    exact two_files_read
  · intro archive member
    rw [listed archive member]
    decide
  · intro archive member
    rw [listed archive member]
    simp only [twoFiles, List.map_cons, List.map_nil, List.forall_mem_cons, List.not_mem_nil, false_imp_iff, implies_true, and_true]
    exact ⟨⟨rfl, rfl, by simp [Info.numbers, archived, staticRecord, intoBoot, Record.rename, Record.content, newBytesReadCloser, str],
        by decide, by decide⟩,
      ⟨rfl, rfl, by simp [Info.numbers, archived, staticRecord, intoBoot, Record.rename, Record.content, newBytesReadCloser, str],
        by decide, by decide⟩⟩

end Merge

end URoot.Cpio
