import URoot.Cpio.RoundTrip
import URoot.Ramfs.Initramfs

set_option autoImplicit false

namespace URoot.Ramfs

open GoLib Cpio

section Model

def drained (r : Record) : Record := { r with readCloser := r.readCloser.map (fun source => { source with content := [] }) }

def leftOf {σ : Type} (w : Cpio.Writer σ) (r : Record) : Record := if w.seen r then r else drained r

-- WriteRecords on records that stay in a package variable: what is written is read from
-- their own readers. The last component is what is left of them.
def writeShared {σ : Type} (io : IoWriter σ) : List Record → Cpio.Writer σ → Except WriteError Unit × Cpio.Writer σ × List Record
  | [], w => (.ok (), w, [])
  | f :: rest, w =>
      match (Cpio.writeRecord io f).run w with
      | (.error e, next) => (.error (.records f.info.name e), next, leftOf w f :: rest)
      | (.ok _, next) =>
          ((writeShared io rest next).1, (writeShared io rest next).2.1, leftOf w f :: (writeShared io rest next).2.2)

-- One process: DevCPIO and the inode numbers are shared by all archives it makes. For each
-- call of NewInitramfs on a fresh writer, the writer as the call left it.
structure Process where
  dev : List Record
  inodes : Inodes
  made : List (Initramfs Bytes)
  outputs : List (Cpio.Writer Bytes)

def start : Process := ⟨devCpio true, Inodes.empty, [], []⟩

def Process.make (p : Process) : Process :=
  match writeShared bytesBuffer (p.dev.map makeReproducible) (newWriter []) with
  | (.ok _, w, dev) => ⟨dev, p.inodes, p.made ++ [⟨p.inodes, w, []⟩], p.outputs ++ [w]⟩
  | (.error _, w, dev) => ⟨dev, p.inodes, p.made, p.outputs ++ [w]⟩

def Process.use (p : Process) (k : Nat) (call : Call) : Process :=
  match p.made[k]? with
  | none => p
  | some i =>
      let next := ((call.perform bytesBuffer).run { i with inodes := p.inodes }).2
      { p with inodes := next.inodes, made := p.made.set k next }

inductive Step where
  | make
  | use (k : Nat) (call : Call)

def Process.step (p : Process) : Step → Process
  | .make => p.make
  | .use k call => p.use k call

def run (steps : List Step) : Process := steps.foldl Process.step start

def Step.isMake : Step → Bool
  | .make => true
  | .use _ _ => false

def makes (steps : List Step) : Nat := steps.countP Step.isMake

end Model

section Outputs

variable {σ : Type} (io : IoWriter σ)

theorem write_shared_same (records : List Record) (w : Cpio.Writer σ) :
    ((writeShared io records w).1, (writeShared io records w).2.1) = (writeRecords io records).run w := by
  induction records generalizing w with
  | nil => rfl
  | cons f rest ih =>
      rcases written : (Cpio.writeRecord io f).run w with ⟨result, next⟩
      cases result with
      | error e => simp only [writeShared, writeRecords, written]
      | ok _ =>
          simp only [writeShared, writeRecords, written]
          exact ih next

theorem shared_drained (records : List Record) (w : Cpio.Writer Bytes) (reads : ∀ r ∈ records, r.Reads)
    (aligned : w.rw.pos % 4 = 0) (new : fresh nameOf w.alreadyWritten records = records) :
    (writeShared bytesBuffer records w).2.2 = records.map drained := by
  induction records generalizing w with
  | nil => rfl
  | cons f rest ih =>
      rw [fresh] at new
      split at new
      · have fewer := fresh_length nameOf w.alreadyWritten rest
        rw [new, List.length_cons] at fewer
        omega
      · rename_i unseen
        have written := write_record_new f w (reads f List.mem_cons_self) aligned unseen
        have block := Newc.record_bytes_aligned (stored f)
        have later := ih (extend w (Newc.recordBytes (stored f)) (nameOf f :: w.alreadyWritten))
          (fun r member => reads r (List.mem_cons_of_mem _ member))
          (by simp only [extend, Newc.grow]; omega) (List.cons.inj new).2
        have left : leftOf w f = drained f := by
          rw [leftOf, Writer.seen, decide_eq_false unseen]
          rfl
        simp only [writeShared, written, left, later, List.map_cons]

def output (unread : Bool) : Cpio.Writer Bytes := ((writeRecords bytesBuffer (devCpio unread)).run (newWriter [])).2

theorem dev_reproducible (unread : Bool) : (devCpio unread).map makeReproducible = devCpio unread := rfl

theorem dev_reads (unread : Bool) : ∀ r ∈ devCpio unread, r.Reads := by
  have reads := dev_cpio_reads unread
  rwa [dev_reproducible] at reads

theorem dev_names_new (unread : Bool) : fresh nameOf [] (devCpio unread) = devCpio unread := by
  revert unread
  decide +kernel

theorem dev_drained (unread : Bool) : (writeShared bytesBuffer (devCpio unread) (newWriter [])).2.2 = devCpio false := by
  rw [shared_drained (devCpio unread) (newWriter []) (dev_reads unread) rfl (dev_names_new unread)]
  cases unread with
  | false => rfl
  | true => rfl

theorem dev_written (unread : Bool) : ∃ seen, (writeRecords bytesBuffer (devCpio unread)).run (newWriter []) =
    (.ok (), extend (newWriter []) (archiveBytes (devCpio unread)) seen) := by
  have names : fresh nameOf (newWriter ([] : Bytes)).alreadyWritten (devCpio unread) = devCpio unread := dev_names_new unread
  obtain ⟨seen, -, written⟩ := write_records_buffer (devCpio unread) (newWriter []) (by rw [names]; exact dev_reads unread) rfl
  rw [names] at written
  exact ⟨seen, written⟩

theorem dev_archivable : ∀ r ∈ devCpio true, Archivable r := by
  have facts : ∀ r ∈ devCpio true, (r.readCloser = none ∨ r = staticRecord r.content r.info) ∧
      r.info.numbers.all (fun number => number.toNat < 2 ^ 32) = true ∧ r.content.length < 2 ^ 32 ∧
      r.info.name.length + 1 < 2 ^ 32 ∧ storedName r.info.name ≠ some trailer := by
    decide +kernel
  intro r member
  obtain ⟨origin, small, contentShort, nameShort, notTrailer⟩ := facts r member
  have fits : ∀ number ∈ r.info.numbers, number.toNat < 2 ^ 32 :=
    fun number listed => of_decide_eq_true (List.all_eq_true.mp small number listed)
  exact ⟨origin.imp id fun same => ⟨_, _, same⟩, fits, contentShort, nameShort, notTrailer⟩

theorem archive_bytes_length (records : List Record) : (archiveBytes records).length =
    (records.map (fun r => Newc.round4 (111 + (nameOf r).length) + Newc.round4 r.content.length)).sum := by
  induction records with
  | nil => rfl
  | cons r rest ih =>
      have name : (stored r).info.name = nameOf r := rfl
      have content : (stored r).content = r.content := rfl
      rw [archiveBytes, List.flatMap_cons, List.length_append, ← archiveBytes, ih, Newc.record_bytes_length,
        Newc.record_head_length, name, content, List.map_cons, List.sum_cons]

theorem output_size (unread : Bool) : (output unread).rw.w.length = if unread then 1940 else 1792 := by
  obtain ⟨seen, written⟩ := dev_written unread
  have bytes : (output unread).rw.w = archiveBytes (devCpio unread) := by
    rw [output, written, extend, newWriter, Newc.grow, List.nil_append]
  rw [bytes, archive_bytes_length]
  cases unread with
  | false => decide +kernel
  | true => decide +kernel

theorem new_initramfs_output (unread : Bool) (inodes : Inodes) :
    newInitramfs bytesBuffer unread inodes (newWriter []) = .ok ⟨inodes, output unread, []⟩ := by
  obtain ⟨seen, written⟩ := dev_written unread
  rw [newInitramfs, dev_reproducible, output]
  generalize (writeRecords bytesBuffer (devCpio unread)).run (newWriter []) = outcome at written ⊢
  rw [written]

theorem make_output (p : Process) (unread : Bool) (dev : p.dev = devCpio unread) :
    p.make = ⟨devCpio false, p.inodes, p.made ++ [⟨p.inodes, output unread, []⟩], p.outputs ++ [output unread]⟩ := by
  have left := dev_drained unread
  have same := write_shared_same bytesBuffer (devCpio unread) (newWriter [])
  have alone := new_initramfs_output unread p.inodes
  rw [newInitramfs, dev_reproducible] at alone
  rw [Process.make, dev, dev_reproducible]
  rcases shared : writeShared bytesBuffer (devCpio unread) (newWriter []) with ⟨result, w, rest⟩
  rw [shared] at left same
  rw [← same] at alone
  generalize output unread = out at alone ⊢
  cases left
  cases result with
  | ok _ =>
      cases alone
      rfl
  | error e => cases alone

theorem use_outputs (p : Process) (k : Nat) (call : Call) :
    (p.use k call).dev = p.dev ∧ (p.use k call).outputs = p.outputs := by
  rw [Process.use]
  split
  · exact ⟨rfl, rfl⟩
  · exact ⟨rfl, rfl⟩

theorem run_outputs (steps : List Step) :
    (run steps).dev = devCpio (makes steps == 0) ∧
      (run steps).outputs = (List.range (makes steps)).map (fun k => output (k == 0)) := by
  induction steps using List.reverseRecOn with
  | nil => exact ⟨rfl, rfl⟩
  | append_singleton steps last ih =>
      obtain ⟨dev, outputs⟩ := ih
      have step : run (steps ++ [last]) = (run steps).step last := by
        rw [run, List.foldl_append, List.foldl_cons, List.foldl_nil, ← run]
      cases last with
      | make =>
          have more : makes (steps ++ [.make]) = makes steps + 1 := by
            rw [makes, List.countP_append, ← makes]
            rfl
          rw [step, Process.step, make_output (run steps) _ dev, more, outputs, List.range_succ, List.map_append,
            List.map_singleton]
          exact ⟨congrArg devCpio (beq_false_of_ne (Nat.succ_ne_zero _)).symm, rfl⟩
      | use k call =>
          have same : makes (steps ++ [.use k call]) = makes steps := by
            rw [makes, List.countP_append, ← makes]
            rfl
          obtain ⟨kept, written⟩ := use_outputs (run steps) k call
          rw [step, Process.step, kept, written, same]
          exact ⟨dev, outputs⟩

end Outputs

section Repeatable

def Repeatable (p : Process) : Prop :=
  ∀ w ∈ p.outputs, p.outputs.head?.map (fun first => first.rw.w) = some w.rw.w ∧
    ∃ finished, (writeTrailer bytesBuffer).run w = (.ok (), finished) ∧
      readRecords finished.rw.w = .ok ((devCpio true).map archived)

theorem first_reads_back : ∃ finished, (writeTrailer bytesBuffer).run (output true) = (.ok (), finished) ∧
    readRecords finished.rw.w = .ok ((devCpio true).map archived) := by
  obtain ⟨seen, unused, written⟩ := fresh_written dev_archivable
  rw [← fresh_firsts, dev_names_new] at written
  have out : output true = extend (newWriter []) (archiveBytes (devCpio true)) seen := congrArg Prod.snd written
  rw [out]
  exact trailed_reads (devCpio true) seen dev_archivable unused

theorem repeatable_iff_once (steps : List Step) : Repeatable (run steps) ↔ makes steps ≤ 1 := by
  have outputs := (run_outputs steps).2
  rw [Repeatable, outputs]
  constructor
  · intro all
    by_contra many
    have second : output false ∈ (List.range (makes steps)).map (fun k => output (k == 0)) :=
      List.mem_map.mpr ⟨1, List.mem_range.mpr (by omega), rfl⟩
    have first : ((List.range (makes steps)).map (fun k => output (k == 0))).head? = some (output true) := by
      obtain ⟨n, more⟩ := Nat.exists_eq_succ_of_ne_zero (show makes steps ≠ 0 by omega)
      rw [more, List.range_succ_eq_map]
      rfl
    have same := (all (output false) second).1
    rw [first] at same
    have sizes := congrArg List.length (Option.some.inj same)
    rw [output_size true, output_size false] at sizes
    cases sizes
  · intro few w member
    obtain ⟨k, inside, rfl⟩ := List.mem_map.mp member
    have only : makes steps = 1 := by have := List.mem_range.mp inside; omega
    have zero : k = 0 := by have := List.mem_range.mp inside; omega
    have unread : ((0 : Nat) == 0) = true := rfl
    rw [only, zero, unread]
    exact ⟨by rw [List.range_one, List.map_singleton, unread, List.head?_cons, Option.map_some], first_reads_back⟩

theorem second_initramfs_differs :
    (run [.make, .use 0 (.writeRecord (directory (str "home"))), .make]).outputs.map (fun w => w.rw.w.length) =
      [1940, 1792] := by
  have outputs := (run_outputs [.make, .use 0 (.writeRecord (directory (str "home"))), .make]).2
  have two : makes [.make, .use 0 (.writeRecord (directory (str "home"))), .make] = 2 := rfl
  have sizes : ((List.range 2).map (fun k => output (k == 0))).map (fun w => w.rw.w.length) =
      (List.range 2).map (fun k => if k == 0 then 1940 else 1792) := by
    rw [List.map_map]
    apply List.map_congr_left
    intro k _
    rw [Function.comp_apply, output_size]
  rw [outputs, two, sizes]
  rfl

end Repeatable

end URoot.Ramfs
