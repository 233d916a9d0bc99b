import URoot.Ramfs.Walk
import URoot.Cpio.Emitted
import URoot.Lib.RelPath

set_option autoImplicit false

namespace URoot.Ramfs

open GoLib Cpio Filepath

def CleanName (name : Bytes) : Prop := Filepath.clean name = name

def Call.CleanNames (call : Call) : Prop := ∀ name, call.Writes name → CleanName name

def ParentsFirst (names : List Bytes) : Prop :=
  ∀ i, (inside : i < names.length) →
    Filepath.dir names[i] = str "." ∨ Filepath.dir names[i] = str "/" ∨ Filepath.dir names[i] ∈ names.take i

section Order

theorem parents_first_snoc (names : List Bytes) (last : Bytes) (ordered : ParentsFirst names)
    (parent : Filepath.dir last = str "." ∨ Filepath.dir last = str "/" ∨ Filepath.dir last ∈ names) :
    ParentsFirst (names ++ [last]) := by
  intro i inside
  by_cases old : i < names.length
  · rw [List.getElem_append_left old, List.take_append_of_le_length (Nat.le_of_lt old)]
    exact ordered i old
  · have here : i = names.length := by
      rw [List.length_append, List.length_singleton] at inside
      omega
    subst here
    rw [List.getElem_append_right (Nat.le_refl _), List.take_left]
    simpa using parent

def Ordered (i : Initramfs Bytes) : Prop :=
  ∃ entries, Holds i.writer entries ∧ ParentsFirst (entries.map (fun f => f.info.name))

theorem stored_text (name : Bytes) (clean : CleanName name) :
    storedName name = some (relText (cleanWords name)) := by
  have cleaned := cleaned_words name
  cases rooted : isAbs name with
  | false => rw [storedName, rooted, if_neg Bool.false_ne_true, ← clean_relative_text name rooted clean]
  | true =>
      rw [rooted] at cleaned
      have form : name = separator :: Filepath.join (cleanWords name) := by
        rw [← clean, (clean_words_clean name).1, Filepath.clean, if_pos rooted]
      rw [storedName, if_pos rooted, relText]
      generalize cleanWords name = words at cleaned form ⊢
      subst form
      by_cases none : words = []
      · rw [none]
        decide
      · rw [rel_root_join words none cleaned, if_neg none]

theorem stored_words (name s : Bytes) (clean : CleanName name) (known : storedName name = some s) :
    cleanWords s = cleanWords name := by
  cases (stored_text name clean).symm.trans known
  exact (relative_text_words (unrooted_words name)).2

theorem parent_stored (name s : Bytes) (clean : CleanName name) (known : storedName name = some s) :
    Filepath.dir s = str "." ∨ Named (Filepath.dir name) (Filepath.dir s) := by
  cases (stored_text name clean).symm.trans known
  obtain ⟨relative, words⟩ := relative_text_words (unrooted_words name)
  generalize text : relText (cleanWords name) = s at relative words ⊢
  have fixed : Filepath.clean s = s := by
    rw [Filepath.clean, relative, words, ← text]
    rfl
  obtain ⟨still, front⟩ := dir_words s fixed
  have above : storedName (Filepath.dir name) = some (Filepath.dir s) := by
    rw [stored_text (Filepath.dir name) (clean_idempotent _), (dir_words name clean).2, ← words, ← front,
      ← clean_relative_text _ (still.trans relative) (clean_idempotent _)]
  by_cases top : Filepath.dir s = str "."
  · exact Or.inl top
  have other : ∀ root, storedName root = some (str ".") → Filepath.dir name ≠ root := by
    rintro root dot rfl
    exact top (Option.some.inj (above.symm.trans dot))
  exact Or.inr ⟨other _ (by decide), other _ (by decide), _, .self _, above⟩

section Write

variable (r : Record) (i : Initramfs Bytes)

theorem record_added (clean : CleanName r.info.name) (ordered : Ordered i)
    (above : ∀ s, Named (Filepath.dir r.info.name) s → s ∈ i.writer.alreadyWritten) :
    Ordered ((addRecord bytesBuffer r).run i).2 := by
  obtain ⟨entries, holds, parents⟩ := ordered
  have state : ((addRecord bytesBuffer r).run i).2.writer = ((Cpio.writeRecord bytesBuffer r).run i.writer).2 := rfl
  rw [Ordered, state]
  by_cases old : nameOf r ∈ i.writer.alreadyWritten
  · rw [write_record_seen bytesBuffer r i.writer old]
    exact ⟨entries, holds, parents⟩
  · refine ⟨entries ++ [stored r], (holds_new i.writer entries r holds old).1, ?_⟩
    rw [List.map_append, List.map_singleton]
    apply parents_first_snoc _ _ parents
    rw [show (stored r).info.name = nameOf r from rfl, ← holds_mem _ _ holds]
    rcases parent_stored r.info.name (nameOf r) clean (stored_name_of r) with top | named
    · exact Or.inl top
    · exact Or.inr (Or.inr (above _ named))

theorem write_record_ordered (clean : CleanName r.info.name) (ordered : Ordered i) (filed : Filed i) :
    Ordered ((writeRecord bytesBuffer r).run i).2 := by
  refine write_record_rule (motive := fun r i outcome => CleanName r.info.name → Ordered i → Filed i → Ordered outcome.2)
    r i ?_ ?_ ?_ ?_ clean ordered filed
  · exact fun r i root clean ordered filed => ordered
  · exact fun r i kept present clean ordered filed => record_added r i clean ordered (filed_named r filed present)
  · exact fun r i e middle above clean ordered filed => above (clean_idempotent _) ordered filed
  · intro r i middle kept ran above clean ordered filed
    have names := (write_record_filed (directory (Filepath.dir r.info.name)) i filed).2
    rw [ran] at names
    exact record_added r middle clean (above (clean_idempotent _) ordered filed)
      fun s named => (names rfl s).mpr (Or.inr named)

end Write

section Start

theorem write_records_holds (records entries : List Record) (w last : Cpio.Writer Bytes) (holds : Holds w entries)
    (done : (writeRecords bytesBuffer records).run w = (.ok (), last)) :
    Holds last (entries ++ (fresh nameOf w.alreadyWritten records).map stored) := by
  induction records generalizing w entries with
  | nil =>
      cases done
      simpa [fresh] using holds
  | cons first rest ih =>
      rcases here : (Cpio.writeRecord bytesBuffer first).run w with ⟨result, next⟩
      cases result with
      | error e =>
          simp only [writeRecords, here] at done
          cases done
      | ok u =>
          simp only [writeRecords, here] at done
          by_cases old : nameOf first ∈ w.alreadyWritten
          · rw [write_record_seen bytesBuffer first w old] at here
            cases here
            rw [fresh, if_pos old]
            exact ih entries w holds done
          · obtain ⟨added, seen⟩ := holds_new w entries first holds old
            rw [here] at added seen
            have later := ih (entries ++ [stored first]) next added done
            rw [seen, List.append_assoc, List.singleton_append] at later
            rw [fresh, if_neg old]
            exact later

theorem dev_cpio_names (unread : Bool) :
    ((fresh nameOf [] ((devCpio unread).map makeReproducible)).map stored).map (fun f => f.info.name) =
      (devCpio true).map (fun f => f.info.name) := by
  cases unread <;> decide +kernel

theorem dev_cpio_ordered : ParentsFirst ((devCpio true).map (fun f => f.info.name)) := by
  unfold ParentsFirst
  decide +kernel

theorem new_initramfs_holds {unread : Bool} {inodes : Inodes} {start : Initramfs Bytes}
    (made : newInitramfs bytesBuffer unread inodes (newWriter []) = .ok start) :
    Holds start.writer ((fresh nameOf [] ((devCpio unread).map makeReproducible)).map stored) ∧ start.files = [] := by
  rw [newInitramfs] at made
  rcases ran : (writeRecords bytesBuffer ((devCpio unread).map makeReproducible)).run (newWriter []) with ⟨result, next⟩
  cases result with
  | error e =>
      simp only [ran] at made
      cases made
  | ok u =>
      simp only [ran] at made
      cases made
      exact ⟨write_records_holds _ [] _ next fresh_holds ran, rfl⟩

theorem new_initramfs_ordered {unread : Bool} {inodes : Inodes} {start : Initramfs Bytes}
    (made : newInitramfs bytesBuffer unread inodes (newWriter []) = .ok start) : Ordered start ∧ Filed start := by
  obtain ⟨holds, none⟩ := new_initramfs_holds made
  refine ⟨⟨_, holds, ?_⟩, ?_⟩
  · rw [dev_cpio_names]
    exact dev_cpio_ordered
  · intro name member
    rw [none] at member
    exact absurd member List.not_mem_nil

end Start

end Order

theorem parent_calls_end :
    WellFounded (fun parent name => parent = Filepath.dir name ∧ parent ≠ str "/" ∧ parent ≠ str ".") := by
  apply Subrelation.wf _ (measure List.length).wf
  rintro parent name ⟨rfl, notRoot, notDot⟩
  exact dir_shorter name notDot notRoot

theorem parents_come_first (unread : Bool) (inodes : Inodes) (start final : Initramfs Bytes) (calls : List Call)
    (made : newInitramfs bytesBuffer unread inodes (newWriter []) = .ok start)
    (clean : ∀ call ∈ calls, call.CleanNames) (ran : (performAll bytesBuffer calls).run start = (.ok (), final)) :
    (∃ entries, final.writer.rw.w = Newc.layout 0 entries ∧
        entries.map (fun f => f.info.name) = final.writer.alreadyWritten.reverse ∧
        ParentsFirst (entries.map (fun f => f.info.name))) ∧
      WellFounded (fun parent name => parent = Filepath.dir name ∧ parent ≠ str "/" ∧ parent ≠ str ".") := by
  have kept := perform_all_keeps (fun i => Ordered i ∧ Filed i) (fun _ _ both => both) calls
    (fun call member r writes i both =>
      ⟨write_record_ordered r i (clean call member r.info.name writes) both.1 both.2, (write_record_filed r i both.2).1⟩)
    start (new_initramfs_ordered made)
  rw [ran] at kept
  obtain ⟨⟨entries, holds, parents⟩, -⟩ := kept
  exact ⟨⟨entries, holds.bytes, holds.names, parents⟩, parent_calls_end⟩

section Succeeds

theorem new_initramfs_succeeds (unread : Bool) (inodes : Inodes) :
    ∃ start, newInitramfs bytesBuffer unread inodes (newWriter []) = .ok start ∧ Aligned start := by
  obtain ⟨seen, -, done⟩ := write_records_buffer _ (newWriter [])
    (fun r member => dev_cpio_reads unread r (fresh_mem _ _ _ _ member)) rfl
  refine ⟨_, by rw [newInitramfs, done], ?_⟩
  have block := archive_bytes_aligned (fresh nameOf [] ((devCpio unread).map makeReproducible))
  simpa only [Aligned, extend, newWriter, Newc.grow, Nat.zero_add] using block

theorem perform_records_succeed (records : List Record) (later : List Call) (i : Initramfs Bytes)
    (reads : ∀ r ∈ records, r.Reads) (aligned : Aligned i) :
    ∃ next, Aligned next ∧
      (performAll bytesBuffer (records.map .writeRecord ++ later)).run i = (performAll bytesBuffer later).run next := by
  induction records generalizing i with
  | nil => exact ⟨i, aligned, rfl⟩
  | cons r rest ih =>
      rw [List.forall_mem_cons] at reads
      obtain ⟨next, ran, nextAligned⟩ := write_record_succeeds r i reads.1 aligned
      have performed : (Call.perform bytesBuffer (.writeRecord r)).run i = (.ok (), next) := by
        rw [Call.perform, writeFileRecord, Act.within]
        simp only [id, ran]
        rfl
      rw [List.map_cons, List.cons_append, performAll, Act.run_bind_ok performed]
      exact ih next reads.2 nextAligned

end Succeeds

def mixedNames : List Record := [directory (str "/a/b"), directory (str "a/c"), directory (str "dev/pts")]

-- The last call is for a directory with an empty destination, and writes "f".
def mixedCalls : List Call := mixedNames.map .writeRecord ++ [.writeFile (boxTree 0o040755) (str "/t") []]

theorem mixed_names_ordered :
    ∃ start final, newInitramfs bytesBuffer true .empty (newWriter []) = .ok start ∧
      (performAll bytesBuffer mixedCalls).run start = (.ok (), final) ∧
      ∃ entries, final.writer.rw.w = Newc.layout 0 entries ∧
        entries.map (fun f => f.info.name) = final.writer.alreadyWritten.reverse ∧
        ParentsFirst (entries.map (fun f => f.info.name)) := by
  obtain ⟨start, made, aligned⟩ := new_initramfs_succeeds true .empty
  have reads : ∀ r ∈ mixedNames, r.Reads := by
    intro r member
    apply no_content_reads
    simp only [mixedNames, List.mem_cons, List.not_mem_nil, or_false] at member
    rcases member with rfl | rfl | rfl <;> rfl
  obtain ⟨next, nextAligned, first⟩ :=
    perform_records_succeed mixedNames [.writeFile (boxTree 0o040755) (str "/t") []] start reads aligned
  obtain ⟨final, walked⟩ := plain_box_walked [] next nextAligned
  have ran : (performAll bytesBuffer mixedCalls).run start = (.ok (), final) := by
    rw [mixedCalls, first]
    exact Act.run_bind_ok walked
  have clean : ∀ call ∈ mixedCalls, call.CleanNames := by
    intro call member
    rcases List.mem_append.mp member with record | file
    · obtain ⟨r, listed, rfl⟩ := List.mem_map.mp record
      rintro name rfl
      simp only [mixedNames, List.mem_cons, List.not_mem_nil, or_false] at listed
      rcases listed with rfl | rfl | rfl
      · exact (by decide : Filepath.clean (str "/a/b") = str "/a/b")
      · exact (by decide : Filepath.clean (str "a/c") = str "a/c")
      · exact (by decide : Filepath.clean (str "dev/pts") = str "dev/pts")
    · rw [List.mem_singleton.mp file]
      rintro name ⟨q, recorded, rfl⟩
      rw [box_recorded q recorded]
      exact (by decide : Filepath.clean (str "f") = str "f")
  exact ⟨start, final, made, ran, (parents_come_first true .empty start final _ made clean ran).1⟩

end URoot.Ramfs
