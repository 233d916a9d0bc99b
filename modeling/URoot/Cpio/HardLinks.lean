import URoot.Cpio.FsUnix

set_option autoImplicit false

namespace URoot.Cpio

open GoLib

structure Source where
  path : Bytes
  name : Bytes
deriving DecidableEq, Repr

def Source.stored (file : Source) : Bytes := (storedName file.name).getD []

def fixName (file : Source) (record : Record) : Record := record.rename file.name

section Archive

variable (fs : FileSystem)

def Source.devInode (file : Source) : DevInode := fs.devInode file.path

def archiveEntries (files : List Source) : List (Source × Record) :=
  fresh (fun entry => nameOf entry.2) [] (collect fs Source.path fixName .empty files)

theorem collect_names (m : Inodes) (files : List Source) :
    (collect fs Source.path fixName m files).map (fun entry => nameOf entry.2) = files.map Source.stored := by
  induction files generalizing m with
  | nil => rfl
  | cons file rest ih =>
      rw [collect, List.map_cons, List.map_cons, ih]
      rfl

theorem archive_entries_written (files : List Source) (readable : ∀ file ∈ files, fs.Readable file.path) :
    ∃ last, (archiveFiles bytesBuffer fs Source.path fixName files).run ⟨.empty, newWriter []⟩ = (.ok (), last) ∧
      last.writer.rw.w = archiveBytes ((archiveEntries fs files).map Prod.snd) := by
  obtain ⟨seen, _, ran⟩ := archive_files_buffer fs Source.path fixName readable (fun _ _ => rfl)
  exact ⟨_, ran, rfl⟩

def recordAt (before : List Source) (file : Source) : Record :=
  fixName file (fs.record file.path (inodesAfter fs Source.path .empty before))

theorem record_at_content (before : List Source) (file : Source) (regular : (fs.stat file.path).fileType = .regular) :
    (recordAt fs before file).content =
      if file.devInode fs ∈ before.map (Source.devInode fs) then [] else fs.content file.path := by
  have known : ((inodesAfter fs Source.path .empty before).number (file.devInode fs)).isSome ↔
      file.devInode fs ∈ before.map (Source.devInode fs) := by
    rw [known_inodes]
    exact or_iff_left (by simp [Inodes.number, Inodes.empty])
  have content := fs.record_content file.path (inodesAfter fs Source.path .empty before) regular
  change (recordAt fs before file).content = _ at content
  rw [content]
  exact if_congr known rfl rfl

theorem record_at_ino (before after : List Source) (file : Source) :
    (inodesAfter fs Source.path .empty (before ++ file :: after)).number (file.devInode fs) =
      some (recordAt fs before file).info.ino := by
  rw [inodesAfter, List.foldl_append, List.foldl_cons]
  exact numbers_kept fs Source.path _ after _ _ (fs.record_ino file.path _)

theorem entries_split {files : List Source} {before after : List (Source × Record)} {entry : Source × Record}
    (same : archiveEntries fs files = before ++ entry :: after) :
    ∃ front file back, files = front ++ file :: back ∧ file.stored ∉ front.map Source.stored ∧
      before = archiveEntries fs front ∧ entry = (file, recordAt fs front file) := by
  obtain ⟨collected, rest, split, kept, new, _⟩ := fresh_split _ _ _ _ _ _ same
  obtain ⟨front, file, back, rfl, rfl, rfl⟩ := collect_split fs Source.path fixName .empty files collected rest entry split
  rw [collect_names] at new
  exact ⟨front, file, back, rfl, new, kept.symm, rfl⟩

theorem entries_keep (before after : List Source) (file : Source) (new : file.stored ∉ before.map Source.stored) :
    ∃ rest, archiveEntries fs (before ++ file :: after) =
      archiveEntries fs before ++ (file, recordAt fs before file) :: rest ∧ (after = [] → rest = []) := by
  have unused : nameOf (recordAt fs before file) ∉
      (collect fs Source.path fixName .empty before).map (fun entry => nameOf entry.2) := by
    rw [collect_names]
    exact new
  rw [archiveEntries, collect_append, collect]
  refine ⟨_, fresh_keep _ _ _ (file, recordAt fs before file) unused, ?_⟩
  rintro rfl
  rfl

theorem entries_to {before : List Source} {file : Source} (new : file.stored ∉ before.map Source.stored) :
    archiveEntries fs (before ++ [file]) = archiveEntries fs before ++ [(file, recordAt fs before file)] := by
  obtain ⟨rest, whole, last⟩ := entries_keep fs before [] file new
  rw [whole, last rfl]

end Archive

def NothingLost (fs : FileSystem) (archive : List (Source × Record)) : Prop :=
  ∀ before entry after, archive = before ++ entry :: after → (fs.stat entry.1.path).fileType = .regular →
    fs.content entry.1.path ≠ [] →
    ∃ carrier ∈ before ++ [entry], carrier.2.info.ino = entry.2.info.ino ∧ carrier.2.content = fs.content entry.1.path

-- For every file that is stored and has content, the first file of the list with the
-- same device and inode is stored too: its name was not used before it.
def FirstsStored (fs : FileSystem) (files : List Source) : Prop :=
  ∀ before file after, files = before ++ file :: after → file.stored ∉ before.map Source.stored →
    (fs.stat file.path).fileType = .regular → fs.content file.path ≠ [] →
    ∃ front first back, before ++ [file] = front ++ first :: back ∧ first.devInode fs = file.devInode fs ∧
      first.devInode fs ∉ front.map (Source.devInode fs) ∧ first.stored ∉ front.map Source.stored

section Exact

theorem split_members (before after front back : List Source) (file first : Source)
    (split : before ++ [file] = front ++ first :: back) :
    first ∈ before ++ file :: after ∧ file ∈ before ++ file :: after := by
  have member : first ∈ before ++ [file] := by
    rw [split]
    exact List.mem_append_right _ List.mem_cons_self
  refine ⟨?_, List.mem_append_right _ List.mem_cons_self⟩
  rw [List.append_cons]
  exact List.mem_append_left _ member

variable (fs : FileSystem) (files : List Source) (readable : ∀ file ∈ files, fs.Readable file.path)

include readable

theorem nothing_lost_of_firsts (firsts : FirstsStored fs files) : NothingLost fs (archiveEntries fs files) := by
  intro before entry after same regular content
  obtain ⟨front, file, back, rfl, new, rfl, rfl⟩ := entries_split fs same
  obtain ⟨early, first, late, split, link, firstLink, firstNew⟩ := firsts front file back rfl new regular content
  have within := split_members front back early late file first split
  obtain ⟨kind, data⟩ := fs.same_file first.path file.path (readable _ within.1) (readable _ within.2) link
  refine ⟨(first, recordAt fs early first), ?_, ?_, ?_⟩
  · rw [← entries_to fs new, split]
    obtain ⟨rest, whole, _⟩ := entries_keep fs early late first firstNew
    rw [whole]
    exact List.mem_append_right _ List.mem_cons_self
  · -- Both numbers are the one that the inode has after the last of the two.
    have here := record_at_ino fs front [] file
    rw [split, ← link, record_at_ino fs early late first] at here
    exact Option.some.inj here
  · rw [record_at_content fs early first (kind.trans regular), if_neg firstLink]
    exact data

theorem firsts_of_nothing_lost (few : files.length ≤ 2 ^ 64) (kept : NothingLost fs (archiveEntries fs files)) :
    FirstsStored fs files := by
  rintro before file after rfl new regular content
  obtain ⟨rest, whole, _⟩ := entries_keep fs before after file new
  obtain ⟨carrier, member, number, carries⟩ := kept _ _ _ whole regular content
  rw [← entries_to fs new] at member
  obtain ⟨front, back, split⟩ := List.append_of_mem member
  obtain ⟨early, first, late, same, firstNew, _, rfl⟩ := entries_split fs split
  -- With at most 2^64 files the numbers are different for different inodes.
  have link : first.devInode fs = file.devInode fs := by
    rw [List.length_append, List.length_cons] at few
    have numbered := numbered_after fs Source.path .empty (before ++ [file]) empty_numbered (by
      simp only [Inodes.empty, List.length_append, List.length_cons, List.length_nil]
      omega)
    have one := record_at_ino fs early late first
    rw [← same, number] at one
    exact numbered.distinct _ _ _ one (record_at_ino fs before [] file)
  have within := split_members before after early late file first same
  obtain ⟨kind, _⟩ := fs.same_file first.path file.path (readable _ within.1) (readable _ within.2) link
  refine ⟨early, first, late, same, link, ?_, firstNew⟩
  intro seen
  simp only [record_at_content fs early first (kind.trans regular), if_pos seen] at carries
  exact content carries.symm

end Exact

-- The condition is enough for any list; it is needed as long as the 64-bit counter of
-- inode numbers does not wrap.
theorem hard_links_exact (fs : FileSystem) (files : List Source) (readable : ∀ file ∈ files, fs.Readable file.path) :
    ∃ last, (archiveFiles bytesBuffer fs Source.path fixName files).run ⟨.empty, newWriter []⟩ = (.ok (), last) ∧
      last.writer.rw.w = archiveBytes ((archiveEntries fs files).map Prod.snd) ∧
      (FirstsStored fs files → NothingLost fs (archiveEntries fs files)) ∧
      (files.length ≤ 2 ^ 64 → NothingLost fs (archiveEntries fs files) → FirstsStored fs files) := by
  obtain ⟨last, ran, bytes⟩ := archive_entries_written fs files readable
  exact ⟨last, ran, bytes, nothing_lost_of_firsts fs files readable, firsts_of_nothing_lost fs files readable⟩

def linkInode (path : Bytes) : UInt64 := if path = str "a" ∨ path = str "b" then 5 else 1

def twoInodes : FileSystem where
  lstat path := .ok ⟨1, linkInode path, 1, 0o100644, 0, 0, 0, 1, 0⟩
  readlink _ := .error (.other (str "invalid argument"))
  newDeferReadCloser path := newBytesReadCloser (if linkInode path = 5 then [2] else [1])
  hardLinks := by
    intro a b statA statB okA okB _ ino
    cases okA
    cases okB
    change linkInode a = linkInode b at ino
    exact ⟨rfl, by rw [ino]⟩

theorem two_inodes_regular (path : Bytes) : (twoInodes.stat path).fileType = .regular := by
  have mode : (twoInodes.stat path).mode = 0o100644 := rfl
  rw [Stat.fileType, mode]
  decide

theorem two_inodes_readable (path : Bytes) : twoInodes.Readable path where
  lstat := rfl
  readlink := fun impossible => by cases (two_inodes_regular path).symm.trans impossible
  read := fun _ => ⟨rfl, rfl⟩

theorem two_links_kept :
    ∃ last, (archiveFiles bytesBuffer twoInodes Source.path fixName [⟨str "a", str "x"⟩, ⟨str "b", str "y"⟩]).run
        ⟨.empty, newWriter []⟩ = (.ok (), last) ∧
      NothingLost twoInodes (archiveEntries twoInodes [⟨str "a", str "x"⟩, ⟨str "b", str "y"⟩]) := by
  obtain ⟨last, ran, _, enough, _⟩ := hard_links_exact twoInodes [⟨str "a", str "x"⟩, ⟨str "b", str "y"⟩]
    (fun file _ => two_inodes_readable file.path)
  refine ⟨last, ran, enough ?_⟩
  intro before file after split _ _ _
  match before with
  | [] => exact ⟨[], file, [], rfl, rfl, List.not_mem_nil, List.not_mem_nil⟩
  | [first] =>
      cases split
      exact ⟨[], _, _, rfl, by decide, List.not_mem_nil, List.not_mem_nil⟩
  | _ :: _ :: _ => simp at split

-- c takes the name x, so a is not stored; b is the second name of a's inode and gets
-- no content.
def lostFiles : List Source := [⟨str "c", str "x"⟩, ⟨str "a", str "x"⟩, ⟨str "b", str "y"⟩]

theorem hard_link_content_lost :
    ∃ last, (archiveFiles bytesBuffer twoInodes Source.path fixName lostFiles).run ⟨.empty, newWriter []⟩ = (.ok (), last) ∧
      last.writer.rw.w = archiveBytes ((archiveEntries twoInodes lostFiles).map Prod.snd) ∧
      ¬ NothingLost twoInodes (archiveEntries twoInodes lostFiles) := by
  obtain ⟨last, ran, bytes⟩ := archive_entries_written twoInodes lostFiles (fun file _ => two_inodes_readable file.path)
  refine ⟨last, ran, bytes, fun kept => ?_⟩
  have entries : archiveEntries twoInodes lostFiles =
      [(⟨str "c", str "x"⟩, recordAt twoInodes [] ⟨str "c", str "x"⟩)] ++
        (⟨str "b", str "y"⟩, recordAt twoInodes (lostFiles.take 2) ⟨str "b", str "y"⟩) :: [] := by
    decide +kernel
  obtain ⟨carrier, member, _, carries⟩ := kept _ _ _ entries (two_inodes_regular _) (by decide)
  simp only [List.cons_append, List.nil_append, List.mem_cons, List.not_mem_nil, or_false] at member
  rcases member with rfl | rfl
  · revert carries
    decide +kernel
  · revert carries
    decide +kernel

end URoot.Cpio
