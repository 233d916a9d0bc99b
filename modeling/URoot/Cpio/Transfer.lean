import URoot.Cpio.Extract
import URoot.Lib.Scanner

set_option autoImplicit false

namespace URoot.Cpio

open GoLib Files Filepath Scanner

section Model

inductive PackStop where
  | record (err : ArchiveError)
  | scan
  | trailer (err : WriteError)

-- The command o: an archive of the files whose names stand on the input, one a line.
def pack {σ : Type} (io : IoWriter σ) (fs : FileSystem) (listing : Bytes) : Act PackStop (Archiver σ) Unit := do
  Act.within id (fun _ s => s) .record (archiveFiles io fs id (fun _ => id) (scanLines listing))
  Act.require (tooLong listing = false) .scan
  Act.within Archiver.writer (fun s w => { s with writer := w }) .trailer (writeTrailer io)

end Model

section Kinds

def Stat.kind (sys : Stat) : Option FileMode := linuxModeToMode sys.mode.toUInt64

theorem type_word (sys : Stat) : sys.mode.toUInt64 &&& modeTypeMask = (sys.mode &&& 0o170000).toUInt64 := by
  rw [UInt32.toUInt64_and]
  rfl

-- GetRecord looks at three types of file, CreateFile at seven.
theorem type_of_kind (sys : Stat) : sys.fileType = match sys.kind with
    | none => .regular
    | some .file => .regular
    | some .symlink => .symlink
    | some _ => .other := by
  have keys : modeMap.map Prod.fst =
    ([0o140000, 0o120000, 0o100000, 0o060000, 0o040000, 0o020000, 0o010000] : List UInt32).map UInt32.toUInt64 := by decide
  rw [Stat.fileType, Stat.kind, linuxModeToMode, type_word]
  generalize sys.mode &&& 0o170000 = bits
  by_cases listed : bits ∈ ([0o140000, 0o120000, 0o100000, 0o060000, 0o040000, 0o020000, 0o010000] : List UInt32)
  · simp only [List.mem_cons, List.not_mem_nil, or_false] at listed
    rcases listed with rfl | rfl | rfl | rfl | rfl | rfl | rfl <;> decide
  · have unknown : modeMap.lookup bits.toUInt64 = none := by
      refine List.lookup_eq_none_iff.mpr fun entry member => bne_iff_ne.mpr fun same => listed ?_
      have key : bits.toUInt64 ∈ modeMap.map Prod.fst := List.mem_map.mpr ⟨entry, member, same.symm⟩
      rw [keys] at key
      exact (List.mem_map_of_injective fun _ _ => UInt32.toUInt64_inj.mp).mp key
    rw [unknown]
    simp only [List.mem_cons, List.not_mem_nil, or_false, not_or] at listed ⊢
    simp [listed]

end Kinds

section Records

variable (fs : FileSystem) (path : Bytes)

def FileSystem.attr : Attr :=
  ⟨(fs.stat path).mode &&& 0o777, (fs.stat path).uid, (fs.stat path).gid, (fs.stat path).mtim.toInt⟩

-- What is to come out of the archive for a path. The later names of a file with several come out empty.
def restored (known : Bool) : Option Seen :=
  match (fs.stat path).kind with
  | none => none
  | some .socket => none
  | some .fifo => none
  | some .file => some (.file (if known then [] else fs.content path) (fs.attr path))
  | some .dir => some (.dir (fs.attr path).perm (fs.attr path).uid (fs.attr path).gid)
  | some .block => some (.device true (fs.stat path).rdev.toUInt32 (fs.attr path))
  | some .char => some (.device false (fs.stat path).rdev.toUInt32 (fs.attr path))
  | some .symlink => some (.link (fs.linkname path))

def Inodes.known (m : Inodes) (d : DevInode) : Bool := (m.number d).isSome

structure Packable (names : List Bytes) : Prop where
  readable : fs.Readable path
  whole : (fs.stat path).fileType = .regular →
    (fs.content path).length < 2 ^ 32 ∧ (fs.stat path).size.toUInt64 = UInt64.ofNat (fs.content path).length
  target : (fs.stat path).fileType = .symlink → pathError (fs.linkname path) = none
  small : ∀ number ∈ Info.numbers { sysInfo path (fs.stat path) with ino := 0, dev := 0, fileSize := 0 }, number.toNat < 2 ^ 32
  notTrailer : storedName path ≠ some trailer
  named : Named ((storedName path).getD []) names
  taken : pathError ((storedName path).getD []) = none
  owned : (fs.stat path).uid ≠ 0xffffffff ∧ (fs.stat path).gid ≠ 0xffffffff
  placed : (fs.stat path).kind = some .dir ∨ names ≠ []

variable (m : Inodes)

theorem record_info : ∃ ino size, (fs.record path m).info =
    { sysInfo path (fs.stat path) with dev := 0, ino := ino, fileSize := size } ∧
      ino = (m.number (fs.devInode path)).getD m.inumber := by
  have result := inode_result (sysInfo path (fs.stat path)) m
  rw [FileSystem.record, FileSystem.recordOf, result]
  split
  · exact ⟨_, _, rfl, rfl⟩
  · exact ⟨_, _, rfl, rfl⟩
  · exact ⟨_, _, rfl, rfl⟩

theorem stored_as : nameOf (fs.record path m) = (storedName path).getD [] := by
  obtain ⟨ino, size, info, -⟩ := record_info fs path m
  rw [nameOf, info]
  rfl

theorem archived_kind : linuxModeToMode (archived (fs.record path m)).info.mode = (fs.stat path).kind := by
  obtain ⟨ino, size, info, -⟩ := record_info fs path m
  simp only [archived, info]
  rfl

theorem archived_attr : attrOf (archived (fs.record path m)) = fs.attr path := by
  obtain ⟨ino, size, info, -⟩ := record_info fs path m
  simp only [attrOf, archived, perm, info, sysInfo, FileSystem.attr, UInt32.toUInt32_toUInt64, Int64.toInt64_toUInt64]

theorem archived_device : (dev (archived (fs.record path m))).toUInt64.toUInt32 = (fs.stat path).rdev.toUInt32 := by
  obtain ⟨ino, size, info, -⟩ := record_info fs path m
  simp only [dev, archived, info, sysInfo, halves_join, UInt64.toUInt64_toInt64]

theorem archived_content : (archived (fs.record path m)).content = (fs.record path m).content := rfl

theorem symlink_content (type : (fs.stat path).fileType = .symlink) : (fs.record path m).content = fs.linkname path := by
  rw [FileSystem.record, FileSystem.recordOf, type]
  rfl

theorem restored_made (node : Seen) (wanted : restored fs path (m.known (fs.devInode path)) = some node) :
    ∃ mode, (fs.stat path).kind = some mode ∧ madeNode (archived (fs.record path m)) mode = some node := by
  have attr := archived_attr fs path m
  have number := archived_device fs path m
  have type := type_of_kind (fs.stat path)
  rw [restored] at wanted
  cases kind : (fs.stat path).kind with
  | none => rw [kind] at wanted; cases wanted
  | some mode =>
      refine ⟨mode, rfl, ?_⟩
      rw [kind] at wanted type
      rw [← wanted]
      cases mode with
      | socket => cases wanted
      | fifo => cases wanted
      | file =>
          rw [madeNode, attr, archived_content, fs.record_content path m type]
          rfl
      | dir => rw [madeNode, ← attr]; rfl
      | block => rw [madeNode, attr, number]
      | char => rw [madeNode, attr, number]
      | symlink => rw [madeNode, archived_content, symlink_content fs path m type]

theorem packed_entry (names : List Bytes) (node : Seen) (packable : Packable fs path names)
    (wanted : restored fs path (m.known (fs.devInode path)) = some node) :
    ∃ e : Entry, e.record = archived (fs.record path m) ∧ e.names = names ∧ (fs.stat path).kind = some e.mode ∧ e.node = node := by
  obtain ⟨mode, kind, made⟩ := restored_made fs path m node wanted
  have placed : mode = .dir ∨ names ≠ [] := packable.placed.imp_left fun dir => Option.some.inj (kind.symm.trans dir)
  have name : (archived (fs.record path m)).info.name = (storedName path).getD [] := stored_as fs path m
  have type := type_of_kind (fs.stat path)
  rw [kind] at type
  have target : mode = .symlink → pathError (archived (fs.record path m)).content = none := by
    rintro rfl
    rw [archived_content, symlink_content fs path m type]
    exact packable.target type
  have attr := archived_attr fs path m
  rw [attrOf, FileSystem.attr, Attr.mk.injEq] at attr
  refine ⟨⟨archived (fs.record path m), names, mode, node, by rw [name]; exact packable.named, by rw [name]; exact packable.taken,
    ⟨_, rfl⟩, (archived_kind fs path m).trans kind, made, target, ?_, placed⟩, rfl, rfl, kind, rfl⟩
  rw [attr.2.1, attr.2.2.1]
  exact packable.owned

theorem restored_refused (known : Bool) :
    (restored fs path known).isNone = (refusal (archived (fs.record path m))).isSome := by
  rw [restored, refusal, archived_kind]
  rcases (fs.stat path).kind with _ | mode
  · rfl
  · cases mode <;> rfl

theorem size_small (contents : Bytes) (short : contents.length < 2 ^ 32) : (UInt64.ofNat contents.length).toNat < 2 ^ 32 := by
  rw [UInt64.toNat_ofNat_of_lt' (Nat.lt_trans short (by decide))]
  exact short

theorem record_origin (names : List Bytes) (packable : Packable fs path names) :
    ((fs.record path m).readCloser = none ∨ ∃ contents info, fs.record path m = staticRecord contents info) ∧
      (fs.record path m).content.length < 2 ^ 32 ∧ (fs.record path m).info.fileSize.toNat < 2 ^ 32 := by
  cases type : (fs.stat path).fileType with
  | regular =>
      obtain ⟨short, size⟩ := packable.whole type
      obtain ⟨readErr, closeErr⟩ := packable.readable.read type
      have reader : fs.newDeferReadCloser path = newBytesReadCloser (fs.content path) := by
        rw [FileSystem.content, newBytesReadCloser]
        cases source : fs.newDeferReadCloser path
        rw [source] at readErr closeErr
        cases readErr
        cases closeErr
        rfl
      rw [fs.record_content path m type, FileSystem.record, FileSystem.recordOf, type, inode_result]
      refine ⟨?_, by split <;> [exact Nat.two_pow_pos 32; exact short], ?_⟩
      · cases (m.number (Info.devInode (sysInfo path (fs.stat path)))).isSome with
        | true => exact Or.inl rfl
        | false =>
            refine Or.inr ⟨fs.content path,
              { sysInfo path (fs.stat path) with
                dev := 0, ino := (m.number (Info.devInode (sysInfo path (fs.stat path)))).getD m.inumber }, ?_⟩
            simp only [reader, staticRecord, ← size]
            rfl
      · exact (congrArg UInt64.toNat size).trans_lt (size_small _ short)
  | symlink =>
      rw [symlink_content fs path m type, FileSystem.record, FileSystem.recordOf, type]
      have short : (fs.linkname path).length < 2 ^ 32 :=
        ((path_error_none _).mp (packable.target type)).2.2.trans (by decide)
      exact ⟨Or.inr ⟨_, _, rfl⟩, short, size_small _ short⟩
  | other =>
      rw [FileSystem.record, FileSystem.recordOf, type]
      exact ⟨Or.inr ⟨_, _, rfl⟩, Nat.two_pow_pos 32, size_small [] (Nat.two_pow_pos 32)⟩

theorem packable_archivable (names : List Bytes) (packable : Packable fs path names) (short : path.length + 1 < 2 ^ 32)
    (few : ((m.number (fs.devInode path)).getD m.inumber).toNat < 2 ^ 32) : Archivable (fs.record path m) := by
  obtain ⟨origin, content, size⟩ := record_origin fs path m names packable
  obtain ⟨ino, fileSize, info, rfl⟩ := record_info fs path m
  have small := packable.small
  rw [info] at size
  refine ⟨origin, ?_, content, by rw [info]; exact short, by rw [info]; exact packable.notTrailer⟩
  rw [info]
  simp only [Info.numbers, List.forall_mem_cons, List.not_mem_nil, false_imp_iff, implies_true, and_true] at small ⊢
  obtain ⟨-, mode, uid, gid, nlink, mtime, -, -, major, minor, rmajor, rminor⟩ := small
  exact ⟨few, mode, uid, gid, nlink, mtime, size, by decide, major, minor, rmajor, rminor⟩

end Records

section Numbering

variable (fs : FileSystem)

theorem inodes_bounded (m : Inodes) (files : List Bytes) (numbered : Numbered m)
    (few : m.inodeMap.length + files.length ≤ 2 ^ 64) :
    Numbered (inodesAfter fs id m files) ∧ (inodesAfter fs id m files).inodeMap.length ≤ m.inodeMap.length + files.length := by
  induction files generalizing m with
  | nil => exact ⟨numbered, Nat.le_refl _⟩
  | cons file rest ih =>
      rw [List.length_cons] at few
      obtain ⟨next, grown⟩ := inode_numbered (sysInfo file (fs.stat file)) m numbered (by omega)
      obtain ⟨after, bound⟩ := ih (fs.next file m) next (by rw [FileSystem.next]; omega)
      refine ⟨after, bound.trans ?_⟩
      rw [FileSystem.next, List.length_cons]
      omega

theorem number_small (front : List Bytes) (d : DevInode) (few : front.length < 2 ^ 32) :
    (((inodesAfter fs id .empty front).number d).getD (inodesAfter fs id .empty front).inumber).toNat < 2 ^ 32 := by
  have empty : Inodes.empty.inodeMap.length = 0 := rfl
  obtain ⟨numbered, bound⟩ := inodes_bounded fs .empty front empty_numbered (by omega)
  generalize inodesAfter fs id .empty front = m at numbered bound
  cases given : m.number d with
  | some n =>
      have below := numbered.below d n given
      rw [Option.getD_some]
      omega
  | none =>
      rw [Option.getD_none, numbered.counter, UInt64.toNat_ofNat_of_lt' (by rw [UInt64.size]; omega)]
      omega

theorem known_front (front : List Bytes) (d : DevInode) :
    (inodesAfter fs id .empty front).known d = (front.map fs.devInode).contains d := by
  rw [Bool.eq_iff_iff, Inodes.known, known_inodes, List.contains_iff_mem]
  exact or_iff_left (by simp [Inodes.number, Inodes.empty])

end Numbering

structure ApartPaths (fs : FileSystem) (places : Bytes → List Bytes) (a b : Bytes) : Prop where
  distinct : places a ≠ places b
  under : places a <+: places b → (fs.stat a).kind = some .dir
  above : places b <+: places a → (fs.stat b).kind = some .dir

section Entries

variable (fs : FileSystem) (places : Bytes → List Bytes)

def recordsOf (m : Inodes) (files : List Bytes) : List Record := (collect fs id (fun _ => id) m files).map Prod.snd

structure Packed (m : Inodes) (files : List Bytes) (entries : List Entry) : Prop where
  creatable : ((recordsOf fs m files).map archived).filter (fun f => (refusal f).isNone) = entries.map Entry.record
  origin : ∀ e ∈ entries, ∃ path ∈ files, e.names = places path ∧ (fs.stat path).kind = some e.mode
  node : ∀ front path back, files = front ++ path :: back → ∀ node,
    restored fs path ((inodesAfter fs id m front).known (fs.devInode path)) = some node →
      ∃ e ∈ entries, e.names = places path ∧ e.node = node

theorem packed_skip (m : Inodes) (path : Bytes) (rest : List Bytes) (entries : List Entry)
    (gone : ∀ known, restored fs path known = none) (packed : Packed fs places (fs.next path m) rest entries) :
    Packed fs places m (path :: rest) entries where
  creatable := by
    have turned := restored_refused fs path m false
    rw [gone] at turned
    rw [recordsOf, collect, List.map_cons, List.map_cons, List.filter_cons_of_neg (by simpa [Option.isSome_iff_ne_none] using turned)]
    exact packed.creatable
  origin := fun e member => by
    obtain ⟨other, there, same⟩ := packed.origin e member
    exact ⟨other, List.mem_cons_of_mem _ there, same⟩
  node := by
    intro front other back same node wanted
    cases front with
    | nil =>
        cases same
        rw [gone] at wanted
        cases wanted
    | cons first front =>
        cases same
        exact packed.node front other back rfl node wanted

theorem packed_cons {m : Inodes} {path : Bytes} {rest : List Bytes} {e : Entry} {entries : List Entry}
    (record : e.record = archived (fs.record path m)) (names : e.names = places path) (kind : (fs.stat path).kind = some e.mode)
    (here : restored fs path (m.known (fs.devInode path)) = some e.node)
    (packed : Packed fs places (fs.next path m) rest entries) : Packed fs places m (path :: rest) (e :: entries) where
  creatable := by
    have kept := restored_refused fs path m (m.known (fs.devInode path))
    rw [here] at kept
    rw [recordsOf, collect, List.map_cons, List.map_cons, List.filter_cons_of_pos (by simpa using kept), List.map_cons, record]
    exact congrArg _ packed.creatable
  origin := by
    refine List.forall_mem_cons.mpr ⟨⟨path, List.mem_cons_self, names, kind⟩, fun other member => ?_⟩
    obtain ⟨from', there, same⟩ := packed.origin other member
    exact ⟨from', List.mem_cons_of_mem _ there, same⟩
  node := by
    intro front other back same node wanted
    cases front with
    | nil =>
        cases same
        exact ⟨e, List.mem_cons_self, names, Option.some.inj (here.symm.trans wanted)⟩
    | cons first front =>
        cases same
        obtain ⟨found, member, there⟩ := packed.node front other back rfl node wanted
        exact ⟨found, List.mem_cons_of_mem _ member, there⟩

theorem restored_none (path : Bytes) (known : Bool) (gone : restored fs path known = none) (again : Bool) :
    restored fs path again = none := by
  rw [← Option.isNone_iff_eq_none, restored_refused fs path .empty] at gone ⊢
  exact gone

theorem entries_packed (m : Inodes) (files : List Bytes) (packable : ∀ path ∈ files, Packable fs path (places path))
    (apart : files.Pairwise (ApartPaths fs places)) :
    ∃ entries, Packed fs places m files entries ∧ entries.Pairwise Apart := by
  induction files generalizing m with
  | nil => exact ⟨[], ⟨rfl, by simp, by simp⟩, List.Pairwise.nil⟩
  | cons path rest ih =>
      obtain ⟨here, later⟩ := List.forall_mem_cons.mp packable
      obtain ⟨aparts, pairs⟩ := List.pairwise_cons.mp apart
      obtain ⟨entries, packed, separate⟩ := ih (fs.next path m) later pairs
      cases wanted : restored fs path (m.known (fs.devInode path)) with
      | none => exact ⟨entries, packed_skip fs places m path rest entries (restored_none fs path _ wanted) packed, separate⟩
      | some node =>
          obtain ⟨e, record, names, kind, rfl⟩ := packed_entry fs path m (places path) node here wanted
          refine ⟨e :: entries, packed_cons fs places record names kind wanted packed,
            List.pairwise_cons.mpr ⟨fun other member => ?_, separate⟩⟩
          obtain ⟨origin, there, same, type⟩ := packed.origin other member
          have between := aparts origin there
          refine ⟨by rw [names, same]; exact between.distinct, fun front => ?_, fun front => ?_⟩
          · rw [names, same] at front
            exact Option.some.inj (kind.symm.trans (between.under front))
          · rw [names, same] at front
            exact Option.some.inj (type.symm.trans (between.above front))

end Entries

section Packing

variable (fs : FileSystem) (places : Bytes → List Bytes) (listing : Bytes)
variable (packable : ∀ path ∈ scanLines listing, Packable fs path (places path))

theorem collected (files : List Bytes) (c : Bytes × Record) (member : c ∈ collect fs id (fun _ => id) .empty files) :
    ∃ front back, files = front ++ c.1 :: back ∧ c.2 = fs.record c.1 (inodesAfter fs id .empty front) := by
  obtain ⟨before, after, form⟩ := List.append_of_mem member
  obtain ⟨front, file, back, split, -, rfl⟩ := collect_split fs id (fun _ => id) .empty files before after c form
  exact ⟨front, back, split, rfl⟩

theorem collected_name (files : List Bytes) (c : Bytes × Record) (member : c ∈ collect fs id (fun _ => id) .empty files) :
    c.1 ∈ files ∧ nameOf c.2 = (storedName c.1).getD [] := by
  obtain ⟨front, back, rfl, record⟩ := collected fs files c member
  rw [record]
  exact ⟨List.mem_append_right _ List.mem_cons_self, stored_as fs c.1 _⟩

include packable

theorem listed_archivable (few : (scanLines listing).length < 2 ^ 32) : ∀ r ∈ recordsOf fs .empty (scanLines listing), Archivable r := by
  intro r member
  obtain ⟨c, inside, rfl⟩ := List.mem_map.mp member
  obtain ⟨front, back, split, record⟩ := collected fs _ c inside
  have listed : c.1 ∈ scanLines listing := by
    rw [split]
    exact List.mem_append_right _ List.mem_cons_self
  have line := scan_lines_short listed
  rw [split, List.length_append, List.length_cons] at few
  rw [record]
  exact packable_archivable fs c.1 _ (places c.1) (packable c.1 listed) (by rw [maxTokenSize] at line; omega)
    (number_small fs front _ (by omega))

-- Different places have different names in the archive, so WriteRecord writes every record.
theorem listed_names_distinct (apart : (scanLines listing).Pairwise (ApartPaths fs places)) :
    (collect fs id (fun _ => id) .empty (scanLines listing)).Pairwise fun a b => nameOf a.2 ≠ nameOf b.2 := by
  have files := collect_files fs id (fun _ => id) .empty (scanLines listing)
  rw [← files, List.pairwise_map] at apart
  refine apart.imp_of_mem fun {a b} inside later between same => between.distinct ?_
  obtain ⟨first, firstName⟩ := collected_name fs _ a inside
  obtain ⟨second, secondName⟩ := collected_name fs _ b later
  rw [firstName, secondName] at same
  have named := (packable a.1 first).named
  rw [same] at named
  exact named_unique _ _ _ named (packable b.1 second).named

theorem pack_reads (short : tooLong listing = false) (few : (scanLines listing).length < 2 ^ 32)
    (apart : (scanLines listing).Pairwise (ApartPaths fs places)) :
    ∃ packed, (pack bytesBuffer fs listing).run ⟨.empty, newWriter []⟩ = (.ok (), packed) ∧
      readRecords packed.writer.rw.w = .ok ((recordsOf fs .empty (scanLines listing)).map archived) := by
  obtain ⟨seen, members, wrote⟩ := archive_files_buffer fs id (fun _ => id)
    (fun path member => (packable path member).readable) (fun _ _ => rfl)
  rw [fresh_all _ [] _ (fun _ _ => List.not_mem_nil) (listed_names_distinct fs places listing packable apart)] at wrote
  have unused : trailer ∉ seen := by
    rw [members]
    intro used
    obtain ⟨c, inside, name⟩ := List.mem_map.mp used
    obtain ⟨listed, stored⟩ := collected_name fs _ c inside
    apply (packable c.1 listed).notTrailer
    obtain ⟨text, found, -⟩ := stored_name_exists c.1
    rw [stored, found, Option.getD_some] at name
    rw [found, name]
  obtain ⟨finished, trailed, reads⟩ := trailed_reads _ seen (listed_archivable fs places listing packable few) unused
  refine ⟨⟨inodesAfter fs id .empty (scanLines listing), finished⟩, ?_, reads⟩
  rw [pack, Act.run_bind_ok (Act.run_within_ok id (fun _ s => s) PackStop.record _ _ () _ wrote),
    Act.run_require_bind _ _ _ short]
  exact Act.run_within_ok _ _ _ _ _ () finished trailed

end Packing

section Results

variable (fs : FileSystem) (files : List Bytes)

theorem refused_names (m : Inodes) : (refused ((recordsOf fs m files).map archived)).map Prod.fst =
    (files.filter fun path => (restored fs path false).isNone).map fun path => (storedName path).getD [] := by
  induction files generalizing m with
  | nil => rfl
  | cons path rest ih =>
      have name : (archived (fs.record path m)).info.name = (storedName path).getD [] := stored_as fs path m
      have turned := restored_refused fs path m false
      have later := ih (fs.next path m)
      rw [refused] at later ⊢
      rw [recordsOf, collect, List.map_cons, List.map_cons]
      cases found : refusal (archived (fs.record path m)) with
      | none =>
          rw [List.filterMap_cons_none (by simp [found]), List.filter_cons_of_neg (by simp only [turned, found]; simp)]
          exact later
      | some err =>
          rw [List.filterMap_cons_some (by simp [found]; rfl), List.filter_cons_of_pos (by simp only [turned, found]; simp),
            List.map_cons, List.map_cons, name]
          exact congrArg _ later

end Results

def homeStat : Stat := ⟨1, 5, 2, 0o100640, 8, 9, 0, 2, 70⟩

def homeRead : ReadCloser := newBytesReadCloser (str "hi")

theorem home_links (_ _ : Bytes) (statA statB : Stat) (first : Except.ok homeStat = (.ok statA : Except IoError Stat))
    (second : Except.ok homeStat = (.ok statB : Except IoError Stat)) (_ : statA.dev = statB.dev)
    (_ : statA.ino = statB.ino) : statA.fileType = statB.fileType ∧ homeRead.content = homeRead.content := by
  cases first
  cases second
  exact ⟨rfl, rfl⟩

def home : FileSystem := ⟨fun _ => .ok homeStat, fun _ => .error (.other []), fun _ => homeRead, home_links⟩

def homeListing : Bytes := str "d/f\nd/g\n"

theorem home_lines : scanLines homeListing = [str "d/f", str "d/g"] := by decide

def homePlaces (path : Bytes) : List Bytes := path.splitOn separator

theorem numbers_small (numbers : List UInt64) (all : numbers.all (fun number => decide (number.toNat < 2 ^ 32)) = true) :
    ∀ number ∈ numbers, number.toNat < 2 ^ 32 :=
  fun number member => of_decide_eq_true (List.all_eq_true.mp all number member)

theorem home_readable (path : Bytes) : home.Readable path :=
  ⟨rfl, fun link => absurd link (show homeStat.fileType ≠ .symlink by decide), fun _ => ⟨rfl, rfl⟩⟩

theorem home_named (path : Bytes) (names : List Bytes) (form : homePlaces path = names)
    (known : ∀ name ∈ names, name ∈ [str "d", str "f", str "g"]) : ∀ name ∈ homePlaces path, FileName name := by
  intro name member
  rw [form] at member
  have listed := known name member
  simp only [List.mem_cons, List.not_mem_nil, or_false] at listed
  rcases listed with rfl | rfl | rfl <;> exact ⟨⟨by decide, by decide, by decide, by decide⟩, by decide⟩

end URoot.Cpio
