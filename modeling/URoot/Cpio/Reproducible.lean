import URoot.Cpio.FsUnix

set_option autoImplicit false

namespace URoot.Cpio

open GoLib Newc

section Model

variable {σ : Type} (io : IoWriter σ)

def archiveTrailer : Act ArchiveError (Archiver σ) Unit :=
  ⟨fun s =>
    match (writeTrailer io).run s.writer with
    | (.error e, writer) => (.error (.write e), { s with writer := writer })
    | (.ok _, writer) => (.ok (), { s with writer := writer })⟩

def makeArchive (fs : FileSystem) (files : List Bytes) : Act ArchiveError (Archiver σ) Unit := do
  archiveFiles io fs id (fun _ => makeReproducible) files
  archiveTrailer io

end Model

-- Two states of the host that the archive should not tell apart: the files agree in
-- everything but inode numbers, device numbers and modification times.
structure Agree (a b : FileSystem) (files : List Bytes) : Prop where
  readable : ∀ file ∈ files, a.Readable file ∧ b.Readable file
  mode : ∀ file ∈ files, (a.stat file).mode = (b.stat file).mode
  uid : ∀ file ∈ files, (a.stat file).uid = (b.stat file).uid
  gid : ∀ file ∈ files, (a.stat file).gid = (b.stat file).gid
  nlink : ∀ file ∈ files, (a.stat file).nlink = (b.stat file).nlink
  rdev : ∀ file ∈ files, (a.stat file).rdev = (b.stat file).rdev
  size : ∀ file ∈ files, (a.stat file).size = (b.stat file).size
  content : ∀ file ∈ files, (a.stat file).fileType = .regular → a.content file = b.content file
  linkname : ∀ file ∈ files, (a.stat file).fileType = .symlink → a.linkname file = b.linkname file
  links : ∀ file ∈ files, ∀ other ∈ files, a.devInode file = a.devInode other ↔ b.devInode file = b.devInode other

section Lockstep

variable (a b : FileSystem) (files : List Bytes) (agree : Agree a b files)

structure Matched (m n : Inodes) : Prop where
  counter : m.inumber = n.inumber
  numbers : ∀ file ∈ files, m.number (a.devInode file) = n.number (b.devInode file)

theorem empty_matched : Matched a b files .empty .empty := ⟨rfl, fun _ _ => rfl⟩

include agree

theorem matched_next (m n : Inodes) (matched : Matched a b files m n) (file : Bytes) (member : file ∈ files) :
    Matched a b files (a.next file m) (b.next file n) := by
  have same := matched.numbers file member
  cases state : m.number (a.devInode file) with
  | some number =>
      rw [FileSystem.next, inode_known state, FileSystem.next,
        inode_known (same.symm.trans state)]
      exact matched
  | none =>
      obtain ⟨_, counterA, _, numbersA⟩ := inode_new (sysInfo file (a.stat file)) m state
      obtain ⟨_, counterB, _, numbersB⟩ := inode_new (sysInfo file (b.stat file)) n (same.symm.trans state)
      constructor
      · rw [FileSystem.next, counterA, FileSystem.next, counterB, matched.counter]
      · intro other there
        rw [FileSystem.next, numbersA, FileSystem.next, numbersB, matched.counter, matched.numbers other there]
        exact if_congr (agree.links other there file member) rfl rfl

end Lockstep

def Record.onDevice (record : Record) (dev : UInt64) : Record :=
  { record with info := { record.info with major := dev >>> 8, minor := dev &&& 0xff } }

section Records

variable (a b : FileSystem) (files : List Bytes) (agree : Agree a b files)

theorem record_on_device (fs : FileSystem) (m : Inodes) (file : Bytes) :
    (fs.record file m).onDevice (fs.stat file).dev = fs.record file m := by
  rw [FileSystem.record, inode_result, FileSystem.recordOf]
  cases (fs.stat file).fileType <;> rfl

include agree

theorem agree_type (file : Bytes) (member : file ∈ files) : (b.stat file).fileType = (a.stat file).fileType := by
  rw [Stat.fileType, Stat.fileType, agree.mode file member]

theorem agree_info (file : Bytes) (member : file ∈ files) (ino : UInt64) :
    { sysInfo file (b.stat file) with dev := 0, ino := ino, mtime := 0 } =
      { sysInfo file (a.stat file) with
        dev := 0, ino := ino, mtime := 0, major := (b.stat file).dev >>> 8, minor := (b.stat file).dev &&& 0xff } := by
  simp only [sysInfo, agree.mode file member, agree.uid file member, agree.gid file member, agree.nlink file member,
    agree.rdev file member, agree.size file member]

theorem agree_reader (file : Bytes) (member : file ∈ files) (regular : (a.stat file).fileType = .regular) :
    b.newDeferReadCloser file = a.newDeferReadCloser file := by
  obtain ⟨readA, closeA⟩ := (agree.readable file member).1.read regular
  obtain ⟨readB, closeB⟩ := (agree.readable file member).2.read ((agree_type a b files agree file member).trans regular)
  have content := agree.content file member regular
  simp only [FileSystem.content] at content
  cases first : a.newDeferReadCloser file
  cases second : b.newDeferReadCloser file
  simp_all

theorem record_moved (m n : Inodes) (matched : Matched a b files m n) (file : Bytes) (member : file ∈ files) :
    makeReproducible (b.record file n) = (makeReproducible (a.record file m)).onDevice (b.stat file).dev := by
  have number : n.number (sysInfo file (b.stat file)).devInode = m.number (sysInfo file (a.stat file)).devInode :=
    (matched.numbers file member).symm
  have info := agree_info a b files agree file member
    ((m.number (sysInfo file (a.stat file)).devInode).getD m.inumber)
  have static : ∀ text : Bytes, _ = _ := fun text =>
    congrArg (fun i : Info => (⟨some (newBytesReadCloser text), { i with fileSize := UInt64.ofNat text.length }⟩ : Record)) info
  rw [FileSystem.record, inode_result, FileSystem.recordOf, agree_type a b files agree file member, number,
    ← matched.counter, FileSystem.record, inode_result, FileSystem.recordOf]
  cases kind : (a.stat file).fileType with
  | regular =>
      simp only [makeReproducible, Record.onDevice, info, agree_reader a b files agree file member kind]
  | symlink =>
      rw [← agree.linkname file member kind]
      exact static _
  | other => exact static []

theorem collect_moved (m n : Inodes) (matched : Matched a b files m n) (rest : List Bytes)
    (sub : ∀ file ∈ rest, file ∈ files) :
    collect b id (fun _ => makeReproducible) n rest =
      (collect a id (fun _ => makeReproducible) m rest).map
        (fun entry => (entry.1, entry.2.onDevice (b.stat entry.1).dev)) := by
  induction rest generalizing m n with
  | nil => rfl
  | cons file rest ih =>
      have member := sub file List.mem_cons_self
      have next := matched_next a b files agree m n matched file member
      simp only [collect, List.map_cons, id_eq, record_moved a b files agree m n matched file member,
        ih _ _ next (fun other there => sub other (List.mem_cons_of_mem _ there))]

end Records

section Collected

variable (fs : FileSystem)

theorem record_name (m : Inodes) (file : Bytes) : (fs.record file m).info.name = file := by
  rw [FileSystem.record, inode_result, FileSystem.recordOf]
  cases (fs.stat file).fileType <;> rfl

def storedAs (file : Bytes) : Bytes := (storedName file).getD []

theorem collected_own (m : Inodes) (files : List Bytes) :
    ∀ entry ∈ collect fs id (fun _ => makeReproducible) m files,
      nameOf entry.2 = storedAs entry.1 ∧ entry.2.onDevice (fs.stat entry.1).dev = entry.2 := by
  induction files generalizing m with
  | nil => exact fun _ impossible => by cases impossible
  | cons file rest ih =>
      intro entry member
      rcases List.mem_cons.mp member with rfl | later
      · constructor
        · exact congrArg (fun name => (storedName name).getD []) (record_name fs m file)
        · exact congrArg makeReproducible (record_on_device fs m file)
      · exact ih _ entry later

def reproducibleEntries (files : List Bytes) : List (Bytes × Record) :=
  fresh (fun entry => nameOf entry.2) [] (collect fs id (fun _ => makeReproducible) .empty files)

theorem entries_files (files : List Bytes) : (reproducibleEntries fs files).map Prod.fst = firsts storedAs files := by
  have names : reproducibleEntries fs files =
      fresh (storedAs ∘ Prod.fst) [] (collect fs id (fun _ => makeReproducible) .empty files) :=
    fresh_key_congr _ _ _ _ fun entry member => (collected_own fs .empty files entry member).1
  rw [names, ← fresh_map, collect_files, fresh_firsts]

theorem make_archive_bytes (files : List Bytes) (readable : ∀ file ∈ files, fs.Readable file) :
    ∃ last, (makeArchive bytesBuffer fs files).run ⟨.empty, newWriter []⟩ = (.ok (), last) ∧
      last.writer.rw.w = archiveBytes ((reproducibleEntries fs files).map Prod.snd) ++
        (if trailer ∈ files.map storedAs then [] else Newc.recordBytes (stored trailerRecord)) := by
  obtain ⟨seen, members, ran⟩ := archive_files_buffer fs id (fun _ => makeReproducible) readable (fun _ _ => rfl)
  rw [← reproducibleEntries] at ran
  have named : trailer ∈ seen ↔ trailer ∈ files.map storedAs := by
    have names : (collect fs id (fun _ => makeReproducible) .empty files).map (fun entry => nameOf entry.2) =
        files.map storedAs := by
      conv_rhs => rw [← collect_files fs id (fun _ => makeReproducible) .empty files, List.map_map]
      exact List.map_congr_left fun entry member => (collected_own fs .empty files entry member).1
    rw [members, names]
  generalize whole : extend (newWriter []) (archiveBytes ((reproducibleEntries fs files).map Prod.snd)) seen = writer at ran
  have names : writer.alreadyWritten = seen := by rw [← whole, extend]
  have bytes : writer.rw.w = archiveBytes ((reproducibleEntries fs files).map Prod.snd) := by rw [← whole]; rfl
  have aligned : writer.rw.pos % 4 = 0 := by
    rw [← whole]
    simpa [extend, newWriter, grow] using archive_bytes_aligned _
  rw [makeArchive, Act.run_bind_ok ran]
  simp only [archiveTrailer, write_trailer_buffer writer aligned, names, named, ← bytes]
  by_cases used : trailer ∈ files.map storedAs
  · rw [if_pos used, if_pos used, List.append_nil]
    exact ⟨_, rfl, rfl⟩
  · rw [if_neg used, if_neg used]
    exact ⟨_, rfl, rfl⟩

end Collected

-- The device numbers the header can tell apart: 32 bits of Dev >> 8 and 8 of Dev & 0xff.
def SameDevice (d e : UInt64) : Prop := d.toNat % 2 ^ 40 = e.toNat % 2 ^ 40

section Bytes

theorem device_words (d e : UInt64) :
    SameDevice d e ↔ (d >>> 8).toUInt32 = (e >>> 8).toUInt32 ∧ (d &&& 0xff).toUInt32 = (e &&& 0xff).toUInt32 := by
  have high : ∀ x : UInt64, (x >>> 8).toUInt32.toNat = x.toNat / 256 % 2 ^ 32 := by
    intro x
    rw [UInt64.toNat_toUInt32, UInt64.toNat_shiftRight, Nat.shiftRight_eq_div_pow]
    rfl
  have low : ∀ x : UInt64, (x &&& 0xff).toUInt32.toNat = x.toNat % 256 := by
    intro x
    have mask : (0xff : UInt64).toNat = 2 ^ 8 - 1 := rfl
    rw [UInt64.toNat_toUInt32, UInt64.toNat_and, mask, Nat.and_two_pow_sub_one_eq_mod]
    omega
  rw [← UInt32.toNat_inj, ← UInt32.toNat_inj, high, high, low, low, SameDevice]
  omega

theorem header_on_device (record : Record) (dev : UInt64) :
    Newc.recordHeader (record.onDevice dev) =
      { Newc.recordHeader record with major := (dev >>> 8).toUInt32, minor := (dev &&& 0xff).toUInt32 } := by
  cases reader : record.readCloser with
  | none => simp [Newc.recordHeader, Record.onDevice, reader, Newc.headerFromInfo]
  | some source => simp [Newc.recordHeader, Record.onDevice, reader, Newc.headerFromInfo]

theorem header_on_device_iff (record : Record) (d e : UInt64) :
    Newc.recordHeader (record.onDevice d) = Newc.recordHeader (record.onDevice e) ↔ SameDevice d e := by
  rw [header_on_device, header_on_device, device_words]
  simp

theorem record_bytes_header (f g : Record) (name : f.info.name = g.info.name)
    (same : Newc.recordBytes f = Newc.recordBytes g) : Newc.recordHeader f = Newc.recordHeader g := by
  have headSize : (Newc.recordHead f).length = (Newc.recordHead g).length := by
    rw [record_head_length, record_head_length, name]
  rw [Newc.recordBytes, Newc.recordBytes] at same
  have heads := (List.append_inj same (by rw [padded_length, padded_length, headSize])).1
  have head := (List.append_inj heads headSize).1
  rw [Newc.recordHead, Newc.recordHead] at head
  have text := (List.append_inj (List.append_cancel_left head)
    (by rw [header_text_length, header_text_length])).1
  have decoded := congrArg Newc.decodeHeader text
  rw [decode_header_text, decode_header_text] at decoded
  exact Option.some.inj decoded

theorem record_bytes_congr (f g : Record) (header : Newc.recordHeader f = Newc.recordHeader g)
    (name : f.info.name = g.info.name) (content : f.content = g.content) : Newc.recordBytes f = Newc.recordBytes g := by
  have head : Newc.recordHead f = Newc.recordHead g := by
    rw [Newc.recordHead, Newc.recordHead, Newc.headerText, Newc.headerText, header, name]
  rw [Newc.recordBytes, Newc.recordBytes, head, content]

theorem bytes_on_device_iff (record : Record) (d e : UInt64) :
    Newc.recordBytes (stored (record.onDevice d)) = Newc.recordBytes (stored (record.onDevice e)) ↔ SameDevice d e := by
  have moved : ∀ dev, stored (record.onDevice dev) = (stored record).onDevice dev := fun _ => rfl
  rw [moved, moved, ← header_on_device_iff (stored record)]
  constructor
  · exact record_bytes_header _ _ rfl
  · exact fun header => record_bytes_congr _ _ header rfl rfl

theorem bytes_on_device_length (record : Record) (d e : UInt64) :
    (Newc.recordBytes (stored (record.onDevice d))).length = (Newc.recordBytes (stored (record.onDevice e))).length := by
  rw [record_bytes_length, record_bytes_length, record_head_length, record_head_length]
  rfl

end Bytes

theorem entries_moved (a b : FileSystem) (files : List Bytes) (agree : Agree a b files) :
    reproducibleEntries b files =
      (reproducibleEntries a files).map (fun entry => (entry.1, entry.2.onDevice (b.stat entry.1).dev)) := by
  rw [reproducibleEntries, collect_moved a b files agree .empty .empty (empty_matched a b files) files (fun _ member => member),
    fresh_map]
  rfl

theorem entries_bytes_iff (a b : FileSystem) (files : List Bytes) (agree : Agree a b files) :
    archiveBytes ((reproducibleEntries a files).map Prod.snd) = archiveBytes ((reproducibleEntries b files).map Prod.snd) ↔
      ∀ file ∈ firsts storedAs files, SameDevice (a.stat file).dev (b.stat file).dev := by
  have own : ∀ entry ∈ reproducibleEntries a files, entry.2 = entry.2.onDevice (a.stat entry.1).dev := fun entry member =>
    (collected_own a .empty files entry (fresh_mem _ _ _ _ member)).2.symm
  rw [entries_moved a b files agree, List.map_map, archiveBytes, archiveBytes, List.flatMap_map, List.flatMap_map,
    flat_map_eq_iff, ← entries_files a files, List.forall_mem_map]
  · constructor
    · intro same entry member
      have here := same entry member
      rw [own entry member] at here
      exact (bytes_on_device_iff _ _ _).mp here
    · intro same entry member
      rw [own entry member]
      exact (bytes_on_device_iff _ _ _).mpr (same entry member)
  · intro entry member
    rw [own entry member]
    exact bytes_on_device_length _ _ _

theorem reproducible_exact (a b : FileSystem) (files : List Bytes) (agree : Agree a b files) :
    ∃ first second,
      (makeArchive bytesBuffer a files).run ⟨.empty, newWriter []⟩ = (.ok (), first) ∧
      (makeArchive bytesBuffer b files).run ⟨.empty, newWriter []⟩ = (.ok (), second) ∧
      (first.writer.rw.w = second.writer.rw.w ↔
        ∀ file ∈ firsts storedAs files, SameDevice (a.stat file).dev (b.stat file).dev) := by
  obtain ⟨first, ranA, bytesA⟩ := make_archive_bytes a files (fun file member => (agree.readable file member).1)
  obtain ⟨second, ranB, bytesB⟩ := make_archive_bytes b files (fun file member => (agree.readable file member).2)
  refine ⟨first, second, ranA, ranB, ?_⟩
  rw [bytesA, bytesB, List.append_left_inj]
  exact entries_bytes_iff a b files agree

def smallHost (dev ino : UInt64) (mtim : Int64) : FileSystem where
  lstat _ := .ok ⟨dev, ino, 1, 0o100644, 0, 0, 0, 2, mtim⟩
  readlink _ := .error (.other (str "invalid argument"))
  newDeferReadCloser _ := newBytesReadCloser (str "hi")
  hardLinks := by
    intro _ _ _ _ okA okB _ _
    cases okA
    cases okB
    exact ⟨rfl, rfl⟩

theorem small_host_regular (dev ino : UInt64) (mtim : Int64) (file : Bytes) :
    ((smallHost dev ino mtim).stat file).fileType = .regular := by
  have mode : ((smallHost dev ino mtim).stat file).mode = 0o100644 := rfl
  rw [Stat.fileType, mode]
  decide

theorem small_host_readable (dev ino : UInt64) (mtim : Int64) (file : Bytes) : (smallHost dev ino mtim).Readable file where
  lstat := rfl
  readlink := fun impossible => by cases (small_host_regular dev ino mtim file).symm.trans impossible
  read := fun _ => ⟨rfl, rfl⟩

theorem small_hosts_agree (devA devB inoA inoB : UInt64) (mtimA mtimB : Int64) (files : List Bytes) :
    Agree (smallHost devA inoA mtimA) (smallHost devB inoB mtimB) files where
  readable := fun file _ => ⟨small_host_readable devA inoA mtimA file, small_host_readable devB inoB mtimB file⟩
  mode := fun _ _ => rfl
  uid := fun _ _ => rfl
  gid := fun _ _ => rfl
  nlink := fun _ _ => rfl
  rdev := fun _ _ => rfl
  size := fun _ _ => rfl
  content := fun _ _ _ => rfl
  linkname := fun _ _ _ => rfl
  links := fun _ _ _ _ => ⟨fun _ => rfl, fun _ => rfl⟩

theorem other_times_reproducible :
    ∃ first second,
      (makeArchive bytesBuffer (smallHost 0x801 7 100) [str "etc/a", str "b"]).run ⟨.empty, newWriter []⟩ = (.ok (), first) ∧
      (makeArchive bytesBuffer (smallHost 0x801 8 200) [str "etc/a", str "b"]).run ⟨.empty, newWriter []⟩ = (.ok (), second) ∧
      first.writer.rw.w = second.writer.rw.w := by
  obtain ⟨first, second, ranA, ranB, same⟩ := reproducible_exact (smallHost 0x801 7 100) (smallHost 0x801 8 200)
    [str "etc/a", str "b"] (small_hosts_agree 0x801 0x801 7 8 100 200 _)
  exact ⟨first, second, ranA, ranB, same.mpr fun _ _ => rfl⟩

theorem device_number_shows :
    Agree (smallHost 0x801 7 100) (smallHost 0x802 7 100) [str "a"] ∧
      ((makeArchive bytesBuffer (smallHost 0x801 7 100) [str "a"]).run ⟨.empty, newWriter []⟩).2.writer.rw.w ≠
        ((makeArchive bytesBuffer (smallHost 0x802 7 100) [str "a"]).run ⟨.empty, newWriter []⟩).2.writer.rw.w := by
  refine ⟨small_hosts_agree 0x801 0x802 7 7 100 100 _, ?_⟩
  decide +kernel

end URoot.Cpio
