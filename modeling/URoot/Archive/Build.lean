import URoot.Archive.Alignment

set_option autoImplicit false

namespace URoot.Archive

open GoLib

section Build

variable (times : TimeFormat)

structure FileInfo where
  mode : UInt32
  modTime : times.Time
  size : Int64

structure Stat where
  uid : UInt32
  gid : UInt32
  rdev : UInt64

structure Visit where
  name : Bytes
  info : Except IoError (FileInfo times)
  lstat : Except Bytes Stat
  readlink : Except IoError Bytes

def modeDir : UInt32 := 0x80000000

def visit (v : Visit times) : Except IoError (File times.Time) := do
  let fi ← v.info
  let s ← v.lstat.mapError (fun err => .other (v.name ++ str ": " ++ err))
  let f : File times.Time :=
    ⟨v.name, 0, fi.mode, fi.modTime, fi.mode &&& modeDir ≠ 0, [], Int64.ofNat s.uid.toNat, Int64.ofNat s.gid.toNat, 0⟩
  match letter fi.mode with
  | 45 => .ok { f with size := fi.size }
  | 76 => do
      let link ← v.readlink
      .ok { f with link := link }
  | 68 => .ok { f with dev := s.rdev }
  | _ => .ok f

def visitEach : List (Visit times) → Except IoError (List (File times.Time))
  | [] => .ok []
  | v :: rest => do
      let f ← visit times v
      let files ← visitEach rest
      .ok (f :: files)

def buildVTOC (walk : Bytes → List (Visit times)) (dirs : List Bytes) : Except IoError (List (File times.Time)) :=
  visitEach times (dirs.flatMap walk)

theorem visit_each_at (visits : List (Visit times)) (vtoc : List (File times.Time)) (built : visitEach times visits = .ok vtoc)
    (i : Nat) (v : Visit times) (there : visits[i]? = some v) : ∃ f, vtoc[i]? = some f ∧ visit times v = .ok f := by
  induction visits generalizing vtoc i with
  | nil => cases there
  | cons first rest ih =>
      obtain ⟨f, visited, later⟩ := except_bind_inv built
      obtain ⟨files, others, done⟩ := except_bind_inv later
      cases done
      cases i with
      | zero =>
          cases there
          exact ⟨f, rfl, visited⟩
      | succ i => exact ih files others i there

theorem visit_mode (v : Visit times) (fi : FileInfo times) (f : File times.Time) (info : v.info = .ok fi)
    (visited : visit times v = .ok f) :
    f.name = v.name ∧ f.mode = fi.mode ∧ (letter fi.mode = 45 → f.size = fi.size) := by
  obtain ⟨fi', first, rest⟩ := except_bind_inv visited
  rw [info] at first
  cases first
  obtain ⟨s, _, done⟩ := except_bind_inv rest
  dsimp only at done
  split at done
  · cases done
    exact ⟨rfl, rfl, fun _ => rfl⟩
  · rename_i link
    obtain ⟨target, _, set⟩ := except_bind_inv done
    cases set
    exact ⟨rfl, rfl, fun plain => absurd (link.symm.trans plain) (by decide)⟩
  · rename_i device
    cases done
    exact ⟨rfl, rfl, fun plain => absurd (device.symm.trans plain) (by decide)⟩
  · rename_i other _ _
    cases done
    exact ⟨rfl, rfl, fun plain => absurd plain other⟩

end Build

section Letters

-- append-only, exclusive, temporary, setuid, setgid, character device and sticky
def specialBits : UInt32 := 0x70f00000

theorem masked_bit {mode mask : UInt32} (clear : mode &&& mask = 0) (i : Nat) (masked : mask.toNat.testBit i = true) :
    mode.toNat.testBit i = false := by
  have both := congrArg (fun word : UInt32 => word.toNat.testBit i) clear
  rw [UInt32.toNat_and, Nat.testBit_and, masked, Bool.and_true] at both
  exact both.trans (Nat.zero_testBit i)

theorem plain_iff (mode : UInt32) (regular : isRegular mode = true) : letter mode = 45 ↔ mode &&& specialBits = 0 := by
  have clear : mode &&& modeType = 0 := of_decide_eq_true regular
  constructor
  · intro plain
    exact clear_bits (letter_bits mode plain) (by decide)
  · intro special
    have none : (str "dalTLDpSugct").zipIdx.find? (fun pair => mode.toNat.testBit (31 - pair.2)) = none := by
      rw [List.find?_eq_none]
      intro pair member
      have covered : ∀ pair ∈ (str "dalTLDpSugct").zipIdx,
          modeType.toNat.testBit (31 - pair.2) = true ∨ specialBits.toNat.testBit (31 - pair.2) = true := by decide
      rcases covered pair member with type | bit
      · simp [masked_bit clear _ type]
      · simp [masked_bit special _ bit]
    rw [letter, none]
    rfl

theorem regular_letter (mode : UInt32) (regular : isRegular mode = true) :
    letter mode ≠ 100 ∧ letter mode ≠ 76 ∧ letter mode ≠ 68 := by
  have clear : mode &&& modeType = 0 := of_decide_eq_true regular
  cases found : (str "dalTLDpSugct").zipIdx.find? (fun pair => mode.toNat.testBit (31 - pair.2)) with
  | none =>
      rw [letter, found]
      decide
  | some pair =>
      have set := List.find?_some found
      have typed : ∀ pair ∈ (str "dalTLDpSugct").zipIdx, pair.1 = 100 ∨ pair.1 = 76 ∨ pair.1 = 68 →
          modeType.toNat.testBit (31 - pair.2) = true := by decide
      have free : ¬ (pair.1 = 100 ∨ pair.1 = 76 ∨ pair.1 = 68) := by
        intro special
        have bit := masked_bit clear _ (typed pair (List.mem_of_find?_eq_some found) special)
        rw [bit] at set
        cases set
      rw [letter, found]
      simp only [not_or] at free
      exact free

end Letters

section Classes

variable (times : TimeFormat) (opens : Bytes → Except IoError ReadCloser)

structure Agrees (f : File times.Time) (content : Bytes) : Prop where
  recorded : f.size.toInt = (content.length : Nat)
  written : ∀ out, (encodeOne times buffer opens f).run out = (.ok (), out ++ content)
  recreated : ∀ data rest pos log, data.drop pos = content ++ rest →
    (doOneFile times willing f).run ⟨⟨data, pos⟩, log⟩ = (.ok (), ⟨⟨data, pos + content.length⟩,
      log ++ [.openFile f.name f.mode, .copy f.name content, .lchown f.name f.uid f.gid]⟩)

theorem do_one_skipped (f : File times.Time) (regular : isRegular f.mode = true) (special : letter f.mode ≠ 45) (m : Machine) :
    (doOneFile times willing f).run m = (.ok (), m) := by
  obtain ⟨noDir, noLink, noDevice⟩ := regular_letter f.mode regular
  rw [doOneFile]
  split
  · exact absurd ‹letter f.mode = 100› noDir
  · exact absurd ‹letter f.mode = 45› special
  · exact absurd ‹letter f.mode = 76› noLink
  · exact absurd ‹letter f.mode = 68› noDevice
  · rfl

theorem agrees_iff (f : File times.Time) (content : Bytes) (regular : isRegular f.mode = true)
    (size : letter f.mode = 45 → f.size.toInt = (content.length : Nat)) (closeErr : Option IoError)
    (opened : opens f.name = .ok ⟨content, none, closeErr⟩) : Agrees times opens f content ↔ letter f.mode = 45 := by
  constructor
  · intro agrees
    by_contra special
    have recreated := agrees.recreated content [] 0 [] (List.append_nil content).symm
    rw [do_one_skipped times f regular special] at recreated
    cases congrArg (fun result => result.2.log) recreated
  · intro plain
    have stored : Stored times opens (fun _ => content) f := ⟨plain, size plain, closeErr, opened⟩
    exact ⟨size plain, fun out => encode_one_run times opens (fun _ => content) f out stored,
      fun data rest pos log here => do_one_plain times f content rest data pos log plain (size plain) here⟩

end Classes

theorem classes_agree_iff (times : TimeFormat) (opens : Bytes → Except IoError ReadCloser)
    (walk : Bytes → List (Visit times)) (dirs : List Bytes) (vtoc : List (File times.Time))
    (built : buildVTOC times walk dirs = .ok vtoc) (i : Nat) (v : Visit times) (there : (dirs.flatMap walk)[i]? = some v)
    (fi : FileInfo times) (info : v.info = .ok fi) (regular : isRegular fi.mode = true) (content : Bytes)
    (size : fi.size.toInt = (content.length : Nat)) (closeErr : Option IoError)
    (opened : opens v.name = .ok ⟨content, none, closeErr⟩) :
    (∃ f, vtoc[i]? = some f ∧ Agrees times opens f content) ↔ fi.mode &&& specialBits = 0 := by
  obtain ⟨f, entry, visited⟩ := visit_each_at times _ vtoc built i v there
  obtain ⟨name, mode, kept⟩ := visit_mode times v fi f info visited
  have agrees := agrees_iff times opens f content (by rw [mode]; exact regular)
    (fun plain => by rw [kept (mode ▸ plain)]; exact size) closeErr (by rw [name]; exact opened)
  rw [mode, plain_iff fi.mode regular] at agrees
  constructor
  · rintro ⟨g, found, holds⟩
    rw [entry] at found
    cases found
    exact agrees.mp holds
  · intro plain
    exact ⟨f, entry, agrees.mpr plain⟩

section Special

def epochVisit (mode : UInt32) : Visit epoch :=
  ⟨str "su", .ok ⟨mode, (), 2⟩, .ok ⟨0, 0, 0⟩, .error (.other (str "invalid argument"))⟩

def epochFile (mode : UInt32) (size : Int64) : File Unit := ⟨str "su", size, mode, (), false, [], 0, 0, 0⟩

theorem plain_file_agrees :
    ∃ f, [epochFile 0o755 2][0]? = some f ∧ Agrees epoch greetings f (str "hi") :=
  (classes_agree_iff epoch greetings (fun _ => [epochVisit 0o755]) [str "."] [epochFile 0o755 2] rfl 0 (epochVisit 0o755) rfl _ rfl
    (by decide) (str "hi") rfl none rfl).mpr (by decide)

-- A setuid file of two bytes is recorded as empty, not written, and not made again.
theorem setuid_file_skipped :
    buildVTOC epoch (fun _ => [epochVisit 0x8001ed]) [str "."] = .ok [epochFile 0x8001ed 0] ∧ isRegular 0x8001ed = true ∧
      (encodeOne epoch buffer greetings (epochFile 0x8001ed 0)).run [] = (.ok (), []) ∧
      (doOneFile epoch willing (epochFile 0x8001ed 0)).run ⟨⟨str "hi", 0⟩, []⟩ = (.ok (), ⟨⟨str "hi", 0⟩, []⟩) := by
  refine ⟨rfl, by decide, rfl, rfl⟩

end Special

end URoot.Archive
