import URoot.Lib.Io

set_option autoImplicit false

namespace URoot.Vboot

open GoLib Act

abbrev Path := Bytes

def tpmDevice : Path := str "/dev/tpm0"
def mountPath : Path := str "/mnt/vboot"
def filesystem : Bytes := str "ext3"

structure Flags where
  publicKey : Path := str "/etc/sig.pub"
  pcr : Nat := 12
  bootDev : Path := str "/dev/sda1"
  linuxKernel : Path := str "/mnt/vboot/kernel"
  linuxKernelSignature : Path := str "/mnt/vboot/kernel.sig"
  initrd : Path := str "/mnt/vboot/initrd"
  initrdSignature : Path := str "/mnt/vboot/initrd.sig"
  noTPM : Bool := false

structure Machine where
  mkdirAll : Option IoError
  mount : Option IoError
  readFile : Path → Except IoError Bytes
  openTPM : Option IoError
  lookPath : Except IoError Path
  exec : Option IoError

structure Crypto where
  verify : Bytes → Bytes → Bytes → Bool
  sha256 : Bytes → Bytes
  sha1 : Bytes → Bytes

inductive Event where
  | mkdirAll (path : Path)
  | mount (device path filesystem : Bytes)
  | readFile (path : Path)
  | openTPM (device : Path)
  | pcrExtend (pcr : UInt32) (digest : Bytes)
  | lookPath (name : Bytes)
  | exec (binary : Path) (args : List Bytes)
deriving DecidableEq, Repr

-- die powers the machine off or panics; nothing after it runs. Its argument is
-- nil when a signature was rejected.
abbrev Boot (α : Type) := Act (Option IoError) (List Event) α

def perform (event : Event) : Boot Unit := ⟨fun log => (.ok (), log ++ [event])⟩

def dieOn (result : Option IoError) : Boot Unit :=
  match result with
  | none => pure ()
  | some e => Act.fail (some e)

def valueOrDie {α : Type} (result : Except IoError α) : Boot α :=
  match result with
  | .ok value => pure value
  | .error e => Act.fail (some e)

abbrev Files := List (Path × Bytes)

-- Indexing a Go map: the last value stored under the key, or an empty slice.
def Files.get (files : Files) (path : Path) : Bytes := (files.lookup path).getD []

def readFiles (machine : Machine) : List Path → Files → Boot Files
  | [], files => pure files
  | element :: rest, files => do
      perform (.readFile element)
      let data ← valueOrDie (machine.readFile element)
      readFiles machine rest ((element, data) :: files)

def paths (flags : Flags) : List Path :=
  [flags.publicKey, flags.linuxKernel, flags.linuxKernelSignature, flags.initrd, flags.initrdSignature]

def measure (crypto : Crypto) (flags : Flags) (machine : Machine) (files : Files) : Boot Unit := do
  perform (.openTPM tpmDevice)
  dieOn machine.openTPM
  perform (.pcrExtend (UInt32.ofNat flags.pcr) (crypto.sha1 (files.get flags.linuxKernel)))
  perform (.pcrExtend (UInt32.ofNat flags.pcr) (crypto.sha1 (files.get flags.initrd)))

def launch (flags : Flags) (machine : Machine) : Boot Unit := do
  perform (.lookPath (str "kexec"))
  let binary ← valueOrDie machine.lookPath
  perform (.exec binary [str "kexec", str "-initrd", flags.initrd, flags.linuxKernel])
  dieOn machine.exec

def verifyAndLaunch (crypto : Crypto) (flags : Flags) (machine : Machine) (files : Files) : Boot Unit := do
  let kernelDigest := crypto.sha256 (files.get flags.linuxKernel)
  let initrdDigest := crypto.sha256 (files.get flags.initrd)
  let kernelSuccess := crypto.verify (files.get flags.publicKey) kernelDigest (files.get flags.linuxKernelSignature)
  let initrdSuccess := crypto.verify (files.get flags.publicKey) initrdDigest (files.get flags.linuxKernelSignature)
  Act.require (kernelSuccess ∧ initrdSuccess) none
  if flags.noTPM then pure () else measure crypto flags machine files
  launch flags machine

def main (crypto : Crypto) (flags : Flags) (machine : Machine) : Boot Unit := do
  perform (.mkdirAll mountPath)
  dieOn machine.mkdirAll
  perform (.mount flags.bootDev mountPath filesystem)
  dieOn machine.mount
  let files ← readFiles machine (paths flags) []
  verifyAndLaunch crypto flags machine files

def Event.isExec : Event → Bool
  | .exec _ _ => true
  | _ => false

def reachesExec (crypto : Crypto) (flags : Flags) (machine : Machine) : Bool :=
  ((main crypto flags machine).run []).2.any Event.isExec

def Machine.content (machine : Machine) (path : Path) : Bytes :=
  match machine.readFile path with
  | .ok data => data
  | .error _ => []

structure StepsSucceed (flags : Flags) (machine : Machine) : Prop where
  mkdirAll : machine.mkdirAll = none
  mount : machine.mount = none
  readFile : ∀ path ∈ paths flags, ∃ data, machine.readFile path = .ok data
  openTPM : flags.noTPM = false → machine.openTPM = none
  lookPath : ∃ binary, machine.lookPath = .ok binary

section Runs

def Quiet (log : List Event) : Prop := log.any Event.isExec = false

theorem quiet_perform (log : List Event) (event : Event) (quiet : Quiet log) (other : event.isExec = false) :
    Quiet (log ++ [event]) := by
  simp only [Quiet, List.any_append, List.any_cons, List.any_nil, Bool.or_false] at quiet ⊢
  rw [quiet, other]
  rfl

theorem read_files_done {machine : Machine} {elements : List Path} (files : Files) (log : List Event)
    (quiet : Quiet log) (readable : ∀ path ∈ elements, ∃ data, machine.readFile path = .ok data) :
    ∃ result next, (readFiles machine elements files).run log = (.ok result, next) ∧ Quiet next ∧
      (∀ path, result.get path = if path ∈ elements then machine.content path else files.get path) := by
  induction elements generalizing files log with
  | nil => exact ⟨files, log, rfl, quiet, by simp⟩
  | cons element rest ih =>
      obtain ⟨data, read⟩ := readable element (by simp)
      obtain ⟨result, next, done, nextQuiet, gets⟩ := ih ((element, data) :: files) (log ++ [.readFile element])
        (quiet_perform log _ quiet rfl) (fun path member => readable path (List.mem_cons_of_mem _ member))
      refine ⟨result, next, ?_, nextQuiet, ?_⟩
      · simpa only [readFiles, perform, run_bind, valueOrDie, read, run_pure] using done
      · intro path
        have content : machine.content element = data := by simp [Machine.content, read]
        rw [gets path]
        by_cases later : path ∈ rest
        · simp [later]
        · by_cases here : path = element
          · subst path
            simp [later, Files.get, content]
          · have different : (path == element) = false := by simpa using here
            simp [later, here, Files.get, List.lookup_cons, different]

theorem read_files_dies {machine : Machine} {elements : List Path} (files : Files) (log : List Event)
    (quiet : Quiet log) (unreadable : ¬ ∀ path ∈ elements, ∃ data, machine.readFile path = .ok data) :
    ∃ e next, (readFiles machine elements files).run log = (.error e, next) ∧ Quiet next := by
  induction elements generalizing files log with
  | nil => simp at unreadable
  | cons element rest ih =>
      have after := quiet_perform log (.readFile element) quiet rfl
      cases read : machine.readFile element with
      | error e => exact ⟨some e, _, by simp [readFiles, perform, run_bind, valueOrDie, read], after⟩
      | ok data =>
          have restUnreadable : ¬ ∀ path ∈ rest, ∃ data, machine.readFile path = .ok data := by
            intro all
            apply unreadable
            intro path member
            rcases List.mem_cons.mp member with rfl | later
            · exact ⟨data, read⟩
            · exact all path later
          obtain ⟨e, next, dead, nextQuiet⟩ := ih ((element, data) :: files) _ after restUnreadable
          exact ⟨e, next, by simpa only [readFiles, perform, run_bind, valueOrDie, read, run_pure] using dead,
            nextQuiet⟩

theorem measure_done (crypto : Crypto) (flags : Flags) (machine : Machine) (files : Files) (log : List Event)
    (quiet : Quiet log) (present : machine.openTPM = none) :
    ∃ next, (measure crypto flags machine files).run log = (.ok (), next) ∧ Quiet next := by
  refine ⟨log ++ [.openTPM tpmDevice] ++ [.pcrExtend (UInt32.ofNat flags.pcr) (crypto.sha1 (files.get flags.linuxKernel))] ++
    [.pcrExtend (UInt32.ofNat flags.pcr) (crypto.sha1 (files.get flags.initrd))], ?_, ?_⟩
  · simp only [measure, perform, run_bind, dieOn, present, run_pure]
  · exact quiet_perform _ _ (quiet_perform _ _ (quiet_perform _ _ quiet rfl) rfl) rfl

theorem measure_dies (crypto : Crypto) (flags : Flags) (machine : Machine) (files : Files) (log : List Event)
    (quiet : Quiet log) (e : IoError) (absent : machine.openTPM = some e) :
    ∃ next, (measure crypto flags machine files).run log = (.error (some e), next) ∧ Quiet next := by
  refine ⟨_, ?_, quiet_perform log (.openTPM tpmDevice) quiet rfl⟩
  simp [measure, perform, run_bind, dieOn, absent]

theorem launch_reaches (flags : Flags) (machine : Machine) (log : List Event) (quiet : Quiet log) :
    ((launch flags machine).run log).2.any Event.isExec = true ↔ ∃ binary, machine.lookPath = .ok binary := by
  cases found : machine.lookPath with
  | error e =>
      have still := quiet_perform log (.lookPath (str "kexec")) quiet rfl
      simp only [launch, perform, run_bind, valueOrDie, found, run_fail]
      rw [show (log ++ [Event.lookPath (str "kexec")]).any Event.isExec = false from still]
      simp
  | ok binary => cases result : machine.exec <;>
      simp [launch, perform, run_bind, valueOrDie, found, dieOn, result, Event.isExec]

theorem dead_not_reaching {α β : Type} (x : Boot α) (f : α → Boot β) (log next : List Event) (e : Option IoError)
    (dead : x.run log = (.error e, next)) (quiet : Quiet next) :
    ¬ ((x >>= f).run log).2.any Event.isExec = true := by
  rw [run_bind_error dead]
  exact (Bool.not_eq_true _).mpr quiet

theorem verify_and_launch_reaches (crypto : Crypto) (flags : Flags) (machine : Machine) (files : Files)
    (log : List Event) (quiet : Quiet log) :
    ((verifyAndLaunch crypto flags machine files).run log).2.any Event.isExec = true ↔
      (crypto.verify (files.get flags.publicKey) (crypto.sha256 (files.get flags.linuxKernel))
          (files.get flags.linuxKernelSignature) = true ∧
        crypto.verify (files.get flags.publicKey) (crypto.sha256 (files.get flags.initrd))
          (files.get flags.linuxKernelSignature) = true) ∧
      (flags.noTPM = false → machine.openTPM = none) ∧ ∃ binary, machine.lookPath = .ok binary := by
  rw [verifyAndLaunch]
  by_cases accepted : crypto.verify (files.get flags.publicKey) (crypto.sha256 (files.get flags.linuxKernel))
      (files.get flags.linuxKernelSignature) = true ∧
    crypto.verify (files.get flags.publicKey) (crypto.sha256 (files.get flags.initrd))
      (files.get flags.linuxKernelSignature) = true
  · rw [run_require_bind _ _ _ accepted]
    cases skipped : flags.noTPM with
    | true =>
        rw [if_pos rfl]
        exact (launch_reaches flags machine log quiet).trans (by simp [accepted])
    | false =>
        rw [if_neg (by simp)]
        cases tpm : machine.openTPM with
        | none =>
            obtain ⟨next, done, still⟩ := measure_done crypto flags machine files log quiet tpm
            rw [run_bind_ok done, launch_reaches flags machine next still]
            simp [accepted]
        | some e =>
            obtain ⟨next, dead, still⟩ := measure_dies crypto flags machine files log quiet e tpm
            exact iff_of_false (dead_not_reaching _ _ _ _ _ dead still) (by simp)
  · refine iff_of_false (dead_not_reaching _ _ _ _ none ?_ quiet) (fun gate => accepted gate.1)
    rw [Act.require, if_neg accepted, run_fail]

end Runs

theorem reaches_exec_iff (crypto : Crypto) (flags : Flags) (machine : Machine) :
    reachesExec crypto flags machine = true ↔
      StepsSucceed flags machine ∧
      crypto.verify (machine.content flags.publicKey) (crypto.sha256 (machine.content flags.linuxKernel))
        (machine.content flags.linuxKernelSignature) = true ∧
      crypto.verify (machine.content flags.publicKey) (crypto.sha256 (machine.content flags.initrd))
        (machine.content flags.linuxKernelSignature) = true := by
  have started : Quiet ([] ++ [Event.mkdirAll mountPath]) := rfl
  rw [reachesExec, main, run_bind_ok rfl]
  cases made : machine.mkdirAll with
  | some e =>
      refine iff_of_false (dead_not_reaching _ _ _ _ (some e) rfl started) ?_
      rintro ⟨steps, _⟩
      cases made.symm.trans steps.mkdirAll
  | none =>
      have mounting := quiet_perform _ (.mount flags.bootDev mountPath filesystem) started rfl
      rw [run_bind_ok rfl, run_bind_ok rfl]
      cases mounted : machine.mount with
      | some e =>
          refine iff_of_false (dead_not_reaching _ _ _ _ (some e) rfl mounting) ?_
          rintro ⟨steps, _⟩
          cases mounted.symm.trans steps.mount
      | none =>
          rw [run_bind_ok rfl]
          by_cases readable : ∀ path ∈ paths flags, ∃ data, machine.readFile path = .ok data
          · obtain ⟨files, log, done, quiet, gets⟩ := read_files_done [] _ mounting readable
            have content : ∀ path ∈ paths flags, files.get path = machine.content path := by
              intro path member
              rw [gets path, if_pos member]
            rw [run_bind_ok done, verify_and_launch_reaches crypto flags machine files log quiet,
              content flags.publicKey (by simp [paths]), content flags.linuxKernel (by simp [paths]),
              content flags.linuxKernelSignature (by simp [paths]), content flags.initrd (by simp [paths])]
            constructor
            · rintro ⟨accepted, tpm, found⟩
              exact ⟨⟨made, mounted, readable, tpm, found⟩, accepted⟩
            · rintro ⟨steps, accepted⟩
              exact ⟨accepted, steps.openTPM, steps.lookPath⟩
          · obtain ⟨e, log, dead, quiet⟩ := read_files_dies [] _ mounting readable
            refine iff_of_false (dead_not_reaching _ _ _ _ e dead quiet) ?_
            rintro ⟨steps, _⟩
            exact readable steps.readFile

def Gate (crypto : Crypto) (flags : Flags) (machine : Machine) : Prop :=
  StepsSucceed flags machine ∧
  crypto.verify (machine.content flags.publicKey) (crypto.sha256 (machine.content flags.linuxKernel))
    (machine.content flags.linuxKernelSignature) = true ∧
  crypto.verify (machine.content flags.publicKey) (crypto.sha256 (machine.content flags.initrd))
    (machine.content flags.initrdSignature) = true

-- The gate is right exactly when it is closed before the initrd is looked at,
-- or the two signatures get the same verdict on the initrd's digest.
theorem exec_gate_exact (crypto : Crypto) (flags : Flags) (machine : Machine) :
    (reachesExec crypto flags machine = true ↔ Gate crypto flags machine) ↔
      ((StepsSucceed flags machine ∧
          crypto.verify (machine.content flags.publicKey) (crypto.sha256 (machine.content flags.linuxKernel))
            (machine.content flags.linuxKernelSignature) = true) →
        crypto.verify (machine.content flags.publicKey) (crypto.sha256 (machine.content flags.initrd))
            (machine.content flags.linuxKernelSignature) =
          crypto.verify (machine.content flags.publicKey) (crypto.sha256 (machine.content flags.initrd))
            (machine.content flags.initrdSignature)) := by
  rw [reaches_exec_iff, Gate]
  constructor
  · rintro agree ⟨steps, kernel⟩
    rw [Bool.eq_iff_iff]
    constructor
    · exact fun initrd => (agree.mp ⟨steps, kernel, initrd⟩).2.2
    · exact fun initrd => (agree.mpr ⟨steps, kernel, initrd⟩).2.2
  · intro same
    constructor
    · rintro ⟨steps, kernel, initrd⟩
      exact ⟨steps, kernel, (same ⟨steps, kernel⟩) ▸ initrd⟩
    · rintro ⟨steps, kernel, initrd⟩
      exact ⟨steps, kernel, (same ⟨steps, kernel⟩).symm ▸ initrd⟩

-- A kernel and an initrd that are both signed correctly: the signature of a
-- message under a key is modelled as the key followed by the message.
def signedImages : Machine where
  mkdirAll := none
  mount := none
  readFile path :=
    if path = str "/etc/sig.pub" then .ok (str "P")
    else if path = str "/mnt/vboot/kernel" then .ok (str "K")
    else if path = str "/mnt/vboot/kernel.sig" then .ok (str "PK")
    else if path = str "/mnt/vboot/initrd" then .ok (str "I")
    else if path = str "/mnt/vboot/initrd.sig" then .ok (str "PI")
    else .error (.other (str "no such file"))
  openTPM := none
  lookPath := .ok (str "/bin/kexec")
  exec := none

def concatenation : Crypto where
  verify key digest signature := signature = key ++ digest
  sha256 := id
  sha1 := id

theorem signed_initrd_rejected :
    ¬ (reachesExec concatenation {} signedImages = true ↔ Gate concatenation {} signedImages) := by
  have isOpen : Gate concatenation {} signedImages := by
    refine ⟨⟨rfl, rfl, ?_, fun _ => rfl, ⟨_, rfl⟩⟩, by decide, by decide⟩
    intro path member
    simp only [paths, List.mem_cons, List.not_mem_nil, or_false] at member
    rcases member with rfl | rfl | rfl | rfl | rfl
    · exact ⟨str "P", by decide⟩
    · exact ⟨str "K", by decide⟩
    · exact ⟨str "PK", by decide⟩
    · exact ⟨str "I", by decide⟩
    · exact ⟨str "PI", by decide⟩
  have closed : reachesExec concatenation {} signedImages = false := by decide
  intro agree
  rw [agree.mpr isOpen] at closed
  cases closed

end URoot.Vboot
