import URoot.Ldd.Follow

set_option autoImplicit false

namespace URoot.Ldd

open GoLib

-- os.Open and debug/elf: the data of the .interp section if there is one, and
-- whether the file type is ET_DYN.
inductive Probe where
  | openFails (err : Bytes)
  | notElf
  | elf (interp : Option (Except Bytes Bytes)) (shared : Bool)

structure Host where
  fs : Bytes → Node
  probe : Bytes → Probe
  ldSo : Except Bytes Bytes
  output : Bytes → Bytes → Except Bytes Bytes

structure Maps where
  list : Names
  interps : Names

section Ldd

variable (host : Host)

-- A file without an interpreter is left out, unless it is a shared library.
def named (interp : Bytes) (shared : Bool) : Except Failure (Option Bytes) :=
  if interp ≠ [] then .ok (some interp)
  else if shared then
    match host.ldSo with
    | .ok found => .ok (some found)
    | .error err => .error (.ldSo err)
  else .ok none

-- i[:len(i)-1] panics on an empty section.
def interpreter (n : Bytes) : Except Failure (Option Bytes) :=
  match host.probe n with
  | .openFails err => .error (.openFile n err)
  | .notElf => .ok none
  | .elf none shared => named host [] shared
  | .elf (some (.error err)) _ => .error (.interpData err)
  | .elf (some (.ok i)) shared =>
      if i.take 2 = str "#!" then .ok none
      else if i = [] then .error .sliceBounds
      else named host i.dropLast shared

-- The third fields of the lines whose second field is an arrow.
def libraries (o : Bytes) : List Bytes :=
  (o.splitOn 10).filterMap fun p =>
    match p.splitOn 32 with
    | _ :: arrow :: name :: _ => if arrow = str "=>" ∧ name ≠ [] then some name else none
    | _ => none

def runinterp (interp file : Bytes) : Except Failure (List Bytes) :=
  match host.output interp file with
  | .ok o => .ok (libraries o)
  | .error err => .error (.runinterp err)

def followEach (fs : Bytes → Node) (fuel : Nat) : List Bytes → Act (Stop Failure) Names Unit
  | [] => pure ()
  | l :: rest => do
      follow fs fuel l
      followEach fs fuel rest

def followInterp (fuel : Nat) (interp : Bytes) : Act (Stop Failure) Maps Unit := do
  let maps ← Act.get
  if (maps.interps interp).isSome then pure ()
  else Act.within Maps.interps (fun maps names => { maps with interps := names }) id (follow host.fs fuel interp)

def lddFile (fuel : Nat) (n : Bytes) : Act (Stop Failure) Maps Unit := do
  let found ← Act.ofExcept ((interpreter host n).mapError .raised)
  match found with
  | none => pure ()
  | some interp => do
      followInterp host fuel interp
      let names ← Act.ofExcept ((runinterp host interp n).mapError .raised)
      Act.within Maps.list (fun maps names => { maps with list := names }) id (followEach host.fs fuel names)

def ldd (fuel : Nat) : List Bytes → Act (Stop Failure) Maps Unit
  | [] => pure ()
  | n :: rest => do
      lddFile host fuel n
      ldd fuel rest

end Ldd

section Whole

variable (fs : Bytes → Node)

def Named (names : Names) : Prop := ∀ l info, names l = some info → info.fullName = l

structure Whole (names : Names) : Prop where
  closed : Closed fs names
  named : Named names

theorem whole_empty : Whole fs (fun _ => none) :=
  ⟨fun _ _ present _ => absurd rfl present, fun _ _ entry => by cases entry⟩

theorem named_add (names : Names) (l : Bytes) (node : Node) (named : Named names) : Named (names.add l node) := by
  intro name info entry
  by_cases same : name = l
  · rw [same, Names.add, Function.update_self] at entry
    cases entry
    exact same.symm
  · rw [add_other names l node same] at entry
    exact named name info entry

theorem follow_named (fuel : Nat) (l : Bytes) : Act.Keeps Named (follow fs fuel l) := by
  induction fuel generalizing l with
  | zero => exact Act.keeps_fail _ _
  | succ fuel ih =>
      intro names named
      by_cases absent : names l = none
      · cases node : fs l with
        | missing => rwa [follow_missing fuel absent node]
        | regular =>
            rw [follow_regular fuel absent node]
            exact named_add names l _ named
        | other =>
            rw [follow_other fuel absent node]
            exact named_add names l _ named
        | symlink next =>
            rw [follow_link fuel absent node]
            exact ih _ _ (named_add names l _ named)
      · rwa [follow_found fuel absent]

theorem follow_whole {fuel : Nat} {l : Bytes} {names last : Names} (whole : Whole fs names)
    (done : (follow fs fuel l).run names = (.ok (), last)) : Whole fs last := by
  have followed := follow_ok (pending_start fs l names whole.closed) done
  have named := follow_named fs fuel l names whole.named
  rw [done] at named
  exact ⟨followed.closed, named⟩

theorem follow_each_whole (fuel : Nat) (paths : List Bytes) (names last : Names) (whole : Whole fs names)
    (done : (followEach fs fuel paths).run names = (.ok (), last)) : Whole fs last := by
  induction paths generalizing names with
  | nil =>
      cases done
      exact whole
  | cons l rest ih =>
      obtain ⟨_, next, first, later⟩ := Act.run_bind_inv done
      exact ih next (follow_whole fs whole first) later

end Whole

section Maps

variable (host : Host)

structure MapsWhole (maps : Maps) : Prop where
  list : Whole host.fs maps.list
  interps : Whole host.fs maps.interps

theorem follow_interp_whole {fuel : Nat} {interp : Bytes} {maps last : Maps} (whole : MapsWhole host maps)
    (done : (followInterp host fuel interp).run maps = (.ok (), last)) : MapsWhole host last := by
  rw [followInterp, Act.run_get_bind] at done
  by_cases known : (maps.interps interp).isSome = true
  · rw [if_pos known] at done
    cases done
    exact whole
  · rw [if_neg known] at done
    obtain ⟨interps, ran, rfl⟩ := Act.run_within_inv done
    exact ⟨whole.list, follow_whole host.fs whole.interps ran⟩

theorem ldd_file_whole (fuel : Nat) (n : Bytes) (maps last : Maps) (whole : MapsWhole host maps)
    (done : (lddFile host fuel n).run maps = (.ok (), last)) : MapsWhole host last := by
  obtain ⟨found, next, probed, done⟩ := Act.run_bind_inv done
  obtain rfl : maps = next := congrArg Prod.snd probed
  cases found with
  | none =>
      cases done
      exact whole
  | some interp =>
      obtain ⟨_, middle, first, done⟩ := Act.run_bind_inv done
      obtain ⟨names, same, listed, done⟩ := Act.run_bind_inv done
      obtain rfl : middle = same := congrArg Prod.snd listed
      obtain ⟨list, ran, rfl⟩ := Act.run_within_inv done
      have ready := follow_interp_whole host whole first
      exact ⟨follow_each_whole host.fs fuel names _ list ready.list ran, ready.interps⟩

theorem ldd_whole (fuel : Nat) (files : List Bytes) (maps last : Maps) (whole : MapsWhole host maps)
    (done : (ldd host fuel files).run maps = (.ok (), last)) : MapsWhole host last := by
  induction files generalizing maps with
  | nil =>
      cases done
      exact whole
  | cons n rest ih =>
      obtain ⟨_, next, first, later⟩ := Act.run_bind_inv done
      exact ih next (ldd_file_whole host fuel n maps next whole first) later

def Returned (maps : Maps) (info : FileInfo) : Prop := ∃ l, maps.interps l = some info ∨ maps.list l = some info

end Maps

end URoot.Ldd
