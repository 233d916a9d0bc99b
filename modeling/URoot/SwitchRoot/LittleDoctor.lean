import URoot.Lib.Io

set_option autoImplicit false

namespace URoot.SwitchRoot

open GoLib Act

-- What the paths below a path show. Instance is the file system a node lies on, mounted
-- says that the node is the root of a mount.
mutual

inductive Node where
  | file (inst : Nat) (mounted : Bool)
  | dir (inst : Nat) (mounted : Bool) (children : Forest)

inductive Forest where
  | nil
  | cons (name : Bytes) (child : Node) (tail : Forest)

end

def Node.inst : Node → Nat
  | .file inst _ => inst
  | .dir inst _ _ => inst

def Node.mounted : Node → Bool
  | .file _ mounted => mounted
  | .dir _ mounted _ => mounted

def Forest.names : Forest → List Bytes
  | .nil => []
  | .cons name _ tail => name :: tail.names

def Forest.get (target : Bytes) : Forest → Option Node
  | .nil => none
  | .cons name child tail => if name = target then some child else tail.get target

def Forest.put (target : Bytes) (left : Option Node) : Forest → Forest
  | .nil => .nil
  | .cons name child tail =>
      if name = target then
        match left with
        | none => tail
        | some result => .cons name result tail
      else .cons name child (tail.put target left)

inductive Errno where
  | noEnt
  | busy
  | notEmpty
  | other (code : Nat)
deriving DecidableEq, Repr

inductive Call where
  | statfs
  | openFile
  | stat
  | readdirnames
  | remove
deriving DecidableEq, Repr

-- A failed Stat leaves fileStat nil, and IsDir is called on it.
inductive DoctorError where
  | sys (call : Call) (path : List Bytes) (err : Errno)
  | nilStat
  | nesting
deriving DecidableEq, Repr

section Model

-- The state is what the path names; a call on Join(path, name) is a run within that entry.
-- Any system call may also fail for a reason of its own.
variable (fsType : Nat → Int) (faults : Call → List Bytes → Option Errno)

def system (call : Call) (path : List Bytes) : Act DoctorError (Option Node) Node :=
  ⟨fun s =>
    match faults call path, s with
    | some e, _ => (.error (.sys call path e), s)
    | none, none => (.error (.sys call path .noEnt), s)
    | none, some node => (.ok node, s)⟩

-- file.Stat(), with the nil result of a failed call used before the error is looked at.
def fileStat (path : List Bytes) : Act DoctorError (Option Node) Node :=
  ⟨fun s =>
    match faults .stat path, s with
    | none, some node => (.ok node, s)
    | _, _ => (.error .nilStat, s)⟩

def remove (path : List Bytes) : Act DoctorError (Option Node) Unit := do
  let node ← system faults .remove path
  if node.mounted then Act.fail (.sys .remove path .busy)
  else
    match node with
    | .dir _ _ (.cons _ _ _) => Act.fail (.sys .remove path .notEmpty)
    | .dir _ _ .nil => Act.set none
    | .file _ _ => Act.set none

def childAt (name : Bytes) : Option Node → Option Node
  | some (.dir _ _ children) => children.get name
  | _ => none

def putChild (name : Bytes) (s left : Option Node) : Option Node :=
  match s with
  | some (.dir inst mounted children) => some (.dir inst mounted (children.put name left))
  | other => other

-- The removal of the directory stands inside the loop over its names.
def eachName (doctor : Bytes → Act DoctorError (Option Node) Unit) (removal : Act DoctorError (Option Node) Unit) :
    List Bytes → Act DoctorError (Option Node) Unit
  | [] => pure ()
  | name :: rest =>
      if name = str "." ∨ name = str ".." then eachName doctor removal rest
      else do
        doctor name
        removal
        eachName doctor removal rest

def littleDoctor (t : Int) : Nat → List Bytes → Act DoctorError (Option Node) Unit
  | 0, _ => Act.fail .nesting
  | depth + 1, path => do
      let pathFS ← system faults .statfs path
      if fsType pathFS.inst ≠ t then pure ()
      else do
        let _ ← system faults .openFile path
        let stat ← fileStat faults path
        match stat with
        | .dir _ _ children => do
            let _ ← system faults .readdirnames path
            eachName
              (fun name => Act.within (childAt name) (putChild name) id (littleDoctor t depth (path ++ [name])))
              (remove faults path) children.names
        | .file _ _ => remove faults path

end Model

section Inversion

variable (fsType : Nat → Int) (faults : Call → List Bytes → Option Errno)

def working (_ : Call) (_ : List Bytes) : Option Errno := none

theorem system_run (call : Call) (path : List Bytes) (node : Node) :
    (system faults call path).run (some node) =
      match faults call path with
      | some e => (.error (.sys call path e), some node)
      | none => (.ok node, some node) := by
  rw [system]
  cases faults call path <;> rfl

theorem file_stat_run (path : List Bytes) (node : Node) :
    (fileStat faults path).run (some node) =
      match faults .stat path with
      | some _ => (.error .nilStat, some node)
      | none => (.ok node, some node) := by
  rw [fileStat]
  cases faults .stat path <;> rfl

def Stopped (n : Node) (result : Except DoctorError Unit) (left : Option Node) : Prop :=
  left = some n ∧ (∃ e, result = .error e ∧ e ≠ .nesting) ∧ faults ≠ working

theorem stopped_of_fault (n : Node) (e : DoctorError) (call : Call) (path : List Bytes) (err : Errno)
    (fault : faults call path = some err) (fits : e ≠ .nesting) : Stopped faults n (.error e) (some n) := by
  refine ⟨rfl, ⟨e, rfl, fits⟩, ?_⟩
  intro none
  rw [none] at fault
  cases fault

def Full (n : Node) : Prop := ∃ inst mounted name child tail, n = .dir inst mounted (.cons name child tail)

inductive Removal (n : Node) : Except DoctorError Unit → Option Node → Prop where
  | refused (e : DoctorError) (known : e ≠ .nesting) (why : faults ≠ working ∨ n.mounted = true ∨ Full n) :
      Removal n (.error e) (some n)
  | done (free : n.mounted = false) (empty : ¬ Full n) : Removal n (.ok ()) none

theorem remove_inv {path : List Bytes} {n : Node} {result : Except DoctorError Unit} {left : Option Node}
    (ran : (remove faults path).run (some n) = (result, left)) : Removal faults n result left := by
  have first := system_run faults .remove path n
  cases fault : faults .remove path with
  | some e =>
      rw [fault] at first
      rw [remove, run_bind_error first] at ran
      cases ran
      refine .refused _ (by simp) (Or.inl ?_)
      intro none
      rw [none] at fault
      cases fault
  | none =>
      rw [fault] at first
      rw [remove, run_bind_ok first] at ran
      by_cases busy : n.mounted = true
      · rw [if_pos busy] at ran
        cases ran
        exact .refused _ (by simp) (Or.inr (Or.inl busy))
      · rw [if_neg busy] at ran
        have free : n.mounted = false := Bool.eq_false_iff.mpr busy
        cases n with
        | file inst mounted =>
            cases ran
            exact .done free (by simp [Full])
        | dir inst mounted children =>
            cases children with
            | nil =>
                cases ran
                exact .done free (by simp [Full])
            | cons name child tail =>
                cases ran
                exact .refused _ (by simp) (Or.inr (Or.inr ⟨inst, mounted, name, child, tail, rfl⟩))

def rest (name : Bytes) (inner : Option Node) (tail : Forest) : Forest :=
  match inner with
  | none => tail
  | some child => .cons name child tail

theorem put_first (name : Bytes) (child : Node) (tail : Forest) (inner : Option Node) :
    (Forest.cons name child tail).put name inner = rest name inner tail := by
  cases inner with
  | none => simp [Forest.put, rest]
  | some left => simp [Forest.put, rest]

inductive Outcome (t : Int) (depth : Nat) (path : List Bytes) : Node → Except DoctorError Unit → Option Node → Prop where
  | stopped (n : Node) (result : Except DoctorError Unit) (left : Option Node) (stop : Stopped faults n result left) :
      Outcome t depth path n result left
  | foreign (n : Node) (differs : fsType n.inst ≠ t) : Outcome t depth path n (.ok ()) (some n)
  | file (inst : Nat) (mounted : Bool) (result : Except DoctorError Unit) (left : Option Node) (same : fsType inst = t)
      (removal : Removal faults (.file inst mounted) result left) : Outcome t depth path (.file inst mounted) result left
  | empty (inst : Nat) (mounted : Bool) (same : fsType inst = t) :
      Outcome t depth path (.dir inst mounted .nil) (.ok ()) (some (.dir inst mounted .nil))
  | childFailed (inst : Nat) (mounted : Bool) (name : Bytes) (child : Node) (tail : Forest) (e : DoctorError)
      (inner : Option Node) (same : fsType inst = t)
      (ran : (littleDoctor fsType faults t depth (path ++ [name])).run (some child) = (.error e, inner)) :
      Outcome t depth path (.dir inst mounted (.cons name child tail)) (.error e) (some (.dir inst mounted (rest name inner tail)))
  | childDone (inst : Nat) (mounted : Bool) (name : Bytes) (child : Node) (tail : Forest) (inner : Option Node)
      (result : Except DoctorError Unit) (left : Option Node) (same : fsType inst = t)
      (ran : (littleDoctor fsType faults t depth (path ++ [name])).run (some child) = (.ok (), inner))
      (removal : Removal faults (.dir inst mounted (rest name inner tail)) result left) :
      Outcome t depth path (.dir inst mounted (.cons name child tail)) result left

-- The loop never gets to a second name: the directory cannot be removed while it is there.
theorem each_name_inv {t : Int} {depth : Nat} {path : List Bytes} {inst : Nat} {mounted : Bool} {name : Bytes} {child : Node}
    {tail : Forest} {result : Except DoctorError Unit} {left : Option Node} (same : fsType inst = t)
    (noDot : ¬ (name = str "." ∨ name = str ".."))
    (ran : (eachName (fun name => Act.within (childAt name) (putChild name) id (littleDoctor fsType faults t depth (path ++ [name])))
      (remove faults path) (name :: tail.names)).run (some (.dir inst mounted (.cons name child tail))) = (result, left)) :
    Outcome fsType faults t depth path (.dir inst mounted (.cons name child tail)) result left := by
  rcases inner : (littleDoctor fsType faults t depth (path ++ [name])).run (some child) with ⟨innerResult, innerLeft⟩
  have entry : childAt name (some (.dir inst mounted (.cons name child tail))) = some child := by
    rw [childAt, Forest.get, if_pos rfl]
  have within : (Act.within (childAt name) (putChild name) id (littleDoctor fsType faults t depth (path ++ [name]))).run
      (some (.dir inst mounted (.cons name child tail))) =
      (innerResult.mapError id, some (.dir inst mounted (rest name innerLeft tail))) := by
    simp only [Act.within, entry, inner, putChild, put_first]
  rw [eachName, if_neg noDot] at ran
  cases innerResult with
  | error e =>
      rw [run_bind_error within] at ran
      cases ran
      exact .childFailed inst mounted name child tail e innerLeft same inner
  | ok u =>
      rw [run_bind_ok within] at ran
      rcases removed : (remove faults path).run (some (.dir inst mounted (rest name innerLeft tail))) with ⟨removedResult, removedLeft⟩
      have removal := remove_inv faults removed
      refine .childDone inst mounted name child tail innerLeft result left same inner ?_
      cases removal with
      | refused e known why =>
          rw [run_bind_error removed] at ran
          cases ran
          exact .refused e known why
      | done free empty =>
          rw [run_bind_ok removed] at ran
          have last : tail = .nil := by
            cases innerLeft with
            | some other => exact absurd ⟨inst, mounted, name, other, tail, rfl⟩ empty
            | none =>
                cases tail with
                | nil => rfl
                | cons second other more => exact absurd ⟨inst, mounted, second, other, more, rfl⟩ empty
          rw [last] at ran
          cases ran
          exact .done free empty

theorem little_doctor_inv (t : Int) (depth : Nat) (path : List Bytes) (n : Node) (result : Except DoctorError Unit)
    (left : Option Node)
    (noDot : ∀ inst mounted name child tail, n = .dir inst mounted (.cons name child tail) → ¬ (name = str "." ∨ name = str ".."))
    (ran : (littleDoctor fsType faults t (depth + 1) path).run (some n) = (result, left)) :
    Outcome fsType faults t depth path n result left := by
  have statfs := system_run faults .statfs path n
  have opened := system_run faults .openFile path n
  have stated := file_stat_run faults path n
  have listed := system_run faults .readdirnames path n
  rw [littleDoctor] at ran
  cases statfsFault : faults .statfs path with
  | some e =>
      rw [statfsFault] at statfs
      rw [run_bind_error statfs] at ran
      cases ran
      exact .stopped _ _ _ (stopped_of_fault faults n _ _ _ _ statfsFault (by simp))
  | none =>
      rw [statfsFault] at statfs
      rw [run_bind_ok statfs] at ran
      by_cases same : fsType n.inst = t
      · rw [if_neg (not_not.mpr same)] at ran
        cases openFault : faults .openFile path with
        | some e =>
            rw [openFault] at opened
            rw [run_bind_error opened] at ran
            cases ran
            exact .stopped _ _ _ (stopped_of_fault faults n _ _ _ _ openFault (by simp))
        | none =>
            rw [openFault] at opened
            rw [run_bind_ok opened] at ran
            cases statFault : faults .stat path with
            | some e =>
                rw [statFault] at stated
                rw [run_bind_error stated] at ran
                cases ran
                exact .stopped _ _ _ (stopped_of_fault faults n _ _ _ _ statFault (by simp))
            | none =>
                rw [statFault] at stated
                rw [run_bind_ok stated] at ran
                cases n with
                | file inst mounted => exact .file inst mounted result left same (remove_inv faults ran)
                | dir inst mounted children =>
                    cases listFault : faults .readdirnames path with
                    | some e =>
                        rw [listFault] at listed
                        simp only [run_bind_error listed] at ran
                        cases ran
                        exact .stopped _ _ _ (stopped_of_fault faults _ _ _ _ _ listFault (by simp))
                    | none =>
                        rw [listFault] at listed
                        simp only [run_bind_ok listed] at ran
                        cases children with
                        | nil =>
                            cases ran
                            exact .empty inst mounted same
                        | cons name child tail =>
                            exact each_name_inv fsType faults same
                              (noDot inst mounted name child tail rfl) ran
      · rw [if_pos same] at ran
        cases ran
        exact .foreign n same

end Inversion

end URoot.SwitchRoot
