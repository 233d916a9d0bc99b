import URoot.Lib.Device
import URoot.Lib.Runs
import Mathlib.Logic.Function.Basic

set_option autoImplicit false

namespace URoot.Cp

open GoLib

def buffSize : Nat := 8192

inductive CopyError where
  | reading (o : Nat) (err : IoError)
  | writing (err : IoError)
deriving DecidableEq, Repr

structure Job where
  src : Bytes
  dst : Nat

structure Process where
  nwork : Nat
  jobs : Nat → Job

inductive WorkerPc where
  | recv
  | reading
  | writing (nb : Bytes)
  | sending (err : Option CopyError)
  | ended
deriving DecidableEq, Repr

-- bp is the length of the slice the next read goes to; l may become negative.
structure Worker where
  call : Nat
  o : Nat
  bp : Nat
  l : Int
  pc : WorkerPc
deriving DecidableEq, Repr

inductive MainPc where
  | opening
  | zero
  | spawn (i : Nat)
  | collect (i : Nat)
  | returned (err : Option CopyError)
deriving DecidableEq, Repr

-- off belongs to nextOff. handed lists the offsets sent on offchan since the last
-- message on zerochan, with the worker each went to.
structure State where
  off : Nat
  disk : Nat → Bytes
  workers : List Worker
  fail : Nat → List (Option CopyError)
  handed : List (Nat × Nat)
  call : Nat
  main : MainPc

def State.start : State where
  off := 0
  disk := fun _ => []
  workers := []
  fail := fun _ => []
  handed := []
  call := 0
  main := .opening

inductive Outcome where
  | go
  | read (n : Nat)
  | readErr (err : IoError)
  | wrote
  | writeErr (n : Nat) (err : IoError)
deriving DecidableEq, Repr

inductive Label where
  | main
  | worker (id : Nat) (outcome : Outcome)
deriving DecidableEq, Repr

def Label.failed : Label → Bool
  | .worker _ (.readErr _) => true
  | .worker _ (.writeErr _ _) => true
  | _ => false

def newWorker (call : Nat) : Worker := ⟨call, 0, buffSize, buffSize, .recv⟩

def Worker.advance (w : Worker) (n : Nat) : Worker :=
  if w.l - n = 0 then { w with o := w.o + n, l := buffSize, bp := buffSize, pc := .recv }
  else { w with o := w.o + n, l := w.l - n, bp := buffSize - n, pc := .reading }

-- A read may be short, but before the end of the file it returns something.
def Readable (src : Bytes) (w : Worker) (n : Nat) : Prop :=
  n ≤ w.bp ∧ n ≤ src.length - w.o ∧ (n = 0 → w.bp = 0 ∨ src.length ≤ w.o)

instance (src : Bytes) (w : Worker) (n : Nat) : Decidable (Readable src w n) :=
  inferInstanceAs (Decidable (_ ∧ _ ∧ (_ → _)))

namespace Process

variable (c : Process)

def src (call : Nat) : Bytes := (c.jobs call).src

def dst (call : Nat) : Nat := (c.jobs call).dst

-- worker: fail has room for every worker of its call, so that send never waits. The
-- files of a call that has returned are closed, but what is under way on them may still
-- succeed, so nothing is said here about which outcomes a leftover worker gets.
def stepWorker (s : State) (id : Nat) (w : Worker) (outcome : Outcome) : Option State :=
  match w.pc, outcome with
  | .recv, .go =>
      some { s with
        off := s.off + buffSize, handed := s.handed ++ [(id, s.off)],
        workers := s.workers.set id { w with o := s.off, pc := .reading } }
  | .reading, .read n =>
      if Readable (c.src w.call) w n then
        let pc := if n = 0 then .sending none else .writing (slice (c.src w.call) w.o n)
        some { s with workers := s.workers.set id { w with pc := pc } }
      else none
  | .reading, .readErr err =>
      if err = .eof then none
      else some { s with workers := s.workers.set id { w with pc := .sending (some (.reading w.o err)) } }
  | .writing nb, .wrote =>
      some { s with
        disk := Function.update s.disk (c.dst w.call) (fileWrite (s.disk (c.dst w.call)) nb w.o),
        workers := s.workers.set id (w.advance nb.length) }
  | .writing nb, .writeErr n err =>
      some { s with
        disk := Function.update s.disk (c.dst w.call) (fileWrite (s.disk (c.dst w.call)) (nb.take n) w.o),
        workers := s.workers.set id { w with pc := .sending (some (.writing err)) } }
  | .sending err, .go =>
      some { s with
        fail := Function.update s.fail w.call (s.fail w.call ++ [err]),
        workers := s.workers.set id { w with pc := .ended } }
  | _, _ => none

def stepMain (s : State) : Option State :=
  match s.main with
  | .opening => some { s with disk := Function.update s.disk (c.dst s.call) [], main := .zero }
  | .zero => some { s with off := 0, handed := [], main := .spawn 0 }
  | .spawn i =>
      if i < c.nwork then some { s with workers := s.workers ++ [newWorker s.call], main := .spawn (i + 1) }
      else some { s with main := .collect 0 }
  | .collect i =>
      if i < c.nwork then
        match s.fail s.call with
        | none :: rest => some { s with fail := Function.update s.fail s.call rest, main := .collect (i + 1) }
        | some err :: rest =>
            some { s with fail := Function.update s.fail s.call rest, main := .returned (some err) }
        | [] => none
      else some { s with main := .returned none }
  | .returned _ => some { s with call := s.call + 1, main := .opening }

def step (label : Label) (s : State) : Option State :=
  match label with
  | .main => c.stepMain s
  | .worker id outcome => (s.workers[id]?).bind fun w => c.stepWorker s id w outcome

end Process

end URoot.Cp
