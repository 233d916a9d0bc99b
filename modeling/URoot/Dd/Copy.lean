import URoot.Lib.Io
import URoot.Lib.Runs
import URoot.Lib.Device
import Mathlib.Logic.Function.Basic

set_option autoImplicit false

namespace URoot.Dd

open GoLib

structure ReadResult where
  bytes : Bytes
  err : Option IoError
deriving DecidableEq, Repr

inductive CopyError where
  | inputError (err : Option IoError)
  | outputError (err : IoError)
deriving DecidableEq, Repr

-- (*chunkedBuffer).ReadFrom: a read of nothing without an error is an end of file.
def readFrom (result : ReadResult) : Nat × Option IoError :=
  if result.bytes = [] ∧ result.err = none then (0, some .eof) else (result.bytes.length, result.err)

-- Deep enough to hold 1GiB of data, but reasonable.
def channelDepth (inBufSize : Nat) : Nat := min (1024 * 1024 * 1024 / inBufSize) 8192

-- The arguments of parallelChunkedCopy. What the reader r will answer is given by
-- the number of the call, what the writer answers by its own state.
structure Call (σ : Type) where
  r : Nat → ReadResult
  w : IoWriter σ
  inBufSize : Nat
  outBufSize : Nat
  transform : Bytes → Bytes
  depth : Nat
  fits : ∀ i, (r i).bytes.length ≤ inBufSize
  outPositive : 0 < outBufSize

inductive ReaderPc where
  | check
  | get
  | read (buf : Nat)
  | send (buf : Nat) (n : Nat) (err : Option IoError)
  | after (n : Nat) (err : Option IoError)
  | sendErr (err : Option IoError)
  | done
  | closing
  | halted
deriving DecidableEq, Repr

inductive CallerPc where
  | recv
  | writing (buf : Nat) (i : Nat)
  | put (buf : Nat) (n : Nat)
  | closeQuit
  | wait
  | select
  | returned (result : Option CopyError)
deriving DecidableEq, Repr

-- Buffers are addresses into heap, which holds data[:length] of each of them;
-- next is the first address not handed out yet. out collects what the writer took.
structure State (σ : Type) where
  heap : Nat → Bytes
  next : Nat
  ready : List Nat
  readyClosed : Bool
  pool : List Nat
  errs : List (Option IoError)
  quit : Bool
  wgDone : Bool
  reads : Nat
  w : σ
  out : Bytes
  bytesWritten : Nat
  writeErr : Option CopyError
  reader : ReaderPc
  caller : CallerPc

inductive Actor where
  | reader
  | caller
deriving DecidableEq, Repr

def State.start {σ : Type} (w : σ) (bytesWritten : Nat) : State σ where
  heap := fun _ => []
  next := 0
  ready := []
  readyClosed := false
  pool := []
  errs := []
  quit := false
  wgDone := false
  reads := 0
  w := w
  out := []
  bytesWritten := bytesWritten
  writeErr := none
  reader := .check
  caller := .recv

namespace Call

variable {σ : Type} (c : Call σ)

-- readyBufs <- buf. Without a buffer in the channel the caller has to be at its
-- receive, and takes over the buffer in the same step.
def sendReady (s : State σ) (buf : Nat) : Option (State σ) :=
  if s.ready.length < c.depth then some { s with ready := s.ready ++ [buf] }
  else if c.depth = 0 ∧ s.caller = .recv then some { s with caller := .writing buf 0 }
  else none

def stepReader (s : State σ) : Option (State σ) :=
  match s.reader with
  | .check => some { s with reader := if s.quit then .done else .get }
  | .get =>
      match s.pool with
      | buf :: rest => some { s with pool := rest, reader := .read buf }
      | [] => some { s with heap := Function.update s.heap s.next [], next := s.next + 1, reader := .read s.next }
  | .read buf =>
      let result := c.r s.reads
      let (n, err) := readFrom result
      some { s with
        heap := Function.update s.heap buf result.bytes, reads := s.reads + 1,
        reader := if 0 < n then .send buf n err else .after n err }
  | .send buf n err => (c.sendReady s buf).map fun sent => { sent with reader := .after n err }
  | .after n err =>
      some { s with reader := if err = some .eof then .done else if n = 0 ∨ err ≠ none then .sendErr err else .check }
  | .sendErr err => if s.errs.length < 1 then some { s with errs := s.errs ++ [err], reader := .done } else none
  | .done => some { s with wgDone := true, reader := .closing }
  | .closing => some { s with readyClosed := true, reader := .halted }
  | .halted => none

def writeChunk (s : State σ) (buf i : Nat) : State σ :=
  let chunk := if i + c.outBufSize > (s.heap buf).length then (s.heap buf).length - i else c.outBufSize
  let bytes := c.transform (slice (s.heap buf) i chunk)
  match c.w.write s.w bytes with
  | (w, got, some e) =>
      { s with
        w := w, out := s.out ++ bytes.take got, writeErr := some (.outputError e), caller := .closeQuit }
  | (w, got, none) =>
      if got ≠ chunk then
        { s with
          w := w, out := s.out ++ bytes.take got, writeErr := some (.outputError .shortWrite), caller := .closeQuit }
      else { s with w := w, out := s.out ++ bytes.take got, caller := .writing buf (i + got) }

def stepCaller (s : State σ) : Option (State σ) :=
  match s.caller with
  | .recv =>
      match s.ready with
      | buf :: rest => some { s with ready := rest, caller := .writing buf 0 }
      | [] => if s.readyClosed then some { s with caller := .closeQuit } else none
  | .writing buf i =>
      if i < (s.heap buf).length then some (c.writeChunk s buf i) else some { s with caller := .put buf i }
  | .put buf n =>
      some { s with
        bytesWritten := s.bytesWritten + n,
        pool := if s.pool.length < c.depth then s.pool ++ [buf] else s.pool,
        caller := .recv }
  | .closeQuit => some { s with quit := true, caller := .wait }
  | .wait => if s.wgDone then some { s with caller := .select } else none
  | .select =>
      match s.errs with
      | err :: rest => some { s with errs := rest, caller := .returned (some (.inputError err)) }
      | [] => some { s with caller := .returned s.writeErr }
  | .returned _ => none

def step (actor : Actor) (s : State σ) : Option (State σ) :=
  match actor with
  | .reader => c.stepReader s
  | .caller => c.stepCaller s

end Call

def parallelChunkedCopy {σ : Type} (r : Nat → ReadResult) (w : IoWriter σ) (inBufSize outBufSize : Nat)
    (transform : Bytes → Bytes) (fits : ∀ i, (r i).bytes.length ≤ inBufSize) (outPositive : 0 < outBufSize) : Call σ :=
  ⟨r, w, inBufSize, outBufSize, transform, channelDepth inBufSize, fits, outPositive⟩

end URoot.Dd
