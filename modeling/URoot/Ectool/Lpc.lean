import URoot.Lib.Fuel

set_option autoImplicit false

namespace URoot.Ectool

open GoLib Act

-- /dev/port. The embedded controller acts between two accesses and while the host sleeps.
structure Port (σ : Type) where
  outb : UInt16 → UInt8 → Act Bytes σ Unit
  inb : UInt16 → Act Bytes σ UInt8
  sleep : Int64 → σ → σ

structure Lpc where
  statusAddr : UInt16
  status : UInt16
  cmd : UInt16
  initial : Int64
  max : Int64
deriving DecidableEq, Repr

-- newLPC sets neither the status nor the command port.
def newLPC (statusAddr : UInt16) (initial max : Int64) : Lpc := ⟨statusAddr, 0, 0, initial, max⟩

-- ecLpcHostArgs
structure HostArgs where
  flags : UInt8
  commandVersion : UInt8
  dataSize : UInt8
  checksum : UInt8
deriving DecidableEq, Repr

def hostArgsFlagFromHost : UInt8 := 0x01

def hostArgsFlagToHost : UInt8 := 0x02

def lpcAddrHostData : UInt16 := 0x200

def lpcAddrHostArgs : UInt16 := 0x800

def lpcAddrHostParam : UInt16 := 0x804

inductive Failure where
  | port (err : Bytes)
  | timedOut
  | noResponse
  | badValue (i : UInt8)
  | reset
  | tooMuch
  | invalidChecksum
  | indexRange
deriving DecidableEq, Repr

def byteOf (i : Int64) : UInt8 := i.toUInt64.toUInt8

section Ports

variable {σ : Type} (port : Port σ)

def lift {α : Type} (x : Act Bytes σ α) : Act (Stop Failure) σ α := x.within id (fun _ s => s) (fun err => .raised (.port err))

def ignored {α : Type} (x : Act Bytes σ α) : Act (Stop Failure) σ Unit := ⟨fun s => (.ok (), (x.run s).2)⟩

def outs : UInt16 → Bytes → Act (Stop Failure) σ Unit
  | _, [] => pure ()
  | i, b :: rest => do
      lift (port.outb i b)
      outs (i + 1) rest

def ins : UInt16 → Nat → Act (Stop Failure) σ Bytes
  | _, 0 => pure []
  | i, amt + 1 => do
      let b ← lift (port.inb i)
      let rest ← ins (i + 1) amt
      pure (b :: rest)

end Ports

section Command

variable {σ : Type} (port : Port σ) (l : Lpc)

-- The loop of Wait at time i. With an initial delay of zero it need not end.
def waitLoop : Nat → Int64 → Int64 → Int64 → Act (Stop Failure) σ Unit
  | 0, _, _, _ => Act.fail .fuel
  | fuel + 1, timeout, i, delay =>
      if i < timeout then do
        let delay := if l.max < delay then l.max else delay
        Act.modifyGet (fun s => ((), port.sleep delay s))
        let v ← lift (port.inb l.statusAddr)
        if v = 0 then pure ()
        else waitLoop fuel timeout (i + l.initial) (if 20 < i ∧ delay < l.max then delay * 2 else delay)
      else Act.fail (.raised .timedOut)

def wait (fuel : Nat) (timeout : Int64) : Act (Stop Failure) σ Unit := waitLoop port l fuel timeout 0 l.initial

def anyError : Stop Failure → Stop Failure
  | .fuel => .fuel
  | .raised _ => .raised .noResponse

def request (fuel : Nat) (c v : Int64) (idata : Bytes) : Act (Stop Failure) σ Unit := do
  outs port l.statusAddr idata
  let csum := idata.foldl (· + ·) (hostArgsFlagFromHost + byteOf c + byteOf v + UInt8.ofNat idata.length)
  outs port l.statusAddr [hostArgsFlagFromHost, byteOf v, UInt8.ofNat idata.length, csum]
  ignored (port.outb l.cmd (byteOf c))
  ignored (port.outb l.status 0xa5)
  (wait port l fuel 10000000000).within id (fun _ s => s) anyError
  let i ← lift (port.inb lpcAddrHostData)
  Act.require (i = 0) (.raised (.badValue i))

def argsOf : Bytes → Option HostArgs
  | [flags, commandVersion, dataSize, checksum] => some ⟨flags, commandVersion, dataSize, checksum⟩
  | _ => none

-- The rest of Command. The flags that are tested are those of the request, and the
-- checksum is compared with the fourth byte of the data.
def response (c v outsize : Int64) : Act (Stop Failure) σ Bytes := do
  let dres ← ins port lpcAddrHostArgs 4
  let args ← Act.ofOption (argsOf dres) (.raised .indexRange)
  Act.require (hostArgsFlagFromHost &&& hostArgsFlagToHost ≠ hostArgsFlagToHost) (.raised .reset)
  Act.require (args.dataSize ≤ byteOf outsize) (.raised .tooMuch)
  let dout ← ins port lpcAddrHostParam args.dataSize.toNat
  let csum := dout.foldl (· + ·) (byteOf c + args.flags + byteOf v + args.dataSize)
  let fourth ← Act.ofOption dout[3]? (.raised .indexRange)
  Act.require (fourth = csum) (.raised .invalidChecksum)
  pure dout

def command (fuel : Nat) (c v : Int64) (idata : Bytes) (outsize : Int64) : Act (Stop Failure) σ Bytes := do
  request port l fuel c v idata
  response port c v outsize

end Command

section Specified

def checksumOf (c v : Int64) (args : HostArgs) (data : Bytes) : UInt8 :=
  byteOf c + args.flags + byteOf v + args.dataSize + data.foldl (· + ·) 0

structure WellFormed (c v outsize : Int64) (args : HostArgs) (data : Bytes) : Prop where
  toHost : args.flags &&& hostArgsFlagToHost = hostArgsFlagToHost
  fits : (args.dataSize.toNat : Int) ≤ outsize.toInt
  sum : args.checksum = checksumOf c v args data

def Answered {σ : Type} (port : Port σ) (l : Lpc) (fuel : Nat) (c v : Int64) (idata : Bytes) (s : σ) (args : HostArgs)
    (data : Bytes) : Prop :=
  ∃ ready read last, (request port l fuel c v idata).run s = (.ok (), ready) ∧
    (ins port lpcAddrHostArgs 4).run ready = (.ok [args.flags, args.commandVersion, args.dataSize, args.checksum], read) ∧
    (ins port lpcAddrHostParam args.dataSize.toNat).run read = (.ok data, last)

theorem fold_sum (data : Bytes) (start : UInt8) : data.foldl (· + ·) start = start + data.foldl (· + ·) 0 := by
  induction data generalizing start with
  | nil => exact (UInt8.add_zero start).symm
  | cons b rest ih =>
      rw [List.foldl_cons, List.foldl_cons, ih (start + b), ih (0 + b), UInt8.zero_add, UInt8.add_assoc]

theorem ins_length {σ : Type} (port : Port σ) (i : UInt16) (amt : Nat) (s next : σ) (data : Bytes)
    (done : (ins port i amt).run s = (.ok data, next)) : data.length = amt := by
  induction amt generalizing i s data with
  | zero =>
      cases done
      rfl
  | succ amt ih =>
      obtain ⟨b, middle, _, rest⟩ := run_bind_inv done
      obtain ⟨tail, last, more, ended⟩ := run_bind_inv rest
      cases ended
      rw [List.length_cons, ih _ _ _ more]

theorem byte_of_size (outsize : Int64) (small : outsize.toInt ≤ 255) (positive : 0 ≤ outsize.toInt) :
    ((byteOf outsize).toNat : Int) = outsize.toInt := by
  have number : outsize.toUInt64.toNat = outsize.toInt.toNat := by
    refine Int64.toNat_toUInt64_of_le ?_
    rw [Int64.le_iff_toInt_le]
    exact positive
  rw [byteOf, UInt64.toNat_toUInt8, number]
  omega

theorem size_exceeded {outsize : Int64} {dataSize : UInt8} (small : outsize.toInt ≤ 255) (more : ¬ dataSize ≤ byteOf outsize) :
    ¬ (dataSize.toNat : Int) ≤ outsize.toInt := by
  intro fits
  have size := byte_of_size outsize small (Int.le_trans (Int.natCast_nonneg _) fits)
  rw [UInt8.le_iff_toNat_le] at more
  omega

theorem well_formed_iff (c v outsize : Int64) (args : HostArgs) (data : Bytes) (small : outsize.toInt ≤ 255)
    (fits : args.dataSize ≤ byteOf outsize) :
    WellFormed c v outsize args data ↔ args.checksum = checksumOf c v args data ∧
      args.flags &&& hostArgsFlagToHost = hostArgsFlagToHost ∧ 0 ≤ outsize.toInt := by
  constructor
  · intro formed
    exact ⟨formed.sum, formed.toHost, Int.le_trans (Int.natCast_nonneg _) formed.fits⟩
  · rintro ⟨sum, toHost, positive⟩
    have size := byte_of_size outsize small positive
    rw [UInt8.le_iff_toNat_le] at fits
    exact ⟨toHost, by omega, sum⟩

end Specified

section Outcome

variable {σ : Type} (port : Port σ) (l : Lpc) (fuel : Nat) (c v : Int64) (idata : Bytes) (outsize : Int64) (s : σ)
  (args : HostArgs) (data : Bytes)

def outcome : Except (Stop Failure) Bytes :=
  if args.dataSize ≤ byteOf outsize then
    match data[3]? with
    | none => .error (.raised .indexRange)
    | some fourth => if fourth = checksumOf c v args data then .ok data else .error (.raised .invalidChecksum)
  else .error (.raised .tooMuch)

theorem run_command (answered : Answered port l fuel c v idata s args data) :
    ((command port l fuel c v idata outsize).run s).1 = outcome c v outsize args data := by
  obtain ⟨ready, read, last, accepted, gotArgs, gotData⟩ := answered
  rw [command, run_bind_ok accepted, response, run_bind_ok gotArgs,
    run_bind_ok rfl, run_require_bind _ _ _ (by decide), outcome]
  by_cases fits : args.dataSize ≤ byteOf outsize
  · rw [if_pos fits, run_require_bind _ _ _ fits, run_bind_ok gotData]
    dsimp only
    rw [fold_sum data, ← checksumOf]
    cases data[3]? with
    | none => rfl
    | some fourth =>
        rw [run_of_option_bind]
        by_cases same : fourth = checksumOf c v args data
        · rw [run_require_bind _ _ _ same]
          dsimp only
          rw [if_pos same]
          rfl
        · rw [Act.require, if_neg same, run_bind_error rfl]
          dsimp only
          rw [if_neg same]
  · rw [if_neg fits, Act.require, if_neg fits, run_bind_error rfl]

end Outcome

-- Command is right about an answer that is too long for the caller, about a well-formed one whose fourth
-- data byte happens to be the sum, and about a malformed one whose fourth data byte is not.
theorem accepts_iff {σ : Type} (port : Port σ) (l : Lpc) (fuel : Nat) (c v : Int64) (idata : Bytes) (outsize : Int64) (s : σ)
    (args : HostArgs) (data : Bytes) (small : outsize.toInt ≤ 255) (answered : Answered port l fuel c v idata s args data) :
    ((command port l fuel c v idata outsize).run s).1 ≠ .error (.raised .indexRange) ∧
        (((command port l fuel c v idata outsize).run s).1 = .ok data ↔ WellFormed c v outsize args data) ↔
      ¬ args.dataSize ≤ byteOf outsize ∨
        4 ≤ args.dataSize.toNat ∧
          (data[3]? = some (checksumOf c v args data) ∧ args.checksum = checksumOf c v args data ∧
              args.flags &&& hostArgsFlagToHost = hostArgsFlagToHost ∧ 0 ≤ outsize.toInt ∨
            data[3]? ≠ some (checksumOf c v args data) ∧ (args.checksum ≠ checksumOf c v args data ∨
              args.flags &&& hostArgsFlagToHost ≠ hostArgsFlagToHost ∨ outsize.toInt < 0)) := by
  have count : data.length = args.dataSize.toNat := by
    obtain ⟨_, read, last, _, _, gotData⟩ := answered
    exact ins_length port _ _ read last data gotData
  rw [run_command port l fuel c v idata outsize s args data answered, outcome, ← count]
  by_cases fits : args.dataSize ≤ byteOf outsize
  · rw [if_pos fits]
    cases fourth : data[3]? with
    | none =>
        have few := List.getElem?_eq_none_iff.mp fourth
        refine iff_of_false (fun right => right.1 rfl) ?_
        rintro (longer | ⟨enough, -⟩)
        · exact longer fits
        · omega
    | some byte =>
        have enough : 4 ≤ data.length := (List.getElem?_eq_some_iff.mp fourth).1
        rw [well_formed_iff c v outsize args data small fits]
        dsimp only
        by_cases same : byte = checksumOf c v args data
        · rw [if_pos same, same]
          simp [fits, enough]
        · rw [if_neg same]
          simp [fits, enough, same, imp_iff_not_or, not_le]
  · rw [if_neg fits]
    have longer := size_exceeded small fits
    refine iff_of_true ⟨(fun impossible => by cases impossible), ?_⟩ (Or.inl fits)
    exact iff_of_false (fun impossible => by cases impossible) (fun formed => longer formed.fits)

def fixedAnswer (args data : Bytes) : Port Unit where
  outb _ _ := pure ()
  inb addr := pure (if addr = 0x200 ∨ addr = 0x204 then 0 else (args ++ data).getD (addr.toNat - 0x800) 0)
  sleep _ s := s

theorem four_bytes_accepted :
    ((command (fixedAnswer [2, 0, 4, 7] [250, 0, 0, 7]) (newLPC 0x204 1 1) 1 0 0 [] 96).run ()).1 ≠ .error (.raised .indexRange) ∧
      (((command (fixedAnswer [2, 0, 4, 7] [250, 0, 0, 7]) (newLPC 0x204 1 1) 1 0 0 [] 96).run ()).1 = .ok [250, 0, 0, 7] ↔
        WellFormed 0 0 96 ⟨2, 0, 4, 7⟩ [250, 0, 0, 7]) :=
  (accepts_iff (fixedAnswer [2, 0, 4, 7] [250, 0, 0, 7]) (newLPC 0x204 1 1) 1 0 0 [] 96 () ⟨2, 0, 4, 7⟩ [250, 0, 0, 7] (by decide)
    ⟨(), (), (), by decide +kernel, by decide +kernel, by decide +kernel⟩).mpr
    (Or.inr ⟨by decide, Or.inl ⟨by decide, by decide, by decide, by decide⟩⟩)

theorem empty_answer_panics : Answered (fixedAnswer [2, 0, 0, 2] []) (newLPC 0x204 1 1) 1 0 0 [] () ⟨2, 0, 0, 2⟩ [] ∧
    WellFormed 0 0 96 ⟨2, 0, 0, 2⟩ [] ∧
    ((command (fixedAnswer [2, 0, 0, 2] []) (newLPC 0x204 1 1) 1 0 0 [] 96).run ()).1 = .error (.raised .indexRange) :=
  ⟨⟨(), (), (), by decide +kernel, by decide +kernel, by decide +kernel⟩, ⟨by decide, by decide, by decide⟩, by decide +kernel⟩

end URoot.Ectool
