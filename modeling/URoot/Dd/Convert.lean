import URoot.Dd.Complete
import URoot.Lib.Runes

set_option autoImplicit false

namespace URoot.Dd

open GoLib

-- unicode.ToUpper and unicode.ToLower, with what the tables say of ASCII and of the replacement character.
structure Unicode where
  toUpper : Nat → Nat
  toLower : Nat → Nat
  upperAscii : ∀ r, r < 0x80 → toUpper r = if 97 ≤ r ∧ r ≤ 122 then r - 32 else r
  lowerAscii : ∀ r, r < 0x80 → toLower r = if 65 ≤ r ∧ r ≤ 90 then r + 32 else r
  upperError : toUpper runeError = runeError
  lowerError : toLower runeError = runeError

def convs (u : Unicode) (conv : Bytes) : Option (Bytes → Bytes) :=
  if conv = str "none" then some id
  else if conv = str "ucase" then some (mapRunes u.toUpper)
  else if conv = str "lcase" then some (mapRunes u.toLower)
  else none

variable {σ : Type}

section Ones

variable (c : Call σ) (single : c.outBufSize = 1) (full : ∀ w bytes, (c.w.write w bytes).2 = (bytes.length, none))

include single full

theorem write_to_ones (data : Bytes) (sink done : Sink σ) (wrote : c.writeTo sink data = (done, none)) :
    ∀ b ∈ data, (c.transform [b]).length = 1 := by
  induction data generalizing sink with
  | nil =>
      intro b impossible
      cases impossible
  | cons first rest ih =>
      have took := full sink.w (c.transform [first])
      rw [Call.writeTo, dif_neg (List.cons_ne_nil first rest)] at wrote
      simp only [single, List.take_succ_cons, List.take_zero, List.drop_succ_cons, List.drop_zero,
        List.length_singleton] at wrote
      rcases write : c.w.write sink.w (c.transform [first]) with ⟨w, got, err⟩
      rw [write] at took wrote
      cases took
      simp only [ne_eq] at wrote
      by_cases one : (c.transform [first]).length = 1
      · rw [if_neg (fun other => other one)] at wrote
        intro b member
        rcases List.mem_cons.mp member with rfl | later
        · exact one
        · exact ih _ wrote b later
      · rw [if_pos one] at wrote
        cases wrote

theorem ones_fail (data : Bytes) (sink : Sink σ) (first : c.chunk 0 = data) (b : UInt8) (member : b ∈ data)
    (longer : (c.transform [b]).length ≠ 1) : c.OutputFailsAt sink 0 := by
  rcases wrote : c.writeTo sink data with ⟨done, err⟩
  cases err with
  | none => exact absurd (write_to_ones c single full data sink done wrote b member) longer
  | some e => exact ⟨done, e, sink, rfl, by rw [first]; exact wrote⟩

end Ones

theorem failed_first_block {c : Call σ} {w : σ} {bytesWritten : Nat} (fails : c.OutputFailsAt ⟨w, [], bytesWritten⟩ 0)
    (s : State σ) (reach : Reachable c.step (State.start w bytesWritten) s) (returned : s.caller = .returned none) :
    s.out = [] := by
  obtain ⟨taken, sent, inv⟩ := reachable_inv reach
  have stage := inv.caller
  have verdict := inv.result none returned
  rw [returned] at stage
  rcases stage with ⟨_, wrote, _⟩ | ⟨k, e, _, _, failed⟩
  · obtain ⟨last, e, failing⟩ := fails
    cases taken with
    | zero => exact (congrArg (fun result => result.1.out) wrote).symm
    | succ taken =>
        have stays := c.failed_stays _ last e 1 (taken + 1) (by omega) (c.write_blocks_failed _ last 0 e failing)
        cases stays.symm.trans wrote
  · rw [failed] at verdict
    unfold verdictResult at verdict
    split at verdict
    · cases verdict
    · cases verdict

section OneBlock

variable (data : Bytes) (convert : Bytes → Bytes)

def wholeInput (i : Nat) : ReadResult := if i = 0 then ⟨data, some .eof⟩ else ⟨[], some .eof⟩

theorem whole_input_fits (i : Nat) : (wholeInput data i).bytes.length ≤ data.length + 1 := by
  unfold wholeInput
  split
  · exact Nat.le_succ _
  · exact Nat.zero_le _

def byteByByte : Call Bytes :=
  parallelChunkedCopy (wholeInput data) bytesBuffer (data.length + 1) 1 convert (whole_input_fits data) Nat.one_pos

theorem byte_by_byte_ends : (readFrom ((byteByByte data convert).r 0)).2 = some .eof := by
  change (readFrom (wholeInput data 0)).2 = some .eof
  rw [wholeInput, if_pos rfl, readFrom, if_neg]
  rintro ⟨_, impossible⟩
  cases impossible

theorem byte_by_byte_reads : (byteByByte data convert).Reads data :=
  ⟨0, fun i impossible => absurd impossible (Nat.not_lt_zero i), byte_by_byte_ends data convert, List.append_nil data⟩

end OneBlock

theorem conversion_iff (mapping : Nat → Nat) (ascii : ∀ r, r < 0x80 → mapping r < 0x80)
    (errorKept : mapping runeError = runeError) (data : Bytes) :
    (∀ (σ : Type) (r : Nat → ReadResult) (io : IoWriter σ) (ibs obs : Nat) (fits : ∀ i, (r i).bytes.length ≤ ibs)
      (obsPositive : 0 < obs) (w : σ) (bytesWritten : Nat), 0 < ibs →
      (∀ w bytes, (io.write w bytes).2 = (bytes.length, none)) →
      (parallelChunkedCopy r io ibs obs (mapRunes mapping) fits obsPositive).Reads data →
      (parallelChunkedCopy r io ibs obs (mapRunes mapping) fits obsPositive).Completes w bytesWritten none
        (mapRunes mapping data)) ↔
      ∀ b ∈ data, b < 0x80 := by
  constructor
  · intro completes b member
    by_contra large
    have reads := byte_by_byte_reads data (mapRunes mapping)
    have copied := completes Bytes (wholeInput data) bytesBuffer (data.length + 1) 1 (whole_input_fits data) Nat.one_pos [] 0
      (Nat.succ_pos _) (fun _ _ => rfl) reads
    have longer : (mapRunes mapping [b]).length ≠ 1 := by
      rw [map_runes_alone mapping b large, errorKept]
      decide
    have fails := ones_fail (byteByByte data (mapRunes mapping)) rfl (fun _ _ => rfl) data ⟨[], [], 0⟩ rfl b member longer
    obtain ⟨s, reach, stuck⟩ := some_schedule_ends (byteByByte data (mapRunes mapping)) 0
      (ends_not_continues (byte_by_byte_ends data _)) [] 0
    obtain ⟨result, returned⟩ := copied.returns s reach stuck
    obtain ⟨fine, out⟩ := copied.same s result reach returned
    subst fine
    have nothing := failed_first_block fails s reach returned
    exact map_runes_nonempty mapping data (List.ne_nil_of_mem member) (out.symm.trans nothing)
  · intro small σ r io ibs obs fits obsPositive w bytesWritten _ full reads
    rw [map_runes_ascii mapping ascii data small]
    exact completes_full _ _ (fun b => b < 0x80) (fun bytes fine => map_runes_ascii mapping ascii bytes fine) full w bytesWritten
      data reads small

theorem upper_ascii_small (u : Unicode) (r : Nat) (small : r < 0x80) : u.toUpper r < 0x80 := by
  rw [u.upperAscii r small]
  split <;> omega

theorem lower_ascii_small (u : Unicode) (r : Nat) (small : r < 0x80) : u.toLower r < 0x80 := by
  rw [u.lowerAscii r small]
  split <;> omega

theorem case_conversion_iff (u : Unicode) (conv : Bytes) (cased : conv = str "ucase" ∨ conv = str "lcase")
    (convert : Bytes → Bytes) (found : convs u conv = some convert) (data : Bytes) :
    (∀ (σ : Type) (r : Nat → ReadResult) (io : IoWriter σ) (ibs obs : Nat) (fits : ∀ i, (r i).bytes.length ≤ ibs)
      (obsPositive : 0 < obs) (w : σ) (bytesWritten : Nat), 0 < ibs →
      (∀ w bytes, (io.write w bytes).2 = (bytes.length, none)) →
      (parallelChunkedCopy r io ibs obs convert fits obsPositive).Reads data →
      (parallelChunkedCopy r io ibs obs convert fits obsPositive).Completes w bytesWritten none (convert data)) ↔
      ∀ b ∈ data, b < 0x80 := by
  rcases cased with rfl | rfl
  · have upper : convs u (str "ucase") = some (mapRunes u.toUpper) := rfl
    rw [upper] at found
    cases found
    exact conversion_iff u.toUpper (upper_ascii_small u) u.upperError data
  · have lower : convs u (str "lcase") = some (mapRunes u.toLower) := rfl
    rw [lower] at found
    cases found
    exact conversion_iff u.toLower (lower_ascii_small u) u.lowerError data

def latin : Unicode where
  toUpper r := if 97 ≤ r ∧ r ≤ 122 ∨ 0xe0 ≤ r ∧ r ≤ 0xfe ∧ r ≠ 0xf7 then r - 32 else r
  toLower r := if 65 ≤ r ∧ r ≤ 90 ∨ 0xc0 ≤ r ∧ r ≤ 0xde ∧ r ≠ 0xd7 then r + 32 else r
  upperAscii r small := by
    split <;> split <;> omega
  lowerAscii r small := by
    split <;> split <;> omega
  upperError := rfl
  lowerError := rfl

theorem ascii_letters_converted : (byteByByte [97, 98] (mapRunes latin.toUpper)).Completes [] 0 none [65, 66] := by
  have small : ([97, 98] : Bytes).all (fun b => b < 0x80) = true := rfl
  exact (case_conversion_iff latin (str "ucase") (Or.inl rfl) (mapRunes latin.toUpper) rfl [97, 98]).mpr
    (fun b member => of_decide_eq_true (List.all_eq_true.mp small b member)) Bytes (wholeInput [97, 98]) bytesBuffer 3 1
    (whole_input_fits [97, 98]) Nat.one_pos [] 0 (by decide) (fun _ _ => rfl) (byte_by_byte_reads [97, 98] _)

def bothBytes : Call Bytes :=
  parallelChunkedCopy (wholeInput [0xc3, 0xa9]) bytesBuffer 3 2 (mapRunes latin.toUpper) (whole_input_fits [0xc3, 0xa9])
    (by decide)

def readAll : List Actor := List.replicate 7 .reader

-- The two bytes of é: one output block of two bytes is É, two blocks of one byte are an error.
theorem accent_split :
    (∃ s, Reachable (byteByByte [0xc3, 0xa9] (mapRunes latin.toUpper)).step (State.start [] 0) s ∧
      s.caller = .returned (some (.outputError .shortWrite)) ∧ s.out = [0xef, 0xbf, 0xbd]) ∧
    ∃ s, Reachable bothBytes.step (State.start [] 0) s ∧ s.caller = .returned none ∧ s.out = [0xc3, 0x89] := by
  have split : (exec (byteByByte [0xc3, 0xa9] (mapRunes latin.toUpper)).step (readAll ++ List.replicate 5 .caller)
      (State.start [] 0)).map (fun s => (s.caller, s.out)) =
      some (.returned (some (.outputError .shortWrite)), [0xef, 0xbf, 0xbd]) := by decide +kernel
  have whole : (exec bothBytes.step (readAll ++ List.replicate 8 .caller) (State.start [] 0)).map
      (fun s => (s.caller, s.out)) = some (.returned none, [0xc3, 0x89]) := by decide +kernel
  obtain ⟨failed, ranSplit, failedAt⟩ := Option.map_eq_some_iff.mp split
  obtain ⟨done, ranWhole, doneAt⟩ := Option.map_eq_some_iff.mp whole
  exact ⟨⟨failed, ⟨_, ranSplit⟩, congrArg Prod.fst failedAt, congrArg Prod.snd failedAt⟩, done, ⟨_, ranWhole⟩,
    congrArg Prod.fst doneAt, congrArg Prod.snd doneAt⟩

end URoot.Dd
