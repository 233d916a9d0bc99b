import URoot.Lib.Codec
import URoot.Lib.Pipes
import Mathlib.Order.Bounds.Basic

set_option autoImplicit false

namespace URoot.Cmp

open GoLib Pipes

structure Flags where
  long : Bool
  line : Bool
  silent : Bool
deriving DecidableEq, Repr

inductive Report where
  | differ (charno : Nat)
  | differLine (charno lineno : Nat)
  | eof (second : Bool)
  | bytes (charno : Nat) (b1 b2 : UInt8)
deriving DecidableEq, Repr

def Report.charno : Report → Option Nat
  | .differ charno => some charno
  | .differLine charno _ => some charno
  | .eof _ => none
  | .bytes charno _ _ => some charno

-- A file is shorter than 2^63 bytes, so neither number overflows.
structure Place where
  lineno : Nat
  charno : Nat
  stderr : List Report
deriving DecidableEq, Repr

def Place.report (p : Place) (r : Report) : List Report := p.stderr ++ [r]

inductive Pc where
  | first (p : Place)
  | second (b1 : UInt8) (p : Place)
  | exited (status : Nat) (stderr : List Report)
deriving DecidableEq, Repr

def emit (data : Bytes) (offset : Int) : Bytes := if offset > 0 then data.drop offset.toNat else data

section Main

variable (flags : Flags)

def skip (b1 b2 : UInt8) (p : Place) : Pc :=
  if b1 = 0 ∧ b2 = 0 then .exited 0 p.stderr
  else .first { p with charno := p.charno + 1, lineno := if b1 = 10 then p.lineno + 1 else p.lineno }

def turn (b1 b2 : UInt8) (p : Place) : Pc :=
  if b1 ≠ b2 then
    if flags.silent then .exited 1 p.stderr
    else if flags.line then .exited 1 (p.report (.differLine p.charno p.lineno))
    else if flags.long then
      if b1 = 0 then .exited 1 (p.report (.eof false))
      else if b2 = 0 then .exited 1 (p.report (.eof true))
      else skip b1 b2 { p with stderr := p.report (.bytes p.charno b1 b2) }
    else .exited 1 (p.report (.differ p.charno))
  else skip b1 b2 p

-- A closed channel yields the zero byte.
def want : Pc → Want Bool UInt8 Empty Pc
  | .first p => .receive false (fun b => .second (b.getD 0) p)
  | .second b1 p => .receive true (fun b => turn flags b1 (b.getD 0) p)
  | .exited _ _ => .stop

def channelSize : Nat := 8192

def Exits (a b : Bytes) (status : Nat) (stderr : List Report) : Prop :=
  Delivers (want flags) channelSize (start (.first ⟨1, 1, []⟩) (pair a b)) (.exited status stderr) []

end Main

theorem round_ends (flags : Flags) (a b : Bytes) (p : Place) (n : Nat) (last : Solo Bool UInt8 Empty Pc)
    (later : Ends (want flags) n ⟨turn flags (a.headD 0) (b.headD 0) p, pair a.tail b.tail, []⟩ last) :
    Ends (want flags) (n + 2) ⟨.first p, pair a b, []⟩ last := by
  refine ends_receive_first (want flags) (.first p) a b [] _ (n + 1) last rfl ?_
  refine ends_receive_second (want flags) (.second (a.head?.getD 0) p) a.tail b [] _ n last rfl ?_
  rw [List.headD_eq_head?_getD, List.headD_eq_head?_getD] at later
  exact later

section Verdict

variable (flags : Flags)

-- What a string is to main: it ends at its first zero byte.
def cut (a : Bytes) : Bytes := a.takeWhile (· ≠ 0)

-- Only -l goes on after a difference.
def goesOn : Bool := flags.long && !flags.line && !flags.silent

def Passes (a b : Bytes) : Prop :=
  if goesOn flags then (cut a).length = (cut b).length else cut a = cut b

def Shared (a b : Bytes) (k : Nat) : Prop := k ≤ a.length ∧ k ≤ b.length ∧ a.take k = b.take k

structure Ended (a b : Bytes) (p : Place) (status : Nat) (stderr : List Report) : Prop where
  zero : status = 0 ↔ Passes flags a b
  reported : flags.long = false → flags.silent = false → ∀ r ∈ stderr, r ∈ p.stderr ∨
    ∃ k, IsGreatest {k | Shared a b k} k ∧ r.charno = some (p.charno + k)

theorem cut_head (a : Bytes) : cut a = if a.headD 0 = 0 then [] else a.headD 0 :: cut a.tail := by
  cases a with
  | nil => rfl
  | cons x rest =>
      by_cases zero : x = 0
      · simp [cut, zero]
      · simp [cut, zero]

theorem passes_zero (a b : Bytes) (first : a.headD 0 = 0) (second : b.headD 0 = 0) : Passes flags a b := by
  have left : cut a = [] := by rw [cut_head, if_pos first]
  have right : cut b = [] := by rw [cut_head, if_pos second]
  rw [Passes, left, right]
  split <;> rfl

theorem passes_same (a b : Bytes) (same : a.headD 0 = b.headD 0) (present : a.headD 0 ≠ 0) :
    Passes flags a b ↔ Passes flags a.tail b.tail := by
  have left : cut a = a.headD 0 :: cut a.tail := by rw [cut_head, if_neg present]
  have right : cut b = a.headD 0 :: cut b.tail := by rw [cut_head, same, if_neg (same ▸ present)]
  rw [Passes, Passes, left, right]
  split
  · rw [List.length_cons, List.length_cons, Nat.add_right_cancel_iff]
  · rw [List.cons_inj_right]

theorem passes_longer (a b : Bytes) (on : goesOn flags = true) (first : a.headD 0 ≠ 0) (second : b.headD 0 ≠ 0) :
    Passes flags a b ↔ Passes flags a.tail b.tail := by
  rw [Passes, Passes, if_pos on, if_pos on, cut_head a, cut_head b, if_neg first, if_neg second, List.length_cons,
    List.length_cons, Nat.add_right_cancel_iff]

theorem passes_not (a b : Bytes) (different : a.headD 0 ≠ b.headD 0)
    (stops : goesOn flags = true → a.headD 0 = 0 ∨ b.headD 0 = 0) : ¬ Passes flags a b := by
  rw [Passes]
  have left := cut_head a
  have right := cut_head b
  split
  · rename_i on
    rcases stops on with zero | zero
    · rw [if_pos zero] at left
      rw [if_neg (fun other => different (zero.trans other.symm))] at right
      rw [left, right, List.length_nil, List.length_cons]
      omega
    · rw [if_pos zero] at right
      rw [if_neg (fun other => different (other.trans zero.symm))] at left
      rw [left, right, List.length_nil, List.length_cons]
      omega
  · intro same
    rw [left, right] at same
    split at same
    · rename_i zero
      rw [if_neg (fun other => different (zero.trans other.symm))] at same
      cases same
    · split at same
      · cases same
      · exact different (List.cons.inj same).1

theorem shared_none (a b : Bytes) (different : a.headD 0 ≠ b.headD 0) : IsGreatest {k | Shared a b k} 0 := by
  refine ⟨⟨Nat.zero_le _, Nat.zero_le _, rfl⟩, ?_⟩
  rintro k ⟨left, right, same⟩
  cases k with
  | zero => exact Nat.le_refl 0
  | succ k =>
      cases a with
      | nil => cases left
      | cons x rest =>
          cases b with
          | nil => cases right
          | cons y more => exact absurd (List.cons.inj same).1 different

theorem shared_more (a b : Bytes) (same : a.headD 0 = b.headD 0) (present : a.headD 0 ≠ 0) (k : Nat)
    (greatest : IsGreatest {k | Shared a.tail b.tail k} k) : IsGreatest {k | Shared a b k} (k + 1) := by
  cases a with
  | nil => exact absurd rfl present
  | cons x rest =>
      cases b with
      | nil => exact absurd same present
      | cons y more =>
          have equal : x = y := same
          subst equal
          obtain ⟨⟨left, right, shared⟩, most⟩ := greatest
          refine ⟨⟨Nat.succ_le_succ left, Nat.succ_le_succ right, congrArg (x :: ·) shared⟩, ?_⟩
          rintro m ⟨inLeft, inRight, sharedMore⟩
          cases m with
          | zero => exact Nat.zero_le _
          | succ m =>
              have bound : m ≤ k := most ⟨Nat.le_of_succ_le_succ inLeft, Nat.le_of_succ_le_succ inRight,
                (List.cons.inj sharedMore).2⟩
              omega

inductive Turned (b1 b2 : UInt8) (p : Place) : Pc → Prop where
  | zeros (first : b1 = 0) (second : b2 = 0) : Turned b1 b2 p (.exited 0 p.stderr)
  | differ (stderr : List Report) (different : b1 ≠ b2) (stops : goesOn flags = true → b1 = 0 ∨ b2 = 0)
      (reported : flags.long = false → flags.silent = false → ∀ r ∈ stderr, r ∈ p.stderr ∨ r.charno = some p.charno) :
      Turned b1 b2 p (.exited 1 stderr)
  | onward (next : Place) (same : b1 = b2 ∨ goesOn flags = true) (first : b1 ≠ 0) (second : b2 ≠ 0)
      (moved : next.charno = p.charno + 1) (silent : flags.long = false → next.stderr = p.stderr) :
      Turned b1 b2 p (.first next)

theorem mem_report (p : Place) (r new : Report) (charno : new.charno = some p.charno) (there : r ∈ p.report new) :
    r ∈ p.stderr ∨ r.charno = some p.charno := by
  rcases List.mem_append.mp there with old | last
  · exact Or.inl old
  · rw [List.mem_singleton.mp last]
    exact Or.inr charno

theorem turn_cases (b1 b2 : UInt8) (p : Place) : Turned flags b1 b2 p (turn flags b1 b2 p) := by
  rw [turn]
  by_cases different : b1 ≠ b2
  · rw [if_pos different]
    split
    · rename_i silent
      refine .differ _ different ?_ (fun _ loud => ?_)
      · simp [goesOn, silent]
      · rw [silent] at loud
        cases loud
    · rename_i loud
      split
      · rename_i line
        refine .differ _ different ?_ (fun _ _ r there => mem_report p r _ rfl there)
        simp [goesOn, line]
      · rename_i noLine
        split
        · rename_i long
          have on : goesOn flags = true := by simp [goesOn, long, noLine, loud]
          have never : ∀ {P : Prop}, flags.long = false → P := by
            intro P short
            rw [long] at short
            cases short
          split
          · rename_i zero
            exact .differ _ different (fun _ => Or.inl zero) never
          · rename_i first
            split
            · rename_i zero
              exact .differ _ different (fun _ => Or.inr zero) never
            · rename_i second
              rw [skip, if_neg (fun both => first both.1)]
              exact .onward _ (Or.inr on) first second rfl never
        · rename_i short
          refine .differ _ different ?_ (fun _ _ r there => mem_report p r _ rfl there)
          simp [goesOn, short]
  · rw [if_neg different, skip]
    have same : b1 = b2 := not_not.mp different
    split
    · rename_i zeros
      exact .zeros zeros.1 zeros.2
    · rename_i some_
      have first : b1 ≠ 0 := fun zero => some_ ⟨zero, same ▸ zero⟩
      exact .onward _ (Or.inl same) first (same ▸ first) rfl (fun _ => rfl)

theorem head_some (a : Bytes) (present : a.headD 0 ≠ 0) : a.length = a.tail.length + 1 := by
  cases a with
  | nil => exact absurd rfl present
  | cons x rest => rfl

theorem ended_onward {a b : Bytes} {p next : Place} {status : Nat} {stderr : List Report}
    (same : a.headD 0 = b.headD 0 ∨ goesOn flags = true) (first : a.headD 0 ≠ 0) (second : b.headD 0 ≠ 0)
    (moved : next.charno = p.charno + 1) (silent : flags.long = false → next.stderr = p.stderr)
    (ended : Ended flags a.tail b.tail next status stderr) : Ended flags a b p status stderr where
  zero := by
    rw [ended.zero]
    rcases same with same | on
    · exact (passes_same flags a b same first).symm
    · exact (passes_longer flags a b on first second).symm
  reported := by
    intro short loud r there
    have equal : a.headD 0 = b.headD 0 := by
      refine same.resolve_right ?_
      simp [goesOn, short]
    rcases ended.reported short loud r there with old | ⟨k, greatest, charno⟩
    · exact Or.inl (silent short ▸ old)
    · refine Or.inr ⟨k + 1, shared_more a b equal first k greatest, ?_⟩
      rw [charno, moved, Nat.add_assoc, Nat.add_comm 1 k]

theorem loop_ends (a b : Bytes) (p : Place) : ∃ n status stderr left,
    Ends (want flags) n ⟨.first p, pair a b, []⟩ ⟨.exited status stderr, left, []⟩ ∧ Ended flags a b p status stderr := by
  induction size : a.length + b.length using Nat.strong_induction_on generalizing a b p with
  | _ size ih =>
      have turned := turn_cases flags (a.headD 0) (b.headD 0) p
      have round := round_ends flags a b p
      generalize turn flags (a.headD 0) (b.headD 0) p = pc at turned round
      cases turned with
      | zeros first second =>
          refine ⟨2, 0, p.stderr, pair a.tail b.tail, round 0 _ (ends_stop _ _ rfl), ?_, fun _ _ r there => Or.inl there⟩
          exact iff_of_true rfl (passes_zero flags a b first second)
      | differ stderr different stops reported =>
          refine ⟨2, 1, stderr, pair a.tail b.tail, round 0 _ (ends_stop _ _ rfl), ?_, fun short loud r there => ?_⟩
          · exact iff_of_false Nat.one_ne_zero (passes_not flags a b different stops)
          · rcases reported short loud r there with old | charno
            · exact Or.inl old
            · exact Or.inr ⟨0, shared_none a b different, charno⟩
      | onward next same first second moved silent =>
          have less : a.tail.length + b.tail.length < a.length + b.length := by
            rw [head_some a first, head_some b second]
            omega
          obtain ⟨n, status, stderr, left, ends, ended⟩ := ih _ (size ▸ less) a.tail b.tail next rfl
          exact ⟨n + 2, status, stderr, left, round n _ ends,
            ended_onward flags same first second moved silent ended⟩

theorem exits_ended (a b : Bytes) : ∃ status stderr, Exits flags a b status stderr ∧ Ended flags a b ⟨1, 1, []⟩ status stderr := by
  obtain ⟨n, status, stderr, left, ends, ended⟩ := loop_ends flags a b ⟨1, 1, []⟩
  exact ⟨status, stderr, net_delivers (want flags) channelSize (by decide) _ _ n _ ends, ended⟩

end Verdict

theorem emit_drop (data : Bytes) (offset : Int) : emit data offset = data.drop offset.toNat := by
  rw [emit]
  split
  · rfl
  · rename_i start
    have zero : offset.toNat = 0 := by omega
    rw [zero, List.drop_zero]

theorem verdict_iff (flags : Flags) (data1 data2 : Bytes) (offset1 offset2 : Int) :
    (∃ status stderr, Exits flags (emit data1 offset1) (emit data2 offset2) status stderr ∧
        (status = 0 ↔ data1.drop offset1.toNat = data2.drop offset2.toNat) ∧
        (flags.long = false → flags.silent = false → ∀ r ∈ stderr, ∀ charno, r.charno = some charno →
          ∃ k, IsGreatest {k | Shared (data1.drop offset1.toNat) (data2.drop offset2.toNat) k} k ∧ charno = 1 + k)) ↔
      (Passes flags (data1.drop offset1.toNat) (data2.drop offset2.toNat) →
        data1.drop offset1.toNat = data2.drop offset2.toNat) := by
  rw [emit_drop, emit_drop]
  generalize data1.drop offset1.toNat = a
  generalize data2.drop offset2.toNat = b
  obtain ⟨status, stderr, exits, ended⟩ := exits_ended flags a b
  have equal : a = b → Passes flags a b := by
    rintro rfl
    rw [Passes]
    split <;> rfl
  constructor
  · rintro ⟨status', stderr', exits', zero, _⟩ passes
    obtain ⟨final, reach, stuck⟩ := exits.ends
    have same := (exits.same final reach stuck).1.symm.trans (exits'.same final reach stuck).1
    cases same
    exact zero.mp (ended.zero.mpr passes)
  · intro condition
    refine ⟨status, stderr, exits, ended.zero.trans ⟨condition, equal⟩, fun short loud r there charno number => ?_⟩
    rcases ended.reported short loud r there with old | ⟨k, greatest, counted⟩
    · cases old
    · refine ⟨k, greatest, ?_⟩
      exact Option.some.inj (number.symm.trans counted)

-- "a", a zero byte and "b" passes for "a"; with -l, "ab" passes for "ac".
theorem zero_byte_passes :
    (∃ stderr, Exits ⟨false, false, false⟩ (emit [97, 0, 98] 0) (emit [97] 0) 0 stderr) ∧
      ∃ stderr, Exits ⟨true, false, false⟩ (emit [97, 98] 0) (emit [97, 99] 0) 0 stderr := by
  constructor
  · obtain ⟨status, stderr, exits, ended⟩ := exits_ended ⟨false, false, false⟩ (emit [97, 0, 98] 0) (emit [97] 0)
    cases ended.zero.mpr rfl
    exact ⟨stderr, exits⟩
  · obtain ⟨status, stderr, exits, ended⟩ := exits_ended ⟨true, false, false⟩ (emit [97, 98] 0) (emit [97, 99] 0)
    cases ended.zero.mpr rfl
    exact ⟨stderr, exits⟩

end URoot.Cmp
