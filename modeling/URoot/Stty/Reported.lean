import URoot.Stty.Termios
import Mathlib.Data.List.Nodup
import Mathlib.Data.List.Pairwise

set_option autoImplicit false

namespace URoot.Stty

open GoLib Act

section Masks

variable (x k m : UInt32)

theorem or_mask : (x ||| m) &&& m = m := by
  apply UInt32.eq_of_toBitVec_eq
  ext i
  rw [UInt32.toBitVec_and, UInt32.toBitVec_or, BitVec.getElem_and, BitVec.getElem_or, Bool.and_or_distrib_right, Bool.and_self]
  simp

theorem clear_mask : (x &&& ~~~m) &&& m = 0 := by
  apply UInt32.eq_of_toBitVec_eq
  ext i
  simp

theorem apart_bit (apart : k &&& m = 0) (i : Nat) (small : i < 32) : (k.toBitVec[i] && m.toBitVec[i]) = false := by
  have bits := congrArg (fun v : UInt32 => v.toBitVec[i]) apart
  simpa using bits

theorem or_apart (apart : k &&& m = 0) : (x ||| k) &&& m = x &&& m := by
  apply UInt32.eq_of_toBitVec_eq
  ext i small
  rw [UInt32.toBitVec_and, UInt32.toBitVec_or, BitVec.getElem_and, BitVec.getElem_or, Bool.and_or_distrib_right,
    apart_bit k m apart i small, Bool.or_false, UInt32.toBitVec_and, BitVec.getElem_and]

theorem clear_apart (apart : k &&& m = 0) : (x &&& ~~~k) &&& m = x &&& m := by
  apply UInt32.eq_of_toBitVec_eq
  ext i small
  have bit := apart_bit k m apart i small
  simp only [UInt32.toBitVec_and, UInt32.toBitVec_not, BitVec.getElem_and, BitVec.getElem_not]
  cases here : m.toBitVec[i] with
  | false => simp
  | true =>
      rw [here, Bool.and_true] at bit
      rw [bit]
      simp

end Masks

section Fields

variable (term : Termios) (t : Tty)

theorem field_set_self (word : Word) (value : UInt32) : (term.setField word value).field word = value := by
  cases word with
  | I | O | C | L => rfl

theorem field_set_other (word other : Word) (value : UInt32) (different : word ≠ other) :
    (term.setField word value).field other = term.field other := by
  cases word with
  | I | O | C | L =>
      cases other with
      | I | O | C | L => first | rfl | exact absurd rfl different

theorem set_field_cc (word : Word) (value : UInt32) : (term.setField word value).cc = term.cc := by
  cases word with
  | I | O | C | L => rfl

theorem put_bit_field (e : Bytes × Bit) : (putBit t term e).field e.2.word =
    if t.opts e.1 then term.field e.2.word ||| e.2.mask else term.field e.2.word &&& ~~~e.2.mask := by
  rw [putBit, field_set_self]
  cases t.opts e.1 with
  | true => simp
  | false => simp

theorem put_bit_reads (e : Bytes × Bit) (some : e.2.mask ≠ 0) :
    decide ((putBit t term e).field e.2.word &&& e.2.mask ≠ 0) = t.opts e.1 := by
  rw [put_bit_field]
  cases t.opts e.1 with
  | true => simpa [or_mask] using some
  | false => simp [clear_mask]

theorem put_bit_apart (e : Bytes × Bit) (word : Word) (mask : UInt32) (apart : e.2.word = word → e.2.mask &&& mask = 0) :
    (putBit t term e).field word &&& mask = term.field word &&& mask := by
  by_cases same : e.2.word = word
  · have clear := apart same
    subst same
    rw [put_bit_field]
    cases t.opts e.1 with
    | true => simpa using or_apart _ _ _ clear
    | false => simpa using clear_apart _ _ _ clear
  · rw [putBit, field_set_other _ _ _ _ same]

theorem put_char_self (e : Bytes × Fin 32) : (putChar t term e).cc.get e.2 = t.cc e.1 :=
  Vector.getElem_set_self e.2.isLt

theorem put_char_other (e : Bytes × Fin 32) (i : Fin 32) (different : e.2 ≠ i) :
    (putChar t term e).cc.get i = term.cc.get i := by
  have apart : e.2.val ≠ i.val := fun same => different (Fin.ext same)
  exact Vector.getElem_set_ne e.2.isLt i.isLt apart

theorem put_char_field (e : Bytes × Fin 32) (word : Word) : (putChar t term e).field word = term.field word := by
  cases word with
  | I | O | C | L => rfl

end Fields

section Tables

theorem bool_names (e j : Bytes × Bit) (there : e ∈ boolFields) (here : j ∈ boolFields) (same : j.1 = e.1) : j = e := by
  have distinct : (boolFields.map Prod.fst).Nodup := by decide +kernel
  exact List.inj_on_of_nodup_map distinct here there same

theorem bool_masks : ∀ e ∈ boolFields, e.2.mask ≠ 0 := by decide +kernel

def Apart (j e : Bytes × Bit) : Prop := j.2.word = e.2.word → j.2.mask &&& e.2.mask = 0

instance (j e : Bytes × Bit) : Decidable (Apart j e) := inferInstanceAs (Decidable (_ → _))

instance : Std.Symm Apart where
  symm _ _ apart same := (UInt32.and_comm _ _).trans (apart same.symm)

theorem bool_apart (e j : Bytes × Bit) (there : e ∈ boolFields) (here : j ∈ boolFields) (different : j ≠ e) : Apart j e := by
  have apart : boolFields.Pairwise Apart := by decide +kernel
  exact apart.forall here there different

theorem char_names (e j : Bytes × Fin 32) (there : e ∈ cc) (here : j ∈ cc) (same : j.1 = e.1) : j = e := by
  have distinct : (cc.map Prod.fst).Nodup := by decide +kernel
  exact List.inj_on_of_nodup_map distinct here there same

theorem char_slots : ∀ e ∈ cc, ∀ j ∈ cc, j.2 = e.2 → j = e ∨
    (j.1 = str "intr" ∧ e.1 = str "time") ∨ (j.1 = str "time" ∧ e.1 = str "intr") := by
  decide +kernel

end Tables

section Filled

variable (order : Ranges) (t : Tty) (term : Termios)

theorem filled_bit (e : Bytes × Bit) (member : e ∈ boolFields) :
    decide ((filled order t term).field e.2.word &&& e.2.mask ≠ 0) = t.opts e.1 := by
  have chars : (filled order t term).field e.2.word = (order.bools.foldl (putBit t) term).field e.2.word := by
    have passed := Tables.pass_same (putChar t) (fun next => next.field e.2.word) order.chars
      (fun j _ next => put_char_field next t j e.2.word) (order.bools.foldl (putBit t) term)
    rw [← passed]
    cases e.2.word with
    | I | O | C | L => rfl
  rw [chars]
  apply Tables.pass_sets (putBit t) (fun next => decide (next.field e.2.word &&& e.2.mask ≠ 0) = t.opts e.1) order.bools e
    (order.boolsPerm.mem_iff.mpr member)
  · exact fun next => put_bit_reads next t e (bool_masks e member)
  · intro j other next before
    by_cases same : j = e
    · rw [same]
      exact put_bit_reads next t e (bool_masks e member)
    · rw [put_bit_apart next t j e.2.word e.2.mask (bool_apart e j member (order.boolsPerm.mem_iff.mp other) same)]
      exact before

theorem filled_char (agree : t.cc (str "intr") = t.cc (str "time")) (e : Bytes × Fin 32) (member : e ∈ cc) :
    (filled order t term).cc.get e.2 = t.cc e.1 := by
  apply Tables.pass_sets (putChar t) (fun next => next.cc.get e.2 = t.cc e.1) order.chars e (order.charsPerm.mem_iff.mpr member)
  · exact fun next => put_char_self next t e
  · intro j other next before
    by_cases same : j.2 = e.2
    · have set := put_char_self next t j
      rw [same] at set
      rw [set]
      rcases char_slots e member j (order.charsPerm.mem_iff.mp other) same with rfl | ⟨first, second⟩ | ⟨first, second⟩
      · rfl
      · rw [first, second, agree]
      · rw [first, second, agree]
    · rw [put_char_other next t j e.2 same]
      exact before

theorem filled_unnamed_bits (word : Word) (mask : UInt32)
    (unnamed : ∀ e ∈ boolFields, e.2.word = word → e.2.mask &&& mask = 0) :
    (filled order t term).field word &&& mask = term.field word &&& mask := by
  have bits := Tables.pass_same (putBit t) (fun next => next.field word &&& mask) order.bools
    (fun j member next => put_bit_apart next t j word mask (unnamed j (order.boolsPerm.mem_iff.mp member))) term
  have chars := Tables.pass_same (putChar t) (fun next => next.field word) order.chars
    (fun j _ next => put_char_field next t j word) (order.bools.foldl (putBit t) term)
  rw [← bits, ← chars]
  cases word with
  | I | O | C | L => rfl

theorem filled_unnamed_chars (i : Fin 32) (unnamed : ∀ e ∈ cc, e.2 ≠ i) :
    (filled order t term).cc.get i = term.cc.get i := by
  have chars := Tables.pass_same (putChar t) (fun next => next.cc.get i) order.chars
    (fun j member next => put_char_other next t j i (unnamed j (order.charsPerm.mem_iff.mp member)))
    (order.bools.foldl (putBit t) term)
  have bits := Tables.pass_same (putBit t) (fun next => next.cc) order.bools
    (fun j _ next => set_field_cc next _ _) term
  exact chars.trans (congrArg (fun chars : Vector UInt8 32 => chars.get i) bits)

end Filled

section Reported

def Reports (result t : Tty) : Prop :=
  (∀ e ∈ cc, result.cc e.1 = t.cc e.1) ∧ ∀ e ∈ boolFields, result.opts e.1 = t.opts e.1

def UnnamedKept (old new : Termios) : Prop :=
  (∀ i : Fin 32, (∀ e ∈ cc, e.2 ≠ i) → new.cc.get i = old.cc.get i) ∧
    ∀ word mask, (∀ e ∈ boolFields, e.2.word = word → e.2.mask &&& mask = 0) → new.field word &&& mask = old.field word &&& mask

variable (order : Ranges) (term : Termios) (size : Winsize)

theorem report_char (e : Bytes × Fin 32) (member : e ∈ cc) : (report order term size).cc e.1 = term.cc.get e.2 :=
  Tables.fill_entry _ _ order.chars e (order.charsPerm.mem_iff.mpr member)
    (fun j other => char_names e j member (order.charsPerm.mem_iff.mp other))

theorem report_bool (e : Bytes × Bit) (member : e ∈ boolFields) :
    (report order term size).opts e.1 = decide (term.field e.2.word &&& e.2.mask ≠ 0) :=
  Tables.fill_entry _ _ order.bools e (order.boolsPerm.mem_iff.mpr member)
    (fun j other => bool_names e j member (order.boolsPerm.mem_iff.mp other))

variable (errno : Call → Option Nat) (s next : Terminal)

theorem run_ti_get_inv (got : Termios) (done : (tiGet errno).run s = (.ok got, next)) : got = s.term ∧ next = s := by
  obtain ⟨_, same, checked, rest⟩ := run_bind_inv done
  obtain ⟨-, rfl⟩ := run_check_inv checked
  cases rest
  exact ⟨rfl, rfl⟩

theorem run_gtty_inv (result : Tty) (done : (gtty errno order).run s = (.ok result, next)) :
    result = report order s.term s.size ∧ next = s := by
  obtain ⟨got, same, first, rest⟩ := run_bind_inv done
  obtain ⟨rfl, rfl⟩ := run_ti_get_inv errno s same got first
  obtain ⟨size, after, second, rest⟩ := run_bind_inv rest
  obtain ⟨_, again, checked, read⟩ := run_bind_inv second
  obtain ⟨-, rfl⟩ := run_check_inv checked
  cases read
  cases rest
  exact ⟨rfl, rfl⟩

theorem run_stty_inv (after : Ranges) (t result : Tty) (done : (stty errno order after t).run s = (.ok result, next)) :
    next.term = filled order t s.term ∧ result = report after next.term next.size := by
  obtain ⟨got, same, first, rest⟩ := run_bind_inv done
  obtain ⟨rfl, rfl⟩ := run_ti_get_inv errno s same got first
  obtain ⟨_, stored, second, rest⟩ := run_bind_inv rest
  obtain ⟨_, again, checked, wrote⟩ := run_bind_inv second
  obtain ⟨-, rfl⟩ := run_check_inv checked
  cases wrote
  obtain ⟨_, sized, third, rest⟩ := run_bind_inv rest
  obtain ⟨_, again', checked', wrote⟩ := run_bind_inv third
  obtain ⟨-, rfl⟩ := run_check_inv checked'
  cases wrote
  obtain ⟨rfl, rfl⟩ := run_gtty_inv after errno _ next result rest
  exact ⟨rfl, rfl⟩

theorem run_set_options (before after : Ranges) (opts : List Bytes) (t : Tty) (works : ∀ call, errno call = none)
    (accepted : setOpts opts (report before s.term s.size) = .ok t) :
    (setOptions errno before order after opts).run s =
      (.ok (t, report after (filled order t s.term) ⟨t.row.toUInt64.toUInt16, t.col.toUInt64.toUInt16, 0, 0⟩),
        ⟨filled order t s.term, ⟨t.row.toUInt64.toUInt16, t.col.toUInt64.toUInt16, 0, 0⟩⟩) := by
  have term : ∀ s', (tiGet errno).run s' = (.ok s'.term, s') := by
    intro s'
    rw [tiGet, works .tiGet]
    rfl
  have got : ∀ ranges s', (gtty errno ranges).run s' = (.ok (report ranges s'.term s'.size), s') := by
    intro ranges s'
    rw [gtty, run_bind_ok (term s'), wsGet, works .wsGet]
    rfl
  have set : (stty errno order after t).run s = (.ok (report after (filled order t s.term)
      ⟨t.row.toUInt64.toUInt16, t.col.toUInt64.toUInt16, 0, 0⟩), ⟨filled order t s.term, ⟨t.row.toUInt64.toUInt16,
      t.col.toUInt64.toUInt16, 0, 0⟩⟩) := by
    rw [stty, run_bind_ok (term s), tiSet, works .tiSet, wsSet, works .wsSet]
    exact got after _
  rw [setOptions, run_bind_ok (got before s),
    run_of_except_bind _ _ accepted, run_bind_ok set]
  rfl

end Reported

theorem stty_reports_iff (errno : Call → Option Nat) (order after : Ranges) (s next : Terminal) (t result : Tty)
    (done : (stty errno order after t).run s = (.ok result, next)) :
    Reports result t ∧ UnnamedKept s.term next.term ↔ t.cc (str "intr") = t.cc (str "time") := by
  obtain ⟨stored, rfl⟩ := run_stty_inv order errno s next after t result done
  have intr : (str "intr", 0) ∈ cc := by decide
  have time : (str "time", 0) ∈ cc := by decide
  constructor
  · rintro ⟨⟨chars, -⟩, -⟩
    rw [← chars _ intr, ← chars _ time, report_char after _ _ _ intr, report_char after _ _ _ time]
  · intro agree
    rw [stored]
    refine ⟨⟨fun e member => ?_, fun e member => ?_⟩, ?_, ?_⟩
    · rw [report_char after _ _ e member, filled_char order t s.term agree e member]
    · rw [report_bool after _ _ e member, filled_bit order t s.term e member]
    · exact filled_unnamed_chars order t s.term
    · exact filled_unnamed_bits order t s.term

theorem set_options_inv (errno : Call → Option Nat) (before order after : Ranges) (opts : List Bytes) (s next : Terminal)
    (t result : Tty) (done : (setOptions errno before order after opts).run s = (.ok (t, result), next)) :
    setOpts opts (report before s.term s.size) = .ok t ∧ (stty errno order after t).run s = (.ok result, next) := by
  obtain ⟨old, same, read, rest⟩ := run_bind_inv done
  obtain ⟨rfl, rfl⟩ := run_gtty_inv before errno s same old read
  obtain ⟨asked, again, accepted, rest⟩ := run_bind_inv rest
  obtain rfl : same = again := congrArg Prod.snd accepted
  obtain ⟨returned, last, set, rest⟩ := run_bind_inv rest
  cases rest
  exact ⟨congrArg Prod.fst accepted, set⟩

theorem reports_iff (errno : Call → Option Nat) (before order after : Ranges) (opts : List Bytes) (s next : Terminal)
    (t result : Tty) (done : (setOptions errno before order after opts).run s = (.ok (t, result), next)) :
    Reports result t ∧ UnnamedKept s.term next.term ↔ t.cc (str "intr") = t.cc (str "time") :=
  stty_reports_iff errno order after s next t result (set_options_inv errno before order after opts s next t result done).2

section Raw

theorem raw_accepted (t : Tty) : ∃ raw, setOpts rawOptions t = .ok raw ∧ raw.cc (str "intr") = t.cc (str "intr") ∧
    raw.cc (str "time") = 0 :=
  ⟨_, rfl, rfl, rfl⟩

theorem raw_reports_iff (errno : Call → Option Nat) (before order after : Ranges) (s next : Terminal) (t result : Tty)
    (done : (setRaw errno before order after).run s = (.ok (t, result), next)) :
    Reports result t ∧ UnnamedKept s.term next.term ↔ s.term.cc.get 0 = 0 := by
  obtain ⟨accepted, set⟩ := set_options_inv errno before order after rawOptions s next t result done
  obtain ⟨raw, alike, intr, time⟩ := raw_accepted (report before s.term s.size)
  cases accepted.symm.trans alike
  rw [stty_reports_iff errno order after s next t result set, intr, time,
    report_char before s.term s.size (str "intr", 0) (by decide)]

end Raw

def listed : Ranges := ⟨boolFields, cc, .refl _, .refl _⟩

def backwards : Ranges := ⟨boolFields, cc.reverse, .refl _, cc.reverse_perm⟩

def blank : Terminal := ⟨⟨0, 0, 0, 0, 0, Vector.replicate 32 0, 0, 0⟩, ⟨24, 80, 0, 0⟩⟩

def current : Tty := report listed blank.term blank.size

def echoErase : Tty :=
  { current with opts := Function.update current.opts (str "echo") true, cc := Function.update current.cc (str "erase") 8 }

theorem echo_erase_reported : ∃ result next,
    (setOptions (fun _ => none) listed backwards listed [str "echo", str "erase", str "8"]).run blank = (.ok (echoErase, result), next) ∧
      Reports result echoErase ∧ UnnamedKept blank.term next.term := by
  have ran := run_set_options backwards (fun _ => none) blank listed listed [str "echo", str "erase", str "8"] echoErase
    (fun _ => rfl) rfl
  exact ⟨_, _, ran, (reports_iff _ _ _ _ _ _ _ _ _ ran).mpr (by decide +kernel)⟩

def intrThree : Tty := { current with cc := Function.update current.cc (str "intr") 3 }

theorem intr_lost : ∃ result next,
    (setOptions (fun _ => none) listed backwards listed [str "intr", str "3"]).run blank = (.ok (intrThree, result), next) ∧
      intrThree.cc (str "intr") = 3 ∧ result.cc (str "intr") = 0 := by
  have ran := run_set_options backwards (fun _ => none) blank listed listed [str "intr", str "3"] intrThree (fun _ => rfl) rfl
  exact ⟨_, _, ran, by decide +kernel, by decide +kernel⟩

end URoot.Stty
