import URoot.Lib.Codec
import Mathlib.Tactic.Common

set_option autoImplicit false

namespace GoLib

def runeError : Nat := 0xfffd

def runeValue : Bytes → Nat
  | [a, b] => a.toNat % 32 * 64 + b.toNat % 64
  | [a, b, c] => a.toNat % 16 * 4096 + b.toNat % 64 * 64 + c.toNat % 64
  | [a, b, c, d] => a.toNat % 8 * 262144 + b.toNat % 64 * 4096 + c.toNat % 64 * 64 + d.toNat % 64
  | _ => runeError

-- utf8.DecodeRune: the first rune and how many bytes it takes.
def decodeRune : Bytes → Nat × Nat
  | [] => (runeError, 0)
  | b :: rest =>
      if b < 0x80 then (b.toNat, 1)
      else if runeWidth (b :: rest) = 1 then (runeError, 1)
      else (runeValue ((b :: rest).take (runeWidth (b :: rest))), runeWidth (b :: rest))

-- utf8.AppendRune
def encodeRune (r : Nat) : Bytes :=
  if r ≤ 0x7f then [UInt8.ofNat r]
  else if r ≤ 0x7ff then [UInt8.ofNat (0xc0 + r / 64), UInt8.ofNat (0x80 + r % 64)]
  else if 0x10ffff < r ∨ 0xd800 ≤ r ∧ r ≤ 0xdfff then [0xef, 0xbf, 0xbd]
  else if r ≤ 0xffff then
    [UInt8.ofNat (0xe0 + r / 4096), UInt8.ofNat (0x80 + r / 64 % 64), UInt8.ofNat (0x80 + r % 64)]
  else
    [UInt8.ofNat (0xf0 + r / 262144), UInt8.ofNat (0x80 + r / 4096 % 64), UInt8.ofNat (0x80 + r / 64 % 64),
      UInt8.ofNat (0x80 + r % 64)]

def mapRunesLoop (mapping : Nat → Nat) : Nat → Bytes → Bytes
  | 0, _ => []
  | _ + 1, [] => []
  | fuel + 1, b :: rest =>
      encodeRune (mapping (decodeRune (b :: rest)).1) ++
        mapRunesLoop mapping fuel ((b :: rest).drop (decodeRune (b :: rest)).2)

-- bytes.Map for a mapping that drops no rune. Every rune takes at least one byte.
def mapRunes (mapping : Nat → Nat) (s : Bytes) : Bytes := mapRunesLoop mapping s.length s

-- utf8.ValidString. The first argument bounds the number of runes.
def validRunes : Nat → Bytes → Bool
  | 0, _ => true
  | _ + 1, [] => true
  | n + 1, b :: rest =>
      if b < 0x80 then validRunes n rest
      else if runeWidth (b :: rest) = 1 then false
      else validRunes n ((b :: rest).drop (runeWidth (b :: rest)))

def validString (s : Bytes) : Bool := validRunes s.length s

section LongRunes

theorem rune_width_positive (b : UInt8) (rest : Bytes) : 0 < runeWidth (b :: rest) := by
  rw [runeWidth]
  split
  · exact Nat.one_pos
  · dsimp only
    split
    · exact Nat.succ_pos _
    · exact Nat.one_pos

theorem rune_width_long {b : UInt8} {rest : Bytes} (long : runeWidth (b :: rest) ≠ 1) :
    ∃ more low high, runeTail b = some (more, low, high) ∧ runeWidth (b :: rest) = more + 1 ∧
      (rest.take more).length = more ∧ (rest.take more).head?.all (fun x => low ≤ x ∧ x ≤ high) ∧
      (rest.take more).tail.all (fun x => 0x80 ≤ x ∧ x ≤ 0xbf) := by
  cases start : runeTail b with
  | none => exact absurd (by simp only [runeWidth, start]) long
  | some found =>
      obtain ⟨more, low, high⟩ := found
      by_cases whole : (rest.take more).length = more ∧ (rest.take more).head?.all (fun x => low ≤ x ∧ x ≤ high) ∧
          (rest.take more).tail.all (fun x => 0x80 ≤ x ∧ x ≤ 0xbf)
      · refine ⟨more, low, high, rfl, ?_, whole⟩
        simp only [runeWidth, start]
        rw [if_pos whole]
      · refine absurd ?_ long
        simp only [runeWidth, start]
        rw [if_neg whole]

theorem rune_width_own {b : UInt8} {rest : Bytes} (tail : Bytes) (long : runeWidth (b :: rest) ≠ 1) :
    runeWidth ((b :: rest).take (runeWidth (b :: rest)) ++ tail) = runeWidth (b :: rest) ∧
      runeWidth (b :: rest) ≤ (b :: rest).length := by
  obtain ⟨more, low, high, start, width, whole⟩ := rune_width_long long
  have again : (rest.take more ++ tail).take more = rest.take more := List.take_left' whole.1
  have enough := whole.1
  rw [List.length_take] at enough
  refine ⟨?_, by rw [width, List.length_cons]; omega⟩
  rw [width, List.take_succ_cons, List.cons_append]
  simp only [runeWidth, start, again]
  rw [if_pos whole]

inductive LongRune : Bytes → Prop where
  | two (a b : UInt8) (first : 0xc2 ≤ a.toNat ∧ a.toNat ≤ 0xdf) (second : 0x80 ≤ b.toNat ∧ b.toNat ≤ 0xbf) : LongRune [a, b]
  | three (a b c : UInt8) (first : 0xe0 ≤ a.toNat ∧ a.toNat ≤ 0xef) (second : 0x80 ≤ b.toNat ∧ b.toNat ≤ 0xbf)
      (third : 0x80 ≤ c.toNat ∧ c.toNat ≤ 0xbf) (short : a.toNat = 0xe0 → 0xa0 ≤ b.toNat)
      (surrogate : a.toNat = 0xed → b.toNat ≤ 0x9f) : LongRune [a, b, c]
  | four (a b c d : UInt8) (first : 0xf0 ≤ a.toNat ∧ a.toNat ≤ 0xf4) (second : 0x80 ≤ b.toNat ∧ b.toNat ≤ 0xbf)
      (third : 0x80 ≤ c.toNat ∧ c.toNat ≤ 0xbf) (fourth : 0x80 ≤ d.toNat ∧ d.toNat ≤ 0xbf)
      (short : a.toNat = 0xf0 → 0x90 ≤ b.toNat) (large : a.toNat = 0xf4 → b.toNat ≤ 0x8f) : LongRune [a, b, c, d]

theorem rune_tail_some {b low high : UInt8} {more : Nat} (start : runeTail b = some (more, low, high)) :
    (more = 1 ∧ (0xc2 ≤ b.toNat ∧ b.toNat ≤ 0xdf) ∧ 0x80 ≤ low.toNat ∧ high.toNat ≤ 0xbf) ∨
      (more = 2 ∧ (0xe0 ≤ b.toNat ∧ b.toNat ≤ 0xef) ∧ (0x80 ≤ low.toNat ∧ high.toNat ≤ 0xbf) ∧
        (b.toNat = 0xe0 → 0xa0 ≤ low.toNat) ∧ (b.toNat = 0xed → high.toNat ≤ 0x9f)) ∨
      (more = 3 ∧ (0xf0 ≤ b.toNat ∧ b.toNat ≤ 0xf4) ∧ (0x80 ≤ low.toNat ∧ high.toNat ≤ 0xbf) ∧
        (b.toNat = 0xf0 → 0x90 ≤ low.toNat) ∧ (b.toNat = 0xf4 → high.toNat ≤ 0x8f)) := by
  unfold runeTail at start
  simp only [UInt8.le_iff_toNat_le, ← UInt8.toNat_inj] at start
  repeat' split at start
  all_goals cases start
  all_goals simp_all
  all_goals omega

theorem long_rune {b : UInt8} {rest : Bytes} (long : runeWidth (b :: rest) ≠ 1) :
    LongRune ((b :: rest).take (runeWidth (b :: rest))) := by
  obtain ⟨more, low, high, start, width, size, second, others⟩ := rune_width_long long
  rw [width, List.take_succ_cons]
  generalize rest.take more = tail at size second others
  rcases rune_tail_some start with ⟨rfl, first, bounds⟩ | ⟨rfl, first, bounds⟩ | ⟨rfl, first, bounds⟩
  · obtain ⟨c, rfl⟩ := List.length_eq_one_iff.mp size
    simp only [List.head?_cons, Option.all_some, decide_eq_true_eq, UInt8.le_iff_toNat_le] at second
    exact .two b c first (by omega)
  · obtain ⟨c, d, rfl⟩ := List.length_eq_two.mp size
    simp only [List.head?_cons, Option.all_some, decide_eq_true_eq, UInt8.le_iff_toNat_le] at second
    simp only [List.tail_cons, List.all_cons, List.all_nil, Bool.and_true, decide_eq_true_eq, UInt8.le_iff_toNat_le] at others
    exact .three b c d first (by omega) others (by omega) (by omega)
  · obtain ⟨c, d, e, rfl⟩ := List.length_eq_three.mp size
    simp only [List.head?_cons, Option.all_some, decide_eq_true_eq, UInt8.le_iff_toNat_le] at second
    simp only [List.tail_cons, List.all_cons, List.all_nil, Bool.and_true, Bool.and_eq_true, decide_eq_true_eq,
      UInt8.le_iff_toNat_le] at others
    exact .four b c d e first (by omega) others.1 others.2 (by omega) (by omega)

theorem long_rune_high (bytes : Bytes) (long : LongRune bytes) : ∀ c ∈ bytes, 128 ≤ c.toNat := by
  intro c member
  cases long with
  | two a b first second =>
      simp only [List.mem_cons, List.not_mem_nil, or_false] at member
      rcases member with rfl | rfl <;> omega
  | three a b c' first second third =>
      simp only [List.mem_cons, List.not_mem_nil, or_false] at member
      rcases member with rfl | rfl | rfl <;> omega
  | four a b c' d first second third fourth =>
      simp only [List.mem_cons, List.not_mem_nil, or_false] at member
      rcases member with rfl | rfl | rfl | rfl <;> omega

theorem byte_of_nat (n : Nat) (b : UInt8) (same : n = b.toNat) : UInt8.ofNat n = b := by
  rw [same, UInt8.ofNat_toNat]

theorem encode_rune_value (bytes : Bytes) (long : LongRune bytes) :
    0x80 ≤ runeValue bytes ∧ encodeRune (runeValue bytes) = bytes := by
  cases long with
  | two a b first second =>
      have low : 0x80 ≤ runeValue [a, b] := by
        rw [runeValue]
        omega
      refine ⟨low, ?_⟩
      rw [runeValue] at low ⊢
      rw [encodeRune, if_neg (by omega), if_pos (by omega), byte_of_nat _ a (by omega), byte_of_nat _ b (by omega)]
  | three a b c first second third short surrogate =>
      have low : 0x80 ≤ runeValue [a, b, c] := by
        rw [runeValue]
        omega
      refine ⟨low, ?_⟩
      rw [runeValue] at low ⊢
      rw [encodeRune, if_neg (by omega), if_neg (by omega), if_neg (by omega), if_pos (by omega),
        byte_of_nat _ a (by omega), byte_of_nat _ b (by omega), byte_of_nat _ c (by omega)]
  | four a b c d first second third fourth short large =>
      have low : 0x80 ≤ runeValue [a, b, c, d] := by
        rw [runeValue]
        omega
      refine ⟨low, ?_⟩
      rw [runeValue] at low ⊢
      rw [encodeRune, if_neg (by omega), if_neg (by omega), if_neg (by omega), if_neg (by omega),
        byte_of_nat _ a (by omega), byte_of_nat _ b (by omega), byte_of_nat _ c (by omega), byte_of_nat _ d (by omega)]

end LongRunes

section Runes

variable (mapping : Nat → Nat)

theorem encode_rune_ascii (r : Nat) (small : r < 0x80) : encodeRune r = [UInt8.ofNat r] := by
  rw [encodeRune, if_pos (by omega)]

theorem encode_rune_nonempty (r : Nat) : encodeRune r ≠ [] := by
  unfold encodeRune
  split
  · exact List.cons_ne_nil _ _
  · split
    · exact List.cons_ne_nil _ _
    · split
      · exact List.cons_ne_nil _ _
      · split
        · exact List.cons_ne_nil _ _
        · exact List.cons_ne_nil _ _

theorem map_runes_nonempty (s : Bytes) (present : s ≠ []) : mapRunes mapping s ≠ [] := by
  cases s with
  | nil => exact absurd rfl present
  | cons b rest =>
      rw [mapRunes, List.length_cons, mapRunesLoop]
      exact fun empty => encode_rune_nonempty _ (List.append_eq_nil_iff.mp empty).1

theorem map_runes_ascii (ascii : ∀ r, r < 0x80 → mapping r < 0x80) (s : Bytes) (small : ∀ b ∈ s, b < 0x80) :
    mapRunes mapping s = s.map fun b => UInt8.ofNat (mapping b.toNat) := by
  induction s with
  | nil => rfl
  | cons b rest ih =>
      have first : b < 0x80 := small b List.mem_cons_self
      have encoded : encodeRune (mapping b.toNat) = [UInt8.ofNat (mapping b.toNat)] :=
        encode_rune_ascii _ (ascii _ (UInt8.lt_iff_toNat_lt.mp first))
      have later := ih (fun c member => small c (List.mem_cons_of_mem b member))
      rw [mapRunes] at later
      rw [mapRunes, List.length_cons, mapRunesLoop, decodeRune, if_pos first]
      simp only [encoded, List.drop_succ_cons, List.drop_zero, later, List.map_cons, List.singleton_append]

theorem rune_width_alone (b : UInt8) : runeWidth [b] = 1 := by
  rw [runeWidth]
  split
  · rfl
  · rename_i more low high start
    have several : more ≠ 0 := by
      intro zero
      subst zero
      unfold runeTail at start
      repeat' split at start
      all_goals cases start
    rw [if_neg]
    rintro ⟨length, _⟩
    rw [List.take_nil, List.length_nil] at length
    exact several length.symm

theorem map_runes_alone (b : UInt8) (large : ¬ b < 0x80) : mapRunes mapping [b] = encodeRune (mapping runeError) := by
  have decoded : decodeRune [b] = (runeError, 1) := by
    rw [decodeRune, if_neg large, if_pos (rune_width_alone b)]
  rw [mapRunes, List.length_singleton, mapRunesLoop, decoded]
  exact List.append_nil _

end Runes

end GoLib
