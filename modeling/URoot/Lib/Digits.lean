import URoot.Lib.Codec
import Mathlib.Data.List.Induction
import Mathlib.Tactic.Common

set_option autoImplicit false

namespace GoLib.Digits

variable (base : Nat)

def numeralLoop : Nat → Nat → Bytes
  | 0, _ => []
  | count + 1, n => if n < base then [hexDigit n] else numeralLoop count (n / base) ++ [hexDigit (n % base)]

def numeral (n : Nat) : Bytes := numeralLoop base (n + 1) n

def digitValue (c : UInt8) : Option Nat := (fromHexChar c).filter (· < base)

def value (digits : Bytes) : Nat := digits.foldl (fun n c => n * base + (digitValue base c).getD 0) 0

-- fmt's %0kx: at least k digits.
def padded (k n : Nat) : Bytes := List.replicate (k - (numeral base n).length) 48 ++ numeral base n

theorem digit_decodes : ∀ d < 16, fromHexChar (hexDigit d) = some d := by
  decide

theorem numeral_loop_some (count n : Nat) : numeralLoop base (count + 1) n ≠ [] := by
  rw [numeralLoop]
  split
  · simp
  · simp

theorem numeral_some (n : Nat) : numeral base n ≠ [] := numeral_loop_some base n n

theorem numeral_length_le {n k : Nat} (positive : 0 < k) (small : n < base ^ k) : (numeral base n).length ≤ k := by
  have loop : ∀ count m k, 0 < k → m < base ^ k → (numeralLoop base count m).length ≤ k := by
    intro count
    induction count with
    | zero => exact fun _ _ _ _ => Nat.zero_le _
    | succ count ih =>
        intro m k positive small
        rw [numeralLoop]
        split
        · exact positive
        · rename_i large
          cases k with
          | zero => cases positive
          | succ k =>
              have more : 0 < k := by
                cases k with
                | zero =>
                    rw [Nat.zero_add, Nat.pow_one] at small
                    exact absurd small large
                | succ k => exact Nat.succ_pos k
              have quotient : m / base < base ^ k := by
                apply Nat.div_lt_of_lt_mul
                rw [Nat.mul_comm, ← Nat.pow_succ]
                exact small
              have tail := ih (m / base) k more quotient
              rw [List.length_append, List.length_singleton]
              omega
  exact loop _ n k positive small

section Digits

variable (atLeast : 2 ≤ base) (atMost : base ≤ 16)

include atMost

theorem digit_value (d : Nat) (small : d < base) : digitValue base (hexDigit d) = some d := by
  rw [digitValue, digit_decodes d (by omega), Option.filter_some, if_pos (by simpa using small)]

theorem value_snoc (digits : Bytes) (d : Nat) (small : d < base) :
    value base (digits ++ [hexDigit d]) = value base digits * base + d := by
  rw [value, List.foldl_append, List.foldl_cons, List.foldl_nil, digit_value base atMost d small, ← value]
  rfl

include atLeast

theorem numeral_digits (n : Nat) : ∀ c ∈ numeral base n, (digitValue base c).isSome := by
  have loop : ∀ count m, ∀ c ∈ numeralLoop base count m, (digitValue base c).isSome := by
    intro count
    induction count with
    | zero => exact fun _ _ impossible => by cases impossible
    | succ count ih =>
        intro m c member
        rw [numeralLoop] at member
        split at member
        · rename_i small
          rw [List.mem_singleton.mp member, digit_value base atMost m small]
          rfl
        · rcases List.mem_append.mp member with first | last
          · exact ih _ c first
          · rw [List.mem_singleton.mp last, digit_value base atMost _ (Nat.mod_lt _ (by omega))]
            rfl
  exact loop _ _

theorem numeral_leading (n : Nat) (positive : 0 < n) : (numeral base n).head? ≠ some 48 := by
  have zero : ∀ d < 16, hexDigit d = 48 → d = 0 := by decide
  have loop : ∀ count m, 0 < m → m < count → (numeralLoop base count m).head? ≠ some 48 := by
    intro count
    induction count with
    | zero => exact fun _ _ impossible => absurd impossible (Nat.not_lt_zero _)
    | succ count ih =>
        intro m positive bound
        rw [numeralLoop]
        split
        · rename_i small
          intro same
          rw [List.head?_cons, Option.some.injEq] at same
          exact absurd (zero m (by omega) same) (Nat.ne_of_gt positive)
        · have quotient : 0 < m / base := Nat.div_pos (by omega) (by omega)
          have lower : m / base < m := Nat.div_lt_self positive (by omega)
          have first := ih (m / base) quotient (by omega)
          cases count with
          | zero => omega
          | succ count => rwa [List.head?_append_of_ne_nil _ (numeral_loop_some base count _)]
  exact loop (n + 1) n positive (Nat.lt_succ_self n)

theorem value_numeral (n : Nat) : value base (numeral base n) = n := by
  have loop : ∀ count m, m < count → value base (numeralLoop base count m) = m := by
    intro count
    induction count with
    | zero => exact fun _ impossible => absurd impossible (Nat.not_lt_zero _)
    | succ count ih =>
        intro m bound
        rw [numeralLoop]
        split
        · rename_i small
          have one := value_snoc base atMost [] m small
          rw [List.nil_append, show value base [] = 0 from rfl, Nat.zero_mul, Nat.zero_add] at one
          exact one
        · have lower : m / base < m := Nat.div_lt_self (by omega) (by omega)
          rw [value_snoc base atMost _ _ (Nat.mod_lt _ (by omega)), ih _ (by omega), Nat.mul_comm]
          exact Nat.div_add_mod m base
  exact loop (n + 1) n (Nat.lt_succ_self n)

theorem value_bound (digits : Bytes) : value base digits < base ^ digits.length := by
  induction digits using List.reverseRecOn with
  | nil => simp [value]
  | append_singleton digits c ih =>
      have digit : (digitValue base c).getD 0 < base := by
        cases found : digitValue base c with
        | none => simp; omega
        | some d =>
            rw [digitValue] at found
            have kept := Option.filter_eq_some_iff.mp found
            simpa using kept.2
      have step : value base (digits ++ [c]) = value base digits * base + (digitValue base c).getD 0 := by
        rw [value, List.foldl_append, List.foldl_cons, List.foldl_nil, ← value]
      rw [step, List.length_append, List.length_singleton, Nat.pow_succ]
      calc value base digits * base + (digitValue base c).getD 0 < value base digits * base + base := by omega
        _ = (value base digits + 1) * base := by rw [Nat.succ_mul]
        _ ≤ base ^ digits.length * base := Nat.mul_le_mul_right base ih

theorem numeral_length_gt (n k : Nat) (large : base ^ k ≤ n) : k < (numeral base n).length := by
  have bound := value_bound base atLeast atMost (numeral base n)
  rw [value_numeral base atLeast atMost] at bound
  exact (Nat.pow_lt_pow_iff_right (by omega)).mp (Nat.lt_of_le_of_lt large bound)

theorem value_padded (k n : Nat) : value base (padded base k n) = n := by
  have zeros : ∀ m, value base (List.replicate m 48) = 0 := by
    intro m
    induction m with
    | zero => rfl
    | succ m ih =>
        have zero := value_snoc base atMost (List.replicate m 48) 0 (by omega)
        rw [show hexDigit 0 = 48 by decide, ih, Nat.zero_mul] at zero
        rw [List.replicate_succ', zero]
  have whole := value_numeral base atLeast atMost n
  rw [value] at whole
  rw [padded, value, List.foldl_append, ← value, zeros, whole]

theorem value_append_le (digits more : Bytes) : value base digits ≤ value base (digits ++ more) := by
  induction more using List.reverseRecOn with
  | nil => rw [List.append_nil]
  | append_singleton more c ih =>
      have step : value base (digits ++ (more ++ [c])) = value base (digits ++ more) * base + (digitValue base c).getD 0 := by
        rw [← List.append_assoc, value, List.foldl_append, List.foldl_cons, List.foldl_nil, ← value]
      have grows : value base (digits ++ more) ≤ value base (digits ++ more) * base := Nat.le_mul_of_pos_right _ (by omega)
      omega

theorem padded_digits (k n : Nat) : ∀ c ∈ padded base k n, (digitValue base c).isSome := by
  intro c member
  rcases List.mem_append.mp member with zero | digit
  · rw [List.eq_of_mem_replicate zero, show (48 : UInt8) = hexDigit 0 by decide, digit_value base atMost 0 (by omega)]
    rfl
  · exact numeral_digits base atLeast atMost n c digit

end Digits

theorem padded_length (k n : Nat) : (padded base k n).length = max k (numeral base n).length := by
  rw [padded, List.length_append, List.length_replicate]
  omega

theorem digit_hex (c : UInt8) (digit : (digitValue base c).isSome) : (fromHexChar c).isSome := by
  rw [digitValue] at digit
  cases found : fromHexChar c with
  | none =>
      rw [found] at digit
      cases digit
  | some d => rfl

theorem decimal_digit (c : UInt8) (digit : (digitValue 10 c).isSome) :
    48 ≤ c ∧ c ≤ 57 ∧ (digitValue 10 c).getD 0 = c.toNat - 48 := by
  have none_ : ∀ n, 10 ≤ n → ((some n).filter (· < 10)).isSome = false := by
    intro n large
    rw [Option.filter_some, if_neg (by simpa using large)]
    rfl
  rw [digitValue, fromHexChar] at digit ⊢
  by_cases decimal : 48 ≤ c ∧ c ≤ 57
  · have high := UInt8.le_iff_toNat_le.mp decimal.2
    have nine : (57 : UInt8).toNat = 57 := rfl
    rw [if_pos decimal, Option.filter_some, if_pos (by simp; omega)]
    exact ⟨decimal.1, decimal.2, rfl⟩
  · rw [if_neg decimal] at digit
    split at digit
    · rename_i lower
      have low := UInt8.le_iff_toNat_le.mp lower.1
      have a : (97 : UInt8).toNat = 97 := rfl
      rw [none_ _ (by omega)] at digit
      cases digit
    · split at digit
      · rename_i upper
        have low := UInt8.le_iff_toNat_le.mp upper.1
        have a : (65 : UInt8).toNat = 65 := rfl
        rw [none_ _ (by omega)] at digit
        cases digit
      · cases digit

end GoLib.Digits
