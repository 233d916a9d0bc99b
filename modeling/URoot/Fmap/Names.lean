import URoot.Fmap
import URoot.Lib.Strconv
import Mathlib.Data.List.DropRight

set_option autoImplicit false

namespace URoot.Fmap

open GoLib

section Names

-- (*String).String: the bytes without the zeros at the end.
def string (name : Fixed 32) : Bytes := name.bytes.rdropWhile (· = 0)

def marshalJSON (name : Fixed 32) : Bytes := Json.quote (string name)

inductive NameError where
  | invalidSyntax
  | longer (text : Bytes)
deriving DecidableEq, Repr

-- copy(s.Value[:], text)
def copyInto (s : Fixed 32) (text : Bytes) : Fixed 32 where
  bytes := (text ++ s.bytes.drop text.length).take 32
  size := by
    have size := s.size
    rw [List.length_take, List.length_append, List.length_drop]
    omega

def unmarshalJSON (s : Fixed 32) (b : Bytes) : Except NameError (Fixed 32) :=
  match Strconv.unquote b with
  | none => .error .invalidSyntax
  | some text => if 32 < text.length then .error (.longer text) else .ok (copyInto s text)

def zeroName : Fixed 32 := ⟨List.replicate 32 0, List.length_replicate⟩

theorem name_bytes (name : Fixed 32) : name.bytes = string name ++ List.replicate (32 - (string name).length) 0 := by
  have whole : name.bytes.rdropWhile (· = 0) ++ name.bytes.rtakeWhile (fun b : UInt8 => decide (b = 0)) = name.bytes :=
    List.rdropWhile_append_rtakeWhile
  have zeros : ∀ b ∈ name.bytes.rtakeWhile (fun b : UInt8 => decide (b = 0)), b = 0 := by
    intro b member
    have zero := List.mem_rtakeWhile_imp member
    exact of_decide_eq_true zero
  have length := congrArg List.length whole
  rw [List.length_append, name.size] at length
  have tail := List.eq_replicate_of_mem zeros
  have count : (name.bytes.rtakeWhile (fun b : UInt8 => decide (b = 0))).length = 32 - (string name).length := by
    rw [string]
    omega
  rw [count] at tail
  rw [← tail]
  exact whole.symm

theorem copy_into_zero (text : Bytes) (fits : text.length ≤ 32) :
    (copyInto zeroName text).bytes = text ++ List.replicate (32 - text.length) 0 := by
  simp only [copyInto, zeroName, List.drop_replicate]
  exact List.take_of_length_le (by rw [List.length_append, List.length_replicate]; omega)

end Names

theorem name_survives_iff (name : Fixed 32) :
    unmarshalJSON zeroName (marshalJSON name) = .ok name ↔ validString (string name) = true := by
  have bytes := name_bytes name
  have size : (string name).length ≤ 32 := by
    have length := congrArg List.length bytes
    rw [name.size, List.length_append] at length
    omega
  rw [unmarshalJSON, marshalJSON, Strconv.unquote_quote]
  dsimp only
  constructor
  · intro survives
    split at survives
    · cases survives
    · rename_i short
      have fits : (Json.toValid (string name)).length ≤ 32 := by omega
      have same := congrArg Fixed.bytes (Except.ok.inj survives)
      rw [copy_into_zero _ fits, bytes] at same
      have longer : (string name).length ≤ (Json.toValid (string name)).length :=
        Json.valid_loop_longer _ _ (Nat.le_refl _)
      have padded := congrArg (List.take (Json.toValid (string name)).length) same
      rw [List.take_left, List.take_append, List.take_of_length_le longer, List.take_replicate] at padded
      exact Json.valid_loop_padded _ _ _ (Nat.le_refl _) padded
  · intro valid
    have same : Json.toValid (string name) = string name := Json.valid_loop_valid _ _ (Nat.le_refl _) valid
    rw [same, if_neg (by omega)]
    congr 1
    apply Fixed.eq_of_bytes
    rw [copy_into_zero _ size, ← bytes]

def erasedName : Fixed 32 := ⟨List.replicate 32 0xff, List.length_replicate⟩

def markedName : Fixed 32 := Fixed.ofBytes 32 [0xff]

theorem erased_name_lost :
    (∃ text, unmarshalJSON zeroName (marshalJSON erasedName) = .error (.longer text)) ∧
      unmarshalJSON zeroName (marshalJSON markedName) = .ok (Fixed.ofBytes 32 [0xef, 0xbf, 0xbd]) ∧
      markedName ≠ Fixed.ofBytes 32 [0xef, 0xbf, 0xbd] := by
  exact ⟨⟨(List.replicate 32 Json.replacement).flatten, by decide +kernel⟩, by decide +kernel, by decide +kernel⟩

end URoot.Fmap
