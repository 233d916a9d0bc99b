import URoot.Lib.Codec
import Mathlib.Logic.Function.Iterate

set_option autoImplicit false

namespace GoLib.Crc32

def ieee : BitVec 32 := 0xedb88320#32

def shift (crc : BitVec 32) : BitVec 32 :=
  if crc.getLsbD 0 then (crc >>> 1) ^^^ ieee else crc >>> 1

def update (crc : BitVec 32) (byte : UInt8) : BitVec 32 := shift^[8] (crc ^^^ byte.toBitVec.zeroExtend 32)

def run (crc : BitVec 32) (bytes : Bytes) : BitVec 32 := bytes.foldl update crc

def checksumIEEE (bytes : Bytes) : UInt32 := UInt32.ofBitVec (~~~ (run 0xffffffff#32 bytes))

-- The top bit of the polynomial is set, so the bit that leaves on the right
-- comes back on the left and nothing is lost in a step.
theorem shift_top (crc : BitVec 32) : (shift crc).getLsbD 31 = crc.getLsbD 0 := by
  have zero : (crc >>> 1).getLsbD 31 = false := by
    rw [BitVec.getLsbD_ushiftRight]
    exact BitVec.getLsbD_of_ge crc _ (by decide)
  have one : ieee.getLsbD 31 = true := by decide
  unfold shift
  split
  · rename_i low
    rw [BitVec.getLsbD_xor, zero, one, low]
    rfl
  · rename_i low
    rw [zero]
    exact ((Bool.not_eq_true _).mp low).symm

theorem shift_right_injective (a b : BitVec 32) (low : a.getLsbD 0 = b.getLsbD 0) (rest : a >>> 1 = b >>> 1) : a = b := by
  apply BitVec.eq_of_getLsbD_eq
  intro i _
  cases i with
  | zero => exact low
  | succ n =>
      have bit := congrArg (fun word => word.getLsbD n) rest
      simpa only [BitVec.getLsbD_ushiftRight, Nat.add_comm 1 n] using bit

theorem shift_injective : Function.Injective shift := by
  intro a b same
  have low : a.getLsbD 0 = b.getLsbD 0 := by rw [← shift_top a, ← shift_top b, same]
  apply shift_right_injective a b low
  simp only [shift, low] at same
  split at same
  · exact (BitVec.xor_left_inj ieee).mp same
  · exact same

theorem update_state_injective (byte : UInt8) (a b : BitVec 32) (same : update a byte = update b byte) : a = b := by
  have mixed := shift_injective.iterate 8 same
  exact (BitVec.xor_left_inj _).mp mixed

theorem update_byte_injective (crc : BitVec 32) (a b : UInt8) (same : update crc a = update crc b) : a = b := by
  have mixed := (BitVec.xor_right_inj _).mp (shift_injective.iterate 8 same)
  apply UInt8.toBitVec_inj.mp
  apply BitVec.eq_of_toNat_eq
  have wide := congrArg BitVec.toNat mixed
  have small := a.toBitVec.isLt
  have small' := b.toBitVec.isLt
  simp only [BitVec.truncate_eq_setWidth, BitVec.toNat_setWidth] at wide
  omega

theorem run_injective (bytes : Bytes) (a b : BitVec 32) (same : run a bytes = run b bytes) : a = b := by
  induction bytes generalizing a b with
  | nil => exact same
  | cons byte rest ih => exact update_state_injective byte a b (ih _ _ same)

theorem checksum_suffix_eq (first second after : Bytes) (collide : run 0xffffffff#32 first = run 0xffffffff#32 second) :
    checksumIEEE (first ++ after) = checksumIEEE (second ++ after) := by
  have states : run 0xffffffff#32 (first ++ after) = run 0xffffffff#32 (second ++ after) := by
    simp only [run, List.foldl_append] at collide ⊢
    rw [collide]
  rw [checksumIEEE, states, checksumIEEE]

theorem checksum_suffix_ne (first second after : Bytes) (different : run 0xffffffff#32 first ≠ run 0xffffffff#32 second) :
    checksumIEEE (first ++ after) ≠ checksumIEEE (second ++ after) := by
  intro same
  have inverted : ~~~ (run 0xffffffff#32 (first ++ after)) = ~~~ (run 0xffffffff#32 (second ++ after)) :=
    congrArg UInt32.toBitVec same
  have states := BitVec.not_inj.mp inverted
  simp only [run, List.foldl_append] at states
  exact different (run_injective after _ _ states)

theorem checksum_splice_ne (before after : Bytes) (a b : UInt8) (different : a ≠ b) :
    checksumIEEE (before ++ a :: after) ≠ checksumIEEE (before ++ b :: after) := by
  have suffix := checksum_suffix_ne (before ++ [a]) (before ++ [b]) after (by
    simp only [run, List.foldl_append, List.foldl_cons, List.foldl_nil]
    exact fun same => different (update_byte_injective _ _ _ same))
  simpa only [List.append_assoc, List.singleton_append] using suffix

theorem checksum_set_ne (bytes : Bytes) (k : Nat) (bound : k < bytes.length) (value : UInt8)
    (different : bytes[k] ≠ value) : checksumIEEE (bytes.set k value) ≠ checksumIEEE bytes := by
  have split : bytes = bytes.take k ++ bytes[k] :: bytes.drop (k + 1) := by
    rw [List.getElem_cons_drop, List.take_append_drop]
  have splitSet : bytes.set k value = bytes.take k ++ value :: bytes.drop (k + 1) := by
    rw [List.set_eq_take_append_cons_drop, if_pos bound]
  have spliced := checksum_splice_ne (bytes.take k) (bytes.drop (k + 1)) value bytes[k] (Ne.symm different)
  rw [splitSet]
  rwa [← split] at spliced

example : checksumIEEE (str "123456789") = 0xcbf43926 := by decide +kernel

end GoLib.Crc32
