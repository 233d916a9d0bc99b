import URoot.Gpt.RoundTrip

set_option autoImplicit false

namespace URoot.Gpt

open GoLib

section Rebuilt

theorem copy_into_length (h source filled : Bytes) (off : Nat) (done : copyInto h off source = some filled) :
    filled.length = h.length := by
  rw [copyInto] at done
  split at done
  · cases done
    simp only [List.length_append, List.length_take, List.length_drop]
    omega
  · cases done

theorem fill_parts_inv {parts : List Part} {size n : Nat} {h block : Bytes}
    (done : fillParts parts size (n + 1) h = some block) :
    ∃ before part, fillParts parts size n h = some before ∧ parts[n]? = some part ∧
      copyInto before (n * size) (partCodec.encode part) = some block := by
  simp only [fillParts, Option.bind_eq_bind, Option.bind_eq_some_iff] at done
  obtain ⟨before, filled, part, found, copied⟩ := done
  exact ⟨before, part, filled, found, copied⟩

theorem fill_parts_length (parts : List Part) (size : Nat) (h : Bytes) (n : Nat) (block : Bytes)
    (done : fillParts parts size n h = some block) : block.length = h.length := by
  induction n generalizing block with
  | zero =>
      cases done
      rfl
  | succ n ih =>
      obtain ⟨before, part, filled, _, copied⟩ := fill_parts_inv done
      rw [copy_into_length _ _ _ _ copied, ih before filled]

theorem fill_parts_past (parts : List Part) (size n : Nat) (h : Bytes) (past : h.length < n * size) :
    fillParts parts size (n + 1) h = none := by
  cases done : fillParts parts size (n + 1) h with
  | none => rfl
  | some block =>
      obtain ⟨before, part, filled, _, copied⟩ := fill_parts_inv done
      have length := fill_parts_length _ _ _ _ _ filled
      rw [copyInto, if_neg (by omega)] at copied
      cases copied

theorem fill_parts_padding (parts : List Part) (size : Nat) (h : Bytes) (i k : Nat) (low : 128 ≤ k) (high : k < size)
    (n : Nat) (fits : n * size ≤ h.length) (block : Bytes) (done : fillParts parts size n h = some block) :
    block[i * size + k]? = h[i * size + k]? := by
  induction n generalizing block with
  | zero =>
      cases done
      rfl
  | succ n ih =>
      obtain ⟨before, part, filled, _, copied⟩ := fill_parts_inv done
      have length := fill_parts_length _ _ _ _ _ filled
      have width : (partCodec.encode part).length = 128 := partCodec.encode_length _
      rw [Nat.succ_mul] at fits
      rw [copy_into_fits (by omega)] at copied
      cases copied
      rw [overwrite_get _ _ _ _ (by omega), if_neg, ih (by omega) before filled]
      intro ⟨start, stop⟩
      rcases Nat.lt_trichotomy i n with before | same | after
      · have below : (i + 1) * size ≤ n * size := Nat.mul_le_mul_right size before
        rw [Nat.succ_mul] at below
        omega
      · subst same
        omega
      · have above : (n + 1) * size ≤ i * size := Nat.mul_le_mul_right size after
        rw [Nat.succ_mul] at above
        omega

-- What an array becomes when only the 128 bytes of each Part are kept.
def blanked (size : Nat) (array : Bytes) : Bytes := array.mapIdx fun j byte => if j % size < 128 then byte else 0

theorem blanked_length (size : Nat) (array : Bytes) : (blanked size array).length = array.length := List.length_mapIdx

theorem blanked_get (size : Nat) (array : Bytes) (j : Nat) (inside : j < array.length) :
    (blanked size array)[j]? = if j % size < 128 then array[j]? else some 0 := by
  rw [blanked, List.getElem?_mapIdx, List.getElem?_eq_getElem inside]
  split <;> simp_all

end Rebuilt

section Entries

theorem read_parts_inv (which : Which) (r : Image) (h : Header) (n : Nat) (parts : List Part)
    (done : readParts which r h n = .ok parts) :
    parts.length = n ∧ (0 < n → 128 ≤ h.partSize.toNat) ∧
      ∀ i part, parts[i]? = some part → slice r.bytes (partOffset h i).toNat 128 = partCodec.encode part := by
  induction n generalizing parts with
  | zero =>
      cases done
      exact ⟨rfl, fun positive => absurd positive (Nat.lt_irrefl 0), fun i part found => by simp at found⟩
  | succ n ih =>
      obtain ⟨before, earlier, last⟩ := except_bind_inv done
      obtain ⟨count, _, stored⟩ := ih before earlier
      split at last
      · rename_i bytes read
        cases last
        obtain ⟨entry, _, fits, taken⟩ := r.read_full_inv _ _ _ bytes read
        have size : bytes.length = partCodec.width := by rw [taken, slice_length fits]
        refine ⟨by rw [List.length_append, count]; rfl, fun _ => entry, fun i part found => ?_⟩
        rw [List.getElem?_append] at found
        split at found
        · exact stored i part found
        · rename_i past
          obtain ⟨rfl, rfl⟩ : i = n ∧ partCodec.decode bytes = part := by
            rw [List.getElem?_singleton] at found
            split at found
            · cases found
              exact ⟨by omega, rfl⟩
            · cases found
          rw [partCodec.encode_decode bytes size, taken]
          rfl
      · cases last

structure Laid (g : GPT) (size : Nat) : Prop where
  headerSize : g.header.headerSize = headerSize
  count : g.parts.length = g.header.nPart.toNat
  entry : 0 < g.header.nPart.toNat → 128 ≤ g.header.partSize.toNat
  partStart : 0 ≤ blockOffset g.header.partStart
  partsFit : (blockOffset g.header.partStart).toNat + g.header.partsLen ≤ size

def GPT.array (g : GPT) (dev : Image) : Bytes := slice dev.bytes (blockOffset g.header.partStart).toNat g.header.partsLen

theorem table_laid (dev : Image) (off : Int) (g : GPT) (valid : TableAt dev off g) : Laid g dev.bytes.length := by
  obtain ⟨which, entries⟩ := valid.parts
  obtain ⟨count, entry, _⟩ := read_parts_inv _ _ _ _ _ entries
  exact ⟨valid.headerSize, count, entry, valid.partStart, valid.partsFit⟩

theorem table_entries (dev : Image) (off : Int) (g : GPT) (valid : TableAt dev off g) :
    HoldsParts (g.array dev) g.parts g.header.partSize.toNat g.header.nPart.toNat := by
  obtain ⟨which, entries⟩ := valid.parts
  obtain ⟨_, entry, stored⟩ := read_parts_inv _ _ _ _ _ entries
  obtain ⟨start, placed⟩ := Int.eq_ofNat_of_zero_le valid.partStart
  have partsFit := valid.partsFit
  have small := dev.small
  rw [GPT.array, Header.partsLen, placed, Int.toNat_natCast]
  rw [placed, Int.toNat_natCast] at partsFit
  intro i bound part found
  obtain ⟨inside, within⟩ := entry_inside start i _ _ bound (entry (Nat.zero_lt_of_lt bound))
  have here := stored i part found
  rw [part_offset_exact g.header start i placed (by omega), Int.toNat_natCast] at here
  rw [slice_slice _ _ _ _ _ inside, here]

theorem holds_get {block : Bytes} {parts : List Part} {size n i k : Nat} {part : Part}
    (holds : HoldsParts block parts size n) (bound : i < n) (found : parts[i]? = some part) (inside : k < 128) :
    block[i * size + k]? = (partCodec.encode part)[k]? := by
  have here := congrArg (fun entry => entry[k]?) (holds i bound part found)
  simpa only [slice_get, if_pos inside] using here

theorem part_block_rebuilt (dev : Image) (off : Int) (g : GPT) (valid : TableAt dev off g)
    (word : g.header.partsLen < 2 ^ 32) : partBlock g = some (blanked g.header.partSize.toNat (g.array dev)) := by
  have laid := table_laid dev off g valid
  have len : (g.header.nPart * g.header.partSize).toNat = g.header.partsLen := by
    rw [UInt32.toNat_mul]
    exact Nat.mod_eq_of_lt word
  have arrayLength : (g.array dev).length = g.header.partsLen := slice_length laid.partsFit
  by_cases none : g.header.nPart.toNat = 0
  · have empty : g.header.partsLen = 0 := by rw [Header.partsLen, none, Nat.zero_mul]
    have array : g.array dev = [] := List.eq_nil_of_length_eq_zero (by rw [arrayLength, empty])
    rw [partBlock, none, len, empty, array]
    rfl
  · have entry := laid.entry (Nat.pos_of_ne_zero none)
    have room : g.header.nPart.toNat * g.header.partSize.toNat ≤ (List.replicate g.header.partsLen (0 : UInt8)).length := by
      rw [List.length_replicate]
      exact Nat.le_refl _
    obtain ⟨block, filled, size, holds⟩ := fill_parts_holds g.parts g.header.partSize.toNat
      (List.replicate g.header.partsLen 0) entry g.header.nPart.toNat (Nat.le_of_eq laid.count.symm) room
    rw [partBlock, len, filled]
    congr 1
    apply List.ext_getElem?
    intro j
    by_cases inside : j < g.header.partsLen
    · have position : j / g.header.partSize.toNat * g.header.partSize.toNat + j % g.header.partSize.toNat = j :=
        Nat.div_add_mod' j _
      have bound : j / g.header.partSize.toNat < g.header.nPart.toNat := Nat.div_lt_of_lt_mul (by rwa [Nat.mul_comm])
      have within : j % g.header.partSize.toNat < g.header.partSize.toNat := Nat.mod_lt _ (by omega)
      rw [blanked_get _ _ _ (by omega)]
      split
      · rename_i kept
        have found : g.parts[j / g.header.partSize.toNat]? = some _ := List.getElem?_eq_getElem (by rw [laid.count]; exact bound)
        have new := holds_get holds bound found kept
        have old := holds_get (table_entries dev off g valid) bound found kept
        rw [position] at new old
        rw [new, old]
      · rename_i padding
        have zero := fill_parts_padding g.parts _ _ (j / g.header.partSize.toNat) _ (Nat.le_of_not_lt padding) within _ room
          block filled
        rw [position, List.getElem?_replicate, if_pos inside] at zero
        exact zero
    · rw [List.getElem?_eq_none (by rw [size, List.length_replicate]; omega),
        List.getElem?_eq_none (by rw [blanked_length]; omega)]

theorem part_block_overflow (g : GPT) (word : 2 ^ 32 ≤ g.header.partsLen) : partBlock g = none := by
  have count : g.header.nPart.toNat ≠ 0 := by
    intro none
    rw [Header.partsLen, none, Nat.zero_mul] at word
    omega
  obtain ⟨n, succ⟩ := Nat.exists_eq_succ_of_ne_zero count
  have size := g.header.partSize.toNat_lt
  have len : (g.header.nPart * g.header.partSize).toNat = g.header.partsLen % 2 ^ 32 := UInt32.toNat_mul _ _
  have product : g.header.partsLen = n * g.header.partSize.toNat + g.header.partSize.toNat := by
    rw [Header.partsLen, succ, Nat.succ_mul]
  rw [partBlock, succ]
  apply fill_parts_past
  rw [List.length_replicate, len]
  omega

end Entries

end URoot.Gpt
