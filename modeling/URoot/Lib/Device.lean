import URoot.Lib.Io
import Mathlib.Tactic.Common

set_option autoImplicit false

namespace GoLib

section Slices

def slice (data : Bytes) (off len : Nat) : Bytes := (data.drop off).take len

def overwrite (data bytes : Bytes) (off : Nat) : Bytes := data.take off ++ (bytes ++ data.drop (off + bytes.length))

theorem slice_length {data : Bytes} {off len : Nat} (fits : off + len ≤ data.length) : (slice data off len).length = len := by
  rw [slice, List.length_take, List.length_drop]
  omega

theorem slice_get (data : Bytes) (off len i : Nat) : (slice data off len)[i]? = if i < len then data[off + i]? else none := by
  rw [slice, List.getElem?_take, List.getElem?_drop]

theorem slice_slice (data : Bytes) (off len start size : Nat) (fits : start + size ≤ len) :
    slice (slice data off len) start size = slice data (off + start) size := by
  apply List.ext_getElem?
  intro i
  simp only [slice_get]
  split
  · rw [if_pos (by omega), Nat.add_assoc]
  · rfl

theorem overwrite_get (data bytes : Bytes) (off i : Nat) (fits : off + bytes.length ≤ data.length) :
    (overwrite data bytes off)[i]? =
      if off ≤ i ∧ i < off + bytes.length then bytes[i - off]? else data[i]? := by
  have front : (data.take off).length = off := by
    rw [List.length_take]
    omega
  rw [overwrite]
  by_cases before : i < off
  · rw [List.getElem?_append_left (by omega), List.getElem?_take, if_pos before, if_neg (by omega)]
  · rw [List.getElem?_append_right (by omega), front]
    by_cases inside : i < off + bytes.length
    · rw [List.getElem?_append_left (by omega), if_pos (by omega)]
    · rw [List.getElem?_append_right (by omega), List.getElem?_drop, if_neg (by omega)]
      congr 1
      omega

theorem overwrite_length (data bytes : Bytes) (off : Nat) (fits : off + bytes.length ≤ data.length) :
    (overwrite data bytes off).length = data.length := by
  simp only [overwrite, List.length_append, List.length_take, List.length_drop]
  omega

theorem slice_overwrite_same (data bytes : Bytes) (off : Nat) (fits : off + bytes.length ≤ data.length) :
    slice (overwrite data bytes off) off bytes.length = bytes := by
  have front : (data.take off).length = off := by
    rw [List.length_take]
    omega
  rw [slice, overwrite, List.drop_left' front, List.take_left]

theorem slice_overwrite_other (data bytes : Bytes) (off start len : Nat) (fits : off + bytes.length ≤ data.length)
    (disjoint : start + len ≤ off ∨ off + bytes.length ≤ start) :
    slice (overwrite data bytes off) start len = slice data start len := by
  apply List.ext_getElem?
  intro i
  simp only [slice_get]
  split
  · rw [overwrite_get _ _ _ _ fits, if_neg (by omega)]
  · rfl

theorem overwrite_append (data first second : Bytes) (off : Nat) (fits : off + (first ++ second).length ≤ data.length) :
    overwrite (overwrite data first off) second (off + first.length) = overwrite data (first ++ second) off := by
  have size := fits
  rw [List.length_append] at size
  have once := overwrite_length data first off (by omega)
  apply List.ext_getElem?
  intro i
  rw [overwrite_get _ _ _ _ (by omega), overwrite_get _ _ _ _ (by omega), overwrite_get _ _ _ _ fits, List.length_append]
  by_cases inSecond : off + first.length ≤ i ∧ i < off + first.length + second.length
  · rw [if_pos inSecond, if_pos (by omega), List.getElem?_append_right (by omega)]
    congr 1
    omega
  · rw [if_neg inSecond]
    by_cases inFirst : off ≤ i ∧ i < off + first.length
    · rw [if_pos inFirst, if_pos (by omega), List.getElem?_append_left (by omega)]
    · rw [if_neg inFirst, if_neg (by omega)]

theorem drop_overwrite (data bytes : Bytes) (off : Nat) (fits : off + bytes.length ≤ data.length) :
    (overwrite data bytes off).drop off = bytes ++ data.drop (off + bytes.length) := by
  have front : (data.take off).length = off := by
    rw [List.length_take]
    omega
  rw [overwrite, List.drop_left' front]

theorem overwrite_same (data bytes rest : Bytes) (off : Nat) (here : data.drop off = bytes ++ rest) :
    overwrite data bytes off = data := by
  have behind : data.drop (off + bytes.length) = rest := by rw [← List.drop_drop, here, List.drop_left]
  rw [overwrite, behind, ← here, List.take_append_drop]

theorem slice_set_inside (data : Bytes) (off len pos : Nat) (value : UInt8) (fits : off + len ≤ data.length)
    (inside : off ≤ pos ∧ pos < off + len) :
    slice (data.set pos value) off len = (slice data off len).set (pos - off) value := by
  apply List.ext_getElem?
  intro i
  have size := slice_length fits
  simp only [slice_get, List.getElem?_set, size]
  grind

theorem slice_set_outside (data : Bytes) (off len pos : Nat) (value : UInt8) (outside : ¬ (off ≤ pos ∧ pos < off + len)) :
    slice (data.set pos value) off len = slice data off len := by
  apply List.ext_getElem?
  intro i
  simp only [slice_get]
  split
  · rw [List.getElem?_set_ne (by omega)]
  · rfl

section TwoWrites

variable (data first second : Bytes) (a b : Nat) (firstFits : a + first.length ≤ data.length)
  (secondFits : b + second.length ≤ data.length)

include firstFits secondFits

theorem overwrite_two_length : (overwrite (overwrite data first a) second b).length = data.length := by
  have once := overwrite_length data first a firstFits
  rw [overwrite_length _ _ _ (by omega), once]

theorem slice_two_first (disjoint : a + first.length ≤ b ∨ b + second.length ≤ a) :
    slice (overwrite (overwrite data first a) second b) a first.length = first := by
  have once := overwrite_length data first a firstFits
  rw [slice_overwrite_other _ _ _ _ _ (by omega) (by omega), slice_overwrite_same _ _ _ firstFits]

theorem slice_two_second : slice (overwrite (overwrite data first a) second b) b second.length = second := by
  have once := overwrite_length data first a firstFits
  rw [slice_overwrite_same _ _ _ (by omega)]

theorem overwrite_two_elsewhere (i : Nat) (notFirst : ¬ (a ≤ i ∧ i < a + first.length))
    (notSecond : ¬ (b ≤ i ∧ i < b + second.length)) :
    (overwrite (overwrite data first a) second b)[i]? = data[i]? := by
  have once := overwrite_length data first a firstFits
  rw [overwrite_get _ _ _ _ (by omega), if_neg notSecond, overwrite_get _ _ _ _ firstFits, if_neg notFirst]

end TwoWrites

section Overlay

abbrev Area := Nat × Bytes

def Area.Covers (area : Area) (i : Nat) : Prop := area.1 ≤ i ∧ i < area.1 + area.2.length

def Area.Fits (data : Bytes) (area : Area) : Prop := area.1 + area.2.length ≤ data.length

def overlay (data : Bytes) : List Area → Bytes
  | [] => data
  | area :: later => overlay (overwrite data area.2 area.1) later

-- The last write to reach a byte decides it, so a byte counts for the first of
-- these writes only where no later one reaches it.
def Stays (data : Bytes) : List Area → Prop
  | [] => True
  | area :: later =>
      (∀ k, k < area.2.length → (∀ other ∈ later, ¬ other.Covers (area.1 + k)) → data[area.1 + k]? = area.2[k]?) ∧
        Stays data later

theorem overlay_append (data : Bytes) (first second : List Area) :
    overlay data (first ++ second) = overlay (overlay data first) second := by
  induction first generalizing data with
  | nil => rfl
  | cons area later ih => exact ih _

theorem overlay_length (data : Bytes) (areas : List Area) (fits : ∀ area ∈ areas, area.Fits data) :
    (overlay data areas).length = data.length := by
  induction areas generalizing data with
  | nil => rfl
  | cons area later ih =>
      have length := overwrite_length data area.2 area.1 (fits area List.mem_cons_self)
      rw [overlay, ih, length]
      intro other there
      rw [Area.Fits, length]
      exact fits other (List.mem_cons_of_mem _ there)

theorem overlay_uncovered (data : Bytes) (areas : List Area) (i : Nat) (fits : ∀ area ∈ areas, area.Fits data)
    (uncovered : ∀ area ∈ areas, ¬ area.Covers i) : (overlay data areas)[i]? = data[i]? := by
  induction areas generalizing data with
  | nil => rfl
  | cons area later ih =>
      have room := fits area List.mem_cons_self
      have length := overwrite_length data area.2 area.1 room
      rw [overlay, ih _ (fun other there => by
          rw [Area.Fits, length]
          exact fits other (List.mem_cons_of_mem _ there)) (fun other there => uncovered other (List.mem_cons_of_mem _ there)),
        overwrite_get _ _ _ _ room]
      exact if_neg (uncovered area List.mem_cons_self)

theorem overlay_covered (first second : Bytes) (areas : List Area) (i : Nat) (length : first.length = second.length)
    (fits : ∀ area ∈ areas, area.Fits first) (covered : ∃ area ∈ areas, area.Covers i) :
    (overlay first areas)[i]? = (overlay second areas)[i]? := by
  induction areas generalizing first second with
  | nil =>
      obtain ⟨area, there, _⟩ := covered
      cases there
  | cons area later ih =>
      have room : area.1 + area.2.length ≤ first.length := fits area List.mem_cons_self
      have firstLength := overwrite_length first area.2 area.1 room
      have secondLength := overwrite_length second area.2 area.1 (by omega)
      have firstFits : ∀ other ∈ later, other.Fits (overwrite first area.2 area.1) := by
        intro other there
        rw [Area.Fits, firstLength]
        exact fits other (List.mem_cons_of_mem _ there)
      rw [overlay, overlay]
      by_cases again : ∃ other ∈ later, other.Covers i
      · exact ih _ _ (by rw [firstLength, secondLength, length]) firstFits again
      · have last : ∀ other ∈ later, ¬ other.Covers i := fun other there reached => again ⟨other, there, reached⟩
        have here : area.1 ≤ i ∧ i < area.1 + area.2.length := by
          obtain ⟨other, there, reached⟩ := covered
          cases there with
          | head => exact reached
          | tail _ there => exact absurd reached (last other there)
        rw [overlay_uncovered _ _ _ firstFits last, overlay_uncovered _ _ _ (fun other there => by
            have := firstFits other there
            rw [Area.Fits, firstLength, length] at this
            rwa [Area.Fits, secondLength]) last, overwrite_get _ _ _ _ room, overwrite_get _ _ _ _ (by omega),
          if_pos here, if_pos here]

theorem overlay_same_iff (data : Bytes) (areas : List Area) (fits : ∀ area ∈ areas, area.Fits data) :
    overlay data areas = data ↔ Stays data areas := by
  induction areas with
  | nil => exact ⟨fun _ => trivial, fun _ => rfl⟩
  | cons area later ih =>
      have room := fits area List.mem_cons_self
      have length := overwrite_length data area.2 area.1 room
      have laterFits : ∀ other ∈ later, other.Fits data := fun other there => fits other (List.mem_cons_of_mem _ there)
      have nextFits : ∀ other ∈ later, other.Fits (overwrite data area.2 area.1) := by
        intro other there
        rw [Area.Fits, length]
        exact laterFits other there
      rw [overlay, Stays, ← ih laterFits]
      constructor
      · intro same
        constructor
        · intro k inside last
          have here := overlay_uncovered _ later (area.1 + k) nextFits last
          rw [same, overwrite_get _ _ _ _ room, if_pos (by omega)] at here
          rw [here]
          congr 1
          omega
        · apply List.ext_getElem?
          intro i
          by_cases reached : ∃ other ∈ later, other.Covers i
          · rw [overlay_covered data _ later i length.symm laterFits reached, same]
          · exact overlay_uncovered data later i laterFits (fun other there covers => reached ⟨other, there, covers⟩)
      · intro ⟨here, same⟩
        apply List.ext_getElem?
        intro i
        by_cases reached : ∃ other ∈ later, other.Covers i
        · rw [← overlay_covered data _ later i length.symm laterFits reached, same]
        · have last : ∀ other ∈ later, ¬ other.Covers i := fun other there covers => reached ⟨other, there, covers⟩
          rw [overlay_uncovered _ later i nextFits last, overwrite_get _ _ _ _ room]
          split
          · rename_i inside
            have stored := here (i - area.1) (by omega)
            rw [show area.1 + (i - area.1) = i by omega] at stored
            exact (stored last).symm
          · rfl

end Overlay

-- A write to a file, which grows as needed; a gap before the write reads as zeros.
def fileWrite (data bytes : Bytes) (off : Nat) : Bytes :=
  if bytes = [] then data
  else (data ++ List.replicate (off - data.length) 0).take off ++ (bytes ++ data.drop (off + bytes.length))

theorem file_write_get (data bytes : Bytes) (off i : Nat) (nonempty : bytes ≠ []) :
    (fileWrite data bytes off)[i]? =
      if off ≤ i ∧ i < off + bytes.length then bytes[i - off]?
      else if i < off ∧ data.length ≤ i then some 0 else data[i]? := by
  have front : ((data ++ List.replicate (off - data.length) 0).take off).length = off := by
    rw [List.length_take, List.length_append, List.length_replicate]
    omega
  rw [fileWrite, if_neg nonempty]
  by_cases before : i < off
  · rw [List.getElem?_append_left (by omega), List.getElem?_take, if_pos before, if_neg (by omega)]
    by_cases gap : data.length ≤ i
    · rw [if_pos ⟨before, gap⟩, List.getElem?_append_right gap, List.getElem?_replicate, if_pos (by omega)]
    · rw [if_neg (by omega), List.getElem?_append_left (by omega)]
  · rw [List.getElem?_append_right (by omega), front]
    by_cases inside : i < off + bytes.length
    · rw [List.getElem?_append_left (by omega), if_pos (by omega)]
    · rw [List.getElem?_append_right (by omega), List.getElem?_drop, if_neg (by omega), if_neg (by omega)]
      congr 1
      omega

theorem file_write_length (data bytes : Bytes) (off : Nat) (nonempty : bytes ≠ []) :
    (fileWrite data bytes off).length = max data.length (off + bytes.length) := by
  rw [fileWrite, if_neg nonempty]
  simp only [List.length_append, List.length_take, List.length_replicate, List.length_drop]
  omega

end Slices

def int64 (value : Int) : Int := Int.bmod value (2 ^ 64)

def maxInt64 : Int := 2 ^ 63 - 1

theorem int64_exact {value : Int} (low : 0 ≤ value) (high : value < 2 ^ 63) : int64 value = value := by
  apply Int.bmod_eq_of_le <;> omega

theorem int64_small (value : Int) (low : 0 ≤ value) (high : value ≤ maxInt64) : int64 value = value := by
  unfold maxInt64 at high
  exact int64_exact low (by omega)

theorem int64_negative (value : Int) (low : 2 ^ 63 ≤ value) (high : value < 2 ^ 64) : int64 value < 0 := by
  have wrapped : int64 value = value - 2 ^ 64 := by
    rw [int64, ← Int.sub_bmod_right]
    apply Int.bmod_eq_of_le <;> omega
  omega

structure Image where
  bytes : Bytes
  small : bytes.length < 2 ^ 63

namespace Image

def readAt (image : Image) (len : Nat) (off : Int) : Bytes × Option IoError :=
  if off < 0 then ([], some (.other (str "negative offset"))) else GoLib.readAt image.bytes len off.toNat

theorem read_at_slice (image : Image) (len off : Nat) (inside : off < image.bytes.length)
    (fits : off + len ≤ image.bytes.length) : image.readAt len off = (slice image.bytes off len, none) := by
  have size := slice_length fits
  rw [slice] at size
  rw [readAt, if_neg (by omega), Int.toNat_natCast, GoLib.readAt, if_neg (by omega), if_neg (by omega)]
  rfl

theorem read_at_inv (image : Image) (len : Nat) (off : Int) (bytes : Bytes) (done : image.readAt len off = (bytes, none)) :
    0 ≤ off ∧ off.toNat + len ≤ image.bytes.length ∧ bytes = slice image.bytes off.toNat len := by
  rw [readAt] at done
  split at done
  · cases done
  · obtain ⟨fits, taken, _⟩ := read_at_none_inv done
    exact ⟨by omega, fits, taken⟩

-- io.ReadFull of want bytes from io.NewSectionReader(image, off, limit).
def readFull (image : Image) (off : Int) (limit want : Nat) : Except IoError Bytes :=
  if limit = 0 then .error .eof
  else
    match image.readAt (min want limit) off with
    | ([], some .eof) => .error .eof
    | (_, some .eof) => .error .unexpectedEOF
    | (_, some e) => .error e
    | (bytes, none) => if want ≤ limit then .ok bytes else .error .unexpectedEOF

theorem read_full_slice (image : Image) (limit want off : Nat) (positive : 0 < want) (within : want ≤ limit)
    (fits : off + want ≤ image.bytes.length) : image.readFull off limit want = .ok (slice image.bytes off want) := by
  rw [readFull, if_neg (by omega), Nat.min_eq_left within, image.read_at_slice want off (by omega) fits]
  simp only [if_pos within]

theorem read_full_inv (image : Image) (off : Int) (limit want : Nat) (bytes : Bytes)
    (done : image.readFull off limit want = .ok bytes) :
    want ≤ limit ∧ 0 ≤ off ∧ off.toNat + want ≤ image.bytes.length ∧ bytes = slice image.bytes off.toNat want := by
  rw [readFull] at done
  split at done
  · cases done
  · split at done
    · cases done
    · cases done
    · cases done
    · rename_i read
      split at done
      · rename_i within
        cases done
        rw [Nat.min_eq_left within] at read
        exact ⟨within, image.read_at_inv want off _ read⟩
      · cases done

def writeAt (image : Image) (bytes : Bytes) (off : Int) : Except IoError Image :=
  if off < 0 then .error (.other (str "negative offset"))
  else if fits : off.toNat + bytes.length ≤ image.bytes.length then
    .ok ⟨overwrite image.bytes bytes off.toNat, by rw [overwrite_length _ _ _ fits]; exact image.small⟩
  else .error .shortWrite

theorem write_at_fits (image : Image) (bytes : Bytes) (off : Nat) (fits : off + bytes.length ≤ image.bytes.length) :
    ∃ next, image.writeAt bytes off = .ok next ∧ next.bytes = overwrite image.bytes bytes off := by
  rw [writeAt, if_neg (by omega)]
  simp only [Int.toNat_natCast, dif_pos fits]
  exact ⟨_, rfl, rfl⟩

theorem write_at_refused (image : Image) (bytes : Bytes) (off : Int)
    (outside : ¬ (0 ≤ off ∧ off.toNat + bytes.length ≤ image.bytes.length)) : ∃ e, image.writeAt bytes off = .error e := by
  rw [writeAt]
  split
  · exact ⟨_, rfl⟩
  · rename_i start
    rw [dif_neg (fun fits => outside ⟨by omega, fits⟩)]
    exact ⟨_, rfl⟩

def set (image : Image) (pos : Nat) (value : UInt8) : Image :=
  ⟨image.bytes.set pos value, by rw [List.length_set]; exact image.small⟩

end Image

-- An open file with its offset. A write past the largest offset is refused.
structure SeekFile where
  image : Image
  offset : Nat

namespace SeekFile

theorem write_small (data bytes : Bytes) (off : Nat) (small : data.length < 2 ^ 63) (fits : off + bytes.length < 2 ^ 63) :
    (fileWrite data bytes off).length < 2 ^ 63 := by
  by_cases empty : bytes = []
  · rw [fileWrite, if_pos empty]
    exact small
  · rw [file_write_length _ _ _ empty]
    exact Nat.max_lt.mpr ⟨small, fits⟩

def seekStart (off : Int) : Act IoError SeekFile Unit :=
  if off < 0 then Act.fail (.other (str "invalid argument"))
  else Act.modifyGet (fun f => ((), { f with offset := off.toNat }))

def write (bytes : Bytes) : Act IoError SeekFile Unit :=
  ⟨fun f =>
    if fits : f.offset + bytes.length < 2 ^ 63 then
      (.ok (), ⟨⟨fileWrite f.image.bytes bytes f.offset, write_small _ _ _ f.image.small fits⟩, f.offset + bytes.length⟩)
    else (.error (.other (str "file too large")), f)⟩

theorem file_write_inside (data bytes : Bytes) (off : Nat) (fits : off + bytes.length ≤ data.length) :
    fileWrite data bytes off = overwrite data bytes off := by
  by_cases empty : bytes = []
  · rw [fileWrite, if_pos empty, overwrite, empty, List.nil_append, List.length_nil, Nat.add_zero, List.take_append_drop]
  · have room : off - data.length = 0 := by omega
    rw [fileWrite, if_neg empty, overwrite, room, List.replicate_zero, List.append_nil]

theorem run_seek_start (off : Nat) (f : SeekFile) : (seekStart off).run f = (.ok (), ⟨f.image, off⟩) := by
  rw [seekStart, if_neg (by omega)]
  rfl

theorem run_write (bytes : Bytes) (image : Image) (off : Nat) (fits : off + bytes.length ≤ image.bytes.length) :
    ∃ next, (write bytes).run ⟨image, off⟩ = (.ok (), ⟨next, off + bytes.length⟩) ∧
      next.bytes = overwrite image.bytes bytes off := by
  have small := image.small
  rw [write]
  simp only [dif_pos (show off + bytes.length < 2 ^ 63 by omega)]
  exact ⟨_, rfl, file_write_inside _ _ _ fits⟩

end SeekFile

end GoLib
