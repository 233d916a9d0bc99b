import URoot.Cpio.ReadInversion

set_option autoImplicit false

namespace URoot.Newc

open GoLib Cpio Act

structure HeaderAt (data : Bytes) (pos : Nat) (hdr : Header) : Prop where
  fits : pos + 110 ≤ data.length
  magic : (data.drop pos).take 6 = newcMagic
  decoded : decodeHeader ((data.drop (pos + 6)).take 104) = some hdr

def BadHeader (data : Bytes) (pos : Nat) : Prop := pos + 110 ≤ data.length ∧ ∀ hdr, ¬ HeaderAt data pos hdr

-- The archive ends inside the header or inside the name. The source asks for
-- NameLength bytes, and a ReadAt at the very end is an end of file even for none.
def EndsAt (data : Bytes) (pos : Nat) : Prop :=
  data.length < pos + 110 ∨
    ∃ hdr, HeaderAt data pos hdr ∧ (data.length ≤ pos + 110 ∨ data.length < pos + 110 + hdr.nameLength.toNat)

def ZeroName (data : Bytes) (pos : Nat) : Prop :=
  ∃ hdr, HeaderAt data pos hdr ∧ hdr.nameLength = 0 ∧ pos + 110 < data.length

theorem header_at_unique {data : Bytes} {pos : Nat} {first second : Header} (here : HeaderAt data pos first)
    (there : HeaderAt data pos second) : first = second :=
  Option.some.inj (here.decoded.symm.trans there.decoded)

theorem record_header_at {data : Bytes} {pos : Nat} {hdr : Header} {record : Record}
    (place : RecordAt data pos hdr record) : HeaderAt data pos hdr :=
  ⟨place.headFits, place.magic, place.decoded⟩

theorem read_short (len : Nat) (s : Reader) (short : s.r.length ≤ s.pos ∨ s.r.length < s.pos + len) :
    (read len).run s = (.error .eof, s) := by
  have eof : ∃ bytes, readAt s.r len s.pos = (bytes, some .eof) := by
    by_cases past : s.r.length ≤ s.pos
    · exact ⟨[], by rw [readAt, if_pos past]⟩
    · have cut : ((s.r.drop s.pos).take len).length < len := by
        rw [List.length_take, List.length_drop]
        omega
      exact ⟨_, by rw [readAt, if_neg past, if_pos cut]⟩
  obtain ⟨bytes, ended⟩ := eof
  rw [read, run_get_bind]
  simp only [ended, run_fail]

theorem read_full (len : Nat) (s : Reader) (inside : s.pos < s.r.length) (fits : s.pos + len ≤ s.r.length) :
    (read len).run s = (.ok ((s.r.drop s.pos).take len), ⟨s.r, s.pos + len⟩) := by
  have size : ((s.r.drop s.pos).take len).length = len := by
    rw [List.length_take, List.length_drop]
    omega
  have whole : readAt s.r len s.pos = ((s.r.drop s.pos).take len, none) := by
    rw [readAt, if_neg (by omega), if_neg (by omega)]
  rw [read, run_get_bind]
  simp only [whole]
  rw [run_require_bind _ _ _ size, run_set_bind,
    run_pure, size]

section Header

variable (s : Reader)

theorem read_header_short (short : s.r.length < s.pos + 110) : readHeader.run s = (.error .eof, s) :=
  run_bind_error (read_short 110 s (Or.inr short))

theorem read_header_buffer (fits : s.pos + 110 ≤ s.r.length) :
    readHeader.run s = (do
      Act.require ((s.r.drop s.pos).take 6 = newcMagic) (.magic ((s.r.drop s.pos).take 6) newcMagic)
      Act.ofOption (decodeHeader ((s.r.drop (s.pos + 6)).take 104)) (.hex ((s.r.drop (s.pos + 6)).take 104)) :
        Act ReadError Reader Header).run ⟨s.r, s.pos + 110⟩ := by
  obtain ⟨magicPart, hexPart⟩ := header_split s.r s.pos
  have headRead := read_full 110 s (by omega) fits
  rw [readHeader, show 2 * headerCodec.width + magicLen = 110 from rfl, run_bind_ok headRead]
  rw [show magicLen = 6 from rfl, magicPart, hexPart]

theorem read_header_at (hdr : Header) (place : HeaderAt s.r s.pos hdr) :
    readHeader.run s = (.ok hdr, ⟨s.r, s.pos + 110⟩) := by
  rw [read_header_buffer s place.fits, place.decoded,
    run_require_bind _ _ _ place.magic, run_of_option_some]

theorem read_header_bad (bad : BadHeader s.r s.pos) :
    ∃ e, e ≠ .eof ∧ e ≠ .panic ∧ readHeader.run s = (.error e, ⟨s.r, s.pos + 110⟩) := by
  obtain ⟨fits, none⟩ := bad
  rw [read_header_buffer s fits]
  by_cases magic : (s.r.drop s.pos).take 6 = newcMagic
  · cases decoded : decodeHeader ((s.r.drop (s.pos + 6)).take 104) with
    | none =>
        rw [run_require_bind _ _ _ magic]
        exact ⟨_, by simp, by simp, rfl⟩
    | some hdr => exact absurd ⟨fits, magic, decoded⟩ (none hdr)
  · rw [Act.require, if_neg magic]
    exact ⟨_, by simp, by simp, run_bind_error (run_fail _ _)⟩

end Header

section Name

variable (hdr : Header) (s : Reader)

theorem read_name_short (short : s.r.length ≤ s.pos ∨ s.r.length < s.pos + hdr.nameLength.toNat) :
    (readName hdr).run s = (.error .eof, ⟨s.r, round4 s.pos⟩) := by
  have ended : (readAligned hdr.nameLength.toNat).run s = (.error .eof, ⟨s.r, round4 s.pos⟩) := by
    simp only [readAligned, read_short _ s short]
  exact run_bind_error ended

theorem read_name_buffer (inside : s.pos < s.r.length) (fits : s.pos + hdr.nameLength.toNat ≤ s.r.length) :
    (readAligned hdr.nameLength.toNat).run s =
      (.ok ((s.r.drop s.pos).take hdr.nameLength.toNat), ⟨s.r, round4 (s.pos + hdr.nameLength.toNat)⟩) := by
  simp only [readAligned, read_full _ s inside fits]

theorem read_name_zero (inside : s.pos < s.r.length) (zero : hdr.nameLength = 0) :
    (readName hdr).run s = (.error .panic, ⟨s.r, round4 s.pos⟩) := by
  have buffer := read_name_buffer hdr s inside (by rw [zero]; exact Nat.le_of_lt inside)
  have wraps : ¬ ((hdr.nameLength - 1).toNat ≤ ((s.r.drop s.pos).take hdr.nameLength.toNat).length) := by
    rw [zero]
    simp
  rw [readName, run_bind_ok buffer, Act.require, if_neg wraps, zero]
  exact run_bind_error (run_fail _ _)

theorem read_name_full (named : 0 < hdr.nameLength.toNat) (fits : s.pos + hdr.nameLength.toNat ≤ s.r.length) :
    (readName hdr).run s =
      (.ok ((s.r.drop s.pos).take (hdr.nameLength.toNat - 1)), ⟨s.r, round4 (s.pos + hdr.nameLength.toNat)⟩) := by
  have buffer := read_name_buffer hdr s (by omega) fits
  have less : (hdr.nameLength - 1).toNat = hdr.nameLength.toNat - 1 := by
    have small := hdr.nameLength.toNat_lt
    simp only [UInt32.toNat_sub, UInt32.toNat_one]
    omega
  have bound : (hdr.nameLength - 1).toNat ≤ ((s.r.drop s.pos).take hdr.nameLength.toNat).length := by
    rw [less, List.length_take, List.length_drop]
    omega
  rw [readName, run_bind_ok buffer, run_require_bind _ _ _ bound,
    run_pure, List.take_take, less, Nat.min_eq_left (Nat.sub_le _ _)]

end Name

section Record

variable (s : Reader)

theorem read_record_after_header (hdr : Header) (place : HeaderAt s.r s.pos hdr) :
    readRecord.run s = (do
      let name ← readName hdr
      let content ← sectionContent hdr
      pure ⟨some content, { hdr.info with name := name }⟩ : Act ReadError Reader Record).run ⟨s.r, s.pos + 110⟩ :=
  run_bind_ok (read_header_at s hdr place)

theorem read_record_ends (ends : EndsAt s.r s.pos) : ∃ pos, readRecord.run s = (.error .eof, ⟨s.r, pos⟩) := by
  rcases ends with short | ⟨hdr, place, cut⟩
  · exact ⟨_, run_bind_error (read_header_short s short)⟩
  · rw [read_record_after_header s hdr place]
    exact ⟨_, run_bind_error (read_name_short hdr ⟨s.r, s.pos + 110⟩ cut)⟩

theorem read_record_bad (bad : BadHeader s.r s.pos) :
    ∃ e pos, e ≠ .eof ∧ e ≠ .panic ∧ readRecord.run s = (.error e, ⟨s.r, pos⟩) := by
  obtain ⟨e, notEof, notPanic, failed⟩ := read_header_bad s bad
  exact ⟨e, _, notEof, notPanic, run_bind_error failed⟩

theorem read_record_zero (zero : ZeroName s.r s.pos) : ∃ pos, readRecord.run s = (.error .panic, ⟨s.r, pos⟩) := by
  obtain ⟨hdr, place, none, inside⟩ := zero
  rw [read_record_after_header s hdr place]
  exact ⟨_, run_bind_error (read_name_zero hdr ⟨s.r, s.pos + 110⟩ inside none)⟩

theorem read_record_at (hdr : Header) (place : HeaderAt s.r s.pos hdr) (named : 0 < hdr.nameLength.toNat)
    (fits : s.pos + 110 + hdr.nameLength.toNat ≤ s.r.length) :
    ∃ record, RecordAt s.r s.pos hdr record ∧ readRecord.run s = (.ok record, ⟨s.r, recordEnd s.pos hdr⟩) := by
  refine ⟨_, ⟨place.fits, place.magic, place.decoded, named, fits, rfl⟩, ?_⟩
  rw [read_record_after_header s hdr place,
    run_bind_ok (read_name_full hdr ⟨s.r, s.pos + 110⟩ named fits), sectionContent]
  simp only [run_bind, run_get, run_set, run_pure, recordEnd]

theorem reader_places :
    EndsAt s.r s.pos ∨ BadHeader s.r s.pos ∨ ZeroName s.r s.pos ∨
      ∃ hdr, HeaderAt s.r s.pos hdr ∧ 0 < hdr.nameLength.toNat ∧ s.pos + 110 + hdr.nameLength.toNat ≤ s.r.length := by
  by_cases short : s.r.length < s.pos + 110
  · exact Or.inl (Or.inl short)
  by_cases header : ∃ hdr, HeaderAt s.r s.pos hdr
  · obtain ⟨hdr, place⟩ := header
    by_cases cut : s.r.length ≤ s.pos + 110 ∨ s.r.length < s.pos + 110 + hdr.nameLength.toNat
    · exact Or.inl (Or.inr ⟨hdr, place, cut⟩)
    rw [not_or] at cut
    by_cases zero : hdr.nameLength = 0
    · exact Or.inr (Or.inr (Or.inl ⟨hdr, place, zero, by omega⟩))
    · have named : hdr.nameLength.toNat ≠ 0 := fun none => zero (UInt32.toNat_inj.mp none)
      exact Or.inr (Or.inr (Or.inr ⟨hdr, place, by omega, by omega⟩))
  · exact Or.inr (Or.inl ⟨by omega, not_exists.mp header⟩)

theorem read_record_panics_iff : (readRecord.run s).1 = .error .panic ↔ ZeroName s.r s.pos := by
  constructor
  · intro panicked
    rcases reader_places s with ends | bad | zero | ⟨hdr, place, named, fits⟩
    · obtain ⟨pos, ran⟩ := read_record_ends s ends
      simp [ran] at panicked
    · obtain ⟨e, pos, -, notPanic, ran⟩ := read_record_bad s bad
      simp [ran, notPanic] at panicked
    · exact zero
    · obtain ⟨record, -, ran⟩ := read_record_at s hdr place named fits
      simp [ran] at panicked
  · intro zero
    obtain ⟨pos, ran⟩ := read_record_zero s zero
    rw [ran]

theorem read_record_keeps_archive : (readRecord.run s).2.r = s.r := by
  rcases reader_places s with ends | bad | zero | ⟨hdr, place, named, fits⟩
  · obtain ⟨pos, ran⟩ := read_record_ends s ends
    rw [ran]
  · obtain ⟨e, pos, -, -, ran⟩ := read_record_bad s bad
    rw [ran]
  · obtain ⟨pos, ran⟩ := read_record_zero s zero
    rw [ran]
  · obtain ⟨record, -, ran⟩ := read_record_at s hdr place named fits
    rw [ran]

end Record

def afterCalls (data : Bytes) : Nat → Reader
  | 0 => ⟨data, 0⟩
  | calls + 1 => (readRecord.run (afterCalls data calls)).2

theorem after_calls_archive (data : Bytes) (calls : Nat) : (afterCalls data calls).r = data := by
  induction calls with
  | zero => rfl
  | succ calls ih => rw [afterCalls, read_record_keeps_archive, ih]

theorem no_panic_iff (data : Bytes) (calls : Nat) :
    (∀ i < calls, (readRecord.run (afterCalls data i)).1 ≠ .error .panic) ↔
      ∀ i < calls, ¬ ZeroName data (afterCalls data i).pos := by
  have each : ∀ i, (readRecord.run (afterCalls data i)).1 = .error .panic ↔ ZeroName data (afterCalls data i).pos := by
    intro i
    rw [read_record_panics_iff, after_calls_archive]
  constructor
  · intro safe i before zero
    exact safe i before ((each i).mpr zero)
  · intro nonzero i before panicked
    exact nonzero i before ((each i).mp panicked)

theorem zero_name_length_panics :
    (readRecord.run ⟨newcMagic ++ List.replicate 105 48, 0⟩).1 = .error .panic := by
  decide +kernel

end URoot.Newc
