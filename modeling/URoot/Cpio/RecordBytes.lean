import URoot.Cpio.Newc

set_option autoImplicit false

namespace URoot.Newc

open GoLib Cpio Act

def padding (n : Nat) : Bytes := List.replicate (round4 n - n) 0

def recordHead (f : Record) : Bytes := newcMagic ++ (headerText f ++ (f.info.name ++ [0]))

-- The bytes of one record, independent of where it starts: every record starts
-- at a multiple of 4, so both paddings depend on the record's own lengths only.
def recordBytes (f : Record) : Bytes :=
  (recordHead f ++ padding (recordHead f).length) ++ (f.content ++ padding f.content.length)

theorem round4_le (n : Nat) : n ≤ round4 n := by
  simp only [round4]
  omega

theorem round4_add (base n : Nat) (aligned : base % 4 = 0) : round4 (base + n) = base + round4 n := by
  simp only [round4]
  omega

theorem round4_aligned (n : Nat) : round4 n % 4 = 0 := by
  simp only [round4]
  omega

theorem padded_length (bytes : Bytes) : (bytes ++ padding bytes.length).length = round4 bytes.length := by
  have bound := round4_le bytes.length
  simp only [padding, List.length_append, List.length_replicate]
  omega

theorem padding_shift (base n : Nat) (aligned : base % 4 = 0) : padding (base + n) = padding n := by
  simp only [padding, round4_add base n aligned, Nat.add_sub_add_left]

theorem header_text_length (f : Record) : (headerText f).length = 104 := by
  simp [headerText, header_width]

theorem record_head_length (f : Record) : (recordHead f).length = 111 + f.info.name.length := by
  have magic : newcMagic.length = 6 := by decide
  simp only [recordHead, List.length_append, header_text_length, magic, List.length_singleton]
  omega

theorem record_bytes_length (f : Record) :
    (recordBytes f).length = round4 (recordHead f).length + round4 f.content.length := by
  rw [recordBytes, List.length_append, padded_length, padded_length]

theorem record_bytes_aligned (f : Record) : (recordBytes f).length % 4 = 0 := by
  have head := round4_aligned (recordHead f).length
  have body := round4_aligned f.content.length
  rw [record_bytes_length]
  omega

section Writing

def grow (s : Writer Bytes) (bytes : Bytes) : Writer Bytes := ⟨s.w ++ bytes, s.pos + bytes.length⟩

theorem grow_empty (s : Writer Bytes) : grow s [] = s := by
  simp [grow]

theorem grow_append (s : Writer Bytes) (a b : Bytes) : grow (grow s a) b = grow s (a ++ b) := by
  simp [grow, Nat.add_assoc]

theorem write_takes : Takes (write bytesBuffer) grow := by
  intro bytes s
  rfl

theorem pad_buffer (s : Writer Bytes) : (pad bytesBuffer).run s = (.ok (), grow s (padding s.pos)) := by
  rw [pad, run_get_bind]
  by_cases aligned : round4 s.pos = s.pos
  · simp [aligned, padding, grow_empty]
  · simp only [ne_eq, aligned, not_false_eq_true, if_true]
    rw [run_bind_ok (write_takes _ s)]
    rfl

theorem write_record_buffer (f : Record) (s : Writer Bytes) (reads : f.Reads) (aligned : s.pos % 4 = 0) :
    (writeRecord bytesBuffer f).run s = (.ok (), grow s (recordBytes f)) := by
  have headAligned : (grow s (recordHead f)).pos = s.pos + (recordHead f).length := rfl
  rw [writeRecord, run_bind_ok (write_takes _ s), run_bind_ok (write_takes _ _),
    run_bind_ok (write_takes _ _), grow_append, grow_append, ← recordHead,
    run_bind_ok (pad_buffer _), headAligned, padding_shift _ _ aligned, grow_append]
  cases source : f.readCloser with
  | none =>
      have empty : f.content = [] := by simp [Record.content, source]
      simp [recordBytes, empty, padding, round4]
  | some stream =>
      obtain ⟨readable, closable⟩ := reads stream source
      have content : f.content = stream.content := by simp [Record.content, source]
      have copied := io_copy_takes write_takes grow_empty grow_append stream readable
        (grow s (recordHead f ++ padding (recordHead f).length))
      simp only
      rw [run_bind_ok copied, closable, run_bind_ok (run_check_none _), grow_append]
      by_cases some : 0 < stream.content.length
      · have bodyAligned : (grow s (recordHead f ++ padding (recordHead f).length ++ stream.content)).pos =
            (s.pos + round4 (recordHead f).length) + stream.content.length := by
          simp only [grow, List.length_append, ← padded_length]
          omega
        have start : (s.pos + round4 (recordHead f).length) % 4 = 0 := by
          have head := round4_aligned (recordHead f).length
          omega
        rw [if_pos some, pad_buffer, bodyAligned, padding_shift _ _ start, grow_append, recordBytes, content]
        simp only [List.append_assoc]
      · have empty : stream.content = [] := List.length_eq_zero_iff.mp (by omega)
        simp [empty, recordBytes, content, padding, round4]

end Writing

section Reading

def readBack (f : Record) : Record :=
  ⟨some (newBytesReadCloser f.content), { (recordHeader f).info with name := f.info.name }⟩

theorem read_middle {data before middle after : Bytes} (split : data = before ++ (middle ++ after))
    (positive : 0 < middle.length) :
    (read middle.length).run ⟨data, before.length⟩ = (.ok middle, ⟨data, before.length + middle.length⟩) := by
  have full := read_at_full before middle after middle.length before.length positive rfl rfl
  rw [← split] at full
  rw [read, run_get_bind]
  simp only [full]
  rw [run_require_bind _ _ _ trivial, run_set_bind,
    run_pure]

theorem read_aligned_middle {data before middle after : Bytes} (split : data = before ++ (middle ++ after))
    (positive : 0 < middle.length) :
    (readAligned middle.length).run ⟨data, before.length⟩ =
      (.ok middle, ⟨data, round4 (before.length + middle.length)⟩) := by
  simp only [readAligned, read_middle split positive]

theorem decode_header_text (f : Record) : decodeHeader (headerText f) = some (recordHeader f) := by
  simp [decodeHeader, headerText, hex_decode_upper]

theorem record_header_name (f : Record) : (recordHeader f).nameLength = UInt32.ofNat f.info.name.length + 1 := by
  unfold recordHeader
  split <;> rfl

theorem name_length_word (f : Record) (short : f.info.name.length + 1 < 2 ^ 32) :
    (recordHeader f).nameLength.toNat = f.info.name.length + 1 ∧
      ((recordHeader f).nameLength - 1).toNat = f.info.name.length := by
  have low : (UInt32.ofNat f.info.name.length).toNat = f.info.name.length :=
    UInt32.toNat_ofNat_of_lt' (Nat.lt_of_succ_lt short)
  have length : (UInt32.ofNat f.info.name.length + 1).toNat = f.info.name.length + 1 := by
    rw [UInt32.toNat_add, low]
    exact Nat.mod_eq_of_lt short
  have back : UInt32.ofNat f.info.name.length + 1 - 1 = UInt32.ofNat f.info.name.length :=
    UInt32.add_sub_cancel _ _
  rw [record_header_name, back]
  exact ⟨length, low⟩

theorem read_record_bytes (before after : Bytes) (f : Record) (aligned : before.length % 4 = 0)
    (short : f.info.name.length + 1 < 2 ^ 32) (size : (recordHeader f).fileSize.toNat = f.content.length) :
    readRecord.run ⟨before ++ (recordBytes f ++ after), before.length⟩ =
      (.ok (readBack f), ⟨before ++ (recordBytes f ++ after), before.length + (recordBytes f).length⟩) := by
  generalize dataEq : before ++ (recordBytes f ++ after) = data
  obtain ⟨nameWord, nameEnd⟩ := name_length_word f short
  have headSplit : data = before ++ ((newcMagic ++ headerText f) ++ ((f.info.name ++ [0]) ++
      (padding (recordHead f).length ++ (f.content ++ (padding f.content.length ++ after))))) := by
    simp only [← dataEq, recordBytes, recordHead, List.append_assoc]
  have nameSplit : data = (before ++ (newcMagic ++ headerText f)) ++ ((f.info.name ++ [0]) ++
      (padding (recordHead f).length ++ (f.content ++ (padding f.content.length ++ after)))) := by
    simp only [headSplit, List.append_assoc]
  have bodySplit : data = (before ++ (recordHead f ++ padding (recordHead f).length)) ++
      (f.content ++ (padding f.content.length ++ after)) := by
    simp only [← dataEq, recordBytes, List.append_assoc]
  have headLength : 2 * headerCodec.width + magicLen = (newcMagic ++ headerText f).length := by
    simp [header_text_length, header_width, magicLen, show newcMagic.length = 6 by decide]
  have nameLength : (recordHeader f).nameLength.toNat = (f.info.name ++ [0]).length := by
    simp [nameWord]
  have bodyStart : (before ++ (recordHead f ++ padding (recordHead f).length)).length =
      before.length + round4 (recordHead f).length := by
    rw [List.length_append, padded_length]
  have position : round4 ((before ++ (newcMagic ++ headerText f)).length + (f.info.name ++ [0]).length) =
      (before ++ (recordHead f ++ padding (recordHead f).length)).length := by
    rw [bodyStart, ← round4_add _ _ aligned]
    simp only [recordHead, List.length_append, Nat.add_assoc]
  have finish : round4 ((before ++ (recordHead f ++ padding (recordHead f).length)).length + f.content.length) =
      before.length + (recordBytes f).length := by
    have headAligned := round4_aligned (recordHead f).length
    rw [bodyStart, round4_add _ _ (by omega), record_bytes_length, Nat.add_assoc]
  have magicTake : (newcMagic ++ headerText f).take magicLen = newcMagic := List.take_left' rfl
  have magicDrop : (newcMagic ++ headerText f).drop magicLen = headerText f := List.drop_left' rfl
  have contentTake : (data.drop (before ++ (recordHead f ++ padding (recordHead f).length)).length).take
      f.content.length = f.content := by
    rw [bodySplit, List.drop_left, List.take_left]
  have headRead := read_middle headSplit (by simp [header_text_length])
  have nameRead := read_aligned_middle nameSplit (by simp)
  have nameStart : (before ++ (newcMagic ++ headerText f)).length =
      before.length + (newcMagic ++ headerText f).length := List.length_append
  have header : readHeader.run ⟨data, before.length⟩ =
      (.ok (recordHeader f), ⟨data, (before ++ (newcMagic ++ headerText f)).length⟩) := by
    rw [readHeader, headLength, run_bind_ok headRead, magicDrop, decode_header_text,
      run_require_bind _ _ _ magicTake, run_of_option_some, nameStart]
  have name : (readName (recordHeader f)).run ⟨data, (before ++ (newcMagic ++ headerText f)).length⟩ =
      (.ok f.info.name, ⟨data, (before ++ (recordHead f ++ padding (recordHead f).length)).length⟩) := by
    rw [readName, nameLength, run_bind_ok nameRead, nameEnd,
      run_require_bind _ _ _ (by simp), run_pure, position, List.take_left]
  rw [readRecord, run_bind_ok header, run_bind_ok name, sectionContent]
  simp only [run_bind, run_get, run_set, run_pure, size, contentTake, finish, readBack]

end Reading

end URoot.Newc
