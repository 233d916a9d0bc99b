import URoot.Cpio.Archive

set_option autoImplicit false

namespace URoot.Newc

open GoLib Cpio Act

-- All that WriteRecord puts into the buffer from a position on, whether or not
-- it succeeds: a record whose file cannot be read leaves its header behind and
-- is not padded.
def emitted (pos : Nat) (f : Record) : Bytes :=
  let head := recordHead f ++ padding (pos + (recordHead f).length)
  match f.readCloser with
  | none => head
  | some source =>
      if source.readErr = none ∧ source.closeErr = none ∧ 0 < source.content.length then
        head ++ source.content ++ padding (pos + (head ++ source.content).length)
      else head ++ source.content

def layout : Nat → List Record → Bytes
  | _, [] => []
  | pos, f :: rest => emitted pos f ++ layout (pos + (emitted pos f).length) rest

theorem layout_snoc (pos : Nat) (records : List Record) (last : Record) :
    layout pos (records ++ [last]) = layout pos records ++ emitted (pos + (layout pos records).length) last := by
  induction records generalizing pos with
  | nil => simp [layout]
  | cons f rest ih =>
      rw [List.cons_append, layout, layout, ih, List.append_assoc, List.length_append, Nat.add_assoc]

theorem write_record_emits (f : Record) (s : Writer Bytes) :
    ((writeRecord bytesBuffer f).run s).2 = grow s (emitted s.pos f) := by
  have start : (grow s (recordHead f)).pos = s.pos + (recordHead f).length := rfl
  rw [writeRecord, run_bind_ok (write_takes _ s), run_bind_ok (write_takes _ _),
    run_bind_ok (write_takes _ _), grow_append, grow_append, ← recordHead,
    run_bind_ok (pad_buffer _), start, grow_append, emitted]
  cases f.readCloser with
  | none => rfl
  | some source =>
      simp only
      generalize recordHead f ++ padding (s.pos + (recordHead f).length) = head
      cases failing : source.readErr with
      | some e =>
          have copied := io_copy_fails write_takes grow_empty grow_append source e failing (grow s head)
          rw [run_bind_error copied, grow_append, if_neg (by simp)]
      | none =>
          have copied := io_copy_takes write_takes grow_empty grow_append source failing (grow s head)
          rw [run_bind_ok copied, grow_append]
          cases closing : source.closeErr with
          | some e =>
              have failed : (Act.check (some e) : Act IoError (Writer Bytes) Unit).run (grow s (head ++ source.content)) =
                  (.error e, grow s (head ++ source.content)) := rfl
              rw [run_bind_error failed, if_neg (by simp)]
          | none =>
              rw [run_bind_ok (run_check_none _)]
              by_cases some : 0 < source.content.length
              · rw [if_pos some, if_pos ⟨rfl, rfl, some⟩, pad_buffer, grow_append]
                rfl
              · rw [if_neg some, if_neg (by simp [some])]
                rfl

theorem write_record_ends (f : Record) (s : Writer Bytes) :
    Ends (writeRecord bytesBuffer f) s f.Fails (fun _ _ => f.Reads) := by
  have takes : ∀ bytes t, Ends (write bytesBuffer bytes) t f.Fails (fun _ _ => True) :=
    fun bytes t => ends_of_ok t _ _ _ _ _ (write_takes bytes t) trivial
  have pads : ∀ t, Ends (pad bytesBuffer) t f.Fails (fun _ _ => True) :=
    fun t => ends_of_ok t _ _ _ _ _ (pad_buffer t) trivial
  rw [writeRecord]
  refine ends_bind _ _ _ _ _ _ (takes _ _) fun _ _ _ => ?_
  refine ends_bind _ _ _ _ _ _ (takes _ _) fun _ _ _ => ?_
  refine ends_bind _ _ _ _ _ _ (takes _ _) fun _ _ _ => ?_
  refine ends_bind _ _ _ _ _ _ (pads _) fun _ t _ => ?_
  cases present : f.readCloser with
  | none =>
      refine ends_of_ok t _ _ () t _ rfl ?_
      intro source impossible
      rw [present] at impossible
      cases impossible
  | some source =>
      have copies : Ends (ioCopy (write bytesBuffer) source) t f.Fails (fun _ _ => source.readErr = none) := by
        cases failing : source.readErr with
        | none =>
            exact ends_of_ok t _ _ _ _ _
              (io_copy_takes write_takes grow_empty grow_append source failing t) rfl
        | some e =>
            exact ends_of_error t _ _ _ _ _
              (io_copy_fails write_takes grow_empty grow_append source e failing t)
              ⟨source, present, Or.inl failing⟩
      refine ends_bind _ _ _ _ _ _ copies fun m t readable => ?_
      have closes : Ends (Act.check source.closeErr) t f.Fails (fun _ _ => source.closeErr = none) :=
        ends_check t _ _ _ (fun e failing => ⟨source, present, Or.inr failing⟩) id
      refine ends_bind _ _ _ _ _ _ closes fun _ t closed => ?_
      have reads : f.Reads := by
        intro other same
        cases present.symm.trans same
        exact ⟨readable, closed⟩
      split
      · exact ends_of_ok t _ _ _ _ _ (pad_buffer t) reads
      · exact ends_of_ok t _ _ _ _ _ rfl reads

end URoot.Newc

namespace URoot.Cpio

open GoLib

-- A writer on a buffer and the records whose headers it has put there, in
-- order. A name enters alreadyWritten just before its record is written.
structure Holds (w : Writer Bytes) (entries : List Record) : Prop where
  bytes : w.rw.w = Newc.layout 0 entries
  position : w.rw.pos = w.rw.w.length
  names : entries.map (fun f => f.info.name) = w.alreadyWritten.reverse

theorem fresh_holds : Holds (newWriter []) [] := ⟨rfl, rfl, rfl⟩

theorem holds_mem (w : Writer Bytes) (entries : List Record) (holds : Holds w entries) (name : Bytes) :
    name ∈ w.alreadyWritten ↔ name ∈ entries.map (fun f => f.info.name) := by
  rw [holds.names, List.mem_reverse]

theorem holds_new (w : Writer Bytes) (entries : List Record) (record : Record) (holds : Holds w entries)
    (new : nameOf record ∉ w.alreadyWritten) :
    Holds ((writeRecord bytesBuffer record).run w).2 (entries ++ [stored record]) ∧
      ((writeRecord bytesBuffer record).run w).2.alreadyWritten = nameOf record :: w.alreadyWritten := by
  have emits := Newc.write_record_emits (stored record) w.rw
  have state : ((writeRecord bytesBuffer record).run w).2 =
      ⟨Newc.grow w.rw (Newc.emitted w.rw.pos (stored record)), nameOf record :: w.alreadyWritten⟩ := by
    rw [write_record_unseen bytesBuffer record w new, formatWrite, ← emits]
    rcases ran : (Newc.writeRecord bytesBuffer (stored record)).run w.rw with ⟨result, next⟩
    cases result <;> simp only [ran]
  rw [state]
  refine ⟨⟨?_, ?_, ?_⟩, rfl⟩
  · rw [Newc.layout_snoc, ← holds.bytes, Nat.zero_add, ← holds.position]
    rfl
  · simp only [Newc.grow, List.length_append, holds.position]
  · rw [List.map_append, holds.names, List.reverse_cons]
    rfl

end URoot.Cpio
