import URoot.Dd.Window

set_option autoImplicit false

namespace URoot.Dd

open GoLib

section Refines

variable {σ : Type} (r : StreamReader σ)

-- Reads of a window of the data: they bring a part of it, the whole of it when they see the
-- end of file, which they do after enough reads, and nothing past its end is consumed.
structure ReadsWindow (data window : Bytes) (upTo : Nat) (lens : List Nat)
    (run : (Bytes × Option IoError) × SectionReader σ) : Prop where
  front : run.1.1 <+: window
  only : run.1.2 = none ∨ run.1.2 = some .eof
  whole : run.1.2 = some .eof → run.1.1 = window
  ended : window.length < lens.length → run.1.2 = some .eof
  consumed : ∃ k, k ≤ upTo ∧ r.rest run.2.reader = data.drop k

theorem reads_nothing (data window : Bytes) (upTo k : Nat) (s : SectionReader σ) (early : k ≤ upTo)
    (here : r.rest s.reader = data.drop k) : ReadsWindow r data window upTo [] (([], none), s) where
  front := List.nil_prefix
  only := Or.inl rfl
  whole := fun ended => by cases ended
  ended := fun less => absurd less (Nat.not_lt_zero _)
  consumed := ⟨k, early, here⟩

theorem reads_ended (data window : Bytes) (upTo k : Nat) (lens : List Nat) (s : SectionReader σ) (early : k ≤ upTo)
    (here : r.rest s.reader = data.drop k) : ReadsWindow r data window upTo lens ((window, some .eof), s) where
  front := List.prefix_rfl
  only := Or.inr rfl
  whole := fun _ => rfl
  ended := fun _ => rfl
  consumed := ⟨k, early, here⟩

theorem reads_more (data bytes window : Bytes) (upTo len : Nat) (lens : List Nat)
    (later : (Bytes × Option IoError) × SectionReader σ) (present : bytes ≠ [])
    (reads : ReadsWindow r data window upTo lens later) :
    ReadsWindow r data (bytes ++ window) upTo (len :: lens) ((bytes ++ later.1.1, later.1.2), later.2) where
  front := (List.prefix_append_right_inj bytes).mpr reads.front
  only := reads.only
  whole := fun ended => by rw [reads.whole ended]
  ended := fun less => by
    have some_ := List.length_pos_of_ne_nil present
    rw [List.length_append, List.length_cons] at less
    exact reads.ended (by omega)
  consumed := reads.consumed

theorem started_reads {data : Bytes} {lens : List Nat} (room : ∀ len ∈ lens, 0 < len) (s : SectionReader σ)
    (low : 0 ≤ s.offset) (inside : s.offset ≤ s.limit) (high : s.limit ≤ maxInt64) (started : s.offset ≠ 0 ∨ s.base = 0)
    (here : r.rest s.reader = data.drop s.offset.toNat) :
    ReadsWindow r data (s.left r) s.limit.toNat lens ((sectionReader r.toIoReader).readEach lens s) := by
  induction lens generalizing s with
  | nil => exact reads_nothing r data _ _ s.offset.toNat s (by omega) here
  | cons len lens ih =>
      have read := read_started r s len started
      rw [IoReader.readEach, read]
      rcases read_on_cases r s len (room len List.mem_cons_self) low high with
        ⟨next, k, ended, most, dropped⟩ | ⟨bytes, next, got, present, moved, rest, fits⟩
      · rw [ended]
        refine reads_ended r data _ _ (s.offset.toNat + k) _ next (by omega) ?_
        rw [dropped, here, List.drop_drop]
      · have some_ := List.length_pos_of_ne_nil present
        have offset : next.offset = s.offset + bytes.length := by rw [moved]
        have limit : next.limit = s.limit := by rw [moved]
        have behind : r.rest next.reader = data.drop next.offset.toNat := by
          have split : data.drop (s.offset.toNat + bytes.length) = (bytes ++ r.rest next.reader).drop bytes.length := by
            rw [← rest, here, List.drop_drop]
          rw [offset, show (s.offset + bytes.length).toNat = s.offset.toNat + bytes.length by omega, split, List.drop_left]
        have later := ih (fun other member => room other (List.mem_cons_of_mem _ member)) next (by omega) (by omega)
          (by rw [limit]; exact high) (Or.inl (by omega)) behind
        rw [got, left_more r s bytes next.reader rest fits, ← moved]
        rw [limit] at later
        exact reads_more r data bytes _ _ len lens _ present later

theorem reads_within (data window : Bytes) (most upTo : Nat) (lens : List Nat)
    (run : (Bytes × Option IoError) × SectionReader σ) (le : most ≤ upTo) (reads : ReadsWindow r data window most lens run) :
    ReadsWindow r data window upTo lens run := by
  obtain ⟨k, early, here⟩ := reads.consumed
  exact ⟨reads.front, reads.only, reads.whole, reads.ended, k, Nat.le_trans early le, here⟩

theorem fresh_reads (lens : List Nat) (room : ∀ len ∈ lens, 0 < len) (s : SectionReader σ) (fresh : s.offset = 0)
    (low : 0 ≤ s.base) (inside : s.base ≤ s.limit) (high : s.limit ≤ maxInt64) :
    ReadsWindow r (r.rest s.reader) (((r.rest s.reader).drop s.base.toNat).take (s.limit - s.base).toNat) s.limit.toNat lens
      ((sectionReader r.toIoReader).readEach lens s) := by
  by_cases based : s.base = 0
  · have reads := started_reads r room s (by omega) (by omega) high (Or.inr based) (by rw [fresh]; rfl)
    rw [SectionReader.left, fresh] at reads
    rw [based]
    exact reads
  · cases lens with
    | nil => exact reads_nothing r _ _ _ 0 s (Nat.zero_le _) rfl
    | cons len lens =>
        rcases read_fresh r s len fresh based low with ⟨short, next, rest, read⟩ | ⟨next, rest, read⟩
        · rw [IoReader.readEach, read, List.drop_of_length_le (by omega), List.take_nil]
          refine reads_ended r _ _ _ (r.rest s.reader).length _ { s with reader := next } (by omega) ?_
          rw [List.drop_length]
          exact rest
        · have reads := started_reads r room { s with offset := s.base, reader := next } low
            inside high (Or.inl based) rest
          rw [SectionReader.left, IoReader.readEach, read_started r _ len (Or.inl based), ← read, rest] at reads
          rw [IoReader.readEach]
          exact reads

end Refines

theorem section_reads_window {σ : Type} (r : StreamReader σ) (stream : σ) (short : (r.rest stream).length < 2 ^ 63)
    (offset n : Int) (offsetLow : 0 ≤ offset) (offsetHigh : offset ≤ maxInt64) (nLow : 0 ≤ n) (nHigh : n ≤ maxInt64)
    (lens : List Nat) (room : ∀ len ∈ lens, 0 < len) :
    ReadsWindow r (r.rest stream) (((r.rest stream).drop offset.toNat).take n.toNat) (offset.toNat + n.toNat) lens
      ((sectionReader r.toIoReader).readEach lens (newStreamSectionReader stream offset n)) := by
  have limit := limit_saturates offset n offsetLow offsetHigh (by omega) nHigh
  rw [if_neg (by omega : ¬ offset + n < 0)] at limit
  have saturated : (newStreamSectionReader stream offset n).limit = min (offset + n) maxInt64 := limit
  have most : offset ≤ min (offset + n) maxInt64 := le_min (by omega) offsetHigh
  have reads := fresh_reads r lens room (newStreamSectionReader stream offset n) rfl offsetLow
    (by rw [saturated]; exact most) (by rw [saturated]; exact min_le_right _ _)
  have cut : ((r.rest stream).drop offset.toNat).take n.toNat =
      ((r.rest stream).drop offset.toNat).take (min (offset + n) maxInt64 - offset).toNat := by
    by_cases fits : offset + n ≤ maxInt64
    · rw [min_eq_left fits, add_sub_cancel_left]
    · -- The limit was replaced, and the stream ends before it.
      unfold maxInt64 at fits ⊢
      have left : ((r.rest stream).drop offset.toNat).length = (r.rest stream).length - offset.toNat := List.length_drop
      rw [List.take_of_length_le (by omega), List.take_of_length_le (by omega)]
  rw [saturated] at reads
  rw [cut]
  exact reads_within r _ _ _ _ _ _ (by omega) reads

theorem letters_read : ReadsWindow streamReader (str "hello") (str "el") 3 [4, 4, 4]
    ((sectionReader stream).readEach [4, 4, 4] (newStreamSectionReader (typed (str "hello")) 1 2)) :=
  section_reads_window streamReader (typed (str "hello")) (by decide) 1 2 (by decide) (by decide) (by decide) (by decide) [4, 4, 4]
    (by decide)

end URoot.Dd
