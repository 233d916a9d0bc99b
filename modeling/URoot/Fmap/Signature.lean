import URoot.Fmap

set_option autoImplicit false

namespace URoot.Fmap

open GoLib Search

section OneMap

variable (data : Bytes)

def areasAt (p : Nat) : Nat := (headerCodec.decode ((data.drop p).take headerCodec.width)).nAreas.toNat

def WholeAt (p : Nat) : Prop := 56 + 42 * areasAt data p ≤ data.length - p

structure OneMap (p : Nat) : Prop where
  here : OccursAt signature data p
  only : ∀ q, OccursAt signature data q → q = p
  whole : WholeAt data p

structure FirstMap (p : Nat) : Prop where
  here : OccursAt signature data p
  near : ∀ q, OccursAt signature data q → p ≤ q ∧ q < p + 8
  whole : WholeAt data p

structure Overlapped (p : Nat) : Prop extends FirstMap data p where
  again : OccursAt signature data (p + 6) ∨ OccursAt signature data (p + 7)

theorem signature_overlap (p q : Nat) (here : OccursAt signature data p) (there : OccursAt signature data q)
    (behind : p < q) (near : q < p + 8) : q = p + 6 ∨ q = p + 7 := by
  obtain ⟨k, rfl⟩ := Nat.exists_eq_add_of_lt behind
  have ends := occurs_overlap signature data p (k + 1) here there
  have overlaps : ∀ k < 7, signature.drop (k + 1) = signature.take (signature.length - (k + 1)) → k = 5 ∨ k = 6 := by decide
  have shift := overlaps k (by omega) ends
  omega

theorem read_fields_iff (r : Bytes) :
    (∃ m, readFields r = .ok m) ↔ 56 + 42 * (headerCodec.decode (r.take headerCodec.width)).nAreas.toNat ≤ r.length := by
  constructor
  · rintro ⟨m, done⟩
    obtain ⟨counted, rest, whole⟩ := read_fields_inv r m done
    have head : r.take headerCodec.width = headerCodec.encode m.header := by
      rw [whole, FMap.bytes, List.append_assoc, List.take_left' (headerCodec.encode_length m.header)]
    rw [head, headerCodec.decode_encode, show m.header.nAreas.toNat = m.areas.length from counted, whole, List.length_append,
      bytes_length]
    exact Nat.le_add_right _ _
  · intro enough
    have head : readField headerCodec.width r = .ok (r.take headerCodec.width, r.drop headerCodec.width) := by
      rw [readField, if_neg (by rw [header_width]; omega)]
    rw [readFields, except_bind_ok head]
    simp only [readField]
    rw [if_neg (by rw [area_width, List.length_drop, header_width]; rw [header_width] at enough; omega)]
    exact ⟨_, rfl⟩

theorem read_accepts_iff (md : Metadata) :
    (∃ m, read (.ok data) = .ok (m, md)) ↔ ∃ p, FirstMap data p ∧ md = ⟨UInt64.ofNat p⟩ := by
  have size : signature.length = 8 := by decide
  have nonempty : signature ≠ [] := by decide
  constructor
  · rintro ⟨m, found⟩
    rw [read] at found
    split at found
    · cases found
    rename_i single
    split at found
    · cases found
    rename_i start first
    obtain ⟨here, least⟩ := (index_some_iff signature data start).mp first
    cases parsed : readFields (data.drop start) with
    | error e =>
        rw [parsed] at found
        cases found
    | ok fmap =>
        rw [parsed] at found
        cases found
        have whole := (read_fields_iff (data.drop start)).mp ⟨m, parsed⟩
        rw [List.length_drop] at whole
        refine ⟨start, ⟨here, fun q there => ?_, whole⟩, rfl⟩
        refine ⟨Nat.le_of_not_lt fun before => least q before there, Nat.lt_of_not_le fun apart => ?_⟩
        exact single ((two_le_count_iff signature data nonempty).mpr ⟨start, q, here, there, by rw [size]; exact apart⟩)
  · rintro ⟨p, map, rfl⟩
    have single : ¬ 2 ≤ count signature data := by
      rw [two_le_count_iff signature data nonempty, size]
      rintro ⟨i, j, left, right, apart⟩
      have lower := (map.near i left).1
      have upper := (map.near j right).2
      omega
    have first : index signature data = some p :=
      (index_some_iff signature data p).mpr ⟨map.here, fun j before there => absurd (map.near j there).1 (by omega)⟩
    have whole := map.whole
    rw [WholeAt, areasAt, ← List.length_drop] at whole
    obtain ⟨m, parsed⟩ := (read_fields_iff (data.drop p)).mpr whole
    refine ⟨m, ?_⟩
    rw [read, if_neg single, first]
    simp only [parsed]
    rfl

end OneMap

theorem one_map_iff (data : Bytes) :
    (∀ md, (∃ m, read (.ok data) = .ok (m, md)) ↔ ∃ p, OneMap data p ∧ md = ⟨UInt64.ofNat p⟩) ↔
      ¬ ∃ p, Overlapped data p := by
  simp only [read_accepts_iff]
  constructor
  · rintro exact_ ⟨p, map, again⟩
    obtain ⟨p', one, _⟩ := (exact_ ⟨UInt64.ofNat p⟩).mp ⟨p, map, rfl⟩
    have first := one.only p map.here
    rcases again with six | seven
    · have second := one.only (p + 6) six
      omega
    · have second := one.only (p + 7) seven
      omega
  · intro apart md
    constructor
    · rintro ⟨p, map, rfl⟩
      refine ⟨p, ⟨map.here, fun q there => ?_, map.whole⟩, rfl⟩
      obtain ⟨lower, upper⟩ := map.near q there
      by_contra other
      have overlap := signature_overlap data p q map.here there (by omega) upper
      rcases overlap with rfl | rfl
      · exact apart ⟨p, map, Or.inl there⟩
      · exact apart ⟨p, map, Or.inr there⟩
    · rintro ⟨p, one, rfl⟩
      exact ⟨p, ⟨one.here, fun q there => by rw [one.only q there]; omega, one.whole⟩, rfl⟩

def twoSignatures : Bytes := signature ++ (str "FMAP__" ++ List.replicate 42 0)

theorem overlapping_map_accepted :
    (∃ m, read (.ok twoSignatures) = .ok (m, ⟨0⟩)) ∧ ∀ p, ¬ OneMap twoSignatures p := by
  constructor
  · exact ⟨⟨headerCodec.decode twoSignatures, []⟩, by decide +kernel⟩
  · intro p one
    have first := one.only 0 (by decide)
    have second := one.only 6 (by decide)
    omega

end URoot.Fmap
