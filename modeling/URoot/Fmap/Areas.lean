import URoot.Fmap
import URoot.Lib.Bufio
import URoot.Lib.Digits

set_option autoImplicit false

namespace URoot.Fmap

open GoLib Act

section Verify

def verifyArea (size : UInt32) (s : Option Bytes × List Bytes) (entry : Area × Nat) : Option Bytes × List Bytes :=
  if entry.1.offset + entry.1.size > size then
    (some (str "Invalid flash map"), s.2 ++ [str "Area " ++ Digits.numeral 10 entry.2 ++ str " is out of range"])
  else s

def verify (m : FMap) : Option Bytes × List Bytes := m.areas.zipIdx.foldl (verifyArea m.header.size) (none, [])

theorem verify_each (size : UInt32) (entries : List (Area × Nat)) (s : Option Bytes × List Bytes) :
    (entries.foldl (verifyArea size) s).1 = none ↔
      s.1 = none ∧ ∀ entry ∈ entries, ¬ entry.1.offset + entry.1.size > size := by
  induction entries generalizing s with
  | nil => simp
  | cons entry rest ih =>
      rw [List.foldl_cons, ih, List.forall_mem_cons, verifyArea]
      by_cases out : entry.1.offset + entry.1.size > size
      · simp [out]
      · simp [out]

theorem verify_passes_iff (m : FMap) :
    (verify m).1 = none ↔ ∀ a ∈ m.areas, ¬ m.header.size < a.offset + a.size := by
  rw [verify, verify_each]
  constructor
  · rintro ⟨_, inside⟩ a member
    obtain ⟨i, bound, rfl⟩ := List.mem_iff_getElem.mp member
    exact inside (m.areas[i], i) (List.mk_mem_zipIdx_iff_getElem?.mpr (List.getElem?_eq_getElem bound))
  · intro inside
    refine ⟨rfl, fun entry member => ?_⟩
    exact inside entry.1 (List.fst_mem_of_mem_zipIdx member)

end Verify

theorem verify_sound_iff (m : FMap) :
    ((verify m).1 = none ↔ ∀ a ∈ m.areas, a.offset.toNat + a.size.toNat ≤ m.header.size.toNat) ↔
      ((∃ a ∈ m.areas, 2 ^ 32 ≤ a.offset.toNat + a.size.toNat) → ∃ a ∈ m.areas, m.header.size < a.offset + a.size) := by
  have small := UInt32.toNat_lt m.header.size
  have wraps : ∀ a : Area, m.header.size < a.offset + a.size ↔
      m.header.size.toNat < (a.offset.toNat + a.size.toNat) % 2 ^ 32 := by
    intro a
    rw [UInt32.lt_iff_toNat_lt, UInt32.toNat_add]
  rw [verify_passes_iff]
  constructor
  · rintro sound ⟨a, member, wrapped⟩
    by_contra missed
    have inside := sound.mp (fun b there out => missed ⟨b, there, out⟩) a member
    omega
  · intro noticed
    constructor
    · intro passes a member
      have bound : a.offset.toNat + a.size.toNat < 2 ^ 32 := by
        by_contra wrapped
        obtain ⟨b, there, out⟩ := noticed ⟨a, member, Nat.le_of_not_lt wrapped⟩
        exact passes b there out
      have inside := passes a member
      rw [wraps, Nat.mod_eq_of_lt bound] at inside
      omega
    · intro inside a member
      have here := inside a member
      rw [wraps, Nat.mod_eq_of_lt (by omega)]
      omega

def wrappedMap : FMap := ⟨smallHeader, [⟨0xfffffff0, 0x20, Fixed.ofBytes 32 (str "RW"), 0⟩]⟩

theorem wrapped_area_passes :
    (verify wrappedMap).1 = none ∧
      ¬ ∀ a ∈ wrappedMap.areas, a.offset.toNat + a.size.toNat ≤ wrappedMap.header.size.toNat := by
  constructor
  · rfl
  · intro inside
    exact absurd (inside _ (List.mem_singleton_self _)) (by decide)

section Checksum

def fmapAreaStatic : UInt16 := 1

inductive AreaError where
  | failed (text : Bytes)
  | io (err : IoError)
  | panic
deriving DecidableEq, Repr

variable {σ τ : Type} {image : Bytes} (r : ReadSeeker image σ) (hash : Hash τ) (m : FMap)

-- The reader that is returned is r itself, limited to so many bytes.
def readArea (i : Int) : Act AreaError σ Nat := do
  Act.require (¬ (i < 0 ∨ m.header.nAreas.toNat ≤ i)) (.failed (str "Area index out of range"))
  let area ← Act.ofOption m.areas[i.toNat]? .panic
  let s ← Act.get
  Act.set (r.seek s area.offset.toNat)
  pure area.size.toNat

def hashArea (size : Nat) : Act AreaError (σ × τ) Unit :=
  ⟨fun s =>
    match writeTo r.toIoReader hash.write ⟨s.1, size⟩ s.2 with
    | (none, next, h) => (.ok (), next.r, h)
    | (some e, next, h) => (.error (.io e), next.r, h)⟩

def checksumEach : List (Area × Nat) → Act AreaError (σ × τ) Unit
  | [] => pure ()
  | (v, i) :: rest =>
      if v.flags &&& fmapAreaStatic = 0 then checksumEach rest
      else do
        let size ← (readArea r m i).within Prod.fst (fun s next => (next, s.2)) id
        hashArea r hash size
        checksumEach rest

def checksum : Act AreaError (σ × τ) Bytes := do
  checksumEach r hash m m.areas.zipIdx
  let s ← Act.get
  pure (hash.sum s.2 [])

def Area.bytes (a : Area) (image : Bytes) : Bytes := (image.drop a.offset.toNat).take a.size.toNat

def Area.isStatic (a : Area) : Bool := a.flags &&& fmapAreaStatic ≠ 0

def staticBytes (areas : List Area) (image : Bytes) : Bytes := (areas.filter Area.isStatic).flatMap (·.bytes image)

theorem run_read_area (i : Nat) (v : Area) (s : σ) (counted : i < m.header.nAreas.toNat) (found : m.areas[i]? = some v) :
    (readArea r m i).run s = (.ok v.size.toNat, r.seek s v.offset.toNat) := by
  rw [readArea, run_require_bind _ _ _ (by omega), Int.toNat_natCast, found]
  rfl

theorem run_hash_area (size : Nat) (s : σ) (h : τ) :
    ∃ (pieces : List Bytes) (next : σ), (hashArea r hash size).run (s, h) = (.ok (), next, pieces.foldl hash.write h) ∧
      pieces.flatten = (r.ahead s).take size := by
  obtain ⟨pieces, next, drained, window⟩ := drain_window image r hash.write size s (hash.write h [])
  refine ⟨[] :: pieces, next.r, ?_, ?_⟩
  · simp only [hashArea, writeTo, drained]
    rfl
  · rw [List.flatten_cons, List.nil_append, window]

theorem run_checksum_each (entries : List (Area × Nat))
    (there : ∀ entry ∈ entries, entry.2 < m.header.nAreas.toNat ∧ m.areas[entry.2]? = some entry.1) (s : σ) (h : τ) :
    ∃ (pieces : List Bytes) (next : σ),
      (checksumEach r hash m entries).run (s, h) = (.ok (), next, pieces.foldl hash.write h) ∧
        pieces.flatten = staticBytes (entries.map Prod.fst) image := by
  induction entries generalizing s h with
  | nil => exact ⟨[], s, rfl, rfl⟩
  | cons entry rest ih =>
      obtain ⟨v, i⟩ := entry
      obtain ⟨here, behind⟩ := List.forall_mem_cons.mp there
      rw [checksumEach, List.map_cons, staticBytes]
      by_cases other : v.flags &&& fmapAreaStatic = 0
      · rw [if_pos other, List.filter_cons_of_neg (by simp [Area.isStatic, other])]
        exact ih behind s h
      · -- The position left behind by an area does not matter: the next one seeks first.
        obtain ⟨front, mid, hashed, window⟩ := run_hash_area r hash v.size.toNat (r.seek s v.offset.toNat) h
        obtain ⟨later, next, ran, rest⟩ := ih behind mid (front.foldl hash.write h)
        have sought : ((readArea r m i).within Prod.fst (fun (s : σ × τ) next => (next, s.2)) id).run (s, h) =
            (.ok v.size.toNat, r.seek s v.offset.toNat, h) := by
          simp only [Act.within, run_read_area r m i v s here.1 here.2]
          rfl
        refine ⟨front ++ later, next, ?_, ?_⟩
        · rw [if_neg other, run_bind_ok sought, run_bind_ok hashed, ran, List.foldl_append]
        · rw [List.filter_cons_of_pos (by simp [Area.isStatic, other]), List.flatMap_cons, List.flatten_append, window, rest,
            r.seeks]
          rfl

theorem run_checksum (counted : m.Counted) (s : σ) :
    ((checksum r hash m).run (s, hash.new)).1 = .ok (hash.digest (staticBytes m.areas image)) := by
  have there : ∀ entry ∈ m.areas.zipIdx, entry.2 < m.header.nAreas.toNat ∧ m.areas[entry.2]? = some entry.1 := by
    intro entry member
    have found := List.mk_mem_zipIdx_iff_getElem?.mp member
    obtain ⟨bound, _⟩ := List.getElem?_eq_some_iff.mp found
    exact ⟨by rw [show m.header.nAreas.toNat = m.areas.length from counted]; exact bound, found⟩
  obtain ⟨pieces, next, ran, bytes⟩ := run_checksum_each r hash m m.areas.zipIdx there s hash.new
  rw [checksum, run_bind_ok ran, run_get_bind, run_pure, hash.sums, bytes,
    List.zipIdx_map_fst, List.nil_append]

end Checksum

theorem checksum_static {σ τ : Type} (image : Bytes) (r : ReadSeeker image σ) (hash : Hash τ) (m : FMap)
    (counted : m.header.nAreas.toNat = m.areas.length) (s : σ) :
    ((checksum r hash m).run (s, hash.new)).1 =
        .ok (hash.digest ((m.areas.filter Area.isStatic).flatMap fun a => (image.drop a.offset.toNat).take a.size.toNat)) ∧
      ∀ (σ' : Type) (image' : Bytes) (r' : ReadSeeker image' σ') (s' : σ'),
        (∀ a ∈ m.areas, a.isStatic → a.bytes image' = a.bytes image) →
          ((checksum r' hash m).run (s', hash.new)).1 = ((checksum r hash m).run (s, hash.new)).1 := by
  refine ⟨run_checksum r hash m counted s, fun σ' image' r' s' agree => ?_⟩
  rw [run_checksum r hash m counted s, run_checksum r' hash m counted s']
  have same : staticBytes m.areas image' = staticBytes m.areas image := by
    apply List.flatMap_congr
    intro a member
    obtain ⟨there, isStatic⟩ := List.mem_filter.mp member
    exact agree a there isStatic
  rw [same]

def flaggedMap : FMap :=
  ⟨{ smallHeader with nAreas := 2 }, [⟨2, 4, Fixed.ofBytes 32 (str "RO"), 5⟩, ⟨0, 16, Fixed.ofBytes 32 (str "RW"), 4⟩]⟩

theorem static_area_hashed :
    ((checksum (bytesReader (str "flash")) (Hash.recording id) flaggedMap).run (3, [])).1 = .ok (str "ash") ∧
      ((checksum (bytesReader (str "trash")) (Hash.recording id) flaggedMap).run (0, [])).1 = .ok (str "ash") := by
  obtain ⟨hashed, others⟩ := checksum_static (str "flash") (bytesReader _) (Hash.recording id) flaggedMap (by decide) 3
  have first : ((checksum (bytesReader (str "flash")) (Hash.recording id) flaggedMap).run (3, [])).1 = .ok (str "ash") :=
    hashed.trans rfl
  refine ⟨first, (others Nat (str "trash") (bytesReader _) 0 ?_).trans first⟩
  intro a member isStatic
  rcases List.mem_cons.mp member with rfl | other
  · rfl
  · rw [List.mem_singleton.mp other] at isStatic
    cases isStatic

end URoot.Fmap
