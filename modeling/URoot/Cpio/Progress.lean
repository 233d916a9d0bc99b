import URoot.Cpio.Archive
import URoot.Lib.Device

set_option autoImplicit false

namespace URoot.Newc

open GoLib Cpio Act

section Model

def roundInt64 (n : Int) : Int := int64 (n + 3) / 4 * 4

-- The reader with the position as the code keeps it, an int64 that may wrap.
structure SeekReader where
  r : Image
  pos : Int

inductive SeekError where
  | eof
  | readAt (pos : Int) (got want : Nat) (err : Option IoError)
  | magic (got want : Bytes)
  | hex (text : Bytes)
  | panic
deriving DecidableEq, Repr

namespace SeekReader

def read (len : Nat) : Act SeekError SeekReader Bytes := do
  let s ← Act.get
  match s.r.readAt len s.pos with
  | (_, some .eof) => Act.fail .eof
  | (bytes, some e) => Act.fail (.readAt s.pos bytes.length len (some e))
  | (bytes, none) =>
      Act.require (bytes.length = len) (.readAt s.pos bytes.length len none)
      Act.set { s with pos := int64 (s.pos + bytes.length) }
      pure bytes

def readAligned (len : Nat) : Act SeekError SeekReader Bytes :=
  ⟨fun s =>
    match (read len).run s with
    | (result, next) => (result, { next with pos := roundInt64 next.pos })⟩

def readHeader : Act SeekError SeekReader Header := do
  let buf ← read (2 * headerCodec.width + magicLen)
  Act.require (buf.take magicLen = newcMagic) (.magic (buf.take magicLen) newcMagic)
  Act.ofOption (decodeHeader (buf.drop magicLen)) (.hex (buf.drop magicLen))

def readName (hdr : Header) : Act SeekError SeekReader Bytes := do
  let nameBuf ← readAligned hdr.nameLength.toNat
  Act.require ((hdr.nameLength - 1).toNat ≤ nameBuf.length) .panic
  pure (nameBuf.take (hdr.nameLength - 1).toNat)

def sectionReader (image : Image) (pos : Int) (size : Nat) : ReadCloser :=
  if pos < 0 ∧ 0 < size then ⟨[], some (.other (str "negative offset")), none⟩
  else newBytesReadCloser ((image.bytes.drop pos.toNat).take size)

def sectionContent (hdr : Header) : Act SeekError SeekReader ReadCloser := do
  let s ← Act.get
  Act.set { s with pos := roundInt64 (int64 (s.pos + hdr.fileSize.toNat)) }
  pure (sectionReader s.r s.pos hdr.fileSize.toNat)

def readRecord : Act SeekError SeekReader Record := do
  let hdr ← readHeader
  let name ← readName hdr
  let content ← sectionContent hdr
  let record : Record := ⟨some content, { hdr.info with name := name }⟩
  Act.require (record.info.name ≠ trailer) .eof
  pure record

def calls : Nat → SeekReader → List (Int × Record) × Option SeekError
  | 0, _ => ([], none)
  | n + 1, s =>
      match readRecord.run s with
      | (.error e, _) => ([], some e)
      | (.ok f, next) => ((s.pos, f) :: (calls n next).1, (calls n next).2)

def readRecords (n : Nat) (image : Image) : Option (Except SeekError (List Record)) :=
  (calls n ⟨image, 0⟩).2.map (fun e => if e = .eof then .ok ((calls n ⟨image, 0⟩).1.map Prod.snd) else .error e)

end SeekReader

end Model

section Rounding

theorem int64_wraps (value : Int) (low : 2 ^ 63 ≤ value) (high : value < 2 ^ 64) : int64 value = value - 2 ^ 64 := by
  rw [int64, Int.bmod]
  omega

theorem int64_inside (value : Int) (low : -2 ^ 63 ≤ value) (high : value < 2 ^ 63) : int64 value = value := by
  apply Int.bmod_eq_of_le <;> omega

theorem round_int64_negative (value : Int) (low : -2 ^ 63 ≤ value) (high : value < -3) : roundInt64 value < 0 := by
  rw [roundInt64, int64_inside _ (by omega) (by omega)]
  omega

theorem round_int64_inside (n : Nat) (small : n + 3 < 2 ^ 63) : roundInt64 n = (round4 n : Nat) := by
  rw [roundInt64, int64_exact (by omega) (by omega), round4]
  omega

theorem round_int64_outside (n : Nat) (small : n < 2 ^ 63) (large : 2 ^ 63 ≤ n + 3) : roundInt64 n = -2 ^ 63 := by
  rw [roundInt64, int64_wraps _ (by omega) (by omega)]
  omega

end Rounding

section Refines

def ReadError.seek : ReadError → SeekError
  | .eof => .eof
  | .readAt pos got want err => .readAt pos got want err
  | .magic got want => .magic got want
  | .hex text => .hex text
  | .panic => .panic

namespace SeekReader

variable {α β : Type}

-- Where the position cannot wrap within so many bytes, the code's reader does what the exact one does.
def Follows (x : Act ReadError Reader α) (y : Act SeekError SeekReader α) (far : Nat) : Prop :=
  ∀ (image : Image) (pos : Nat), pos + far < 2 ^ 63 → ∃ result last, x.run ⟨image.bytes, pos⟩ = (result, ⟨image.bytes, last⟩) ∧
    y.run ⟨image, pos⟩ = (result.mapError ReadError.seek, ⟨image, last⟩) ∧ last ≤ pos + far

theorem follows_pure (a : α) : Follows (pure a) (pure a) 0 := fun _ pos _ => ⟨.ok a, pos, rfl, rfl, Nat.le_refl _⟩

theorem follows_fail (e : ReadError) : Follows (Act.fail e : Act ReadError Reader α) (Act.fail e.seek) 0 :=
  fun _ pos _ => ⟨.error e, pos, rfl, rfl, Nat.le_refl _⟩

theorem follows_require (p : Prop) [Decidable p] (e : ReadError) : Follows (Act.require p e) (Act.require p e.seek) 0 := by
  rw [Act.require, Act.require]
  split
  · exact follows_pure ()
  · exact follows_fail e

theorem follows_of_option (result : Option α) (e : ReadError) : Follows (Act.ofOption result e) (Act.ofOption result e.seek) 0 := by
  cases result with
  | none => exact follows_fail e
  | some a => exact follows_pure a

theorem follows_bind (x : Act ReadError Reader α) (y : Act SeekError SeekReader α) (f : α → Act ReadError Reader β)
    (g : α → Act SeekError SeekReader β) (near far : Nat) (first : Follows x y near) (second : ∀ a, Follows (f a) (g a) far) :
    Follows (x >>= f) (y >>= g) (near + far) := by
  intro image pos room
  obtain ⟨result, middle, ran, same, behind⟩ := first image pos (by omega)
  cases result with
  | error e => exact ⟨.error e, middle, run_bind_error ran, run_bind_error same, by omega⟩
  | ok a =>
      obtain ⟨outcome, last, later, alike, further⟩ := second a image middle (by omega)
      exact ⟨outcome, last, (run_bind_ok ran).trans later, (run_bind_ok same).trans alike, by omega⟩

theorem follows_wider (x : Act ReadError Reader α) (y : Act SeekError SeekReader α) (near far : Nat) (wider : near ≤ far)
    (follows : Follows x y near) : Follows x y far := by
  intro image pos room
  obtain ⟨result, last, ran, same, behind⟩ := follows image pos (by omega)
  exact ⟨result, last, ran, same, by omega⟩

theorem read_follows (len : Nat) : Follows (Newc.read len) (read len) len := by
  intro image pos room
  have there : image.readAt len pos = GoLib.readAt image.bytes len pos := by
    rw [Image.readAt, if_neg (by omega), Int.toNat_natCast]
  rw [Newc.read, read, run_get_bind, run_get_bind]
  simp only [there]
  rcases got : GoLib.readAt image.bytes len pos with ⟨bytes, _ | e⟩
  · by_cases full : bytes.length = len
    · simp only [full, Act.require, if_true]
      refine ⟨.ok bytes, pos + len, rfl, ?_, Nat.le_refl _⟩
      rw [run_bind_ok (run_pure _ _), run_set_bind, int64_exact (by omega) (by omega)]
      rfl
    · simp only [Act.require, if_neg full]
      exact ⟨_, pos, rfl, rfl, by omega⟩
  · cases e <;> exact ⟨_, pos, rfl, rfl, by omega⟩

theorem read_aligned_follows (len : Nat) : Follows (Newc.readAligned len) (readAligned len) (len + 3) := by
  intro image pos room
  obtain ⟨result, last, ran, same, behind⟩ := read_follows len image pos (by omega)
  refine ⟨result, round4 last, ?_, ?_, ?_⟩
  · simp only [Newc.readAligned, ran]
  · simp only [readAligned, same, round_int64_inside last (by omega)]
  · rw [round4]
    omega

theorem section_content_follows (hdr : Header) : Follows (Newc.sectionContent hdr) (sectionContent hdr) (hdr.fileSize.toNat + 3) := by
  intro image pos room
  refine ⟨_, round4 (pos + hdr.fileSize.toNat), rfl, ?_, by rw [round4]; omega⟩
  have forward : ¬ ((pos : Int) < 0 ∧ 0 < hdr.fileSize.toNat) := by omega
  have sum : int64 ((pos : Int) + hdr.fileSize.toNat) = (pos + hdr.fileSize.toNat : Nat) := by
    rw [int64_exact (by omega) (by omega)]
    rfl
  rw [sectionContent, run_get_bind, run_set_bind, run_pure]
  simp only [sum, round_int64_inside _ (show pos + hdr.fileSize.toNat + 3 < 2 ^ 63 by omega), sectionReader, if_neg forward,
    Int.toNat_natCast]
  rfl

theorem read_header_follows : Follows Newc.readHeader readHeader 110 :=
  follows_bind _ _ _ _ 110 0 (read_follows 110) fun _ =>
    follows_bind _ _ _ _ 0 0 (follows_require _ (.magic _ _)) fun _ => follows_of_option _ (.hex _)

theorem read_name_follows (hdr : Header) : Follows (Newc.readName hdr) (readName hdr) (2 ^ 32 + 3) := by
  have small := hdr.nameLength.toNat_lt
  refine follows_wider _ _ (hdr.nameLength.toNat + 3) _ (by omega) ?_
  exact follows_bind _ _ _ _ _ 0 (read_aligned_follows _) fun _ =>
    follows_bind _ _ _ _ 0 0 (follows_require _ .panic) fun _ => follows_pure _

theorem read_record_follows : Follows Cpio.readRecord readRecord (2 ^ 34) := by
  have contents : ∀ hdr, Follows (Newc.sectionContent hdr) (sectionContent hdr) (2 ^ 32 + 3) := by
    intro hdr
    have small := hdr.fileSize.toNat_lt
    exact follows_wider _ _ _ _ (by omega) (section_content_follows hdr)
  rw [Cpio.readRecord, Newc.readRecord, bind_bind]
  refine follows_wider _ _ (110 + ((2 ^ 32 + 3) + ((2 ^ 32 + 3) + 0))) _ (by decide) ?_
  refine follows_bind _ _ _ _ _ _ read_header_follows fun hdr => ?_
  rw [bind_bind]
  refine follows_bind _ _ _ _ _ _ (read_name_follows hdr) fun name => ?_
  rw [bind_bind]
  refine follows_bind _ _ _ _ _ _ (contents hdr) fun content => ?_
  exact follows_bind _ _ _ _ 0 0 (follows_require _ .eof) fun _ => follows_pure _

end SeekReader

end Refines

section Steps

namespace SeekReader

theorem read_inv (len : Nat) (s next : SeekReader) (bytes : Bytes) (done : (read len).run s = (.ok bytes, next)) :
    0 ≤ s.pos ∧ s.pos.toNat + len ≤ s.r.bytes.length ∧ bytes = slice s.r.bytes s.pos.toNat len ∧
      next = ⟨s.r, s.pos + len⟩ := by
  rw [read, run_get_bind] at done
  split at done
  · cases done
  · cases done
  · rename_i got full
    obtain ⟨positive, fits, taken⟩ := s.r.read_at_inv _ _ _ full
    have small := s.r.small
    obtain ⟨_, _, checked, rest⟩ := run_bind_inv done
    obtain ⟨size, same⟩ := run_require_inv _ _ _ _ checked
    rw [same, run_set_bind, run_pure, size, int64_exact (by omega) (by omega)] at rest
    cases rest
    exact ⟨positive, fits, taken, rfl⟩

theorem read_header_inv (s next : SeekReader) (hdr : Header) (done : readHeader.run s = (.ok hdr, next)) :
    0 ≤ s.pos ∧ s.pos.toNat + 110 ≤ s.r.bytes.length ∧
      decodeHeader ((s.r.bytes.drop (s.pos.toNat + 6)).take 104) = some hdr ∧ next = ⟨s.r, s.pos + 110⟩ := by
  obtain ⟨buf, afterHead, headRead, rest⟩ := run_bind_inv done
  obtain ⟨positive, fits, rfl, rfl⟩ := read_inv 110 _ _ _ headRead
  obtain ⟨_, _, checked, final⟩ := run_bind_inv rest
  obtain ⟨-, rfl⟩ := run_require_inv _ _ _ _ checked
  obtain ⟨decoded, rfl⟩ := run_of_option_inv final
  have hexPart := (header_split s.r.bytes s.pos.toNat).2
  exact ⟨positive, fits, by rw [← hexPart]; exact decoded, rfl⟩

theorem read_name_inv (hdr : Header) (s next : SeekReader) (name : Bytes) (done : (readName hdr).run s = (.ok name, next)) :
    0 < hdr.nameLength.toNat ∧ s.pos.toNat + hdr.nameLength.toNat ≤ s.r.bytes.length ∧
      name = (s.r.bytes.drop s.pos.toNat).take (hdr.nameLength.toNat - 1) ∧
      next = ⟨s.r, roundInt64 (s.pos + hdr.nameLength.toNat)⟩ := by
  obtain ⟨nameBuf, afterName, nameRead, rest⟩ := run_bind_inv done
  rcases step : (read hdr.nameLength.toNat).run s with ⟨result, middle⟩
  simp only [readAligned, step, Prod.mk.injEq] at nameRead
  obtain ⟨rfl, rfl⟩ := nameRead
  obtain ⟨positive, fits, taken, rfl⟩ := read_inv _ s middle nameBuf step
  obtain ⟨_, _, checked, final⟩ := run_bind_inv rest
  obtain ⟨bound, rfl⟩ := run_require_inv _ _ _ _ checked
  have size : nameBuf.length = hdr.nameLength.toNat := by rw [taken, slice_length fits]
  rw [size] at bound
  obtain ⟨named, less⟩ := zero_length_wraps bound
  cases final
  refine ⟨named, fits, ?_, rfl⟩
  rw [taken, slice, List.take_take, less, Nat.min_eq_left (Nat.sub_le _ _)]

def contentStart (pos : Int) (hdr : Header) : Int := roundInt64 (pos + 110 + hdr.nameLength.toNat)

structure RecordAt (image : Image) (pos : Int) (hdr : Header) (f : Record) : Prop where
  positive : 0 ≤ pos
  decoded : decodeHeader ((image.bytes.drop (pos.toNat + 6)).take 104) = some hdr
  named : 0 < hdr.nameLength.toNat
  fits : pos.toNat + 110 + hdr.nameLength.toNat ≤ image.bytes.length
  record_eq : f = ⟨some (sectionReader image (contentStart pos hdr) hdr.fileSize.toNat),
    { hdr.info with name := (image.bytes.drop (pos.toNat + 110)).take (hdr.nameLength.toNat - 1) }⟩

theorem read_record_inv (s next : SeekReader) (f : Record) (done : readRecord.run s = (.ok f, next)) :
    ∃ hdr, RecordAt s.r s.pos hdr f ∧
      next = ⟨s.r, roundInt64 (int64 (contentStart s.pos hdr + hdr.fileSize.toNat))⟩ := by
  obtain ⟨hdr, afterHead, headRead, rest⟩ := run_bind_inv done
  obtain ⟨positive, headFits, decoded, rfl⟩ := read_header_inv _ _ _ headRead
  obtain ⟨name, afterName, nameRead, final⟩ := run_bind_inv rest
  obtain ⟨named, nameFits, rfl, rfl⟩ := read_name_inv _ _ _ _ nameRead
  have place : (s.pos + 110).toNat = s.pos.toNat + 110 := by omega
  dsimp only at final nameFits
  rw [place] at final nameFits
  obtain ⟨content, afterContent, contentRead, checked⟩ := run_bind_inv final
  cases contentRead
  obtain ⟨_, _, notTrailer, last⟩ := run_bind_inv checked
  obtain ⟨-, rfl⟩ := run_require_inv _ _ _ _ notTrailer
  cases last
  exact ⟨hdr, ⟨positive, decoded, named, by omega, rfl⟩, rfl⟩

theorem record_moves {image : Image} {pos : Int} {hdr : Header} {f : Record} (place : RecordAt image pos hdr f) :
    (contentStart pos hdr < 0 ∧ 2 ^ 63 ≤ image.bytes.length + 3 ∧
        roundInt64 (int64 (contentStart pos hdr + hdr.fileSize.toNat)) < 0) ∨
      ∃ c : Nat, contentStart pos hdr = c ∧ pos.toNat + 110 + hdr.nameLength.toNat ≤ c ∧
        (roundInt64 (int64 (contentStart pos hdr + hdr.fileSize.toNat)) < 0 ∨
          ∃ q : Nat, roundInt64 (int64 (contentStart pos hdr + hdr.fileSize.toNat)) = q ∧ c + hdr.fileSize.toNat ≤ q ∧ q % 4 = 0) := by
  have positive := place.positive
  have fits := place.fits
  have small := image.small
  have word := hdr.fileSize.toNat_lt
  have whole : pos + 110 + hdr.nameLength.toNat = (pos.toNat + 110 + hdr.nameLength.toNat : Nat) := by omega
  rw [contentStart, whole]
  generalize pos.toNat + 110 + hdr.nameLength.toNat = n at fits
  generalize hdr.fileSize.toNat = size at word
  by_cases named : n + 3 < 2 ^ 63
  · right
    have up := round4_le n
    have near : round4 n ≤ n + 3 := by rw [round4]; omega
    rw [round_int64_inside n named]
    refine ⟨round4 n, rfl, up, ?_⟩
    have sum : ((round4 n : Nat) : Int) + size = (round4 n + size : Nat) := by omega
    rw [sum]
    generalize round4 n + size = m at *
    by_cases inside : m + 3 < 2 ^ 63
    · right
      rw [int64_exact (by omega) (by omega), round_int64_inside m inside]
      exact ⟨round4 m, rfl, round4_le m, by rw [round4]; omega⟩
    · left
      by_cases within : m < 2 ^ 63
      · rw [int64_exact (by omega) (by omega), round_int64_outside m within (by omega)]
        decide
      · rw [int64_wraps _ (by omega) (by omega)]
        exact round_int64_negative _ (by omega) (by omega)
  · left
    rw [round_int64_outside n (by omega) (by omega), int64_inside _ (by omega) (by omega)]
    exact ⟨by decide, by omega, round_int64_negative _ (by omega) (by omega)⟩

end SeekReader

end Steps

section Regions

namespace SeekReader

structure Region where
  lower : Nat
  upper : Nat
deriving DecidableEq, Repr

-- Header, name and content of the record at a position. A content whose offset has
-- wrapped cannot be read and covers nothing.
def regions (image : Image) (pos : Int) : List Region :=
  match decodeHeader ((image.bytes.drop (pos.toNat + 6)).take 104) with
  | none => []
  | some hdr =>
      ⟨pos.toNat, pos.toNat + 110⟩ :: ⟨pos.toNat + 110, pos.toNat + 110 + hdr.nameLength.toNat⟩ ::
        if contentStart pos hdr < 0 then []
        else [⟨(contentStart pos hdr).toNat, (contentStart pos hdr).toNat + hdr.fileSize.toNat⟩]

def Before (a b : Region) : Prop := a.upper ≤ b.lower

theorem record_regions (s next : SeekReader) (f : Record) (done : readRecord.run s = (.ok f, next)) :
    (regions s.r s.pos).Pairwise Before ∧ (∀ region ∈ regions s.r s.pos, s.pos.toNat ≤ region.lower) ∧
      (0 ≤ next.pos → ∀ region ∈ regions s.r s.pos, region.upper ≤ next.pos.toNat) := by
  obtain ⟨hdr, place, rfl⟩ := read_record_inv s next f done
  rw [regions, place.decoded]
  rcases record_moves place with ⟨wrapped, -, gone⟩ | ⟨c, start, behind, moved⟩
  · simp only [if_pos wrapped]
    generalize s.pos.toNat = p
    refine ⟨by simp [Before], by simp, fun ahead => ?_⟩
    omega
  · have content : (if contentStart s.pos hdr < 0 then [] else
        [⟨(contentStart s.pos hdr).toNat, (contentStart s.pos hdr).toNat + hdr.fileSize.toNat⟩] : List Region) =
        [⟨c, c + hdr.fileSize.toNat⟩] := by
      rw [start, if_neg (by omega), Int.toNat_natCast]
    simp only [content]
    generalize s.pos.toNat = p at behind
    refine ⟨by simp [Before]; omega, by simp; omega, fun ahead => ?_⟩
    rcases moved with gone | ⟨q, there, beyond, -⟩
    · omega
    · rw [there, Int.toNat_natCast]
      simp
      omega

theorem record_starts (s next : SeekReader) (f : Record) (done : readRecord.run s = (.ok f, next)) :
    0 ≤ s.pos ∧ s.pos.toNat + 110 ≤ s.r.bytes.length ∧ next.r = s.r ∧
      (next.pos < 0 ∨ s.pos.toNat + 110 ≤ next.pos.toNat ∧ next.pos % 4 = 0) := by
  obtain ⟨hdr, place, rfl⟩ := read_record_inv s next f done
  have fits := place.fits
  refine ⟨place.positive, by omega, rfl, ?_⟩
  rcases record_moves place with ⟨-, -, gone⟩ | ⟨c, -, behind, gone | ⟨q, there, beyond, aligned⟩⟩
  · exact Or.inl gone
  · exact Or.inl gone
  · right
    dsimp only
    rw [there, Int.toNat_natCast]
    omega

-- Every call takes a header's worth of bytes, so the calls run out of them.
theorem calls_end (n : Nat) (s : SeekReader) (enough : 0 < n) (bound : 0 ≤ s.pos → s.r.bytes.length - s.pos.toNat < 110 * n) :
    (calls n s).2.isSome := by
  induction n generalizing s with
  | zero => cases enough
  | succ n ih =>
      rw [calls]
      rcases step : readRecord.run s with ⟨result, next⟩
      cases result with
      | error e => rfl
      | ok f =>
          obtain ⟨positive, fits, same, moved⟩ := record_starts s next f step
          have before := bound positive
          refine ih next (by omega) fun ahead => ?_
          rw [same]
          rcases moved with gone | ⟨further, -⟩
          · omega
          · omega

theorem calls_negative (n : Nat) (s : SeekReader) (gone : s.pos < 0) : (calls n s).1 = [] := by
  cases n with
  | zero => rfl
  | succ n =>
      rw [calls]
      rcases step : readRecord.run s with ⟨result, next⟩
      cases result with
      | error e => rfl
      | ok f => exact absurd (record_starts s next f step).1 (by omega)

theorem calls_regions (n : Nat) (s : SeekReader) (aligned : s.pos % 4 = 0) :
    ((calls n s).1.flatMap (fun call => regions s.r call.1)).Pairwise Before ∧
      (∀ region ∈ (calls n s).1.flatMap (fun call => regions s.r call.1), s.pos.toNat ≤ region.lower) ∧
      ∀ call ∈ (calls n s).1, call.1 % 4 = 0 := by
  induction n generalizing s with
  | zero => simp [calls]
  | succ n ih =>
      rw [calls]
      rcases step : readRecord.run s with ⟨result, next⟩
      cases result with
      | error e => simp
      | ok f =>
          obtain ⟨positive, fits, same, moved⟩ := record_starts s next f step
          obtain ⟨ordered, starts, ends⟩ := record_regions s next f step
          rcases moved with gone | ⟨further, nextAligned⟩
          · simp only [calls_negative n next gone, List.flatMap_cons, List.flatMap_nil, List.append_nil, List.forall_mem_singleton]
            exact ⟨ordered, starts, aligned⟩
          · obtain ⟨later, laterStarts, laterAligned⟩ := ih next nextAligned
            rw [same] at later laterStarts
            rw [List.flatMap_cons]
            refine ⟨List.pairwise_append.mpr ⟨ordered, later, fun a first b second => ?_⟩, fun region member => ?_,
              List.forall_mem_cons.mpr ⟨aligned, laterAligned⟩⟩
            · have left := ends (by omega) a first
              have right := laterStarts b second
              rw [Before]
              omega
            · rcases List.mem_append.mp member with first | second
              · exact starts region first
              · have right := laterStarts region second
                omega

def Occupies (image : Image) (call : Int × Record) : Prop :=
  ∃ start nameEnd content : Nat, call.1 = start ∧ start + 110 < nameEnd ∧ nameEnd ≤ image.bytes.length ∧
    call.2.info.name = slice image.bytes (start + 110) (nameEnd - (start + 110) - 1) ∧
    (regions image call.1 = [⟨start, start + 110⟩, ⟨start + 110, nameEnd⟩, ⟨content, content + call.2.info.fileSize.toNat⟩] ∧
        call.2.content = slice image.bytes content call.2.info.fileSize.toNat ∨
      regions image call.1 = [⟨start, start + 110⟩, ⟨start + 110, nameEnd⟩] ∧ 2 ^ 63 ≤ image.bytes.length + 3)

theorem calls_occupy (n : Nat) (s : SeekReader) : ∀ call ∈ (calls n s).1, Occupies s.r call := by
  induction n generalizing s with
  | zero => simp [calls]
  | succ n ih =>
      rw [calls]
      rcases step : readRecord.run s with ⟨result, next⟩
      cases result with
      | error e => simp
      | ok f =>
          obtain ⟨hdr, place, rfl⟩ := read_record_inv s next f step
          refine List.forall_mem_cons.mpr ⟨?_, ih _⟩
          have positive := place.positive
          have named := place.named
          have fits := place.fits
          have word : hdr.info.fileSize.toNat = hdr.fileSize.toNat := by simp [Header.info]
          have moves := record_moves place
          refine ⟨s.pos.toNat, s.pos.toNat + 110 + hdr.nameLength.toNat, (contentStart s.pos hdr).toNat,
            (Int.toNat_of_nonneg positive).symm, Nat.lt_add_of_pos_right named, fits, ?_, ?_⟩
          · rw [place.record_eq, slice, Nat.add_sub_cancel_left]
          · simp only [regions, place.decoded]
            rcases moves with ⟨wrapped, huge, -⟩ | ⟨c, start, -, -⟩
            · exact Or.inr ⟨by rw [if_pos wrapped], huge⟩
            · have forward : ¬ contentStart s.pos hdr < 0 := by omega
              refine Or.inl ⟨by rw [if_neg forward, place.record_eq, word], ?_⟩
              rw [place.record_eq, Record.content, sectionReader, if_neg (fun wrapped => forward wrapped.1), word]
              rfl

theorem reader_makes_progress (image : Image) :
    (readRecords (image.bytes.length / 110 + 1) image).isSome ∧
      ∀ n, ((calls n ⟨image, 0⟩).1.flatMap (fun call => regions image call.1)).Pairwise Before ∧
        ∀ call ∈ (calls n ⟨image, 0⟩).1, call.1 % 4 = 0 ∧ Occupies image call := by
  refine ⟨?_, fun n => ?_⟩
  · have ended := calls_end (image.bytes.length / 110 + 1) ⟨image, 0⟩ (by omega) fun _ => by
      change image.bytes.length - 0 < _
      omega
    rw [readRecords, Option.isSome_map]
    exact ended
  · obtain ⟨ordered, -, aligned⟩ := calls_regions n ⟨image, 0⟩ rfl
    exact ⟨ordered, fun call member => ⟨aligned call member, calls_occupy n ⟨image, 0⟩ call member⟩⟩

theorem calls_follow (image : Image) (short : image.bytes.length + 2 ^ 35 < 2 ^ 63) (n pos : Nat)
    (near : pos ≤ image.bytes.length + 2 ^ 34) (files : List Record) (e : SeekError)
    (ended : (calls n ⟨image, pos⟩).2 = some e) :
    (readRecordsLoop ⟨image.bytes, pos⟩ files).mapError ReadError.seek =
      if e = .eof then .ok (files ++ (calls n ⟨image, pos⟩).1.map Prod.snd) else .error e := by
  induction n generalizing pos files with
  | zero => cases ended
  | succ n ih =>
      obtain ⟨result, last, ran, same, behind⟩ := read_record_follows image pos (by omega)
      cases result with
      | error err =>
          simp only [calls, same, Except.mapError, Option.some.injEq] at ended ⊢
          rw [← ended]
          cases err with
          | eof =>
              rw [read_records_loop_eof files ran]
              simp [ReadError.seek]
          | readAt _ _ _ _ | magic _ _ | hex _ | panic =>
              rw [read_records_loop_error files _ ran (by simp)]
              simp [ReadError.seek]
      | ok f =>
          have starts := record_starts ⟨image, pos⟩ ⟨image, last⟩ f same
          have fits := starts.2.1
          simp only [Int.toNat_natCast] at fits
          have begun : calls (n + 1) ⟨image, pos⟩ = (((pos : Int), f) :: (calls n ⟨image, last⟩).1, (calls n ⟨image, last⟩).2) := by
            simp only [calls, same, Except.mapError]
          rw [begun] at ended
          rw [begun, read_records_loop_next _ _ f files ran, ih last (by omega) (files ++ [f]) ended, List.map_cons,
            List.append_assoc, List.singleton_append]

theorem read_records_follows (image : Image) (short : image.bytes.length + 2 ^ 35 < 2 ^ 63) :
    readRecords (image.bytes.length / 110 + 1) image = some ((Cpio.readRecords image.bytes).mapError ReadError.seek) := by
  have ended := calls_end (image.bytes.length / 110 + 1) ⟨image, 0⟩ (by omega) fun _ => by
    change image.bytes.length - 0 < _
    omega
  obtain ⟨e, last⟩ := Option.isSome_iff_exists.mp ended
  rw [readRecords, last, Option.map_some, Cpio.readRecords, calls_follow image short _ 0 (by omega) [] e last, List.nil_append]
  rfl

end SeekReader

end Regions

end URoot.Newc
