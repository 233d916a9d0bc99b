import URoot.Dd.Complete
import URoot.Lib.Reader

set_option autoImplicit false

namespace URoot.Dd

open GoLib

section Source

structure SectionReader (σ : Type) where
  base : Int
  offset : Int
  limit : Int
  reader : σ

def newStreamSectionReader {σ : Type} (r : σ) (offset n : Int) : SectionReader σ :=
  let limit := int64 (offset + n)
  ⟨offset, 0, if limit < 0 then maxInt64 else limit, r⟩

namespace SectionReader

variable {σ : Type} (r : IoReader σ)

def readOn (s : SectionReader σ) (len : Nat) : (Bytes × Option IoError) × SectionReader σ :=
  if s.limit ≤ s.offset then (([], some .eof), s)
  else
    let got := r.read s.reader (clamp len (int64 (s.limit - s.offset)))
    let next := { s with offset := int64 (s.offset + got.1.1.length), reader := got.2 }
    if got.1 = ([], none) then (([], some .eof), next) else (got.1, next)

def read (s : SectionReader σ) (len : Nat) : (Bytes × Option IoError) × SectionReader σ :=
  if s.offset = 0 ∧ s.base ≠ 0 then
    let skipped := copyN r s.base s.reader
    match skipped.1.2 with
    | some e => (([], some e), { s with reader := skipped.2 })
    | none =>
        if skipped.1.1 ≠ s.base then
          (([], some (.other (str "error skipping input bytes, short write"))), { s with reader := skipped.2 })
        else readOn r { s with offset := s.base, reader := skipped.2 } len
  else readOn r s len

theorem read_on_fits (s : SectionReader σ) (len : Nat) : (readOn r s len).1.1.length ≤ len := by
  unfold readOn
  split
  · exact Nat.zero_le _
  · dsimp only
    split
    · exact Nat.zero_le _
    · exact Nat.le_trans (r.fits s.reader _) (clamp_le len _)

theorem read_on_progress (s : SectionReader σ) (len : Nat) : (readOn r s len).1 ≠ ([], none) := by
  unfold readOn
  split
  · intro impossible
    cases impossible
  · dsimp only
    split
    · intro impossible
      cases impossible
    · assumption

end SectionReader

def sectionReader {σ : Type} (r : IoReader σ) : IoReader (SectionReader σ) where
  read := SectionReader.read r
  fits s len := by
    unfold SectionReader.read
    split
    · dsimp only
      split
      · exact Nat.zero_le _
      · split
        · exact Nat.zero_le _
        · exact SectionReader.read_on_fits r _ len
    · exact SectionReader.read_on_fits r s len
  progress s len room := by
    unfold SectionReader.read
    split
    · dsimp only
      split
      · intro impossible
        cases impossible
      · split
        · intro impossible
          cases impossible
        · exact SectionReader.read_on_progress r _ len
    · exact SectionReader.read_on_progress r s len

inductive Input where
  | stdin (s : SectionReader Stream)
  | file (s : FileSection)

def input : IoReader Input where
  read s len :=
    match s with
    | .stdin s => (((sectionReader stream).read s len).1, .stdin ((sectionReader stream).read s len).2)
    | .file s => ((fileSection.read s len).1, .file (fileSection.read s len).2)
  fits s len := by
    cases s with
    | stdin s => exact (sectionReader stream).fits s len
    | file s => exact fileSection.fits s len
  progress s len room := by
    cases s with
    | stdin s => exact (sectionReader stream).progress s len room
    | file s => exact fileSection.progress s len room

structure OpenError where
  name : Bytes
  err : IoError
deriving DecidableEq, Repr

def inFile (files : Bytes → Except IoError Bytes) (stdin : Stream) (name : Bytes) (inputBytes skip count : Int) :
    Except OpenError Input :=
  let maxRead := if count ≠ maxInt64 then int64 (count * inputBytes) else maxInt64
  if name = [] then .ok (.stdin (newStreamSectionReader stdin (int64 (inputBytes * skip)) maxRead))
  else
    match files name with
    | .error err => .error ⟨name, err⟩
    | .ok data => .ok (.file (newSectionReader data (int64 (inputBytes * skip)) maxRead))

def copyFrom {σ : Type} (source : Input) (io : IoWriter σ) (ibs obs : Int) (positive : 1 ≤ obs)
    (convert : Bytes → Bytes) : Call σ :=
  parallelChunkedCopy (fun i => ⟨(input.answers ibs.toNat source i).1, (input.answers ibs.toNat source i).2⟩) io ibs.toNat
    obs.toNat convert (fun i => input.fits _ _) (by omega)

end Source

section Stream

variable {σ : Type} (r : StreamReader σ)

def SectionReader.left (s : SectionReader σ) : Bytes := (r.rest s.reader).take (s.limit - s.offset).toNat

theorem read_started (s : SectionReader σ) (len : Nat) (started : s.offset ≠ 0 ∨ s.base = 0) :
    (sectionReader r.toIoReader).read s len = SectionReader.readOn r.toIoReader s len := by
  change SectionReader.read r.toIoReader s len = _
  rw [SectionReader.read, if_neg]
  rintro ⟨zero, based⟩
  rcases started with offset | base
  · exact offset zero
  · exact based base

theorem read_on_cases (s : SectionReader σ) (len : Nat) (room : 0 < len) (low : 0 ≤ s.offset) (high : s.limit ≤ maxInt64) :
    (∃ next k, SectionReader.readOn r.toIoReader s len = ((s.left r, some .eof), next) ∧ k ≤ (s.limit - s.offset).toNat ∧
        r.rest next.reader = (r.rest s.reader).drop k) ∨
      ∃ bytes next, SectionReader.readOn r.toIoReader s len = ((bytes, none), next) ∧ bytes ≠ [] ∧
        next = { s with offset := s.offset + bytes.length, reader := next.reader } ∧
        r.rest s.reader = bytes ++ r.rest next.reader ∧ s.offset + bytes.length ≤ s.limit := by
  unfold SectionReader.readOn
  by_cases past : s.limit ≤ s.offset
  · refine Or.inl ⟨s, 0, ?_, Nat.zero_le _, rfl⟩
    have none : (s.limit - s.offset).toNat = 0 := by omega
    rw [if_pos past, SectionReader.left, none, List.take_zero]
  · have max : int64 (s.limit - s.offset) = s.limit - s.offset := int64_small _ (by omega) (by omega)
    obtain ⟨positive, within⟩ := clamp_positive len (s.limit - s.offset) room (by omega)
    simp only [past, if_false, max]
    generalize clamp len (s.limit - s.offset) = ask at positive within
    rcases stream_read_cases r s.reader ask positive with ⟨next, last, empty, fits⟩ | ⟨bytes, next, got, present, fits, rest⟩
    · refine Or.inl ⟨{ s with offset := int64 (s.offset + (r.rest s.reader).length), reader := next },
        (r.rest s.reader).length, ?_, by omega, by rw [empty, List.drop_length]⟩
      have all : s.left r = r.rest s.reader := List.take_of_length_le (by omega)
      simp only [last, all]
      rw [if_neg]
      intro impossible
      cases congrArg Prod.snd impossible
    · have moved : int64 (s.offset + bytes.length) = s.offset + bytes.length := int64_small _ (by omega) (by omega)
      refine Or.inr ⟨bytes, { s with offset := s.offset + bytes.length, reader := next }, ?_, present, rfl, rest, by omega⟩
      simp only [got, moved]
      rw [if_neg]
      intro nothing
      exact present (congrArg Prod.fst nothing)

theorem left_more (s : SectionReader σ) (bytes : Bytes) (next : σ) (rest : r.rest s.reader = bytes ++ r.rest next)
    (inside : s.offset + bytes.length ≤ s.limit) :
    s.left r = bytes ++ SectionReader.left r { s with offset := s.offset + bytes.length, reader := next } := by
  have fits : bytes.length ≤ (s.limit - s.offset).toNat := by omega
  have later : (s.limit - (s.offset + bytes.length)).toNat = (s.limit - s.offset).toNat - bytes.length := by omega
  rw [SectionReader.left, SectionReader.left, rest, List.take_append, List.take_of_length_le fits, later]

theorem started_yields (s : SectionReader σ) (len : Nat) (room : 0 < len) (low : 0 ≤ s.offset)
    (high : s.limit ≤ maxInt64) (started : s.offset ≠ 0 ∨ s.base = 0) :
    Yields (sectionReader r.toIoReader) len s (s.left r) := by
  induction size : (r.rest s.reader).length using Nat.strong_induction_on generalizing s with
  | _ size ih =>
      have read := read_started r s len started
      rcases read_on_cases r s len room low high with ⟨next, k, ended, _⟩ | ⟨bytes, next, got, present, moved, rest, inside⟩
      · exact .stop s next _ (read.trans ended)
      · have some_ := List.length_pos_of_ne_nil present
        have fewer : (r.rest next.reader).length < (r.rest s.reader).length := by
          rw [rest, List.length_append]
          omega
        have offset : next.offset = s.offset + bytes.length := by rw [moved]
        have limit : next.limit = s.limit := by rw [moved]
        have later := ih _ (size ▸ fewer) next (by omega) (by rw [limit]; exact high) (Or.inl (by omega)) rfl
        rw [left_more r s bytes next.reader rest inside, ← moved]
        exact .more s next bytes _ (read.trans got) present later

theorem read_fresh (s : SectionReader σ) (len : Nat) (fresh : s.offset = 0) (based : s.base ≠ 0) (low : 0 ≤ s.base) :
    ((r.rest s.reader).length < s.base.toNat ∧ ∃ next, r.rest next = [] ∧
        (sectionReader r.toIoReader).read s len = (([], some .eof), { s with reader := next })) ∨
      ∃ next, r.rest next = (r.rest s.reader).drop s.base.toNat ∧ (sectionReader r.toIoReader).read s len =
        SectionReader.readOn r.toIoReader { s with offset := s.base, reader := next } len := by
  have read : (sectionReader r.toIoReader).read s len = SectionReader.read r.toIoReader s len := rfl
  unfold SectionReader.read at read
  rw [if_pos ⟨fresh, based⟩] at read
  by_cases inside : s.base.toNat ≤ (r.rest s.reader).length
  · obtain ⟨next, copied, rest⟩ := copy_n_stream r s.base s.reader low inside
    simp only [copied, ne_eq, not_true_eq_false, if_false] at read
    exact Or.inr ⟨next, rest, read⟩
  · obtain ⟨copied, next, short, rest⟩ := copy_n_short r s.base s.reader (by omega)
    simp only [short] at read
    exact Or.inl ⟨by omega, next, rest, read⟩

theorem stream_yields (s : SectionReader σ) (len : Nat) (room : 0 < len) (fresh : s.offset = 0) (low : 0 ≤ s.base)
    (high : s.limit ≤ maxInt64) :
    Yields (sectionReader r.toIoReader) len s (((r.rest s.reader).drop s.base.toNat).take (s.limit - s.base).toNat) := by
  by_cases start : s.base = 0
  · have whole := started_yields r s len room (by omega) high (Or.inr start)
    rw [SectionReader.left, fresh] at whole
    rw [start]
    exact whole
  · rcases read_fresh r s len fresh start low with ⟨short, next, _, read⟩ | ⟨next, rest, read⟩
    · rw [List.drop_of_length_le (by omega), List.take_nil]
      exact .stop s _ [] read
    · have moved : ({ s with offset := s.base, reader := next } : SectionReader σ).offset ≠ 0 := start
      have later := started_yields r { s with offset := s.base, reader := next } len room low high (Or.inl moved)
      rw [← read_started r _ len (Or.inl moved)] at read
      rw [← rest]
      exact yields_same_read _ len s _ _ read later

end Stream

section Copied

theorem reads_of_yields {σ : Type} (source : Input) (io : IoWriter σ) (ibs obs : Int) (positive : 1 ≤ obs)
    (convert : Bytes → Bytes) (data : Bytes) (yields : Yields input ibs.toNat source data) :
    (copyFrom source io ibs obs positive convert).Reads data := by
  obtain ⟨last, before, ends, all⟩ := answers_yield input ibs.toNat source data yields
  refine ⟨last, before, ?_, all⟩
  have result : (copyFrom source io ibs obs positive convert).r last =
      ⟨(input.answers ibs.toNat source last).1, some .eof⟩ := by
    rw [← ends]
    rfl
  rw [result, readFrom, if_neg]
  rintro ⟨_, impossible⟩
  cases impossible

theorem copied_whole {σ : Type} (source : Input) (io : IoWriter σ)
    (full : ∀ w bytes, (io.write w bytes).2 = (bytes.length, none)) (ibs obs : Int) (positive : 1 ≤ obs) (data : Bytes)
    (yields : Yields input ibs.toNat source data) (w : σ) (bytesWritten : Nat) :
    (copyFrom source io ibs obs positive id).Completes w bytesWritten none data := by
  have copied := completes_full (copyFrom source io ibs obs positive id) id (fun _ => True)
    (fun bytes _ => (List.map_id bytes).symm) full w bytesWritten data (reads_of_yields source io ibs obs positive id data yields)
    (fun _ _ => trivial)
  rwa [List.map_id] at copied

theorem copied_nothing {σ : Type} (source : Input) (io : IoWriter σ)
    (full : ∀ w bytes, (io.write w bytes).2 = (bytes.length, none)) (ibs obs : Int) (positive : 1 ≤ obs) (e : IoError)
    (failed : (input.read source ibs.toNat).1 = ([], some e)) (w : σ) (bytesWritten : Nat) :
    ∃ result, (copyFrom source io ibs obs positive id).Completes w bytesWritten result [] := by
  have first : (copyFrom source io ibs obs positive id).r 0 = ⟨[], some e⟩ := by
    change ReadResult.mk (input.read source ibs.toNat).1.1 (input.read source ibs.toNat).1.2 = _
    rw [failed]
  have ends : (readFrom ((copyFrom source io ibs obs positive id).r 0)).2 = some e := by
    rw [first, readFrom, if_neg]
    rintro ⟨_, impossible⟩
    cases impossible
  have nothing : (copyFrom source io ibs obs positive id).delivered 1 = [] := by
    rw [Call.delivered, List.range_one, List.flatMap_singleton]
    exact congrArg ReadResult.bytes first
  have copied := completes_ends (copyFrom source io ibs obs positive id) id (fun _ => True)
    (fun bytes _ => (List.map_id bytes).symm) full w bytesWritten 0 e (fun i impossible => absurd impossible (Nat.not_lt_zero i))
    ends (fun _ _ => trivial)
  rw [nothing] at copied
  exact ⟨_, copied⟩

theorem stdin_yields (s : SectionReader Stream) (len : Nat) (data : Bytes)
    (yields : Yields (sectionReader stream) len s data) : Yields input len (.stdin s) data :=
  yields_embed (sectionReader stream) len input .stdin (fun _ => rfl) s data yields

theorem file_yields (s : FileSection) (len : Nat) (data : Bytes) (yields : Yields fileSection len s data) :
    Yields input len (.file s) data :=
  yields_embed fileSection len input .file (fun _ => rfl) s data yields

end Copied

section Window

def given (files : Bytes → Except IoError Bytes) (stdin : Stream) (name : Bytes) : Except IoError Bytes :=
  if name = [] then .ok stdin.rest else files name

-- The bytes at the positions p with skip * ibs ≤ p < (skip + count) * ibs.
def window (data : Bytes) (ibs skip count : Int) : Bytes :=
  (data.zipIdx.filter fun at_ => skip * ibs ≤ at_.2 ∧ (at_.2 : Int) < (skip + count) * ibs).map Prod.fst

theorem positions_between (data : Bytes) (low high : Int) (k : Nat) :
    ((data.zipIdx k).filter fun at_ => low ≤ at_.2 ∧ (at_.2 : Int) < high).map Prod.fst =
      (data.take (high - k).toNat).drop (low - k).toNat := by
  induction data generalizing k with
  | nil => simp
  | cons b rest ih =>
      have later := ih (k + 1)
      rw [List.zipIdx_cons]
      by_cases below : (k : Int) < high
      · have one : (high - k).toNat = (high - (k + 1 : Nat)).toNat + 1 := by omega
        rw [one, List.take_succ_cons]
        by_cases above : low ≤ k
        · have zero : (low - k).toNat = 0 := by omega
          have next : (low - (k + 1 : Nat)).toNat = 0 := by omega
          rw [next, List.drop_zero] at later
          rw [zero, List.drop_zero, List.filter_cons_of_pos (by simp [above, below]), List.map_cons, later]
        · have more : (low - k).toNat = (low - (k + 1 : Nat)).toNat + 1 := by omega
          rw [more, List.drop_succ_cons, List.filter_cons_of_neg (by simp [above]), later]
      · have zero : (high - k).toNat = 0 := by omega
        have next : (high - (k + 1 : Nat)).toNat = 0 := by omega
        rw [next] at later
        rw [zero, List.take_zero, List.drop_nil, List.filter_cons_of_neg (by simp [below]), later, List.take_zero,
          List.drop_nil]

theorem limit_saturates (offset n : Int) (offsetLow : 0 ≤ offset) (offsetHigh : offset ≤ maxInt64) (nLow : -2 ^ 63 ≤ n)
    (nHigh : n ≤ maxInt64) : (if int64 (offset + n) < 0 then maxInt64 else int64 (offset + n)) =
      if offset + n < 0 then maxInt64 else min (offset + n) maxInt64 := by
  unfold maxInt64 at *
  by_cases negative : offset + n < 0
  · rw [show int64 (offset + n) = offset + n from Int.bmod_eq_of_le (by omega) (by omega), if_pos negative, if_pos negative]
  rw [if_neg negative]
  by_cases fits : offset + n < 2 ^ 63
  · rw [int64_exact (by omega) fits, if_neg negative]
    omega
  · rw [if_pos (int64_negative _ (by omega) (by omega))]
    omega

section Section

variable (ibs skip count : Int)

-- The most that is to be read: the value for no limit is left alone, a product may wrap around.
def maxRead : Int := if count ≠ maxInt64 then int64 (count * ibs) else maxInt64

-- The end of the section: a negative sum is taken for an overflow on standard input only.
def sectionEnd (stdin : Bool) : Int :=
  if stdin = true ∧ int64 (skip * ibs) + maxRead ibs count < 0 then maxInt64
  else min (int64 (skip * ibs) + maxRead ibs count) maxInt64

def sectionOf (stdin : Bool) (data : Bytes) : Bytes :=
  if int64 (skip * ibs) < 0 then []
  else (data.drop (int64 (skip * ibs)).toNat).take (sectionEnd ibs skip count stdin - int64 (skip * ibs)).toNat

theorem int64_range (value : Int) : -2 ^ 63 ≤ int64 value ∧ int64 value ≤ maxInt64 := by
  have low := Int.le_bmod (x := value) (m := 2 ^ 64) (by decide)
  have high := Int.bmod_lt (x := value) (m := 2 ^ 64) (by decide)
  unfold int64 maxInt64
  omega

theorem max_read_range : -2 ^ 63 ≤ maxRead ibs count ∧ maxRead ibs count ≤ maxInt64 := by
  unfold maxRead
  split
  · exact int64_range _
  · exact ⟨by decide, Int.le_refl _⟩

theorem stream_end (low : 0 ≤ int64 (skip * ibs)) :
    (if int64 (int64 (skip * ibs) + maxRead ibs count) < 0 then maxInt64 else int64 (int64 (skip * ibs) + maxRead ibs count)) =
      sectionEnd ibs skip count true := by
  have most := max_read_range ibs count
  rw [limit_saturates _ _ low (int64_range _).2 most.1 most.2, sectionEnd]
  simp only [true_and]

theorem section_end_high (stdin : Bool) : sectionEnd ibs skip count stdin ≤ maxInt64 := by
  unfold sectionEnd
  split
  · exact Int.le_refl _
  · exact Int.min_le_right _ _

end Section

-- A source that gives these bytes and then ends, or fails before it gives any.
def Gives (len : Nat) (source : Input) (data : Bytes) : Prop :=
  Yields input len source data ∨ data = [] ∧ ∃ e, (input.read source len).1 = ([], some e)

theorem stdin_gives (ibs skip count : Int) (stdin : Stream) (len : Nat) (room : 0 < len) :
    Gives len (.stdin (newStreamSectionReader stdin (int64 (skip * ibs)) (maxRead ibs count)))
      (sectionOf ibs skip count true stdin.rest) := by
  unfold sectionOf
  by_cases negative : int64 (skip * ibs) < 0
  · refine Or.inr ⟨if_pos negative, .other (str "error skipping input bytes, short write"), ?_⟩
    obtain ⟨next, skipped⟩ := copy_n_negative streamReader stdin negative
    change (SectionReader.read stream _ len).1 = _
    rw [SectionReader.read, newStreamSectionReader, if_pos ⟨rfl, by dsimp only; omega⟩]
    change copyN stream _ stdin = _ at skipped
    simp only [skipped]
    rw [if_pos (by omega)]
  · rw [if_neg negative]
    have limit := stream_end ibs skip count (by omega)
    have yields := stream_yields streamReader (newStreamSectionReader stdin (int64 (skip * ibs)) (maxRead ibs count)) len room
      rfl (Int.not_lt.mp negative)
      (by rw [newStreamSectionReader]; simp only [limit]; exact section_end_high ibs skip count true)
    refine Or.inl (stdin_yields _ _ _ ?_)
    simpa only [newStreamSectionReader, limit, streamReader] using yields

theorem file_gives (ibs skip count : Int) (data : Bytes) (len : Nat) (room : 0 < len) :
    Gives len (.file (newSectionReader data (int64 (skip * ibs)) (maxRead ibs count))) (sectionOf ibs skip count false data) := by
  unfold sectionOf
  by_cases negative : int64 (skip * ibs) < 0
  · refine Or.inr ⟨if_pos negative, ?_⟩
    change ∃ e, (fileSection.read _ len).1 = ([], some e)
    simp only [fileSection]
    split
    · exact ⟨_, rfl⟩
    · refine ⟨.other (str "negative offset"), ?_⟩
      simp only [fileReadAt]
      rw [if_pos (by rw [newSectionReader]; exact negative)]
  · have limit : (newSectionReader data (int64 (skip * ibs)) (maxRead ibs count)).limit = sectionEnd ibs skip count false := by
      rw [newSectionReader, sectionEnd, if_neg (fun both => Bool.false_ne_true both.1)]
    rw [if_neg negative, ← limit]
    exact Or.inl (file_yields _ _ _ (section_yields _ len room (Int.not_lt.mp negative)))

theorem section_copied {σ : Type} {files : Bytes → Except IoError Bytes} {stdin : Stream} {name data : Bytes}
    (opened : given files stdin name = .ok data) (ibs skip count obs : Int) (ibsPositive : 1 ≤ ibs) (obsPositive : 1 ≤ obs)
    (io : IoWriter σ) (full : ∀ w bytes, (io.write w bytes).2 = (bytes.length, none)) (w : σ) (bytesWritten : Nat) :
    ∃ source result, inFile files stdin name ibs skip count = .ok source ∧
      (copyFrom source io ibs obs obsPositive id).Completes w bytesWritten result
        (sectionOf ibs skip count (name.isEmpty) data) := by
  have found : ∃ source, inFile files stdin name ibs skip count = .ok source ∧
      Gives ibs.toNat source (sectionOf ibs skip count name.isEmpty data) := by
    unfold inFile
    rw [← maxRead, Int.mul_comm ibs skip]
    dsimp only
    by_cases named : name = []
    · rw [given, if_pos named] at opened
      cases opened
      rw [if_pos named, named, List.isEmpty_nil]
      exact ⟨_, rfl, stdin_gives ibs skip count stdin ibs.toNat (by omega)⟩
    · rw [given, if_neg named] at opened
      rw [if_neg named, opened, List.isEmpty_eq_false_iff.mpr named]
      exact ⟨_, rfl, file_gives ibs skip count data ibs.toNat (by omega)⟩
  obtain ⟨source, made, yields | ⟨nothing, e, failed⟩⟩ := found
  · exact ⟨source, none, made, copied_whole source io full ibs obs obsPositive _ yields w bytesWritten⟩
  · obtain ⟨result, copied⟩ := copied_nothing source io full ibs obs obsPositive e failed w bytesWritten
    rw [nothing]
    exact ⟨source, result, made, copied⟩

-- Where the section is the window, for an input of this length. If the skipped part fits an int64 the section begins
-- where it should, and only a wrapped product of count can end it too early; otherwise the window is behind the end of
-- the input, and so must be the section, or empty.
def WindowRight (stdin : Bool) (len : Nat) (ibs skip count : Int) : Prop :=
  if skip * ibs ≤ maxInt64 then
    len ≤ skip * ibs ∨ count = maxInt64 ∨ count * ibs ≤ maxInt64 ∨ len ≤ skip * ibs + int64 (count * ibs) ∨
      stdin = true ∧ skip * ibs + int64 (count * ibs) < 0
  else
    int64 (skip * ibs) < 0 ∨ len ≤ int64 (skip * ibs) ∨
      maxRead ibs count ≤ 0 ∧ ¬ (stdin = true ∧ int64 (skip * ibs) + maxRead ibs count < 0)

theorem window_take (data : Bytes) (ibs skip count : Int) (low : 0 ≤ skip * ibs) :
    window data ibs skip count = (data.drop (skip * ibs).toNat).take (count * ibs).toNat := by
  have between := positions_between data (skip * ibs) ((skip + count) * ibs) 0
  rw [window, between, List.drop_take]
  simp only [Int.natCast_zero, Int.sub_zero]
  rw [Int.add_mul]
  congr 1
  omega

theorem same_front_iff (t : Bytes) (a b : Nat) : t.take a = t.take b ↔ a = b ∨ t.length ≤ a ∧ t.length ≤ b := by
  rw [List.take_eq_take_iff]
  omega

theorem section_reaches (stdin : Bool) (off n : Int) (len : Nat) (offLow : 0 ≤ off) (offHigh : off ≤ maxInt64)
    (small : len < 2 ^ 63) :
    len - off.toNat ≤ ((if stdin = true ∧ off + n < 0 then maxInt64 else min (off + n) maxInt64) - off).toNat ↔
      len ≤ off ∨ len ≤ off + n ∨ stdin = true ∧ off + n < 0 := by
  unfold maxInt64 at *
  by_cases wrapped : stdin = true ∧ off + n < 0
  · rw [if_pos wrapped]
    exact iff_of_true (by omega) (Or.inr (Or.inr wrapped))
  · rw [if_neg wrapped]
    simp only [wrapped, or_false]
    rcases Int.le_total (off + n) (2 ^ 63 - 1) with low | high
    · rw [Int.min_eq_left low]
      omega
    · rw [Int.min_eq_right high]
      omega

theorem fitting_section_iff (stdin : Bool) (data : Bytes) (small : data.length < 2 ^ 63) (ibs skip count : Int)
    (ibsPositive : 1 ≤ ibs) (low : 0 ≤ skip * ibs) (countLow : 0 ≤ count) (fits : skip * ibs ≤ maxInt64) :
    sectionOf ibs skip count stdin data = window data ibs skip count ↔
      data.length ≤ skip * ibs ∨ count = maxInt64 ∨ count * ibs ≤ maxInt64 ∨ data.length ≤ skip * ibs + int64 (count * ibs) ∨
        stdin = true ∧ skip * ibs + int64 (count * ibs) < 0 := by
  have product : 0 ≤ count * ibs := Int.mul_nonneg countLow (by omega)
  have reaches := section_reaches stdin (skip * ibs) (maxRead ibs count) data.length low fits small
  have most := section_end_high ibs skip count stdin
  rw [window_take data ibs skip count low, sectionOf, int64_small _ low fits, if_neg (by omega), same_front_iff, List.length_drop]
  rw [sectionEnd, int64_small _ low fits] at most ⊢
  rw [reaches]
  by_cases unlimited : count = maxInt64
  · have grows : maxInt64 * 1 ≤ maxInt64 * ibs := Int.mul_le_mul_of_nonneg_left ibsPositive (by decide)
    have all : maxRead ibs count = maxInt64 := if_neg (not_not_intro unlimited)
    refine iff_of_true (Or.inr ?_) (Or.inr (Or.inl unlimited))
    rw [all, unlimited]
    unfold maxInt64 at *
    exact ⟨Or.inr (Or.inl (by omega)), by omega⟩
  have bounded : maxRead ibs count = int64 (count * ibs) := if_pos unlimited
  rw [bounded] at most ⊢
  by_cases exact_ : count * ibs ≤ maxInt64
  · refine iff_of_true ?_ (Or.inr (Or.inr (Or.inl exact_)))
    rw [int64_small _ product exact_, if_neg (fun both => by omega)]
    rcases Int.le_total (skip * ibs + count * ibs) maxInt64 with inside | past
    · rw [Int.min_eq_left inside]
      exact Or.inl (by omega)
    · unfold maxInt64 at past
      exact Or.inr ⟨Or.inr (Or.inl (by omega)), by omega⟩
  · -- The window goes on to the end of the input and is longer than any section.
    have longer : (if stdin = true ∧ skip * ibs + int64 (count * ibs) < 0 then maxInt64
        else min (skip * ibs + int64 (count * ibs)) maxInt64) - skip * ibs < count * ibs := by omega
    have rest : data.length - (skip * ibs).toNat ≤ (count * ibs).toNat := by
      unfold maxInt64 at exact_
      omega
    simp only [unlimited, exact_, rest, false_or, and_true, or_iff_right_iff_imp]
    intro same
    omega

theorem wrapped_section_iff (stdin : Bool) (data : Bytes) (small : data.length < 2 ^ 63) (ibs skip count : Int)
    (wraps : maxInt64 < skip * ibs) :
    sectionOf ibs skip count stdin data = window data ibs skip count ↔ int64 (skip * ibs) < 0 ∨ data.length ≤ int64 (skip * ibs) ∨
      maxRead ibs count ≤ 0 ∧ ¬ (stdin = true ∧ int64 (skip * ibs) + maxRead ibs count < 0) := by
  have offset := (int64_range (skip * ibs)).2
  unfold maxInt64 at wraps
  rw [window_take data ibs skip count (by omega), List.drop_of_length_le (by omega), List.take_nil, sectionOf, sectionEnd]
  generalize int64 (skip * ibs) = off at *
  generalize maxRead ibs count = n
  unfold maxInt64 at *
  by_cases negative : off < 0
  · rw [if_pos negative]
    exact iff_of_true rfl (Or.inl negative)
  rw [if_neg negative, List.take_eq_nil_iff, List.drop_eq_nil_iff]
  by_cases wrapped : stdin = true ∧ off + n < 0
  · rw [if_pos wrapped]
    simp only [not_not_intro wrapped, and_false, or_false]
    omega
  · rw [if_neg wrapped]
    simp only [wrapped, not_false_eq_true, and_true]
    rcases Int.le_total (off + n) (2 ^ 63 - 1) with low | high
    · rw [Int.min_eq_left low]
      omega
    · rw [Int.min_eq_right high]
      omega

theorem window_section_iff (stdin : Bool) (data : Bytes) (small : data.length < 2 ^ 63) (ibs skip count : Int)
    (ibsPositive : 1 ≤ ibs) (skipLow : 0 ≤ skip) (countLow : 0 ≤ count) :
    sectionOf ibs skip count stdin data = window data ibs skip count ↔ WindowRight stdin data.length ibs skip count := by
  have low : 0 ≤ skip * ibs := Int.mul_nonneg skipLow (by omega)
  unfold WindowRight
  by_cases fits : skip * ibs ≤ maxInt64
  · rw [if_pos fits]
    exact fitting_section_iff stdin data small ibs skip count ibsPositive low countLow fits
  · rw [if_neg fits]
    exact wrapped_section_iff stdin data small ibs skip count (by omega)

theorem window_copied_iff {σ : Type} (files : Bytes → Except IoError Bytes) (stdin : Stream) (name data : Bytes)
    (opened : given files stdin name = .ok data) (small : data.length < 2 ^ 63) (ibs skip count obs : Int)
    (ibsPositive : 1 ≤ ibs) (skipLow : 0 ≤ skip) (countLow : 0 ≤ count) (obsPositive : 1 ≤ obs) (io : IoWriter σ)
    (full : ∀ w bytes, (io.write w bytes).2 = (bytes.length, none)) (w : σ) (bytesWritten : Nat) :
    (∃ source result, inFile files stdin name ibs skip count = .ok source ∧
        (copyFrom source io ibs obs obsPositive id).Completes w bytesWritten result (window data ibs skip count)) ↔
      WindowRight name.isEmpty data.length ibs skip count := by
  obtain ⟨source, result, made, copied⟩ := section_copied opened ibs skip count obs ibsPositive
    obsPositive io full w bytesWritten
  rw [← window_section_iff name.isEmpty data small ibs skip count ibsPositive skipLow countLow]
  constructor
  · rintro ⟨other, error, same, wanted⟩
    cases made.symm.trans same
    exact completes_same copied wanted
  · intro same
    rw [same] at copied
    exact ⟨source, result, made, copied⟩

def typed (data : Bytes) : Stream := ⟨data, 0, fun _ => 0⟩

def oneFile (data : Bytes) (_ : Bytes) : Except IoError Bytes := .ok data

theorem second_block_copied :
    ∃ source result, inFile (oneFile []) (typed [1, 2, 3, 4, 5]) [] 2 1 1 = .ok source ∧
      (copyFrom source bytesBuffer 2 3 (by decide) id).Completes [] 0 result [3, 4] :=
  (window_copied_iff (oneFile []) (typed [1, 2, 3, 4, 5]) [] [1, 2, 3, 4, 5] rfl (by decide) 2 1 1 3 (by decide) (by decide)
    (by decide) (by decide) bytesBuffer (fun _ _ => rfl) [] 0).mpr (by unfold WindowRight; decide)

-- 2^62 blocks of four bytes are 2^64 bytes, which is no byte at all in an int64; and
-- skipping 2^32 blocks of 2^32 bytes skips nothing.
theorem window_overflows :
    (∃ source, inFile (oneFile []) (typed [1]) [] 4 0 (2 ^ 62) = .ok source ∧
      (copyFrom source bytesBuffer 4 1 (by decide) id).Completes [] 0 none [] ∧ window [1] 4 0 (2 ^ 62) = [1]) ∧
    ∃ source, inFile (oneFile [7]) (typed []) (str "f") (2 ^ 32) (2 ^ 32) maxInt64 = .ok source ∧
      (copyFrom source bytesBuffer (2 ^ 32) 1 (by decide) id).Completes [] 0 none [7] ∧
      window [7] (2 ^ 32) (2 ^ 32) maxInt64 = [] := by
  refine ⟨⟨_, rfl, ?_, by decide⟩, _, rfl, ?_, by decide⟩
  · have yields := stream_yields streamReader (newStreamSectionReader (typed [1]) (int64 (4 * 0)) (int64 (2 ^ 62 * 4))) 4 (by decide) rfl
      (by decide) (by decide)
    exact copied_whole _ bytesBuffer (fun _ _ => rfl) 4 1 (by decide) [] (stdin_yields _ _ _ yields) [] 0
  · have yields := section_yields (newSectionReader [7] (int64 (2 ^ 32 * 2 ^ 32)) maxInt64) (2 ^ 32 : Int).toNat (by decide)
      (by decide)
    exact copied_whole _ bytesBuffer (fun _ _ => rfl) (2 ^ 32) 1 (by decide) [7] (file_yields _ _ _ yields) [] 0

end Window

end URoot.Dd
