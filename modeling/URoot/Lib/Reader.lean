import URoot.Lib.Device

set_option autoImplicit false

namespace GoLib

-- io.Reader. A read never returns more than its buffer takes, and with room in
-- the buffer it returns bytes or an error.
structure IoReader (σ : Type) where
  read : σ → Nat → (Bytes × Option IoError) × σ
  fits : ∀ s len, (read s len).1.1.length ≤ len
  progress : ∀ s len, 0 < len → (read s len).1 ≠ ([], none)

section Yields

variable {σ τ : Type} (r : IoReader σ) (len : Nat)

inductive Yields : σ → Bytes → Prop where
  | stop (s next : σ) (bytes : Bytes) (ended : r.read s len = ((bytes, some .eof), next)) : Yields s bytes
  | more (s next : σ) (bytes rest : Bytes) (got : r.read s len = ((bytes, none), next)) (present : bytes ≠ [])
      (later : Yields next rest) : Yields s (bytes ++ rest)

def IoReader.states (s : σ) : Nat → σ
  | 0 => s
  | n + 1 => (r.read (states s n) len).2

def IoReader.answers (s : σ) (i : Nat) : Bytes × Option IoError := (r.read (r.states len s i) len).1

def IoReader.readEach : List Nat → σ → (Bytes × Option IoError) × σ
  | [], s => (([], none), s)
  | len :: lens, s =>
      match r.read s len with
      | ((bytes, some e), next) => ((bytes, some e), next)
      | ((bytes, none), next) =>
          let later := IoReader.readEach lens next
          ((bytes ++ later.1.1, later.1.2), later.2)

theorem states_shift (s : σ) (n : Nat) : r.states len (r.read s len).2 n = r.states len s (n + 1) := by
  induction n with
  | zero => rfl
  | succ n ih =>
      rw [IoReader.states, ih]
      rfl

theorem answers_shift (s : σ) (i : Nat) : r.answers len (r.read s len).2 i = r.answers len s (i + 1) := by
  rw [IoReader.answers, states_shift, IoReader.answers]

theorem answers_yield (s : σ) (content : Bytes) (yields : Yields r len s content) :
    ∃ last, (∀ i, i < last → (r.answers len s i).1 ≠ [] ∧ (r.answers len s i).2 = none) ∧
      (r.answers len s last).2 = some .eof ∧ ((List.range (last + 1)).flatMap fun i => (r.answers len s i).1) = content := by
  induction yields with
  | stop s next bytes ended =>
      have first : r.answers len s 0 = (bytes, some .eof) := congrArg Prod.fst ended
      refine ⟨0, fun i impossible => absurd impossible (Nat.not_lt_zero i), by rw [first], ?_⟩
      rw [List.range_one, List.flatMap_singleton, first]
  | more s next bytes rest got present later ih =>
      obtain ⟨last, before, ends, all⟩ := ih
      have first : r.answers len s 0 = (bytes, none) := congrArg Prod.fst got
      have shift : ∀ i, r.answers len next i = r.answers len s (i + 1) := by
        intro i
        rw [← answers_shift, got]
      refine ⟨last + 1, ?_, by rw [← shift, ends], ?_⟩
      · intro i early
        cases i with
        | zero =>
            rw [first]
            exact ⟨present, rfl⟩
        | succ i =>
            rw [← shift]
            exact before i (by omega)
      · rw [List.range_succ_eq_map, List.flatMap_cons, first, List.flatMap_map, ← all]
        simp only [Nat.succ_eq_add_one, shift]

theorem yields_same_read (s other : σ) (content : Bytes) (same : r.read s len = r.read other len)
    (yields : Yields r len other content) : Yields r len s content := by
  cases yields with
  | stop _ next _ ended => exact .stop s next content (same.trans ended)
  | more _ next bytes rest got present later => exact .more s next bytes rest (same.trans got) present later

theorem yields_embed (wide : IoReader τ) (embed : σ → τ)
    (same : ∀ s, wide.read (embed s) len = ((r.read s len).1, embed (r.read s len).2)) (s : σ) (content : Bytes)
    (yields : Yields r len s content) : Yields wide len (embed s) content := by
  induction yields with
  | stop s next bytes ended => exact .stop _ (embed next) bytes (by rw [same, ended])
  | more s next bytes rest got present later ih => exact .more _ (embed next) bytes rest (by rw [same, got]) present ih

end Yields

section Discard

variable {σ : Type} (r : IoReader σ)

def discardSize : Nat := 8192

-- ioutil.Discard reading from a reader that is limited to left more bytes.
def discard (left : Nat) (s : σ) : (Nat × Option IoError) × σ :=
  if _done : left = 0 then ((0, none), s)
  else
    match _here : r.read s (min discardSize left) with
    | ((bytes, none), next) =>
        let later := discard (left - bytes.length) next
        ((bytes.length + later.1.1, later.1.2), later.2)
    | ((bytes, some e), next) => ((bytes.length, if e = .eof then none else some e), next)
termination_by left
decreasing_by
  have room : 0 < min discardSize left := by
    have size : 0 < discardSize := by decide
    omega
  have some_ : bytes ≠ [] := by
    intro empty
    exact r.progress s _ room (by rw [_here, empty])
  have length := List.length_pos_of_ne_nil some_
  omega

-- io.CopyN(ioutil.Discard, r, n)
def copyN (n : Int) (s : σ) : (Int × Option IoError) × σ :=
  let copied := discard r n.toNat s
  if (copied.1.1 : Int) = n then ((n, none), copied.2)
  else if (copied.1.1 : Int) < n ∧ copied.1.2 = none then ((copied.1.1, some .eof), copied.2)
  else ((copied.1.1, copied.1.2), copied.2)

end Discard

section Content

-- The reader of a byte stream: rest is what it has not read yet. Its only error is the
-- end of file, which may come with the last bytes or after them.
structure StreamReader (σ : Type) extends IoReader σ where
  rest : σ → Bytes
  reads : ∀ s len, rest s = (read s len).1.1 ++ rest (read s len).2
  ends : ∀ s len e, (read s len).1.2 = some e → e = .eof ∧ rest (read s len).2 = []

variable {σ : Type} (r : StreamReader σ)

theorem stream_read_cases (s : σ) (len : Nat) (room : 0 < len) :
    (∃ next, r.read s len = ((r.rest s, some .eof), next) ∧ r.rest next = [] ∧ (r.rest s).length ≤ len) ∨
      ∃ bytes next, r.read s len = ((bytes, none), next) ∧ bytes ≠ [] ∧ bytes.length ≤ len ∧
        r.rest s = bytes ++ r.rest next := by
  have fits := r.fits s len
  have reads := r.reads s len
  have progress := r.progress s len room
  have ends := r.ends s len
  generalize r.read s len = got at fits reads progress ends
  obtain ⟨⟨bytes, err⟩, next⟩ := got
  cases err with
  | some e =>
      obtain ⟨rfl, done⟩ := ends e rfl
      have all : r.rest s = bytes := by simpa [done] using reads
      subst all
      exact Or.inl ⟨next, rfl, done, fits⟩
  | none => exact Or.inr ⟨bytes, next, rfl, fun empty => progress (by rw [empty]), fits, reads⟩

theorem discard_stream (left : Nat) (s : σ) :
    ∃ next, discard r.toIoReader left s = ((min left (r.rest s).length, none), next) ∧
      r.rest next = (r.rest s).drop left := by
  induction left using Nat.strong_induction_on generalizing s with
  | _ left ih =>
      rw [discard]
      by_cases done : left = 0
      · rw [dif_pos done, done]
        exact ⟨s, by rw [Nat.zero_min], rfl⟩
      · have size : 0 < discardSize := by decide
        rw [dif_neg done]
        rcases stream_read_cases r s (min discardSize left) (by omega) with
          ⟨next, last, empty, fits⟩ | ⟨bytes, next, got, present, fits, rest⟩
        · refine ⟨next, ?_, by rw [empty, List.drop_of_length_le (by omega)]⟩
          split
          · rename_i read
            cases last.symm.trans read
          · rename_i read
            cases last.symm.trans read
            rw [if_pos rfl, Nat.min_eq_right (by omega)]
        · have some_ := List.length_pos_of_ne_nil present
          obtain ⟨final, later, dropped⟩ := ih (left - bytes.length) (by omega) next
          refine ⟨final, ?_, ?_⟩
          · split
            · rename_i read
              cases got.symm.trans read
              simp only [later, rest, List.length_append]
              congr 2
              omega
            · rename_i read
              cases got.symm.trans read
          · have all : bytes.drop left = [] := List.drop_of_length_le (by omega)
            rw [dropped, rest, List.drop_append, all, List.nil_append]

theorem copy_n_stream (n : Int) (s : σ) (low : 0 ≤ n) (inside : n.toNat ≤ (r.rest s).length) :
    ∃ next, copyN r.toIoReader n s = ((n, none), next) ∧ r.rest next = (r.rest s).drop n.toNat := by
  obtain ⟨next, copied, rest⟩ := discard_stream r n.toNat s
  refine ⟨next, ?_, rest⟩
  rw [copyN, copied]
  simp only [Nat.min_eq_left inside, Int.toNat_of_nonneg low, if_true]

-- The limited reader is at its end at once, and nothing is more than a negative number.
theorem copy_n_negative {n : Int} (s : σ) (negative : n < 0) : ∃ next, copyN r.toIoReader n s = ((0, none), next) := by
  obtain ⟨next, copied, rest⟩ := discard_stream r n.toNat s
  have none : n.toNat = 0 := by omega
  rw [none, Nat.zero_min] at copied
  refine ⟨next, ?_⟩
  rw [copyN, none, copied]
  simp only [Int.natCast_zero]
  rw [if_neg (by omega), if_neg (by omega)]

theorem copy_n_short (n : Int) (s : σ) (short : (r.rest s).length < n.toNat) :
    ∃ copied next, copyN r.toIoReader n s = ((copied, some .eof), next) ∧ r.rest next = [] := by
  obtain ⟨next, copied, rest⟩ := discard_stream r n.toNat s
  refine ⟨(r.rest s).length, next, ?_, by rw [rest, List.drop_of_length_le (Nat.le_of_lt short)]⟩
  have less : ((r.rest s).length : Int) < n := by omega
  rw [copyN, copied]
  simp only [Nat.min_eq_right (Nat.le_of_lt short), less, Int.ne_of_lt less, and_self, if_false, if_true]

end Content

section Streams

-- Input that arrives in pieces. At read number i, ready i is how many bytes more than one are there.
structure Stream where
  rest : Bytes
  calls : Nat
  ready : Nat → Nat

def stream : IoReader Stream where
  read s len :=
    if len = 0 then (([], none), s)
    else if s.rest = [] then (([], some .eof), { s with calls := s.calls + 1 })
    else
      let n := min len (s.ready s.calls + 1)
      ((s.rest.take n, none), { s with rest := s.rest.drop n, calls := s.calls + 1 })
  fits s len := by
    split
    · exact Nat.zero_le _
    · split
      · exact Nat.zero_le _
      · rw [List.length_take]
        omega
  progress s len room := by
    rw [if_neg (by omega)]
    split
    · intro impossible
      cases impossible
    · rename_i present
      intro same
      have empty := congrArg Prod.fst same
      rw [List.take_eq_nil_iff] at empty
      rcases empty with zero | none
      · omega
      · exact present none

theorem stream_reads (s : Stream) (len : Nat) : s.rest = (stream.read s len).1.1 ++ (stream.read s len).2.rest := by
  dsimp only [stream]
  split
  · rfl
  · split
    · rfl
    · exact (List.take_append_drop _ _).symm

theorem stream_ends (s : Stream) (len : Nat) (e : IoError) :
    (stream.read s len).1.2 = some e → e = .eof ∧ (stream.read s len).2.rest = [] := by
  dsimp only [stream]
  split
  · intro impossible
    cases impossible
  · split
    · rename_i empty
      intro ended
      cases ended
      exact ⟨rfl, empty⟩
    · intro impossible
      cases impossible

def streamReader : StreamReader Stream where
  toIoReader := stream
  rest := Stream.rest
  reads := stream_reads
  ends := stream_ends

end Streams

section Sections

-- p = p[0:max] for a buffer that is longer than max.
def clamp (len : Nat) (max : Int) : Nat := if (len : Int) > max then max.toNat else len

theorem clamp_le (len : Nat) (max : Int) : clamp len max ≤ len := by
  unfold clamp
  split <;> omega

theorem clamp_positive (len : Nat) (max : Int) (room : 0 < len) (positive : 0 < max) :
    0 < clamp len max ∧ clamp len max ≤ max.toNat := by
  unfold clamp
  split <;> omega

structure FileSection where
  data : Bytes
  off : Int
  limit : Int
deriving DecidableEq, Repr

def newSectionReader (data : Bytes) (off n : Int) : FileSection := ⟨data, off, min (off + n) maxInt64⟩

-- os.File.ReadAt
def fileReadAt (data : Bytes) (len : Nat) (off : Int) : Bytes × Option IoError :=
  if off < 0 then ([], some (.other (str "negative offset")))
  else if len = 0 then ([], none)
  else readAt data len off.toNat

theorem file_read_at_fits (data : Bytes) (len : Nat) (off : Int) : (fileReadAt data len off).1.length ≤ len := by
  have cut : ((data.drop off.toNat).take len).length ≤ len := by
    rw [List.length_take]
    omega
  unfold fileReadAt readAt
  split
  · exact Nat.zero_le _
  · split
    · exact Nat.zero_le _
    · split
      · exact Nat.zero_le _
      · split
        · exact cut
        · exact cut

theorem file_read_at_progress (data : Bytes) (len : Nat) (off : Int) (room : 0 < len) :
    fileReadAt data len off ≠ ([], none) := by
  intro nothing
  unfold fileReadAt at nothing
  split at nothing
  · cases nothing
  · rw [if_neg (by omega)] at nothing
    have full := (read_at_none_inv nothing).2.2
    rw [List.length_nil] at full
    omega

def fileSection : IoReader FileSection where
  read s len :=
    if s.limit ≤ s.off then (([], some .eof), s)
    else
      let got := fileReadAt s.data (clamp len (s.limit - s.off)) s.off
      (got, { s with off := s.off + got.1.length })
  fits s len := by
    split
    · exact Nat.zero_le _
    · exact Nat.le_trans (file_read_at_fits s.data _ s.off) (clamp_le len _)
  progress s len room := by
    split
    · intro impossible
      cases impossible
    · exact file_read_at_progress s.data _ s.off (clamp_positive len _ room (by omega)).1

theorem section_yields (s : FileSection) (len : Nat) (room : 0 < len) (low : 0 ≤ s.off) :
    Yields fileSection len s ((s.data.drop s.off.toNat).take (s.limit - s.off).toNat) := by
  induction size : s.data.length - s.off.toNat using Nat.strong_induction_on generalizing s with
  | _ size ih =>
      by_cases past : s.limit ≤ s.off
      · have none : (s.limit - s.off).toNat = 0 := by omega
        rw [none, List.take_zero]
        refine .stop s s [] ?_
        simp only [fileSection, past, if_true]
      · obtain ⟨positive, within⟩ := clamp_positive len (s.limit - s.off) room (by omega)
        generalize asked : clamp len (s.limit - s.off) = ask at positive within
        have read : fileSection.read s len =
            (readAt s.data ask s.off.toNat, { s with off := s.off + (readAt s.data ask s.off.toNat).1.length }) := by
          simp only [fileSection, past, if_false, fileReadAt, asked, show ¬ s.off < 0 by omega, show ¬ ask = 0 by omega]
        have left : (s.data.drop s.off.toNat).length = s.data.length - s.off.toNat := List.length_drop
        unfold readAt at read
        by_cases over_ : s.data.length ≤ s.off.toNat
        · rw [if_pos over_] at read
          rw [List.drop_of_length_le over_, List.take_nil]
          exact .stop s _ [] read
        · rw [if_neg over_] at read
          by_cases short : ((s.data.drop s.off.toNat).take ask).length < ask
          · -- The file ends inside the section: these bytes come together with the end of file.
            rw [if_pos short] at read
            rw [List.length_take] at short
            rw [List.take_of_length_le (by omega)] at read ⊢
            exact .stop s _ _ read
          · rw [if_neg short] at read
            rw [List.length_take] at short
            have length : ((s.data.drop s.off.toNat).take ask).length = ask := by
              rw [List.length_take]
              omega
            have later := ih (s.data.length - (s.off + ask).toNat) (by omega) { s with off := s.off + ask }
              (by simp only; omega) rfl
            rw [length] at read
            have joined := Yields.more s _ _ _ read (List.ne_nil_of_length_pos (by omega)) later
            have start : (s.off + ask).toNat = s.off.toNat + ask := by omega
            have rest : (s.limit - (s.off + ask)).toNat = (s.limit - s.off).toNat - ask := by omega
            simp only [start, rest, ← List.drop_drop] at joined
            rwa [← List.take_add, Nat.add_sub_cancel' within] at joined

end Sections

end GoLib
