import URoot.Lib.Reader

set_option autoImplicit false

namespace GoLib

section Limit

variable {σ : Type}

-- io.LimitedReader
structure Limited (σ : Type) where
  r : σ
  n : Nat

def limitReader (r : IoReader σ) : IoReader (Limited σ) where
  read s len :=
    if s.n = 0 then (([], some .eof), s)
    else
      let got := r.read s.r (min len s.n)
      (got.1, ⟨got.2, s.n - got.1.1.length⟩)
  fits s len := by
    split
    · exact Nat.zero_le _
    · exact Nat.le_trans (r.fits _ _) (Nat.min_le_left _ _)
  progress s len room := by
    split
    · intro impossible
      cases impossible
    · exact r.progress _ _ (by omega)

theorem limit_reached (r : IoReader σ) (s : σ) (len : Nat) :
    (limitReader r).read ⟨s, 0⟩ len = (([], some .eof), ⟨s, 0⟩) := rfl

theorem limit_inside (r : IoReader σ) (s : σ) (n len : Nat) (positive : 0 < n) :
    (limitReader r).read ⟨s, n⟩ len =
      ((r.read s (min len n)).1, ⟨(r.read s (min len n)).2, n - (r.read s (min len n)).1.1.length⟩) := by
  simp only [limitReader]
  rw [if_neg (by omega)]

theorem limit_lowered {r : IoReader σ} {s next : Limited σ} {len : Nat} {bytes : Bytes} {err : Option IoError}
    (got : (limitReader r).read s len = ((bytes, err), next)) (present : bytes ≠ []) : next.n < s.n := by
  have length := List.length_pos_of_ne_nil present
  by_cases done : s.n = 0
  · simp only [limitReader, done, if_true] at got
    cases got
    exact absurd rfl present
  · simp only [limitReader, done, if_false, Prod.mk.injEq] at got
    obtain ⟨first, rfl⟩ := got
    rw [first]
    dsimp only
    omega

end Limit

section Seek

-- io.ReadSeeker of a fixed image. Reads may be short, and the end of file may
-- come with the last bytes or behind them.
structure ReadSeeker (image : Bytes) (σ : Type) extends IoReader σ where
  seek : σ → Nat → σ
  ahead : σ → Bytes
  seeks : ∀ s off, ahead (seek s off) = image.drop off
  reads : ∀ s len, (read s len).1.1 ++ ahead (read s len).2 = ahead s
  ends : ∀ s len e, (read s len).1.2 = some e → e = .eof ∧ ahead (read s len).2 = []

def bytesRead (image : Bytes) (s len : Nat) : (Bytes × Option IoError) × Nat :=
  if len = 0 then (([], none), s)
  else if image.length ≤ s then (([], some .eof), s)
  else (((image.drop s).take len, none), s + ((image.drop s).take len).length)

section BytesRead

variable (image : Bytes) (s len : Nat)

theorem bytes_read_fits : (bytesRead image s len).1.1.length ≤ len := by
  rw [bytesRead]
  split
  · exact Nat.zero_le _
  split
  · exact Nat.zero_le _
  · exact List.length_take_le _ _

theorem bytes_read_progress (room : 0 < len) : (bytesRead image s len).1 ≠ ([], none) := by
  rw [bytesRead, if_neg (by omega)]
  split
  · intro impossible
    cases impossible
  · rename_i inside
    intro same
    have length := congrArg (fun got => got.1.length) same
    simp only [List.length_take, List.length_drop, List.length_nil] at length
    omega

theorem bytes_read_reads :
    (bytesRead image s len).1.1 ++ image.drop (bytesRead image s len).2 = image.drop s := by
  rw [bytesRead]
  split
  · rfl
  split
  · rfl
  · dsimp only
    rw [← List.drop_drop, List.length_take]
    by_cases whole : len ≤ (image.drop s).length
    · rw [Nat.min_eq_left whole, List.take_append_drop]
    · have short : (image.drop s).length ≤ len := by omega
      rw [Nat.min_eq_right short, List.take_of_length_le short, List.drop_length, List.append_nil]

theorem bytes_read_ends (e : IoError) : (bytesRead image s len).1.2 = some e →
    e = .eof ∧ image.drop (bytesRead image s len).2 = [] := by
  rw [bytesRead]
  split
  · intro impossible
    cases impossible
  split
  · rename_i past
    intro ended
    cases ended
    exact ⟨rfl, List.drop_of_length_le past⟩
  · intro impossible
    cases impossible

end BytesRead

def bytesReader (image : Bytes) : ReadSeeker image Nat where
  read := bytesRead image
  fits := bytes_read_fits image
  progress := bytes_read_progress image
  seek _ off := off
  ahead s := image.drop s
  seeks _ _ := rfl
  reads := bytes_read_reads image
  ends := bytes_read_ends image

end Seek

section Bufio

variable {σ τ : Type} (r : IoReader σ)

def bufferSize : Nat := 4096

-- (*bufio.Reader).fill for an empty buffer, with the number of reads that may bring nothing.
def fill : Nat → σ → (Bytes × Option IoError) × σ
  | 0, s => (([], some (.other (str "multiple Read calls return no data or error"))), s)
  | attempts + 1, s =>
      let got := r.read s bufferSize
      if got.1 = ([], none) then fill attempts got.2 else got

theorem fill_once (attempts : Nat) (s : σ) : fill r (attempts + 1) s = r.read s bufferSize := by
  rw [fill, if_neg (r.progress s bufferSize (by decide))]

-- The loop of (*bufio.Reader).WriteTo: an error that comes with bytes is not
-- looked at, the next fill says what holds.
def drain (write : τ → Bytes → τ) (s : Limited σ) (w : τ) : Option IoError × Limited σ × τ :=
  match _got : fill (limitReader r) 100 s with
  | ((bytes, err), next) =>
      if _none : bytes = [] then (if err = some .eof then none else err, next, w)
      else drain write next (write w bytes)
termination_by s.n
decreasing_by exact limit_lowered (by rw [← fill_once, _got]) _none

def writeTo (write : τ → Bytes → τ) (s : Limited σ) (w : τ) : Option IoError × Limited σ × τ :=
  drain r write s (write w [])

theorem drain_stop (write : τ → Bytes → τ) (s next : Limited σ) (w : τ)
    (ended : (limitReader r).read s bufferSize = (([], some .eof), next)) : drain r write s w = (none, next, w) := by
  rw [drain]
  split
  rename_i bytes err last got
  rw [fill_once, ended] at got
  cases got
  rfl

theorem drain_more (write : τ → Bytes → τ) (s next : Limited σ) (w : τ) (bytes : Bytes) (err : Option IoError)
    (read : (limitReader r).read s bufferSize = ((bytes, err), next)) (present : bytes ≠ []) :
    drain r write s w = drain r write next (write w bytes) := by
  rw [drain]
  split
  rename_i bytes' err' last got
  rw [fill_once, read] at got
  cases got
  rw [dif_neg present]

end Bufio

section Window

variable {σ τ : Type} (image : Bytes) (r : ReadSeeker image σ)

theorem drain_window (write : τ → Bytes → τ) (n : Nat) (s : σ) (w : τ) :
    ∃ (chunks : List Bytes) (next : Limited σ), drain r.toIoReader write ⟨s, n⟩ w = (none, next, chunks.foldl write w) ∧
      chunks.flatten = (r.ahead s).take n := by
  induction n using Nat.strong_induction_on generalizing s w with
  | _ n ih =>
      by_cases done : n = 0
      · subst done
        exact ⟨[], _, drain_stop _ write _ _ w (limit_reached _ s _), rfl⟩
      have limited := limit_inside r.toIoReader s n bufferSize (by omega)
      have reads := r.reads s (min bufferSize n)
      have ends := r.ends s (min bufferSize n)
      have fits := r.fits s (min bufferSize n)
      have size : 0 < bufferSize := by decide
      have progress := r.progress s (min bufferSize n) (by omega)
      rcases got : r.read s (min bufferSize n) with ⟨⟨bytes, err⟩, next⟩
      rw [got] at limited reads ends fits progress
      dsimp only at limited reads ends fits progress
      by_cases empty : bytes = []
      · subst empty
        cases err with
        | none => exact absurd rfl progress
        | some e =>
            obtain ⟨rfl, nothing⟩ := ends e rfl
            rw [nothing] at reads
            exact ⟨[], _, drain_stop _ write _ _ w limited, by rw [← reads]; exact List.take_nil.symm⟩
      · have length := List.length_pos_of_ne_nil empty
        obtain ⟨chunks, last, later, rest⟩ := ih (n - bytes.length) (by omega) next (write w bytes)
        refine ⟨bytes :: chunks, last, ?_, ?_⟩
        · rw [drain_more _ write _ _ w bytes err limited empty]
          exact later
        · have inside : bytes.length ≤ n := by omega
          rw [List.flatten_cons, rest, ← reads, List.take_append, List.take_of_length_le inside]

end Window

section Hash

structure Hash (τ : Type) where
  new : τ
  write : τ → Bytes → τ
  sum : τ → Bytes → Bytes
  digest : Bytes → Bytes
  sums : ∀ (pieces : List Bytes) (b : Bytes), sum (pieces.foldl write new) b = b ++ digest pieces.flatten

def Hash.recording (digest : Bytes → Bytes) : Hash Bytes where
  new := []
  write := List.append
  sum kept b := b ++ digest kept
  digest := digest
  sums pieces b := by
    have kept : ∀ front : Bytes, pieces.foldl List.append front = front ++ pieces.flatten := by
      induction pieces with
      | nil => exact fun front => (List.append_nil front).symm
      | cons piece rest ih =>
          intro front
          rw [List.foldl_cons, ih, List.flatten_cons, ← List.append_assoc]
          rfl
    rw [kept, List.nil_append]

end Hash

end GoLib
