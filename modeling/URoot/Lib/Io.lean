import URoot.Lib.Codec

set_option autoImplicit false

namespace GoLib

inductive IoError where
  | eof
  | unexpectedEOF
  | shortWrite
  | other (text : Bytes)
deriving DecidableEq, Repr

-- A Go function with an error result. The state is kept when the call fails:
-- whatever was written before the error stays written.
structure Act (ε σ α : Type) where
  run : σ → Except ε α × σ

namespace Act

variable {ε σ α β : Type}

instance : Monad (Act ε σ) where
  pure a := ⟨fun s => (.ok a, s)⟩
  bind x f := ⟨fun s =>
    match x.run s with
    | (.ok a, next) => (f a).run next
    | (.error e, next) => (.error e, next)⟩

def fail (e : ε) : Act ε σ α := ⟨fun s => (.error e, s)⟩

def get : Act ε σ σ := ⟨fun s => (.ok s, s)⟩

def set (next : σ) : Act ε σ Unit := ⟨fun _ => (.ok (), next)⟩

def check (result : Option ε) : Act ε σ Unit :=
  match result with
  | none => pure ()
  | some e => fail e

def require (condition : Prop) [Decidable condition] (e : ε) : Act ε σ Unit :=
  if condition then pure () else fail e

def ofOption (result : Option α) (e : ε) : Act ε σ α :=
  match result with
  | none => fail e
  | some a => pure a

def ofExcept (result : Except ε α) : Act ε σ α := ⟨fun s => (result, s)⟩

def within {ε' τ : Type} (part : τ → σ) (put : τ → σ → τ) (wrap : ε → ε') (x : Act ε σ α) : Act ε' τ α :=
  ⟨fun t => (((x.run (part t)).1).mapError wrap, put t (x.run (part t)).2)⟩

def modifyGet (f : σ → α × σ) : Act ε σ α := ⟨fun s => (.ok (f s).1, (f s).2)⟩

def caught {ε' : Type} (x : Act ε σ α) : Act ε' σ (Except ε α) := ⟨fun s => (.ok (x.run s).1, (x.run s).2)⟩

@[simp] theorem run_pure (a : α) (s : σ) : (pure a : Act ε σ α).run s = (.ok a, s) := rfl

@[simp] theorem run_fail (e : ε) (s : σ) : (fail e : Act ε σ α).run s = (.error e, s) := rfl

@[simp] theorem run_get (s : σ) : (get : Act ε σ σ).run s = (.ok s, s) := rfl

@[simp] theorem run_set (next s : σ) : (set next : Act ε σ Unit).run s = (.ok (), next) := rfl

@[simp] theorem run_check_none (s : σ) : (check none : Act ε σ Unit).run s = (.ok (), s) := rfl

theorem run_of_except_ok (result : Except ε α) (a : α) (s : σ) (ok : result = .ok a) :
    (ofExcept result : Act ε σ α).run s = (.ok a, s) := by
  rw [ofExcept, ok]

@[simp] theorem run_modify_get (f : σ → α × σ) (s : σ) : (modifyGet f : Act ε σ α).run s = (.ok (f s).1, (f s).2) := rfl

theorem run_require_true {condition : Prop} [Decidable condition] (e : ε) (s : σ) (holds : condition) :
    (require condition e : Act ε σ Unit).run s = (.ok (), s) := by
  rw [require, if_pos holds, run_pure]

theorem run_require_inv (condition : Prop) [Decidable condition] (e : ε) (s next : σ)
    (done : (require condition e : Act ε σ Unit).run s = (.ok (), next)) : condition ∧ next = s := by
  by_cases holds : condition
  · rw [run_require_true e s holds] at done
    cases done
    exact ⟨holds, rfl⟩
  · rw [require, if_neg holds] at done
    cases done

theorem run_check_inv {result : Option ε} {s next : σ} (done : (check result : Act ε σ Unit).run s = (.ok (), next)) :
    result = none ∧ next = s := by
  cases result with
  | none =>
      cases done
      exact ⟨rfl, rfl⟩
  | some e => cases done

theorem run_of_option_some (a : α) (e : ε) (s : σ) : (ofOption (some a) e : Act ε σ α).run s = (.ok a, s) := rfl

theorem run_of_option_inv {result : Option α} {e : ε} {s next : σ} {a : α}
    (done : (ofOption result e : Act ε σ α).run s = (.ok a, next)) : result = some a ∧ next = s := by
  cases result with
  | none => cases done
  | some b =>
      cases done
      exact ⟨rfl, rfl⟩

theorem run_bind (x : Act ε σ α) (f : α → Act ε σ β) (s : σ) :
    (x >>= f).run s = match x.run s with
      | (.ok a, next) => (f a).run next
      | (.error e, next) => (.error e, next) := rfl

theorem pure_bind (a : α) (f : α → Act ε σ β) : (pure a >>= f) = f a := rfl

theorem fail_bind (e : ε) (f : α → Act ε σ β) : (fail e >>= f) = fail e := rfl

theorem bind_bind {γ : Type} (x : Act ε σ α) (f : α → Act ε σ β) (g : β → Act ε σ γ) :
    (x >>= f) >>= g = x >>= fun a => f a >>= g := by
  refine congrArg mk (funext fun s => ?_)
  rcases ran : x.run s with ⟨result, next⟩
  cases result with
  | ok a => simp only [run_bind, ran]
  | error e => simp only [run_bind, ran]

theorem bind_unit (x : Act ε σ Unit) : (x >>= fun _ => pure ()) = x := by
  refine congrArg mk (funext fun s => ?_)
  rcases x.run s with ⟨_ | u, next⟩
  · rfl
  · rfl

theorem run_bind_ok {x : Act ε σ α} {f : α → Act ε σ β} {s next : σ} {a : α} (done : x.run s = (.ok a, next)) :
    (x >>= f).run s = (f a).run next := by
  rw [run_bind, done]

theorem run_bind_error {x : Act ε σ α} {f : α → Act ε σ β} {s next : σ} {e : ε}
    (failed : x.run s = (.error e, next)) : (x >>= f).run s = (.error e, next) := by
  rw [run_bind, failed]

section Bind

variable (s : σ)

theorem run_get_bind (f : σ → Act ε σ β) : (get >>= f).run s = (f s).run s := rfl

theorem run_set_bind (next : σ) (f : Unit → Act ε σ β) : (set next >>= f).run s = (f ()).run next := rfl

theorem run_modify_get_bind (g : σ → α × σ) (f : α → Act ε σ β) : (modifyGet g >>= f).run s = (f (g s).1).run (g s).2 := rfl

theorem run_of_option_bind (a : α) (e : ε) (f : α → Act ε σ β) : (ofOption (some a) e >>= f).run s = (f a).run s := rfl

theorem run_of_except_bind {result : Except ε α} {a : α} (f : α → Act ε σ β) (ok : result = .ok a) :
    (ofExcept result >>= f).run s = (f a).run s := run_bind_ok (run_of_except_ok result a s ok)

theorem run_require_bind {condition : Prop} [Decidable condition] (e : ε) (f : Unit → Act ε σ β) (holds : condition) :
    (require condition e >>= f).run s = (f ()).run s := run_bind_ok (run_require_true e s holds)

theorem run_caught_bind {ε' : Type} (x : Act ε σ α) (f : Except ε α → Act ε' σ β) :
    (caught x >>= f).run s = (f (x.run s).1).run (x.run s).2 := rfl

end Bind

theorem run_ok_ne {x : Act ε σ α} {s next : σ} {a : α} (e : ε) (done : x.run s = (.ok a, next)) : (x.run s).1 ≠ .error e := by
  rw [done]
  intro impossible
  cases impossible

theorem run_bind_pure_error_iff (x : Act ε σ α) (g : α → β) (s : σ) (e : ε) :
    ((x >>= fun a => pure (g a)).run s).1 = .error e ↔ (x.run s).1 = .error e := by
  rw [run_bind]
  rcases x.run s with ⟨result, next⟩
  cases result with
  | ok a => exact iff_of_false (fun impossible => by cases impossible) (fun impossible => by cases impossible)
  | error e' =>
      constructor
      · intro failed
        cases failed
        rfl
      · intro failed
        cases failed
        rfl

theorem run_bind_inv {x : Act ε σ α} {f : α → Act ε σ β} {s last : σ} {b : β}
    (done : (x >>= f).run s = (.ok b, last)) :
    ∃ a next, x.run s = (.ok a, next) ∧ (f a).run next = (.ok b, last) := by
  rw [run_bind] at done
  rcases step : x.run s with ⟨result, next⟩
  rw [step] at done
  cases result with
  | ok a => exact ⟨a, next, rfl, done⟩
  | error e => cases done

theorem run_within_ok {ε' τ : Type} (part : τ → σ) (put : τ → σ → τ) (wrap : ε → ε') (x : Act ε σ α) (t : τ) (a : α) (next : σ)
    (done : x.run (part t) = (.ok a, next)) : (within part put wrap x).run t = (.ok a, put t next) := by
  rw [within]
  simp only [done]
  rfl

theorem run_within_inv {ε' τ : Type} {part : τ → σ} {put : τ → σ → τ} {wrap : ε → ε'} {x : Act ε σ α} {t last : τ} {a : α}
    (done : (within part put wrap x).run t = (.ok a, last)) : ∃ next, x.run (part t) = (.ok a, next) ∧ last = put t next := by
  rw [within] at done
  dsimp only at done
  rcases ran : x.run (part t) with ⟨out, next⟩
  rw [ran] at done
  cases out with
  | ok b =>
      cases done
      exact ⟨next, rfl, rfl⟩
  | error e => cases done

def Keeps (inv : σ → Prop) (x : Act ε σ α) : Prop := ∀ s, inv s → inv (x.run s).2

section Keeps

variable (inv : σ → Prop)

theorem keeps_pure (a : α) : Keeps inv (pure a : Act ε σ α) := fun _ holds => holds

theorem keeps_fail (e : ε) : Keeps inv (fail e : Act ε σ α) := fun _ holds => holds

theorem keeps_bind (x : Act ε σ α) (f : α → Act ε σ β) (first : Keeps inv x) (second : ∀ a, Keeps inv (f a)) :
    Keeps inv (x >>= f) := by
  intro s holds
  have middle := first s holds
  rw [run_bind]
  rcases ran : x.run s with ⟨result, next⟩
  rw [ran] at middle
  cases result with
  | ok a => exact second a next middle
  | error e => exact middle

end Keeps

structure Ends (x : Act ε σ α) (s : σ) (bad : ε → Prop) (good : α → σ → Prop) : Prop where
  failed : ∀ e next, x.run s = (.error e, next) → bad e
  done : ∀ a next, x.run s = (.ok a, next) → good a next

section Ends

variable (s : σ) (bad : ε → Prop)

theorem ends_of_ok (x : Act ε σ α) (a : α) (next : σ) (good : α → σ → Prop) (ran : x.run s = (.ok a, next))
    (holds : good a next) : Ends x s bad good := by
  refine ⟨?_, ?_⟩
  · intro e last failed
    cases ran.symm.trans failed
  · intro b last done
    cases ran.symm.trans done
    exact holds

theorem ends_of_error (x : Act ε σ α) (e : ε) (next : σ) (good : α → σ → Prop) (ran : x.run s = (.error e, next))
    (holds : bad e) : Ends x s bad good := by
  refine ⟨?_, ?_⟩
  · intro e' last failed
    cases ran.symm.trans failed
    exact holds
  · intro b last done
    cases ran.symm.trans done

theorem ends_of_except (result : Except ε α) (good : α → σ → Prop) (failed : ∀ e, result = .error e → bad e)
    (done : ∀ a, result = .ok a → good a s) : Ends (ofExcept result : Act ε σ α) s bad good := by
  cases result with
  | ok a => exact ends_of_ok s bad _ a s good rfl (done a rfl)
  | error e => exact ends_of_error s bad _ e s good rfl (failed e rfl)

theorem ends_check (result : Option ε) (good : Unit → σ → Prop) (failed : ∀ e, result = some e → bad e)
    (done : result = none → good () s) : Ends (check result : Act ε σ Unit) s bad good := by
  cases result with
  | none => exact ends_of_ok s bad _ () s good rfl (done rfl)
  | some e => exact ends_of_error s bad _ e s good rfl (failed e rfl)

theorem ends_bind (x : Act ε σ α) (f : α → Act ε σ β) (middle : α → σ → Prop) (good : β → σ → Prop)
    (first : Ends x s bad middle) (second : ∀ a next, middle a next → Ends (f a) next bad good) :
    Ends (x >>= f) s bad good := by
  rcases ran : x.run s with ⟨result, next⟩
  cases result with
  | ok a =>
      have whole := run_bind_ok (f := f) ran
      have later := second a next (first.done a next ran)
      exact ⟨fun e last failed => later.failed e last (whole.symm.trans failed),
        fun b last done => later.done b last (whole.symm.trans done)⟩
  | error e => exact ends_of_error s bad _ e next good (run_bind_error ran) (first.failed e next ran)

theorem ends_within {ε' τ : Type} {part : τ → σ} {put : τ → σ → τ} {wrap : ε → ε'} {x : Act ε σ α} {t : τ}
    {worse : ε' → Prop} {good : α → τ → Prop}
    (ends : Ends x (part t) (fun e => worse (wrap e)) (fun a next => good a (put t next))) :
    Ends (within part put wrap x) t worse good := by
  rcases ran : x.run (part t) with ⟨result, next⟩
  have whole : (within part put wrap x).run t = (result.mapError wrap, put t next) := by
    simp only [within, ran]
  cases result with
  | ok a => exact ends_of_ok t worse _ a _ good whole (ends.done a next ran)
  | error e => exact ends_of_error t worse _ (wrap e) _ good whole (ends.failed e next ran)

end Ends

end Act

section Except

variable {ε α β : Type}

def ensure (condition : Prop) [Decidable condition] (e : ε) : Except ε Unit :=
  if condition then .ok () else .error e

theorem ensure_true (condition : Prop) [Decidable condition] (e : ε) (holds : condition) : ensure condition e = .ok () := by
  rw [ensure, if_pos holds]

theorem ensure_inv (condition : Prop) [Decidable condition] (e : ε) (u : Unit) (done : ensure condition e = .ok u) :
    condition := by
  by_cases holds : condition
  · exact holds
  · rw [ensure, if_neg holds] at done
    cases done

theorem except_bind_ok {x : Except ε α} {f : α → Except ε β} {a : α} (done : x = .ok a) : (x >>= f) = f a := by
  rw [done]
  rfl

theorem except_bind_inv {x : Except ε α} {f : α → Except ε β} {b : β} (done : (x >>= f) = .ok b) :
    ∃ a, x = .ok a ∧ f a = .ok b := by
  cases x with
  | ok a => exact ⟨a, rfl, done⟩
  | error e => cases done

end Except

structure IoWriter (σ : Type) where
  write : σ → Bytes → σ × Nat × Option IoError

def bytesBuffer : IoWriter Bytes where
  write out bytes := (out ++ bytes, bytes.length, none)

def IoWriter.logged {σ : Type} (io : IoWriter σ) : IoWriter (σ × Bytes) where
  write s bytes := (((io.write s.1 bytes).1, s.2 ++ bytes.take (io.write s.1 bytes).2.1), (io.write s.1 bytes).2)

-- The contract of io.Writer: a write that does not take everything returns an error.
def IoWriter.Honest {σ : Type} (io : IoWriter σ) : Prop :=
  ∀ s bytes, (io.write s bytes).2.2 = none → (io.write s bytes).2.1 = bytes.length

structure ReadCloser where
  content : Bytes
  readErr : Option IoError
  closeErr : Option IoError
deriving DecidableEq, Repr

def newBytesReadCloser (contents : Bytes) : ReadCloser := ⟨contents, none, none⟩

def blocksLoop {α : Type} (size : Nat) : Nat → List α → List (List α)
  | 0, _ => []
  | _ + 1, [] => []
  | fuel + 1, rest => rest.take size :: blocksLoop size fuel (rest.drop size)

def blocks {α : Type} (size : Nat) (items : List α) : List (List α) := blocksLoop size items.length items

theorem blocks_loop_flatten {α : Type} (size fuel : Nat) (items : List α) (positive : 0 < size)
    (enough : items.length ≤ fuel) : (blocksLoop size fuel items).flatten = items := by
  induction fuel generalizing items with
  | zero =>
      have empty : items = [] := List.length_eq_zero_iff.mp (by omega)
      simp [blocksLoop, empty]
  | succ fuel ih =>
      cases items with
      | nil => rfl
      | cons first rest =>
          have shorter : ((first :: rest).drop size).length ≤ fuel := by
            simp only [List.length_drop, List.length_cons] at enough ⊢
            omega
          rw [blocksLoop, List.flatten_cons, ih _ shorter, List.take_append_drop]
          simp

theorem blocks_flatten {α : Type} (size : Nat) (items : List α) (positive : 0 < size) :
    (blocks size items).flatten = items :=
  blocks_loop_flatten size items.length items positive (Nat.le_refl _)

def copyBufferSize : Nat := 32 * 1024

-- io.Copy with its own 32 KiB buffer: one write for each buffer read.
def copyBlocks {σ : Type} (write : Bytes → Act IoError σ Nat) : List Bytes → Act IoError σ Nat
  | [] => pure 0
  | block :: rest => do
      let n ← write block
      Act.require (n = block.length) .shortWrite
      let m ← copyBlocks write rest
      pure (n + m)

def ioCopy {σ : Type} (write : Bytes → Act IoError σ Nat) (source : ReadCloser) : Act IoError σ Nat := do
  let n ← copyBlocks write (blocks copyBufferSize source.content)
  Act.check source.readErr
  pure n

def Takes {σ : Type} (write : Bytes → Act IoError σ Nat) (grow : σ → Bytes → σ) : Prop :=
  ∀ bytes s, (write bytes).run s = (.ok bytes.length, grow s bytes)

section Copy

variable {σ : Type} {write : Bytes → Act IoError σ Nat} {grow : σ → Bytes → σ} (takes : Takes write grow)
  (empty : ∀ s, grow s [] = s) (append : ∀ s a b, grow (grow s a) b = grow s (a ++ b))

include takes empty append

theorem copy_blocks_takes (pieces : List Bytes) (s : σ) :
    (copyBlocks write pieces).run s = (.ok pieces.flatten.length, grow s pieces.flatten) := by
  induction pieces generalizing s with
  | nil => simp [copyBlocks, empty]
  | cons block rest ih =>
      rw [copyBlocks, Act.run_bind_ok (takes block s),
        Act.run_bind_ok (Act.run_require_true _ _ rfl), Act.run_bind_ok (ih (grow s block))]
      simp [append]

theorem io_copy_run (source : ReadCloser) (s : σ) :
    (ioCopy write source).run s =
      (Act.check source.readErr >>= fun _ => pure source.content.length).run (grow s source.content) := by
  have copied := copy_blocks_takes takes empty append (blocks copyBufferSize source.content) s
  rw [blocks_flatten copyBufferSize source.content (by decide)] at copied
  rw [ioCopy, Act.run_bind_ok copied]

theorem io_copy_takes (source : ReadCloser) (readable : source.readErr = none) (s : σ) :
    (ioCopy write source).run s = (.ok source.content.length, grow s source.content) := by
  rw [io_copy_run takes empty append, readable]
  rfl

theorem io_copy_fails (source : ReadCloser) (e : IoError) (failing : source.readErr = some e) (s : σ) :
    (ioCopy write source).run s = (.error e, grow s source.content) := by
  rw [io_copy_run takes empty append, failing]
  rfl

end Copy

theorem io_copy_inv {σ : Type} {write : Bytes → Act IoError σ Nat} {source : ReadCloser} {s next : σ} {n : Nat}
    (done : (ioCopy write source).run s = (.ok n, next)) : source.readErr = none := by
  obtain ⟨_, _, _, rest⟩ := Act.run_bind_inv done
  obtain ⟨_, _, checked, _⟩ := Act.run_bind_inv rest
  exact (Act.run_check_inv checked).1

-- bytes.Reader.ReadAt: an offset at or past the end gives end of file even for
-- an empty buffer, and so does a buffer that cannot be filled.
def readAt (data : Bytes) (len off : Nat) : Bytes × Option IoError :=
  if data.length ≤ off then ([], some .eof)
  else if ((data.drop off).take len).length < len then ((data.drop off).take len, some .eof)
  else ((data.drop off).take len, none)

theorem read_at_full (before middle after : Bytes) (len off : Nat) (positive : 0 < middle.length)
    (start : off = before.length) (size : len = middle.length) :
    readAt (before ++ (middle ++ after)) len off = (middle, none) := by
  have inside : ¬ (before ++ (middle ++ after)).length ≤ off := by
    simp only [List.length_append]
    omega
  have piece : ((before ++ (middle ++ after)).drop off).take len = middle := by
    rw [start, size, List.drop_left, List.take_left]
  rw [readAt, if_neg inside, piece, if_neg (by omega)]

theorem read_at_none_inv {data bytes : Bytes} {len off : Nat} (read : readAt data len off = (bytes, none)) :
    off + len ≤ data.length ∧ bytes = (data.drop off).take len ∧ bytes.length = len := by
  rw [readAt] at read
  split at read
  · cases read
  · split at read
    · cases read
    · rename_i inside full
      cases read
      rw [List.length_take, List.length_drop] at full
      refine ⟨by omega, rfl, ?_⟩
      rw [List.length_take, List.length_drop]
      omega

structure Avoids {ε α : Type} (bad : ε) (x : Except ε α) (good : α → Prop) : Prop where
  failed : x ≠ .error bad
  done : ∀ a, x = .ok a → good a

section Avoids

variable {ε α β : Type} (bad : ε)

theorem avoids_ok {a : α} {good : α → Prop} (holds : good a) : Avoids bad (.ok a) good := by
  refine ⟨?_, ?_⟩
  · intro impossible
    cases impossible
  · intro b same
    cases same
    exact holds

theorem avoids_error (e : ε) (good : α → Prop) (other : e ≠ bad) : Avoids bad (.error e) good := by
  refine ⟨?_, ?_⟩
  · intro same
    cases same
    exact other rfl
  · intro a impossible
    cases impossible

theorem avoids_bind {x : Except ε α} {f : α → Except ε β} {middle : α → Prop} {good : β → Prop}
    (first : Avoids bad x middle) (second : ∀ a, middle a → Avoids bad (f a) good) : Avoids bad (x >>= f) good := by
  cases x with
  | ok a => exact second a (first.done a rfl)
  | error e => exact avoids_error bad e good (fun same => first.failed (by rw [same]))

end Avoids

end GoLib
