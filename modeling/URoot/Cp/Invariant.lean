import URoot.Cp.Moves
import Mathlib.Data.List.Count

set_option autoImplicit false

namespace URoot.Cp

open GoLib

def Worker.active (w : Worker) : Prop := w.pc = .reading ∨ ∃ nb, w.pc = .writing nb

def Worker.quiet (w : Worker) : Bool :=
  match w.pc with
  | .sending _ => true
  | .ended => true
  | _ => false

def Right (src dst : Bytes) (x : Nat) : Prop := dst[x]? = src[x]?

-- A worker in a block. o + l is the end of the block, so o + l - buffSize is where it
-- started, also when l has become negative; everything since then is copied.
structure Slot (src dst : Bytes) (off : Nat) (w : Worker) : Prop where
  some : 1 ≤ w.bp
  most : w.bp ≤ buffSize
  whole : w.bp = buffSize → w.l = buffSize
  first : (buffSize : Int) ≤ w.o + w.l
  stop : w.o + w.l ≤ off
  copied : ∀ x : Nat, w.o + w.l - buffSize ≤ (x : Int) → x < w.o → Right src dst x

def WorkerOk (src dst : Bytes) (off : Nat) (w : Worker) : Prop :=
  match w.pc with
  | .recv => w.l = buffSize ∧ w.bp = buffSize
  | .reading => Slot src dst off w
  | .writing nb =>
      Slot src dst off w ∧ nb = slice src w.o nb.length ∧ nb ≠ [] ∧ w.o + nb.length ≤ src.length ∧ nb.length ≤ w.bp
  | _ => True

def Worker.Holds (w : Worker) (x : Nat) : Prop := w.active ∧ w.o ≤ x ∧ (x : Int) < w.o + w.l

def MainPc.inCall : MainPc → Bool
  | .opening => false
  | .zero => false
  | _ => true

def MainPc.spawned (nwork : Nat) : MainPc → Nat
  | .spawn i => i
  | .collect _ => nwork
  | .returned _ => nwork
  | _ => 0

def MainPc.collected (nwork : Nat) : MainPc → Nat
  | .collect i => i
  | .returned none => nwork
  | _ => 0

def Failed (s : State) : Prop :=
  (∃ w ∈ s.workers, w.call = s.call ∧ ∃ err, w.pc = .sending (some err)) ∨ (∃ err, some err ∈ s.fail s.call) ∨
    ∃ err, s.main = .returned (some err)

def Finished (c : Process) (s : State) : Prop :=
  (∃ w ∈ s.workers, w.call = s.call ∧ w.pc = .sending none) ∨ none ∈ s.fail s.call ∨ 0 < s.main.collected c.nwork

def mine (call : Nat) (w : Worker) : Bool := decide (w.call = call)

def mineEnded (call : Nat) (w : Worker) : Bool := decide (w.call = call ∧ w.pc = .ended)

structure Body (c : Process) (s : State) : Prop where
  alone : ∀ w ∈ s.workers, w.call = s.call ∨ w.quiet
  short : (s.disk (c.dst s.call)).length ≤ (c.src s.call).length
  workers : ∀ w ∈ s.workers, w.call = s.call → WorkerOk (c.src s.call) (s.disk (c.dst s.call)) s.off w
  cover : ∀ x, x < s.off → Right (c.src s.call) (s.disk (c.dst s.call)) x ∨
    (∃ w ∈ s.workers, w.call = s.call ∧ w.Holds x) ∨ Failed s
  tail : Finished c s → ∀ x, s.off ≤ x → Right (c.src s.call) (s.disk (c.dst s.call)) x
  bound : s.main.spawned c.nwork ≤ c.nwork ∧ s.main.collected c.nwork ≤ c.nwork
  spawned : s.workers.countP (mine s.call) = s.main.spawned c.nwork
  ended : (∀ err, s.main ≠ .returned (some err)) →
    s.workers.countP (mineEnded s.call) = s.main.collected c.nwork + (s.fail s.call).length

def State.begun (s : State) : Nat := if s.main.inCall then s.call + 1 else s.call

structure Inv (c : Process) (s : State) : Prop where
  calls : ∀ w ∈ s.workers, w.call < s.begun
  fresh : ∀ call, s.begun ≤ call → s.fail call = []
  zero : s.main = .zero → (∀ w ∈ s.workers, w.quiet) ∧ s.disk (c.dst s.call) = []
  body : s.main.inCall = true → Body c s

theorem start_inv (c : Process) : Inv c State.start where
  calls := fun _ impossible => by cases impossible
  fresh := fun _ _ => rfl
  zero := fun impossible => by cases impossible
  body := fun impossible => by cases impossible

section Disk

variable (src dst : Bytes)

theorem right_past (x : Nat) (short : dst.length ≤ src.length) (past : src.length ≤ x) : Right src dst x := by
  rw [Right, List.getElem?_eq_none (by omega), List.getElem?_eq_none past]

variable (piece : Bytes) (o : Nat) (cut : piece = slice src o piece.length) (inside : o + piece.length ≤ src.length)

include inside

theorem piece_short (short : dst.length ≤ src.length) : (fileWrite dst piece o).length ≤ src.length := by
  by_cases empty : piece = []
  · rw [fileWrite, if_pos empty]
    exact short
  · rw [file_write_length _ _ _ empty]
    omega

include cut

omit inside in
theorem piece_right (x : Nat) (low : o ≤ x) (high : x < o + piece.length) : Right src (fileWrite dst piece o) x := by
  have nonempty : piece ≠ [] := by
    intro empty
    rw [empty, List.length_nil] at high
    omega
  rw [Right, file_write_get _ _ _ _ nonempty, if_pos ⟨low, high⟩, cut, slice_get, if_pos (by omega)]
  congr 1
  omega

theorem piece_keeps (x : Nat) (right : Right src dst x) : Right src (fileWrite dst piece o) x := by
  by_cases empty : piece = []
  · rw [fileWrite, if_pos empty]
    exact right
  · by_cases written : o ≤ x ∧ x < o + piece.length
    · exact piece_right src dst piece o cut x written.1 written.2
    · rw [Right, file_write_get _ _ _ _ empty, if_neg written]
      split
      · -- A position in the gap cannot have been right, it was past the end.
        rename_i gap
        rw [Right, List.getElem?_eq_none gap.2, eq_comm, List.getElem?_eq_none_iff] at right
        omega
      · exact right

end Disk

theorem worker_ok_mono (src before after : Bytes) (off off' : Nat) (w : Worker) (grows : off ≤ off')
    (keeps : ∀ x, Right src before x → Right src after x) (ok : WorkerOk src before off w) : WorkerOk src after off' w := by
  have slot : Slot src before off w → Slot src after off' w := fun old =>
    ⟨old.some, old.most, old.whole, old.first, by have stop := old.stop; omega,
      fun x low high => keeps x (old.copied x low high)⟩
  unfold WorkerOk at ok ⊢
  split
  · rename_i pc
    simpa only [pc] using ok
  · rename_i pc
    simp only [pc] at ok
    exact slot ok
  · rename_i nb pc
    simp only [pc] at ok
    exact ⟨slot ok.1, ok.2⟩
  · trivial

section WorkerStep

variable (c : Process) (s : State) (id : Nat) (w w' : Worker) (off : Nat) (disk : Nat → Bytes)
  (fail : Nat → List (Option CopyError)) (handed : List (Nat × Nat))

def State.after : State :=
  { s with off := off, disk := disk, fail := fail, handed := handed, workers := s.workers.set id w' }

theorem failed_after (found : s.workers[id]? = some w) (failed : Failed s)
    (sub : ∀ result ∈ s.fail s.call, result ∈ fail s.call)
    (sent : ∀ err, w.pc = .sending (some err) → some err ∈ fail s.call) : Failed (s.after id w' off disk fail handed) := by
  rcases failed with ⟨v, member, here, err, pc⟩ | ⟨err, member⟩ | back
  · rcases mem_set_or w' v found member with rfl | stays
    · exact Or.inr (Or.inl ⟨err, sent err pc⟩)
    · exact Or.inl ⟨v, stays, here, err, pc⟩
  · exact Or.inr (Or.inl ⟨err, sub _ member⟩)
  · exact Or.inr (Or.inr back)

theorem body_after (found : s.workers[id]? = some w) (body : Body c s) (here : w.call = s.call) (same : w'.call = w.call)
    (grows : s.off ≤ off)
    (keeps : ∀ x, Right (c.src s.call) (s.disk (c.dst s.call)) x → Right (c.src s.call) (disk (c.dst s.call)) x)
    (short : (disk (c.dst s.call)).length ≤ (c.src s.call).length)
    (ok : WorkerOk (c.src s.call) (disk (c.dst s.call)) off w')
    (held : ∀ x, w.Holds x → Right (c.src s.call) (disk (c.dst s.call)) x ∨ w'.Holds x ∨
      Failed (s.after id w' off disk fail handed))
    (new : ∀ x, s.off ≤ x → x < off → w'.Holds x)
    (sub : ∀ result ∈ s.fail s.call, result ∈ fail s.call)
    (sent : ∀ err, w.pc = .sending (some err) → some err ∈ fail s.call)
    (finished : Finished c (s.after id w' off disk fail handed) → Finished c s ∨
      ∀ x, off ≤ x → Right (c.src s.call) (disk (c.dst s.call)) x)
    (count : (if w'.pc = .ended then 1 else 0) + (s.fail s.call).length =
      (if w.pc = .ended then 1 else 0) + (fail s.call).length) :
    Body c (s.after id w' off disk fail handed) := by
  have mineSame : mine s.call w' = mine s.call w := by rw [mine, mine, same]
  constructor
  case alone =>
    intro v member
    rcases List.mem_or_eq_of_mem_set member with old | rfl
    · exact body.alone v old
    · exact Or.inl (same.trans here)
  case short => exact short
  case workers =>
    intro v member there
    rcases List.mem_or_eq_of_mem_set member with old | rfl
    · exact worker_ok_mono _ _ _ _ _ v grows keeps (body.workers v old there)
    · exact ok
  case cover =>
    intro x bound
    by_cases before : x < s.off
    · rcases body.cover x before with right | ⟨v, member, there, holds⟩ | failed
      · exact Or.inl (keeps x right)
      · rcases mem_set_or w' v found member with rfl | stays
        · rcases held x holds with right | holds' | failed
          · exact Or.inl right
          · exact Or.inr (Or.inl ⟨w', mem_set_new s.workers id v w' found, same.trans here, holds'⟩)
          · exact Or.inr (Or.inr failed)
        · exact Or.inr (Or.inl ⟨v, stays, there, holds⟩)
      · exact Or.inr (Or.inr (failed_after s id w w' off disk fail handed found failed sub sent))
    · exact Or.inr (Or.inl ⟨w', mem_set_new s.workers id w w' found, same.trans here,
        new x (Nat.le_of_not_lt before) bound⟩)
  case tail =>
    intro done x bound
    rcases finished done with earlier | right
    · exact keeps x (body.tail earlier x (Nat.le_trans grows bound))
    · exact right x bound
  case bound => exact body.bound
  case spawned =>
    have counted := count_set s.workers id w w' found (mine s.call)
    rw [mineSame] at counted
    exact (Nat.add_right_cancel counted).trans body.spawned
  case ended =>
    intro running
    have old := body.ended running
    have counted := count_set s.workers id w w' found (mineEnded s.call)
    simp only [mineEnded, here, same, true_and, decide_eq_true_eq] at counted old
    show (s.workers.set id w').countP (mineEnded s.call) = s.main.collected c.nwork + (fail s.call).length
    omega

theorem finished_after (quiet : w'.pc ≠ .sending none) (reported : none ∈ fail s.call → Finished c s)
    (finished : Finished c (s.after id w' off disk fail handed)) : Finished c s := by
  rcases finished with ⟨v, member, here, pc⟩ | sent | collected
  · rcases List.mem_or_eq_of_mem_set member with old | rfl
    · exact Or.inl ⟨v, old, here, pc⟩
    · exact absurd pc quiet
  · exact reported sent
  · exact Or.inr (Or.inr collected)

theorem finished_same (quiet : w'.pc ≠ .sending none) (finished : Finished c (s.after id w' off disk s.fail handed)) :
    Finished c s :=
  finished_after c s id w' off disk s.fail handed quiet (fun sent => Or.inr (Or.inl sent)) finished

end WorkerStep

section WorkerMoves

variable (c : Process) (s : State) (id : Nat) (w : Worker) (found : s.workers[id]? = some w) (body : Body c s)
  (here : w.call = s.call)

include found body here

omit found body here in
theorem not_active (x : Nat) (holds : w.Holds x) (reading : w.pc ≠ .reading) (writing : ∀ nb, w.pc ≠ .writing nb) :
    False := by
  obtain ⟨pc | ⟨nb, pc⟩, _⟩ := holds
  · exact reading pc
  · exact writing nb pc

theorem body_take (pc : w.pc = .recv) :
    Body c (s.after id { w with o := s.off, pc := .reading } (s.off + buffSize) s.disk s.fail
      (s.handed ++ [(id, s.off)])) := by
  have old := body.workers w (List.mem_of_getElem? found) here
  simp only [WorkerOk, pc] at old
  obtain ⟨l, bp⟩ := old
  apply body_after c s id w _ _ _ _ _ found body here
  case same => rfl
  case grows => exact Nat.le_add_right _ _
  case keeps => exact fun _ right => right
  case short => exact body.short
  case ok =>
    refine ⟨by simp [bp, buffSize], by simp [bp], fun _ => l, by simp only [l]; omega, by simp only [l]; omega, ?_⟩
    intro x low high
    simp only [l] at low high
    omega
  case held => exact fun x holds => (not_active w x holds (by simp [pc]) (by simp [pc])).elim
  case new =>
    intro x low high
    refine ⟨Or.inl rfl, low, ?_⟩
    simp only [l]
    omega
  case sub => exact fun _ member => member
  case sent => simp [pc]
  case finished => exact fun finished => Or.inl (finished_same c s id _ _ _ _ (by simp) finished)
  case count => simp [pc]

theorem body_data (n : Nat) (pc : w.pc = .reading) (positive : 0 < n) (fits : n ≤ w.bp)
    (inside : w.o + n ≤ (c.src w.call).length) :
    Body c (s.after id { w with pc := .writing (slice (c.src w.call) w.o n) } s.off s.disk s.fail s.handed) := by
  have old := body.workers w (List.mem_of_getElem? found) here
  simp only [WorkerOk, pc] at old
  rw [here] at inside ⊢
  have size := slice_length inside
  apply body_after c s id w _ _ _ _ _ found body here
  case same => exact here.symm
  case grows => exact Nat.le_refl _
  case keeps => exact fun _ right => right
  case short => exact body.short
  case ok =>
    refine ⟨⟨old.some, old.most, old.whole, old.first, old.stop, old.copied⟩, by rw [size], ?_, by rw [size]; exact inside,
      by rw [size]; exact fits⟩
    intro empty
    rw [empty, List.length_nil] at size
    omega
  case held => exact fun x holds => Or.inr (Or.inl ⟨Or.inr ⟨_, rfl⟩, holds.2⟩)
  case new => exact fun x low high => absurd high (Nat.not_lt_of_le low)
  case sub => exact fun _ member => member
  case sent => simp [pc]
  case finished => exact fun finished => Or.inl (finished_same c s id _ _ _ _ (by simp) finished)
  case count => simp [pc]

-- The slice is never empty, so a read of nothing means the end of the source: the
-- worker has copied everything from the start of its block on.
theorem body_end (pc : w.pc = .reading) (past : w.bp = 0 ∨ (c.src w.call).length ≤ w.o) :
    Body c (s.after id { w with pc := .sending none } s.off s.disk s.fail s.handed) := by
  have old := body.workers w (List.mem_of_getElem? found) here
  simp only [WorkerOk, pc] at old
  rw [here] at past
  have atEnd : (c.src s.call).length ≤ w.o := by
    have some := old.some
    rcases past with empty | past
    · omega
    · exact past
  apply body_after c s id w _ _ _ _ _ found body here
  case same => rfl
  case grows => exact Nat.le_refl _
  case keeps => exact fun _ right => right
  case short => exact body.short
  case ok => trivial
  case held => exact fun x holds => Or.inl (right_past _ _ x body.short (Nat.le_trans atEnd holds.2.1))
  case new => exact fun x low high => absurd high (Nat.not_lt_of_le low)
  case sub => exact fun _ member => member
  case sent => simp [pc]
  case finished =>
    refine fun _ => Or.inr fun x bound => ?_
    by_cases before : x < w.o
    · apply old.copied x _ before
      have stop := old.stop
      omega
    · exact right_past _ _ x body.short (by omega)
  case count => simp [pc]

-- An error of this call excuses every gap; a failed write may have put down a
-- piece of its data, which is where it belongs.
theorem body_failed (err : CopyError) (disk : Nat → Bytes) (active : w.active)
    (keeps : ∀ x, Right (c.src s.call) (s.disk (c.dst s.call)) x → Right (c.src s.call) (disk (c.dst s.call)) x)
    (short : (disk (c.dst s.call)).length ≤ (c.src s.call).length) :
    Body c (s.after id { w with pc := .sending (some err) } s.off disk s.fail s.handed) := by
  have failed : Failed (s.after id { w with pc := .sending (some err) } s.off disk s.fail s.handed) :=
    Or.inl ⟨_, mem_set_new s.workers id w _ found, here, err, rfl⟩
  have pc : w.pc ≠ .ended ∧ ∀ err, w.pc ≠ .sending err := by
    rcases active with pc | ⟨nb, pc⟩ <;> simp [pc]
  apply body_after c s id w _ _ _ _ _ found body here
  case same => rfl
  case grows => exact Nat.le_refl _
  case keeps => exact keeps
  case short => exact short
  case ok => trivial
  case held => exact fun _ _ => Or.inr (Or.inr failed)
  case new => exact fun x low high => absurd high (Nat.not_lt_of_le low)
  case sub => exact fun _ member => member
  case sent => exact fun other sending => absurd sending (pc.2 _)
  case finished => exact fun finished => Or.inl (finished_same c s id _ _ _ _ (by simp) finished)
  case count => simp [pc.1]

theorem body_write_failed (nb : Bytes) (n : Nat) (err : IoError) (pc : w.pc = .writing nb) :
    Body c (s.after id { w with pc := .sending (some (.writing err)) } s.off
      (Function.update s.disk (c.dst s.call) (fileWrite (s.disk (c.dst s.call)) (nb.take n) w.o)) s.fail s.handed) := by
  have ok := body.workers w (List.mem_of_getElem? found) here
  simp only [WorkerOk, pc] at ok
  obtain ⟨_, cut, _, inside, _⟩ := ok
  have part : nb.take n = slice (c.src s.call) w.o (nb.take n).length := by
    conv_lhs => rw [cut, slice, List.take_take]
    rw [slice, List.length_take]
  have partInside : w.o + (nb.take n).length ≤ (c.src s.call).length := by
    rw [List.length_take]
    omega
  apply body_failed c s id w found body here (.writing err) _ (Or.inr ⟨nb, pc⟩)
  · rw [Function.update_self]
    exact piece_keeps _ _ _ _ part partInside
  · rw [Function.update_self]
    exact piece_short _ _ _ _ partInside body.short

theorem body_wrote (nb : Bytes) (pc : w.pc = .writing nb) :
    Body c (s.after id (w.advance nb.length) s.off
      (Function.update s.disk (c.dst s.call) (fileWrite (s.disk (c.dst s.call)) nb w.o)) s.fail s.handed) := by
  have old := body.workers w (List.mem_of_getElem? found) here
  simp only [WorkerOk, pc] at old
  obtain ⟨slot, cut, nonempty, inside, fits⟩ := old
  obtain ⟨some, most, whole, first, stop, copied⟩ := slot
  have positive := List.length_pos_of_ne_nil nonempty
  have keeps := piece_keeps (c.src s.call) (s.disk (c.dst s.call)) nb w.o cut inside
  have written := piece_right (c.src s.call) (s.disk (c.dst s.call)) nb w.o cut
  apply body_after c s id w _ _ _ _ _ found body here
  case same =>
    unfold Worker.advance
    split <;> rfl
  case grows => exact Nat.le_refl _
  case keeps =>
    rw [Function.update_self]
    exact keeps
  case short =>
    rw [Function.update_self]
    exact piece_short _ _ nb w.o inside body.short
  case ok =>
    rw [Function.update_self]
    unfold Worker.advance
    split
    · exact ⟨rfl, rfl⟩
    · rename_i unfinished
      -- A whole buffer is only read at the start of a block, and finishes it.
      have notWhole : nb.length < buffSize := by
        by_contra full
        have l := whole (by omega)
        omega
      refine ⟨?_, ?_, ?_, ?_, ?_, ?_⟩
      · exact Nat.sub_pos_of_lt notWhole
      · exact Nat.sub_le _ _
      · intro impossible
        simp only at impossible
        omega
      · simp only
        omega
      · simp only
        omega
      · intro x low high
        simp only at low high
        by_cases before : x < w.o
        · exact keeps x (copied x (by omega) before)
        · exact written x (by omega) high
  case held =>
    rintro x ⟨_, low, high⟩
    rw [Function.update_self]
    by_cases now : x < w.o + nb.length
    · exact Or.inl (written x low now)
    · refine Or.inr (Or.inl ?_)
      unfold Worker.advance
      split
      · omega
      · refine ⟨Or.inl rfl, by simp only; omega, by simp only; omega⟩
  case new => exact fun x low high => absurd high (Nat.not_lt_of_le low)
  case sub => exact fun _ member => member
  case sent => simp [pc]
  case finished =>
    refine fun finished => Or.inl (finished_same c s id _ _ _ _ ?_ finished)
    unfold Worker.advance
    split <;> simp
  case count =>
    have running : (w.advance nb.length).pc ≠ .ended := by
      unfold Worker.advance
      split <;> simp
    simp [pc, running]

theorem body_report (err : Option CopyError) (pc : w.pc = .sending err) :
    Body c (s.after id { w with pc := .ended } s.off s.disk
      (Function.update s.fail s.call (s.fail s.call ++ [err])) s.handed) := by
  apply body_after c s id w _ _ _ _ _ found body here
  case same => rfl
  case grows => exact Nat.le_refl _
  case keeps => exact fun _ right => right
  case short => exact body.short
  case ok => trivial
  case held => exact fun x holds => (not_active w x holds (by simp [pc]) (by simp [pc])).elim
  case new => exact fun x low high => absurd high (Nat.not_lt_of_le low)
  case sub =>
    intro result member
    rw [Function.update_self]
    exact List.mem_append_left _ member
  case sent =>
    intro failure sending
    rw [pc] at sending
    cases sending
    rw [Function.update_self]
    exact List.mem_append_right _ (List.mem_singleton_self _)
  case finished =>
    refine fun finished => Or.inl (finished_after c s id _ _ _ _ _ (by simp) ?_ finished)
    rw [Function.update_self, List.mem_append, List.mem_singleton]
    rintro (sent | rfl)
    · exact Or.inr (Or.inl sent)
    · exact Or.inl ⟨w, List.mem_of_getElem? found, here, pc⟩
  case count =>
    rw [Function.update_self, List.length_append]
    simp [pc]
    omega

end WorkerMoves

end URoot.Cp
