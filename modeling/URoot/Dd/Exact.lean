import URoot.Dd.Invariant

set_option autoImplicit false

namespace URoot.Dd

open GoLib

variable {σ : Type}

section FullWriter

-- A writer that takes every write whole and a transform that works byte by byte on the bytes there are.
variable (c : Call σ) (f : UInt8 → UInt8) (good : UInt8 → Prop)
  (bytewise : ∀ bytes, (∀ b ∈ bytes, good b) → c.transform bytes = bytes.map f)
  (full : ∀ w bytes, (c.w.write w bytes).2 = (bytes.length, none))

def Call.delivered (n : Nat) : Bytes := (List.range n).flatMap c.chunk

theorem delivered_next (n : Nat) : c.delivered (n + 1) = c.delivered n ++ c.chunk n := by
  rw [Call.delivered, Call.delivered, List.range_succ, List.flatMap_append, List.flatMap_singleton]

include bytewise full

theorem full_write (w : σ) (bytes : Bytes) (fine : ∀ b ∈ bytes, good b) :
    ∃ next, c.w.write w (c.transform bytes) = (next, bytes.length, none) := by
  have accepted := full w (c.transform bytes)
  rw [bytewise bytes fine, List.length_map] at accepted
  refine ⟨(c.w.write w (c.transform bytes)).1, ?_⟩
  rw [bytewise bytes fine, ← accepted]

theorem write_to_full (sink : Sink σ) (data : Bytes) (fine : ∀ b ∈ data, good b) :
    ∃ w, c.writeTo sink data = (sink.took w (data.map f), none) := by
  induction size : data.length using Nat.strongRecOn generalizing sink data with
  | _ n ih =>
      by_cases empty : data = []
      · subst empty
        refine ⟨sink.w, ?_⟩
        rw [c.write_to_nil, Sink.took, List.map_nil, List.append_nil]
      · have front : ∀ b ∈ data.take c.outBufSize, good b := fun b member => fine b (List.mem_of_mem_take member)
        have behind : ∀ b ∈ data.drop c.outBufSize, good b := fun b member => fine b (List.mem_of_mem_drop member)
        obtain ⟨w, took⟩ := full_write c f good bytewise full sink.w (data.take c.outBufSize) front
        have positive := c.outPositive
        have length := List.length_pos_of_ne_nil empty
        have shorter : (data.drop c.outBufSize).length < n := by
          rw [List.length_drop]
          omega
        have whole : ((data.take c.outBufSize).map f).take (data.take c.outBufSize).length =
            (data.take c.outBufSize).map f := List.take_of_length_le (Nat.le_of_eq (List.length_map f))
        obtain ⟨last, rest⟩ :=
          ih _ shorter (sink.took w ((data.take c.outBufSize).map f)) (data.drop c.outBufSize) behind rfl
        refine ⟨last, ?_⟩
        rw [bytewise _ front] at took
        rw [Call.writeTo, dif_neg empty]
        simp only [bytewise _ front, took, ne_eq, not_true_eq_false, if_false, whole, rest]
        simp only [Sink.took, List.append_assoc, ← List.map_append, List.take_append_drop]

variable (fine : ∀ i, ∀ b ∈ c.chunk i, good b)

include fine

theorem write_blocks_full (sink : Sink σ) (n : Nat) :
    ∃ w, c.writeBlocks sink n =
      (⟨w, sink.out ++ (c.delivered n).map f, sink.bytesWritten + (c.delivered n).length⟩, none) := by
  induction n with
  | zero =>
      refine ⟨sink.w, ?_⟩
      rw [Call.writeBlocks, show c.delivered 0 = [] from rfl, List.map_nil, List.append_nil]
      rfl
  | succ n ih =>
      obtain ⟨mid, before⟩ := ih
      obtain ⟨w, here⟩ := write_to_full c f good bytewise full
        ⟨mid, sink.out ++ (c.delivered n).map f, sink.bytesWritten + (c.delivered n).length⟩ (c.chunk n) (fine n)
      refine ⟨w, ?_⟩
      rw [c.write_blocks_next sink _ _ n before here, delivered_next, List.map_append, List.length_append]
      simp only [Sink.took, Sink.count, List.append_assoc, Nat.add_assoc]

theorem never_fails (sink : Sink σ) (k : Nat) : ¬ c.OutputFailsAt sink k := by
  rintro ⟨last, e, mid, _, failed⟩
  obtain ⟨w, taken⟩ := write_to_full c f good bytewise full mid (c.chunk k) (fine k)
  rw [taken] at failed
  cases failed

end FullWriter

theorem ends_not_continues {c : Call σ} {last : Nat} {e : IoError} (ends : (readFrom (c.r last)).2 = some e) :
    ¬ c.Continues last := by
  rw [c.continues_iff, ends]
  rintro ⟨_, impossible⟩
  cases impossible

theorem ends_unique (c : Call σ) (first second blocks : Nat) (ends : c.Ends first blocks)
    (before : ∀ i, i < second → c.Continues i) (last : ¬ c.Continues second) : first = second := by
  obtain ⟨earlier, stops, _⟩ := ends
  rcases Nat.lt_trichotomy first second with less | same | more
  · exact absurd (before first less) stops
  · exact same
  · exact absurd (earlier second more) last

theorem delivered_ends (c : Call σ) (last blocks : Nat) (ends : c.Ends last blocks) :
    c.delivered blocks = c.delivered (last + 1) := by
  obtain ⟨_, _, count⟩ := ends
  rw [count]
  split
  · rename_i empty
    rw [delivered_next, empty, List.append_nil]
  · rfl

theorem returned_exact (c : Call σ) (f : UInt8 → UInt8) (good : UInt8 → Prop)
    (bytewise : ∀ bytes, (∀ b ∈ bytes, good b) → c.transform bytes = bytes.map f)
    (full : ∀ w bytes, (c.w.write w bytes).2 = (bytes.length, none)) (fine : ∀ i, ∀ b ∈ c.chunk i, good b) (last : Nat)
    (chunks : ∀ i, i < last → c.Continues i) (e : IoError) (ends : (readFrom (c.r last)).2 = some e) (w : σ)
    (bytesWritten : Nat) (s : State σ) (reach : Reachable c.step (State.start w bytesWritten) s)
    (result : Option CopyError) (returned : s.caller = .returned result) :
    s.out = (c.delivered (last + 1)).map f ∧ s.bytesWritten = bytesWritten + (c.delivered (last + 1)).length ∧
      result = if e = .eof then none else some (.inputError (some e)) := by
  obtain ⟨taken, sent, inv⟩ := reachable_inv reach
  have stage := inv.caller
  have reader := inv.reader
  have written := never_fails c f good bytewise full fine ⟨w, [], bytesWritten⟩
  rw [returned] at stage
  rcases stage with ⟨⟨halted, empty⟩, wrote, clean⟩ | ⟨k, err, _, fails, _⟩
  swap
  · exact absurd ⟨_, err, fails⟩ (written k)
  rw [halted] at reader
  rcases reader with ⟨k, failed⟩ | ⟨final, ending, reported⟩
  · exact absurd failed (written k)
  have same : final = last := ends_unique c final last sent ending chunks (ends_not_continues ends)
  subst same
  have all : taken = sent := by
    rw [← inv.counted, empty]
    rfl
  obtain ⟨now, blocks⟩ := write_blocks_full c f good bytewise full fine ⟨w, [], bytesWritten⟩ sent
  rw [all, blocks, delivered_ends c final sent ending] at wrote
  have sink : (⟨now, (c.delivered (final + 1)).map f, bytesWritten + (c.delivered (final + 1)).length⟩ : Sink σ) = s.sink :=
    congrArg Prod.fst wrote
  refine ⟨(congrArg Sink.out sink).symm, (congrArg Sink.bytesWritten sink).symm, ?_⟩
  rw [inv.result result returned, reported, clean, Call.verdict, ends]
  by_cases eof : e = .eof
  · rw [eof, if_pos rfl, if_pos rfl]
    rfl
  · rw [if_neg (fun same => eof (Option.some.inj same)), if_neg eof]
    rfl

theorem copy_exact (c : Call σ) (f : UInt8 → UInt8) (bytewise : ∀ bytes, c.transform bytes = bytes.map f)
    (full : ∀ w bytes, (c.w.write w bytes).2 = (bytes.length, none)) (last : Nat)
    (chunks : ∀ i, i < last → (c.r i).bytes ≠ [] ∧ (c.r i).err = none) (e : IoError)
    (ends : (readFrom (c.r last)).2 = some e) (w : σ) (bytesWritten : Nat) (s : State σ)
    (reach : Reachable c.step (State.start w bytesWritten) s) (result : Option CopyError)
    (returned : s.caller = .returned result) :
    s.out = ((List.range (last + 1)).flatMap fun i => (c.r i).bytes).map f ∧
      s.bytesWritten = bytesWritten + ((List.range (last + 1)).flatMap fun i => (c.r i).bytes).length ∧
      result = if e = .eof then none else some (.inputError (some e)) :=
  returned_exact c f (fun _ => True) (fun bytes _ => bytewise bytes) full (fun _ _ _ => trivial) last chunks e ends w
    bytesWritten s reach result returned

def shortInput (i : Nat) : ReadResult :=
  if i = 0 then ⟨[1, 2], none⟩ else if i = 1 then ⟨[3], none⟩ else ⟨[], some .eof⟩

def shortCopy : Call Bytes :=
  parallelChunkedCopy shortInput bytesBuffer 2 1 (List.map (· + 1))
    (by
      intro i
      unfold shortInput
      split
      · decide
      · split <;> decide)
    (by decide)

def shortSchedule : List Actor :=
  List.replicate 5 .reader ++ (List.replicate 3 .caller ++ (List.replicate 11 .reader ++ List.replicate 10 .caller))

theorem short_copy_exact :
    ∃ s, Reachable shortCopy.step (State.start [] 5) s ∧ s.caller = .returned none ∧ s.out = [2, 3, 4] ∧
      s.bytesWritten = 8 := by
  have ran : (exec shortCopy.step shortSchedule (State.start [] 5)).map (fun s => s.caller) = some (.returned none) := by
    decide +kernel
  obtain ⟨s, reach, returned⟩ := Option.map_eq_some_iff.mp ran
  obtain ⟨out, count, _⟩ := copy_exact shortCopy (· + 1) (fun _ => rfl) (fun _ _ => rfl) 2
    (by
      intro i bound
      have small : i = 0 ∨ i = 1 := by omega
      rcases small with rfl | rfl <;> decide)
    .eof (by decide) [] 5 s ⟨shortSchedule, reach⟩ none returned
  exact ⟨s, ⟨shortSchedule, reach⟩, returned, out, count⟩

end URoot.Dd
