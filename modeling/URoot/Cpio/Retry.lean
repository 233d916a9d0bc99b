import URoot.Cpio.Emitted
import Mathlib.Data.Nat.Find

set_option autoImplicit false

namespace URoot.Newc

open GoLib Cpio Act

section Accepted

variable {σ : Type} (io : IoWriter σ) (honest : io.Honest)

def Accepts (s next : Writer (σ × Bytes)) (bytes : Bytes) : Prop :=
  next.w.2 = s.w.2 ++ bytes ∧ next.pos = s.pos + bytes.length

theorem accepts_nothing (s : Writer (σ × Bytes)) : Accepts s s [] := ⟨(List.append_nil _).symm, rfl⟩

theorem accepts_append {s middle next : Writer (σ × Bytes)} {a b : Bytes} (first : Accepts s middle a)
    (second : Accepts middle next b) : Accepts s next (a ++ b) := by
  refine ⟨by rw [second.1, first.1, List.append_assoc], ?_⟩
  rw [second.2, first.2, List.length_append, Nat.add_assoc]

include honest

theorem write_accepts {bytes : Bytes} {s next : Writer (σ × Bytes)} {n : Nat}
    (done : (write io.logged bytes).run s = (.ok n, next)) : n = bytes.length ∧ Accepts s next bytes := by
  have contract := honest s.w.1 bytes
  rcases out : io.write s.w.1 bytes with ⟨sink, m, e⟩
  rw [out] at contract
  cases e with
  | some e =>
      simp only [write, IoWriter.logged, out] at done
      cases done
  | none =>
      have whole : m = bytes.length := contract rfl
      simp only [write, IoWriter.logged, out, whole, List.take_length] at done
      cases done
      exact ⟨rfl, rfl, rfl⟩

theorem pad_accepts (s next : Writer (σ × Bytes)) (done : (pad io.logged).run s = (.ok (), next)) :
    Accepts s next (padding s.pos) := by
  rw [pad, run_get_bind] at done
  by_cases aligned : round4 s.pos = s.pos
  · rw [if_neg (not_not_intro aligned)] at done
    cases done
    have none : padding s.pos = [] := by rw [padding, aligned, Nat.sub_self, List.replicate_zero]
    rw [none]
    exact accepts_nothing s
  · rw [if_pos aligned] at done
    obtain ⟨n, middle, wrote, rest⟩ := run_bind_inv done
    cases rest
    exact (write_accepts io honest wrote).2

theorem copy_blocks_accepts (pieces : List Bytes) (s next : Writer (σ × Bytes)) (n : Nat)
    (done : (copyBlocks (write io.logged) pieces).run s = (.ok n, next)) :
    n = pieces.flatten.length ∧ Accepts s next pieces.flatten := by
  induction pieces generalizing s n with
  | nil =>
      cases done
      exact ⟨rfl, accepts_nothing _⟩
  | cons block rest ih =>
      obtain ⟨m, middle, wrote, later⟩ := run_bind_inv done
      obtain ⟨_, _, checked, more⟩ := run_bind_inv later
      obtain ⟨-, rfl⟩ := run_require_inv _ _ _ _ checked
      obtain ⟨k, last, copied, final⟩ := run_bind_inv more
      cases final
      obtain ⟨rfl, first⟩ := write_accepts io honest wrote
      obtain ⟨rfl, second⟩ := ih _ k copied
      rw [List.flatten_cons, List.length_append]
      exact ⟨rfl, accepts_append first second⟩

theorem io_copy_accepts (source : ReadCloser) (s next : Writer (σ × Bytes)) (n : Nat)
    (done : (ioCopy (write io.logged) source).run s = (.ok n, next)) :
    source.readErr = none ∧ n = source.content.length ∧ Accepts s next source.content := by
  have readable := io_copy_inv done
  obtain ⟨m, middle, copied, rest⟩ := run_bind_inv done
  obtain ⟨_, _, checked, final⟩ := run_bind_inv rest
  obtain ⟨-, rfl⟩ := run_check_inv checked
  cases final
  obtain ⟨rfl, accepted⟩ := copy_blocks_accepts io honest _ s _ n copied
  rw [blocks_flatten _ _ (by decide)] at accepted ⊢
  exact ⟨readable, rfl, accepted⟩

def body (pos : Nat) (f : Record) : Bytes := (recordHead f ++ padding (pos + (recordHead f).length)) ++ f.content

theorem write_record_accepts {f : Record} {s next : Writer (σ × Bytes)}
    (done : (writeRecord io.logged f).run s = (.ok (), next)) :
    (∀ source, f.readCloser = some source → source.readErr = none) ∧ ∃ rest, Accepts s next (body s.pos f ++ rest) := by
  obtain ⟨n₁, s₁, magic, done⟩ := run_bind_inv done
  obtain ⟨n₂, s₂, header, done⟩ := run_bind_inv done
  obtain ⟨n₃, s₃, name, done⟩ := run_bind_inv done
  obtain ⟨_, s₄, padded, done⟩ := run_bind_inv done
  have head : Accepts s s₃ (recordHead f) :=
    accepts_append (write_accepts io honest magic).2
      (accepts_append (write_accepts io honest header).2 (write_accepts io honest name).2)
  have named := accepts_append head (pad_accepts io honest _ _ padded)
  rw [head.2] at named
  cases present : f.readCloser with
  | none =>
      rw [present] at done
      cases done
      refine ⟨fun source impossible => (by cases impossible), [], ?_⟩
      rw [body, Record.content, present, List.append_nil, List.append_nil]
      exact named
  | some source =>
      rw [present] at done
      obtain ⟨m, s₅, copied, done⟩ := run_bind_inv done
      obtain ⟨readable, -, content⟩ := io_copy_accepts io honest source _ _ m copied
      have whole := accepts_append named content
      have same : f.content = source.content := by rw [Record.content, present]
      refine ⟨fun other here => by cases here; exact readable, ?_⟩
      rw [body, same]
      by_cases some : 0 < m
      · rw [if_pos some] at done
        obtain ⟨_, s₆, closed, last⟩ := run_bind_inv done
        obtain ⟨-, rfl⟩ := run_check_inv closed
        exact ⟨_, accepts_append whole (pad_accepts io honest _ _ last)⟩
      · rw [if_neg some] at done
        obtain ⟨_, s₆, closed, last⟩ := run_bind_inv done
        obtain ⟨-, rfl⟩ := run_check_inv closed
        cases last
        exact ⟨[], by rw [List.append_nil]; exact whole⟩

end Accepted

end URoot.Newc

namespace URoot.Cpio

open GoLib

section Attempts

variable {σ : Type} (io : IoWriter σ)

structure Attempt where
  record : Record
  start : Nat
  result : Except WriteError Unit
  accepted : Bytes

def attempt (record : Record) (w : Writer (σ × Bytes)) : Attempt :=
  ⟨record, w.rw.pos, ((writeRecord io.logged record).run w).1,
    (((writeRecord io.logged record).run w).2.rw.w.2).drop w.rw.w.2.length⟩

inductive Call where
  | record (record : Record)
  | records (records : List Record)
  | trailer

def Call.perform : Call → Act WriteError (Writer (σ × Bytes)) Unit
  | .record r => writeRecord io.logged r
  | .records rs => writeRecords io.logged rs
  | .trailer => writeTrailer io.logged

def attempts : List Record → Writer (σ × Bytes) → List Attempt
  | [], _ => []
  | r :: rest, w =>
      match (writeRecord io.logged r).run w with
      | (.ok _, next) => attempt io r w :: attempts rest next
      | (.error _, _) => [attempt io r w]

def Call.attempts : Call → Writer (σ × Bytes) → List Attempt
  | .record r, w => [attempt io r w]
  | .records rs, w => Cpio.attempts io rs w
  | .trailer, w => [attempt io trailerRecord w]

def history : List Call → Writer (σ × Bytes) → List Attempt
  | [], _ => []
  | call :: rest, w => call.attempts io w ++ history rest ((call.perform io).run w).2

inductive Trace : Writer (σ × Bytes) → List Attempt → Writer (σ × Bytes) → Prop where
  | done (w : Writer (σ × Bytes)) : Trace w [] w
  | step (w last : Writer (σ × Bytes)) (record : Record) (rest : List Attempt)
      (later : Trace ((writeRecord io.logged record).run w).2 rest last) : Trace w (attempt io record w :: rest) last

theorem trace_append (w middle last : Writer (σ × Bytes)) (a b : List Attempt) (first : Trace io w a middle)
    (second : Trace io middle b last) : Trace io w (a ++ b) last := by
  induction first with
  | done => exact second
  | step w middle record rest _ ih => exact .step w last record _ (ih second)

theorem attempts_trace (records : List Record) (w : Writer (σ × Bytes)) :
    Trace io w (attempts io records w) ((writeRecords io.logged records).run w).2 := by
  induction records generalizing w with
  | nil => exact .done w
  | cons r rest ih =>
      rcases ran : (writeRecord io.logged r).run w with ⟨result, next⟩
      cases result with
      | ok _ =>
          simp only [attempts, writeRecords, ran]
          exact .step w _ r _ (by rw [ran]; exact ih next)
      | error e =>
          simp only [attempts, writeRecords, ran]
          exact .step w _ r _ (by rw [ran]; exact .done next)

theorem call_trace (call : Call) (w : Writer (σ × Bytes)) :
    Trace io w (call.attempts io w) ((call.perform io).run w).2 := by
  cases call with
  | record r => exact .step w _ r [] (.done _)
  | records rs => exact attempts_trace io rs w
  | trailer => exact .step w _ trailerRecord [] (.done _)

theorem history_trace (calls : List Call) (w : Writer (σ × Bytes)) : ∃ last, Trace io w (history io calls w) last := by
  induction calls generalizing w with
  | nil => exact ⟨w, .done w⟩
  | cons call rest ih =>
      obtain ⟨last, later⟩ := ih ((call.perform io).run w).2
      exact ⟨last, trace_append io w _ last _ _ (call_trace io call w) later⟩

theorem names_after (record : Record) (w : Writer (σ × Bytes)) (name : Bytes) :
    name ∈ ((writeRecord io.logged record).run w).2.alreadyWritten ↔ name = nameOf record ∨ name ∈ w.alreadyWritten := by
  by_cases old : nameOf record ∈ w.alreadyWritten
  · rw [write_record_seen io.logged record w old]
    constructor
    · exact Or.inr
    · rintro (rfl | there)
      · exact old
      · exact there
  · rw [write_record_unseen io.logged record w old, formatWrite]
    rcases ran : (Newc.writeRecord io.logged (stored record)).run w.rw with ⟨result, next⟩
    cases result with
    | ok _ => simp only [ran, List.mem_cons]
    | error e => simp only [ran, List.mem_cons]

theorem trace_at {w last : Writer (σ × Bytes)} {list : List Attempt} (trace : Trace io w list last) (j : Nat) (a : Attempt)
    (here : list[j]? = some a) :
    ∃ now, a = attempt io a.record now ∧ ∀ name, name ∈ now.alreadyWritten ↔
      name ∈ w.alreadyWritten ∨ ∃ k b, k < j ∧ list[k]? = some b ∧ nameOf b.record = name := by
  induction trace generalizing j with
  | done w => cases here
  | step w last record rest later ih =>
      cases j with
      | zero =>
          cases here
          exact ⟨w, rfl, fun name => ⟨Or.inl, fun either => either.elim id (by rintro ⟨k, b, impossible, -⟩; omega)⟩⟩
      | succ j =>
          obtain ⟨now, same, names⟩ := ih j here
          refine ⟨now, same, fun name => ?_⟩
          rw [names, names_after]
          constructor
          · rintro ((rfl | there) | ⟨k, b, less, found, named⟩)
            · exact Or.inr ⟨0, attempt io record w, by omega, rfl, rfl⟩
            · exact Or.inl there
            · exact Or.inr ⟨k + 1, b, by omega, found, named⟩
          · rintro (there | ⟨k, b, less, found, named⟩)
            · exact Or.inl (Or.inr there)
            · cases k with
              | zero =>
                  cases found
                  exact Or.inl (Or.inl named.symm)
              | succ k => exact Or.inr ⟨k, b, by omega, found, named⟩

end Attempts

section Written

variable {σ : Type} (io : IoWriter σ)

def Attempt.Complete (a : Attempt) : Prop :=
  (∀ source, a.record.readCloser = some source → source.readErr = none) ∧ Newc.body a.start (stored a.record) <+: a.accepted

theorem seen_incomplete (record : Record) (w : Writer (σ × Bytes)) (old : nameOf record ∈ w.alreadyWritten) :
    ¬ (attempt io record w).Complete := by
  rintro ⟨-, accepted⟩
  have nothing : (attempt io record w).accepted = [] := by
    rw [attempt, write_record_seen io.logged record w old, List.drop_length]
  rw [nothing] at accepted
  have size := congrArg List.length (List.prefix_nil.mp accepted)
  rw [Newc.body, List.length_append, List.length_append, Newc.record_head_length, List.length_nil] at size
  omega

theorem new_complete (honest : io.Honest) (record : Record) (w : Writer (σ × Bytes)) (new : nameOf record ∉ w.alreadyWritten)
    (done : (attempt io record w).result = .ok ()) : (attempt io record w).Complete := by
  rw [attempt, write_record_unseen io.logged record w new, formatWrite] at done ⊢
  rcases ran : (Newc.writeRecord io.logged (stored record)).run w.rw with ⟨result, next⟩
  cases result with
  | error e =>
      simp only [ran] at done
      cases done
  | ok _ =>
      obtain ⟨readable, rest, accepts⟩ := Newc.write_record_accepts io honest ran
      refine ⟨readable, rest, ?_⟩
      simp only [ran, accepts.1, List.drop_left]

def FirstUnder (list : List Attempt) (name : Bytes) (i : Nat) (first : Attempt) : Prop :=
  list[i]? = some first ∧ nameOf first.record = name ∧ ∀ k < i, ∀ b, list[k]? = some b → nameOf b.record ≠ name

theorem first_exists (list : List Attempt) (j : Nat) (a : Attempt) (here : list[j]? = some a) :
    ∃ i ≤ j, ∃ first, FirstUnder list (nameOf a.record) i first := by
  classical
  have known : ∃ k, ∃ b : Attempt, list[k]? = some b ∧ nameOf b.record = nameOf a.record := ⟨j, a, here, rfl⟩
  obtain ⟨first, found, named⟩ := Nat.find_spec known
  refine ⟨Nat.find known, Nat.find_min' known ⟨a, here, rfl⟩, first, found, named, ?_⟩
  intro k less b there same
  exact Nat.find_min known less ⟨b, there, same⟩

section First

variable (sink : σ) (last : Writer (σ × Bytes)) (list : List Attempt) (trace : Trace io (newWriter (sink, [])) list last)
  (name : Bytes) (i : Nat) (first : Attempt) (under : FirstUnder list name i first)

include trace under

theorem first_written (honest : io.Honest) (ok : first.result = .ok ()) : first.Complete := by
  obtain ⟨found, named, earliest⟩ := under
  obtain ⟨now, same, names⟩ := trace_at io trace i first found
  have new : nameOf first.record ∉ now.alreadyWritten := by
    rw [names]
    rintro (impossible | ⟨k, b, less, there, equal⟩)
    · cases impossible
    · exact earliest k less b there (equal.trans named)
  rw [same] at ok ⊢
  exact new_complete io honest first.record now new ok

theorem later_seen (k : Nat) (b : Attempt) (behind : i < k) (there : list[k]? = some b) (named : nameOf b.record = name) :
    b.result = .ok () ∧ ¬ b.Complete := by
  obtain ⟨now, same, names⟩ := trace_at io trace k b there
  have old : nameOf b.record ∈ now.alreadyWritten :=
    (names _).mpr (Or.inr ⟨i, first, behind, under.1, under.2.1.trans named.symm⟩)
  rw [same]
  refine ⟨?_, seen_incomplete io b.record now old⟩
  rw [attempt, write_record_seen io.logged b.record now old]

theorem only_first_complete (k : Nat) (b : Attempt) (there : list[k]? = some b) (named : nameOf b.record = name)
    (complete : b.Complete) : k = i ∧ b = first := by
  rcases Nat.lt_trichotomy k i with less | rfl | more
  · exact absurd named (under.2.2 k less b there)
  · exact ⟨rfl, Option.some.inj (there.symm.trans under.1)⟩
  · exact absurd complete (later_seen io sink last list trace name i first under k b more there named).2

end First

-- The first attempt under the name decides: the later ones all return nil, and nothing makes up
-- for what it did not write.
theorem nil_means_written_iff (honest : io.Honest) (sink : σ) (calls : List Call) (j : Nat) (a : Attempt)
    (here : (history io calls (newWriter (sink, [])))[j]? = some a) :
    ((a.result = .ok () → ∃ k ≤ j, ∃ b, (history io calls (newWriter (sink, [])))[k]? = some b ∧
        nameOf b.record = nameOf a.record ∧ b.Complete) ↔
      (a.result = .ok () → ∃ i ≤ j, ∃ first, FirstUnder (history io calls (newWriter (sink, []))) (nameOf a.record) i first ∧
        (first.result = .ok () ∨ first.Complete))) ∧
    ∀ i first, FirstUnder (history io calls (newWriter (sink, []))) (nameOf a.record) i first → i < j → a.result = .ok () := by
  obtain ⟨last, trace⟩ := history_trace io calls (newWriter (sink, []))
  generalize history io calls (newWriter (sink, [])) = list at here trace ⊢
  refine ⟨imp_congr_right fun _ => ⟨?_, ?_⟩, ?_⟩
  · rintro ⟨k, bound, b, there, named, complete⟩
    obtain ⟨i, -, first, under⟩ := first_exists list j a here
    obtain ⟨rfl, rfl⟩ := only_first_complete io sink last list trace _ i first under k b there named complete
    exact ⟨k, bound, b, under, Or.inr complete⟩
  · rintro ⟨i, bound, first, under, ok | complete⟩
    · exact ⟨i, bound, first, under.1, under.2.1, first_written io sink last list trace _ i first under honest ok⟩
    · exact ⟨i, bound, first, under.1, under.2.1, complete⟩
  · intro i first under behind
    exact (later_seen io sink last list trace _ i first under j a behind here rfl).1

def failing : IoWriter Nat where
  write left bytes := if left = 0 then (0, bytes.length, none) else (left - 1, 0, some (.other (str "disk full")))

theorem failing_honest : failing.Honest := by
  intro left bytes ok
  by_cases zero : left = 0
  · simp [failing, zero]
  · simp [failing, zero] at ok

theorem working_disk_written :
    ∃ k ≤ 1, ∃ b, (history failing [.record { info := { name := str "a" } }, .records [{ info := { name := str "/a" } }], .trailer]
      (newWriter (0, [])))[k]? = some b ∧ nameOf b.record = str "a" ∧ b.Complete :=
  (nil_means_written_iff failing failing_honest 0
    [.record { info := { name := str "a" } }, .records [{ info := { name := str "/a" } }], .trailer] 1
    (attempt failing { info := { name := str "/a" } }
      ((writeRecord failing.logged { info := { name := str "a" } }).run (newWriter (0, []))).2) rfl).1.mpr
    (fun _ => ⟨0, Nat.zero_le 1, attempt failing { info := { name := str "a" } } (newWriter (0, [])),
      ⟨rfl, rfl, fun k less => absurd less (Nat.not_lt_zero k)⟩, Or.inl (by decide +kernel)⟩) (by decide +kernel)

theorem retried_record_lost :
    (history failing [.record { info := { name := str "a" } }, .record { info := { name := str "a" } }]
      (newWriter (1, []))).map (fun a => (a.result, a.accepted)) =
        [(.error (.record (.other (str "disk full"))), []), (.ok (), [])] := by
  decide +kernel

end Written

end URoot.Cpio
