import URoot.Lib.Io

set_option autoImplicit false

namespace GoLib

inductive Stop (ε : Type) where
  | fuel
  | raised (e : ε)
deriving DecidableEq, Repr

theorem ok_ended {ε α : Type} (a : α) : (.ok a : Except (Stop ε) α) ≠ .error .fuel := by
  intro same
  cases same

theorem raised_ended {ε α : Type} (e : ε) : (.error (.raised e) : Except (Stop ε) α) ≠ .error .fuel := by
  intro same
  cases same

namespace Act

variable {ε σ τ α β : Type}

def isolated (start : τ) (x : Act ε τ α) : Act ε σ α := ⟨fun s => ((x.run start).1, s)⟩

-- recover: what was raised becomes a result; running out of fuel does not.
def attempt (x : Act (Stop ε) σ α) : Act (Stop ε) σ (Except ε α) :=
  ⟨fun s =>
    match x.run s with
    | (.ok a, next) => (.ok (.ok a), next)
    | (.error (.raised e), next) => (.ok (.error e), next)
    | (.error .fuel, next) => (.error .fuel, next)⟩

theorem attempt_ok_inv (x : Act (Stop ε) σ α) (s last : σ) (a : α) (done : (attempt x).run s = (.ok (.ok a), last)) :
    x.run s = (.ok a, last) := by
  simp only [attempt] at done
  split at done
  · rename_i ran
    cases done
    exact ran
  · cases done
  · cases done

def Approx (x y : Act (Stop ε) σ α) : Prop := ∀ s, (x.run s).1 ≠ .error .fuel → y.run s = x.run s

section Approx

theorem approx_refl (x : Act (Stop ε) σ α) : Approx x x := fun _ _ => rfl

theorem approx_fuel (y : Act (Stop ε) σ α) : Approx (fail .fuel) y := fun _ ended => absurd rfl ended

theorem approx_bind {x y : Act (Stop ε) σ α} {f g : α → Act (Stop ε) σ β} (first : Approx x y)
    (second : ∀ a, Approx (f a) (g a)) : Approx (x >>= f) (y >>= g) := by
  intro s ended
  rcases ran : x.run s with ⟨result, next⟩
  cases result with
  | ok a =>
      have same := first s (by rw [ran]; exact ok_ended a)
      rw [ran] at same
      rw [run_bind_ok ran] at ended ⊢
      rw [run_bind_ok same]
      exact second a next ended
  | error e =>
      rw [run_bind_error ran] at ended ⊢
      have same := first s (by rw [ran]; exact fun out => ended (congrArg _ (Except.error.inj out)))
      rw [ran] at same
      rw [run_bind_error same]

theorem approx_ite (p : Prop) [Decidable p] (x x' y y' : Act (Stop ε) σ α) (first : Approx x x') (second : Approx y y') :
    Approx (if p then x else y) (if p then x' else y') := by
  by_cases holds : p
  · rw [if_pos holds, if_pos holds]
    exact first
  · rw [if_neg holds, if_neg holds]
    exact second

theorem approx_isolated (start : τ) (x y : Act (Stop ε) τ α) (inner : Approx x y) :
    Approx (isolated start x : Act (Stop ε) σ α) (isolated start y) := by
  intro s ended
  have same := inner start ended
  simp only [isolated, same]

theorem approx_attempt (x y : Act (Stop ε) σ α) (inner : Approx x y) : Approx (attempt x) (attempt y) := by
  intro s ended
  have same := inner s (fun out => ended (by
    rcases ran : x.run s with ⟨result, next⟩
    rw [ran] at out
    cases out
    simp only [attempt, ran]))
  simp only [attempt, same]

end Approx

end Act

namespace Fuel

open Act

variable {ε σ τ α β : Type}

-- A loop that need not end is a family: one computation for each number of rounds
-- it may take. More rounds never change a result.
def Mono (x : Nat → Act (Stop ε) σ α) : Prop := ∀ n, Approx (x n) (x (n + 1))

def Ends (x : Nat → Act (Stop ε) σ α) (s : σ) (out : Except (Stop ε) α) (last : σ) : Prop :=
  out ≠ .error .fuel ∧ ∃ n, (x n).run s = (out, last)

section Mono

theorem mono_const (x : Act (Stop ε) σ α) : Mono (fun _ => x) := fun _ => approx_refl x

theorem mono_bind (x : Nat → Act (Stop ε) σ α) (f : Nat → α → Act (Stop ε) σ β) (first : Mono x)
    (second : ∀ a, Mono (fun n => f n a)) : Mono (fun n => x n >>= f n) :=
  fun n => approx_bind (first n) (fun a => second a n)

theorem mono_isolated (start : τ) (x : Nat → Act (Stop ε) τ α) (inner : Mono x) :
    Mono (fun n => (isolated start (x n) : Act (Stop ε) σ α)) := fun n => approx_isolated start _ _ (inner n)

theorem mono_attempt {x : Nat → Act (Stop ε) σ α} (inner : Mono x) : Mono (fun n => attempt (x n)) :=
  fun n => approx_attempt _ _ (inner n)

theorem mono_add (x : Nat → Act (Stop ε) σ α) (mono : Mono x) (n k : Nat) (s : σ)
    (ended : ((x n).run s).1 ≠ .error .fuel) : (x (n + k)).run s = (x n).run s := by
  induction k with
  | zero => rfl
  | succ k ih =>
      rw [← ih] at ended
      rw [← Nat.add_assoc, mono (n + k) s ended, ih]

theorem mono_le {x : Nat → Act (Stop ε) σ α} (mono : Mono x) (n m : Nat) (le : n ≤ m) (s last : σ)
    (out : Except (Stop ε) α) (ended : out ≠ .error .fuel) (done : (x n).run s = (out, last)) :
    (x m).run s = (out, last) := by
  obtain ⟨k, rfl⟩ := Nat.exists_eq_add_of_le le
  rw [mono_add x mono n k s (by rw [done]; exact ended), done]

end Mono

section Ends

variable (x : Nat → Act (Stop ε) σ α) (f : Nat → α → Act (Stop ε) σ β)

theorem ends_unique (mono : Mono x) (s p q : σ) (a b : Except (Stop ε) α) (first : Ends x s a p) (second : Ends x s b q) :
    a = b ∧ p = q := by
  obtain ⟨firstEnded, n, firstDone⟩ := first
  obtain ⟨secondEnded, m, secondDone⟩ := second
  have here := mono_le mono n (max n m) (Nat.le_max_left n m) s p a firstEnded firstDone
  have there := mono_le mono m (max n m) (Nat.le_max_right n m) s q b secondEnded secondDone
  rw [here] at there
  exact ⟨congrArg Prod.fst there, congrArg Prod.snd there⟩

theorem ends_const (y : Act (Stop ε) σ α) (s last : σ) (out : Except (Stop ε) α) :
    Ends (fun _ => y) s out last ↔ out ≠ .error .fuel ∧ y.run s = (out, last) :=
  ⟨fun ⟨ended, _, done⟩ => ⟨ended, done⟩, fun ⟨ended, done⟩ => ⟨ended, 0, done⟩⟩

theorem ends_pure (a : α) (s last : σ) (out : Except (Stop ε) α) :
    Ends (fun _ => pure a) s out last ↔ out = .ok a ∧ last = s := by
  rw [ends_const, run_pure]
  constructor
  · intro ⟨_, done⟩
    cases done
    exact ⟨rfl, rfl⟩
  · intro ⟨result, same⟩
    subst result same
    exact ⟨ok_ended a, rfl⟩

theorem ends_raise (e : ε) (s last : σ) (out : Except (Stop ε) α) :
    Ends (fun _ => fail (.raised e)) s out last ↔ out = .error (.raised e) ∧ last = s := by
  rw [ends_const, run_fail]
  constructor
  · intro ⟨_, done⟩
    cases done
    exact ⟨rfl, rfl⟩
  · intro ⟨result, same⟩
    subst result same
    exact ⟨raised_ended e, rfl⟩

theorem ends_bind (first : Mono x) (second : ∀ a, Mono (fun n => f n a)) (s last : σ) (out : Except (Stop ε) β) :
    Ends (fun n => x n >>= f n) s out last ↔
      (∃ e, out = .error (.raised e) ∧ Ends x s (.error (.raised e)) last) ∨
        ∃ a mid, Ends x s (.ok a) mid ∧ Ends (fun n => f n a) mid out last := by
  constructor
  · intro ⟨ended, n, done⟩
    rcases ran : (x n).run s with ⟨result, mid⟩
    cases result with
    | ok a =>
        rw [run_bind_ok ran] at done
        exact Or.inr ⟨a, mid, ⟨ok_ended a, n, ran⟩, ended, n, done⟩
    | error stop =>
        rw [run_bind_error ran] at done
        cases done
        cases stop with
        | fuel => exact absurd rfl ended
        | raised e => exact Or.inl ⟨e, rfl, raised_ended e, n, ran⟩
  · intro cases'
    rcases cases' with ⟨e, rfl, ended, n, ran⟩ | ⟨a, mid, ⟨firstEnded, n, ran⟩, ended, m, done⟩
    · exact ⟨raised_ended e, n, run_bind_error ran⟩
    · have here := mono_le first n (max n m) (Nat.le_max_left n m) s mid _ firstEnded ran
      have there := mono_le (second a) m (max n m) (Nat.le_max_right n m) mid last out ended done
      exact ⟨ended, max n m, by rw [run_bind_ok here, there]⟩

theorem ends_succ (y : Nat → Act (Stop ε) σ α) (zero : x 0 = fail .fuel) (succ : ∀ n, x (n + 1) = y n) (s last : σ)
    (out : Except (Stop ε) α) : Ends x s out last ↔ Ends y s out last := by
  constructor
  · intro ⟨ended, n, done⟩
    cases n with
    | zero =>
        rw [zero] at done
        cases done
        exact absurd rfl ended
    | succ n =>
        rw [succ] at done
        exact ⟨ended, n, done⟩
  · intro ⟨ended, n, done⟩
    exact ⟨ended, n + 1, by rw [succ, done]⟩

theorem ends_isolated (start : τ) (y : Nat → Act (Stop ε) τ α) (s last : σ) (out : Except (Stop ε) α) :
    Ends (fun n => (isolated start (y n) : Act (Stop ε) σ α)) s out last ↔ last = s ∧ ∃ mid, Ends y start out mid := by
  constructor
  · intro ⟨ended, n, done⟩
    cases done
    exact ⟨rfl, ((y n).run start).2, ended, n, rfl⟩
  · intro ⟨same, mid, ended, n, done⟩
    subst same
    exact ⟨ended, n, by simp only [isolated, done]⟩

theorem ends_attempt (s last : σ) (out : Except (Stop ε) (Except ε α)) :
    Ends (fun n => attempt (x n)) s out last ↔
      (∃ e, out = .ok (.error e) ∧ Ends x s (.error (.raised e)) last) ∨ ∃ a, out = .ok (.ok a) ∧ Ends x s (.ok a) last := by
  constructor
  · intro ⟨ended, n, done⟩
    rcases ran : (x n).run s with ⟨result, mid⟩
    simp only [attempt, ran] at done
    rcases result with (_ | e) | a
    · cases done
      exact absurd rfl ended
    · cases done
      exact Or.inl ⟨e, rfl, raised_ended e, n, ran⟩
    · cases done
      exact Or.inr ⟨a, rfl, ok_ended a, n, ran⟩
  · intro cases'
    rcases cases' with ⟨e, rfl, _, n, ran⟩ | ⟨a, rfl, _, n, ran⟩
    · exact ⟨ok_ended _, n, by simp only [attempt, ran]⟩
    · exact ⟨ok_ended _, n, by simp only [attempt, ran]⟩

end Ends

section Settles

def Settles (x : Nat → Act (Stop ε) σ α) (s : σ) (good : α → σ → Prop) : Prop :=
  ∃ bound out last, out ≠ .error .fuel ∧ (∀ fuel, bound ≤ fuel → (x fuel).run s = (out, last)) ∧ ∀ a, out = .ok a → good a last

theorem settles_const (x : Act (Stop ε) σ α) (s : σ) (good : α → σ → Prop) (ended : (x.run s).1 ≠ .error .fuel)
    (done : ∀ a last, x.run s = (.ok a, last) → good a last) : Settles (fun _ => x) s good :=
  ⟨0, (x.run s).1, (x.run s).2, ended, fun _ _ => rfl, fun a same => done a _ (Prod.ext same rfl)⟩

theorem settles_imp (x : Nat → Act (Stop ε) σ α) (s : σ) (good better : α → σ → Prop) (first : Settles x s good)
    (more : ∀ a last, good a last → better a last) : Settles x s better := by
  obtain ⟨bound, out, last, ended, ran, done⟩ := first
  exact ⟨bound, out, last, ended, ran, fun a same => more a last (done a same)⟩

theorem settles_lift (result : Except ε α) (s : σ) :
    Settles (fun _ => Act.ofExcept (result.mapError .raised)) s (fun a last => result = .ok a ∧ last = s) := by
  cases result with
  | error e => exact settles_const _ _ _ (raised_ended e) fun _ _ done => by cases done
  | ok a => exact settles_const _ _ _ (ok_ended a) fun _ _ done => by cases done; exact ⟨rfl, rfl⟩

theorem settles_bind (x : Nat → Act (Stop ε) σ α) (f : Nat → α → Act (Stop ε) σ β) (s : σ) (good : α → σ → Prop)
    (better : β → σ → Prop) (first : Settles x s good) (second : ∀ a last, good a last → Settles (fun n => f n a) last better) :
    Settles (fun n => x n >>= f n) s better := by
  obtain ⟨bound, out, mid, ended, ran, done⟩ := first
  cases out with
  | error e =>
      refine ⟨bound, .error e, mid, fun same => ended (congrArg _ (Except.error.inj same)), fun fuel enough => ?_, fun _ same => by cases same⟩
      rw [Act.run_bind_error (ran fuel enough)]
  | ok a =>
      obtain ⟨more, result, last, stopped, later, final⟩ := second a mid (done a rfl)
      refine ⟨max bound more, result, last, stopped, fun fuel enough => ?_, final⟩
      rw [Act.run_bind_ok (ran fuel (le_of_max_le_left enough)), later fuel (le_of_max_le_right enough)]

theorem settles_within {get : σ → τ} (set : σ → τ → σ) (x : Nat → Act (Stop ε) τ α) (s : σ) (good : α → τ → Prop)
    (inner : Settles x (get s) good) :
    Settles (fun n => Act.within get set id (x n)) s (fun a last => ∃ t, last = set s t ∧ good a t) := by
  obtain ⟨bound, out, last, ended, ran, done⟩ := inner
  refine ⟨bound, out, set s last, ended, fun fuel enough => ?_, fun a same => ⟨last, rfl, done a same⟩⟩
  simp only [Act.within, ran fuel enough]
  cases out <;> rfl

end Settles

end Fuel

end GoLib
