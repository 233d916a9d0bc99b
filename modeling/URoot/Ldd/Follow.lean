import URoot.Lib.CleanPath
import URoot.Lib.Closure
import URoot.Lib.Fuel
import Mathlib.Data.Set.Finite.Basic
import Mathlib.Logic.Function.Basic

set_option autoImplicit false

namespace URoot.Ldd

open GoLib Relation Act

-- os.Lstat and os.Readlink of a path. Readlink fails on what is no symbolic link.
inductive Node where
  | missing
  | regular
  | symlink (target : Bytes)
  | other
deriving DecidableEq, Repr

structure FileInfo where
  fullName : Bytes
  node : Node
deriving DecidableEq, Repr

-- map[string]*FileInfo
abbrev Names : Type := Bytes → Option FileInfo

inductive Failure where
  | lstat (path : Bytes)
  | readlink (path : Bytes)
  | openFile (path err : Bytes)
  | interpData (err : Bytes)
  | sliceBounds
  | ldSo (err : Bytes)
  | runinterp (err : Bytes)
deriving DecidableEq, Repr

def Names.add (names : Names) (l : Bytes) (node : Node) : Names := Function.update names l (some ⟨l, node⟩)

-- Where a link leads. An absolute target is taken as it stands, uncleaned.
def resolve (l next : Bytes) : Bytes :=
  if Filepath.isAbs next then next else Filepath.joinTwo (Filepath.dir l) next

section Follow

variable (fs : Bytes → Node)

-- A name stays in the map when the loop fails after it.
def follow : Nat → Bytes → Act (Stop Failure) Names Unit
  | 0, _ => Act.fail .fuel
  | fuel + 1, l => do
      let names ← Act.get
      match names l with
      | some _ => pure ()
      | none =>
          match fs l with
          | .missing => Act.fail (.raised (.lstat l))
          | .regular => Act.set (names.add l .regular)
          | .other => do
              Act.set (names.add l .other)
              Act.fail (.raised (.readlink l))
          | .symlink next => do
              Act.set (names.add l (.symlink next))
              follow fuel (resolve l next)

def Link (l l' : Bytes) : Prop := ∃ next, fs l = .symlink next ∧ l' = resolve l next

def Chain (start : Bytes) : Bytes → Prop := ReflTransGen (Link fs) start

def Closed (names : Names) : Prop := ∀ l l', names l ≠ none → Link fs l l' → names l' ≠ none

variable {fs} (fuel : Nat) {l : Bytes} {names : Names}

theorem follow_found (found : names l ≠ none) :
    (follow fs (fuel + 1) l).run names = (.ok (), names) := by
  rw [follow, run_get_bind]
  cases entry : names l with
  | none => exact absurd entry found
  | some info => rfl

variable (absent : names l = none)

include absent

theorem follow_missing (missing : fs l = .missing) :
    (follow fs (fuel + 1) l).run names = (.error (.raised (.lstat l)), names) := by
  rw [follow, run_get_bind, absent]
  dsimp only
  rw [missing]
  rfl

theorem follow_regular (regular : fs l = .regular) :
    (follow fs (fuel + 1) l).run names = (.ok (), names.add l .regular) := by
  rw [follow, run_get_bind, absent]
  dsimp only
  rw [regular]
  rfl

theorem follow_other (other : fs l = .other) :
    (follow fs (fuel + 1) l).run names = (.error (.raised (.readlink l)), names.add l .other) := by
  rw [follow, run_get_bind, absent]
  dsimp only
  rw [other]
  rfl

theorem follow_link {next : Bytes} (link : fs l = .symlink next) :
    (follow fs (fuel + 1) l).run names = (follow fs fuel (resolve l next)).run (names.add l (.symlink next)) := by
  rw [follow, run_get_bind, absent]
  dsimp only
  rw [link]
  rfl

end Follow

section Added

variable (names : Names) (l : Bytes) (node : Node)

theorem add_self : names.add l node l ≠ none := by
  rw [Names.add, Function.update_self]
  exact Option.some_ne_none _

theorem add_other {l' : Bytes} (other : l' ≠ l) : names.add l node l' = names l' := Function.update_of_ne other ..

theorem add_grows (l' : Bytes) (present : names l' ≠ none) : names.add l node l' ≠ none := by
  by_cases same : l' = l
  · rw [same]
    exact add_self names l node
  · rw [add_other names l node same]
    exact present

end Added

section Loop

variable (fs : Bytes → Node) (start : Bytes) (names : Names)

-- The map when the loop is at l: only l may be missing behind a link.
structure Pending (w : Names) (l : Bytes) : Prop where
  kept : ∀ name info, names name = some info → w name = some info
  added : ∀ name, w name ≠ none → names name = none → Chain fs start name
  closed : ∀ name name', w name ≠ none → Link fs name name' → w name' ≠ none ∨ name' = l
  begun : w start ≠ none ∨ l = start
  here : Chain fs start l

structure Followed (last : Names) : Prop where
  started : last start ≠ none
  kept : ∀ name info, names name = some info → last name = some info
  added : ∀ name, last name ≠ none → names name = none → Chain fs start name
  closed : Closed fs last

theorem pending_start (closed : Closed fs names) : Pending fs start names names start where
  kept _ _ entry := entry
  added _ present absent := absurd absent present
  closed name name' present link := Or.inl (closed name name' present link)
  begun := Or.inr rfl
  here := .refl

variable {fs start names} {w : Names} {l : Bytes} (pending : Pending fs start names w l)

include pending

theorem pending_found (found : w l ≠ none) :
    Followed fs start names w where
  started := by
    rcases pending.begun with before | rfl
    · exact before
    · exact found
  kept := pending.kept
  added := pending.added
  closed name name' present link := by
    rcases pending.closed name name' present link with behind | rfl
    · exact behind
    · exact found

theorem pending_add {next : Bytes} (node : Node) (absent : w l = none) (chain : Chain fs start next)
    (only : ∀ l', Link fs l l' → l' = next) :
    Pending fs start names (w.add l node) next where
  kept name info entry := by
    have present := pending.kept name info entry
    have other : name ≠ l := by
      rintro rfl
      cases absent.symm.trans present
    rw [add_other w l node other]
    exact present
  added name present fresh := by
    by_cases same : name = l
    · rw [same]
      exact pending.here
    · rw [add_other w l node same] at present
      exact pending.added name present fresh
  closed name name' present link := by
    by_cases same : name = l
    · exact Or.inr (only name' (same ▸ link))
    · rw [add_other w l node same] at present
      rcases pending.closed name name' present link with behind | rfl
      · exact Or.inl (add_grows w l node name' behind)
      · exact Or.inl (add_self w name' node)
  begun := by
    rcases pending.begun with before | rfl
    · exact Or.inl (add_grows w l node start before)
    · exact Or.inl (add_self w l node)
  here := chain

theorem pending_regular (absent : w l = none) (regular : fs l = .regular) : Followed fs start names (w.add l .regular) := by
  refine pending_found (pending_add pending .regular absent pending.here ?_) (add_self w l .regular)
  rintro l' ⟨next, link, -⟩
  cases regular.symm.trans link

theorem pending_link {next : Bytes} (absent : w l = none) (link : fs l = .symlink next) :
    Pending fs start names (w.add l (.symlink next)) (resolve l next) := by
  refine pending_add pending _ absent (pending.here.tail ⟨next, link, rfl⟩) ?_
  rintro l' ⟨next', link', rfl⟩
  cases link.symm.trans link'
  rfl

theorem follow_ok {fuel : Nat} {last : Names}
    (done : (follow fs fuel l).run w = (.ok (), last)) : Followed fs start names last := by
  induction fuel generalizing w l with
  | zero => cases done
  | succ fuel ih =>
      by_cases absent : w l = none
      · cases node : fs l with
        | missing =>
            rw [follow_missing fuel absent node] at done
            cases done
        | regular =>
            rw [follow_regular fuel absent node] at done
            cases done
            exact pending_regular pending absent node
        | other =>
            rw [follow_other fuel absent node] at done
            cases done
        | symlink next =>
            rw [follow_link fuel absent node] at done
            exact ih (pending_link pending absent node) done
      · rw [follow_found fuel absent] at done
        cases done
        exact pending_found pending absent

-- Every round adds a name of the chain, so the names left to add bound the rounds.
theorem follow_ends {all : Finset Bytes} (inside : ∀ l, Chain fs start l → l ∈ all) (n : Nat)
    (few : Closure.unmarked all (fun name => (w name).isSome) < n) :
    ∃ out last, out ≠ .error .fuel ∧ ∀ fuel, n ≤ fuel → (follow fs fuel l).run w = (out, last) := by
  induction n generalizing w l with
  | zero => exact absurd few (Nat.not_lt_zero _)
  | succ n ih =>
      have ends : ∀ out last, out ≠ .error .fuel → (∀ fuel, (follow fs (fuel + 1) l).run w = (out, last)) →
          ∃ out last, out ≠ .error .fuel ∧ ∀ fuel, n + 1 ≤ fuel → (follow fs fuel l).run w = (out, last) := by
        intro out last ended ran
        refine ⟨out, last, ended, fun fuel enough => ?_⟩
        obtain ⟨rounds, rfl⟩ := Nat.exists_eq_add_of_le enough
        rw [Nat.add_right_comm]
        exact ran _
      by_cases absent : w l = none
      · cases node : fs l with
        | missing => exact ends _ _ (raised_ended _) fun fuel => follow_missing fuel absent node
        | regular => exact ends _ _ (ok_ended _) fun fuel => follow_regular fuel absent node
        | other => exact ends _ _ (raised_ended _) fun fuel => follow_other fuel absent node
        | symlink next =>
            have marks : (fun name => (w.add l (.symlink next) name).isSome) =
                Function.update (fun name => (w name).isSome) l true := by
              funext name
              by_cases same : name = l
              · rw [same, Function.update_self, Names.add, Function.update_self]
                rfl
              · rw [Function.update_of_ne same, add_other w l _ same]
            have fewer := Closure.unmarked_mark all (fun name => (w name).isSome) l (inside l pending.here) (by rw [absent]; rfl)
            rw [← marks] at fewer
            obtain ⟨out, last, ended, ran⟩ := ih (pending_link pending absent node) (by omega)
            refine ⟨out, last, ended, fun fuel enough => ?_⟩
            obtain ⟨rounds, rfl⟩ := Nat.exists_eq_add_of_le enough
            rw [Nat.add_right_comm, follow_link _ absent node]
            exact ran _ (Nat.le_add_right n rounds)
      · exact ends _ _ (ok_ended _) fun fuel => follow_found fuel absent

end Loop

-- From a closed map, along a chain of finitely many names, the loop ends, with the same
-- result for every larger number of rounds; and when that is nil the map is closed again.
theorem follow_keeps_closed (fs : Bytes → Node) (names : Names) (start : Bytes) (closed : Closed fs names)
    (finite : {l | Chain fs start l}.Finite) :
    ∃ bound out last, out ≠ .error .fuel ∧ (∀ fuel, bound ≤ fuel → (follow fs fuel start).run names = (out, last)) ∧
      (out = .ok () → last start ≠ none ∧ (∀ l info, names l = some info → last l = some info) ∧
        (∀ l, last l ≠ none → names l = none → Chain fs start l) ∧ Closed fs last) := by
  have pending := pending_start fs start names closed
  obtain ⟨out, last, ended, ran⟩ := follow_ends pending (fun l chain => finite.mem_toFinset.mpr chain) _
    (Nat.lt_succ_self _)
  refine ⟨_, out, last, ended, ran, ?_⟩
  rintro rfl
  have followed := follow_ok pending (ran _ (Nat.le_refl _))
  exact ⟨followed.started, followed.kept, followed.added, followed.closed⟩

def libraryTree (path : Bytes) : Node :=
  if path = str "/lib64/libc.so.6" then .symlink (str "../lib/libc-2.24.so")
  else if path = str "/lib/libc-2.24.so" then .regular
  else if path = str "/lib64/a" then .symlink (str "b")
  else if path = str "/lib64/b" then .symlink (str "/lib64/a")
  else .missing

def noNames : Names := fun _ => none

theorem link_cycle_followed : ∃ bound out last, out ≠ .error .fuel ∧
    (∀ fuel, bound ≤ fuel → (follow libraryTree fuel (str "/lib64/a")).run noNames = (out, last)) ∧
    (out = .ok () → last (str "/lib64/a") ≠ none ∧ (∀ l info, noNames l = some info → last l = some info) ∧
      (∀ l, last l ≠ none → noNames l = none → Chain libraryTree (str "/lib64/a") l) ∧ Closed libraryTree last) := by
  refine follow_keeps_closed libraryTree noNames (str "/lib64/a") (fun _ _ present _ => absurd rfl present) ?_
  have first : libraryTree (str "/lib64/a") = .symlink (str "b") := by decide +kernel
  have second : libraryTree (str "/lib64/b") = .symlink (str "/lib64/a") := by decide +kernel
  have steps : ∀ l ∈ [str "/lib64/a", str "/lib64/b"], ∀ l', Link libraryTree l l' → l' ∈ [str "/lib64/a", str "/lib64/b"] := by
    rintro l member l' ⟨next, link, rfl⟩
    rcases List.mem_pair.mp member with rfl | rfl
    · cases first.symm.trans link
      decide +kernel
    · cases second.symm.trans link
      decide +kernel
  apply ([str "/lib64/a", str "/lib64/b"].finite_toSet).subset
  intro l chain
  induction chain with
  | refl => decide
  | tail _ link ih => exact steps _ ih _ link

end URoot.Ldd
