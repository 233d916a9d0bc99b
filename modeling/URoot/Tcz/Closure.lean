import URoot.Lib.Closure
import URoot.Tcz.Install
import Mathlib.Data.Set.Finite.Basic

set_option autoImplicit false

namespace URoot.Tcz

open GoLib Act

section Fetched

variable (setup : Setup)

theorem run_fetch_present {name : Bytes} {w : World} (present : w.disk (setup.fullPath name) ≠ .missing) :
    (setup.fetch name).run w = (.ok true, w) := by
  rw [Setup.fetch, run_get_bind]
  cases entry : w.disk (setup.fullPath name) with
  | missing => exact absurd entry present
  | file content => rfl
  | unreadable err => rfl

theorem run_fetch_missing (name text : Bytes) (w : World) (missing : w.disk (setup.fullPath name) = .missing)
    (status : setup.server (setup.packageName name) = .status text) : (setup.fetch name).run w = (.ok false, w) := by
  rw [Setup.fetch, run_get_bind, missing]
  dsimp only
  rw [status]
  rfl

theorem run_fetch_served (name body : Bytes) (w : World) (missing : w.disk (setup.fullPath name) = .missing)
    (served : setup.server (setup.packageName name) = .ok body none) (stored : setup.refuses (setup.fullPath name) = none) :
    (setup.fetch name).run w = (.ok true, w.store (setup.fullPath name) body) := by
  rw [Setup.fetch, run_get_bind, missing]
  dsimp only
  rw [served]
  dsimp only
  rw [stored]
  rfl

theorem run_write_stored (path content : Bytes) (w : World) (stored : setup.refuses path = none) :
    (setup.writeFile path content).run w = (.ok none, w.store path content) := by
  rw [Setup.writeFile, run_get_bind, stored]
  rfl

theorem run_read_file (name content : Bytes) (w : World) (file : w.disk (setup.fullPath name) = .file content) :
    (setup.readFile name).run w = (.ok content, w) := by
  rw [Setup.readFile, run_get_bind, file]
  rfl

theorem content_of_file {name content : Bytes} {w : World} (file : w.disk (setup.fullPath name) = .file content) :
    contentOf setup w name = content := by
  rw [contentOf, file]

theorem content_of_served {name body : Bytes} {w : World} (missing : w.disk (setup.fullPath name) = .missing)
    (served : setup.server (setup.packageName name) = .ok body none) : contentOf setup w name = body := by
  rw [contentOf, missing]
  dsimp only
  rw [served]

theorem content_of_missing (name text : Bytes) (w : World) (missing : w.disk (setup.fullPath name) = .missing)
    (status : setup.server (setup.packageName name) = .status text) : contentOf setup w name = [] := by
  rw [contentOf, missing]
  dsimp only
  rw [status]

end Fetched

section Running

variable (setup : Setup) (start : World) (packages : List Bytes)

def Needed : Bytes → Prop := Closure.Reached (Edge setup start) (Requested packages)

def Used (name : Bytes) : Prop := ∃ p, Needed setup start packages p ∧ (name = p ∨ name = Setup.depName p)

-- Fetches of packages succeed, a .dep file is there or missing, and the local
-- directory stores what is written. Two names of one local file are one file on the server.
structure Served : Prop where
  package : ∀ p, Needed setup start packages p → start.disk (setup.fullPath p) ≠ .missing ∨
    ∃ body, setup.server (setup.packageName p) = .ok body none ∧ setup.refuses (setup.fullPath p) = none
  list : ∀ p, Needed setup start packages p → (∃ content, start.disk (setup.fullPath (Setup.depName p)) = .file content) ∨
    start.disk (setup.fullPath (Setup.depName p)) = .missing ∧
      ((∃ body, setup.server (setup.packageName (Setup.depName p)) = .ok body none) ∨
        ∃ text, setup.server (setup.packageName (Setup.depName p)) = .status text)
  stored : ∀ p, Needed setup start packages p → setup.refuses (setup.fullPath (Setup.depName p)) = none
  oneFile : ∀ f g, Used setup start packages f → Used setup start packages g →
    setup.fullPath f = setup.fullPath g → setup.server (setup.packageName f) = setup.server (setup.packageName g)

theorem one_file_of_plain (plain : ∀ name, Used setup start packages name → Filepath.Plain name) :
    ∀ f g, Used setup start packages f → Used setup start packages g → setup.fullPath f = setup.fullPath g →
      setup.server (setup.packageName f) = setup.server (setup.packageName g) := by
  intro f g first second same
  rw [Filepath.join_two_injective setup.localDir f g (plain f first) (plain g second) same]

structure Kept (w : World) : Prop where
  lists : ∀ name, Used setup start packages name →
    dependencies setup (contentOf setup w name) = dependencies setup (contentOf setup start name)
  entries : ∀ path, w.disk path = start.disk path ∨ ∃ content, w.disk path = .file content

theorem kept_start : Kept setup start packages start := ⟨fun _ _ => rfl, fun _ => Or.inl rfl⟩

theorem kept_mark (w : World) (p : Bytes) (kept : Kept setup start packages w) : Kept setup start packages (w.mark p) :=
  ⟨kept.lists, kept.entries⟩

theorem kept_store {w : World} {path content : Bytes} (kept : Kept setup start packages w)
    (same : ∀ name, Used setup start packages name → setup.fullPath name = path →
      dependencies setup content = dependencies setup (contentOf setup w name)) :
    Kept setup start packages (w.store path content) where
  lists name used := by
    rw [← kept.lists name used]
    by_cases here : setup.fullPath name = path
    · rw [← same name used here]
      exact congrArg (dependencies setup) (content_of_file setup (by rw [here]; exact Function.update_self ..))
    · have other : (w.store path content).disk (setup.fullPath name) = w.disk (setup.fullPath name) := Function.update_of_ne here ..
      simp only [contentOf, other]
  entries at' := by
    by_cases here : at' = path
    · subst here
      exact Or.inr ⟨content, Function.update_self ..⟩
    · have other : (w.store path content).disk at' = w.disk at' := Function.update_of_ne here ..
      rw [other]
      exact kept.entries at'

variable {setup start packages}

theorem fetch_package (served : Served setup start packages) (w : World) (p : Bytes) (kept : Kept setup start packages w)
    (needed : Needed setup start packages p) :
    ∃ next, (setup.fetch p).run w = (.ok true, next) ∧ Kept setup start packages next ∧ next.deps = w.deps := by
  have used : Used setup start packages p := ⟨p, needed, Or.inl rfl⟩
  by_cases missing : w.disk (setup.fullPath p) = .missing
  · rcases served.package p needed with before | ⟨body, ok, stored⟩
    · rcases kept.entries (setup.fullPath p) with same | ⟨content, file⟩
      · exact absurd (same.symm.trans missing) before
      · cases missing.symm.trans file
    · refine ⟨_, run_fetch_served setup p body w missing ok stored, ?_, rfl⟩
      apply kept_store setup start packages kept
      intro name other same
      rw [content_of_served setup (by rw [same]; exact missing)
        (by rw [served.oneFile name p other used same]; exact ok)]
  · exact ⟨w, run_fetch_present setup missing, kept, rfl⟩

theorem fetch_list (served : Served setup start packages) (w : World) (p : Bytes) (kept : Kept setup start packages w)
    (needed : Needed setup start packages p) :
    (∃ next content, (setup.fetch (Setup.depName p)).run w = (.ok true, next) ∧ Kept setup start packages next ∧
        next.deps = w.deps ∧ next.disk (setup.fullPath (Setup.depName p)) = .file content) ∨
      (setup.fetch (Setup.depName p)).run w = (.ok false, w) ∧
        ∀ name, Used setup start packages name → setup.fullPath name = setup.fullPath (Setup.depName p) →
          contentOf setup w name = [] := by
  have used : Used setup start packages (Setup.depName p) := ⟨p, needed, Or.inr rfl⟩
  have present : ∀ content, w.disk (setup.fullPath (Setup.depName p)) = .file content → _ := fun content file =>
    run_fetch_present setup (by rw [file]; exact fun impossible => by cases impossible)
  rcases kept.entries (setup.fullPath (Setup.depName p)) with same | ⟨content, file⟩
  · rcases served.list p needed with ⟨content, file⟩ | ⟨missing, ⟨body, ok⟩ | ⟨text, status⟩⟩
    · exact Or.inl ⟨w, content, present content (same.trans file), kept, rfl, same.trans file⟩
    · have free := same.trans missing
      refine Or.inl ⟨_, body, run_fetch_served setup _ body w free ok (served.stored p needed), ?_, rfl, Function.update_self ..⟩
      apply kept_store setup start packages kept
      intro name other alike
      rw [content_of_served setup (by rw [alike]; exact free)
        (by rw [served.oneFile name _ other used alike]; exact ok)]
    · have free := same.trans missing
      refine Or.inr ⟨run_fetch_missing setup _ text w free status, fun name other alike => ?_⟩
      exact content_of_missing setup name text w (by rw [alike]; exact free)
        (by rw [served.oneFile name _ other used alike]; exact status)
  · exact Or.inl ⟨w, content, present content file, kept, rfl, file⟩

end Running

section Search

variable {setup : Setup} {start : World} {packages : List Bytes}

variable (setup start packages) in
-- The state between two steps of the search; isOpen are the packages whose lists are being read.
structure Running (w : World) (isOpen : Bytes → Prop) : Prop where
  kept : Kept setup start packages w
  walked : Closure.Walked (Edge setup start) (Requested packages) (fun p => w.deps p = true) isOpen

def Grows (w next : World) : Prop := ∀ p, w.deps p = true → next.deps p = true

theorem grows_trans {w middle next : World} (first : Grows w middle) (second : Grows middle next) : Grows w next :=
  fun p marked => second p (first p marked)

theorem grows_mark (w : World) (p : Bytes) : Grows w (w.mark p) := by
  intro q marked
  by_cases same : q = p
  · rw [same]
    exact Function.update_self ..
  · exact (Function.update_of_ne same ..).trans marked

theorem running_mark (w : World) (isOpen : Bytes → Prop) (p : Bytes) (needed : Needed setup start packages p)
    (running : Running setup start packages w isOpen) :
    Running setup start packages (w.mark p) (fun q => q = p ∨ isOpen q) := by
  refine ⟨kept_mark setup start packages w p running.kept, ?_⟩
  have entered := Closure.walked_enter _ _ _ _ p needed running.walked
  have marks : (fun q => (w.mark p).deps q = true) = fun q => q = p ∨ w.deps q = true := by
    funext q
    rw [World.mark]
    dsimp only
    by_cases same : q = p
    · simp [same]
    · simp [same]
  rw [marks]
  exact entered

variable (setup start packages) in
-- One call on a needed package, when at most n needed ones are unmarked after its own mark.
def Installs (all : Finset Bytes) (n : Nat) (install : Bytes → Act (Stop Failure) World Unit) : Prop :=
  ∀ w isOpen p, Needed setup start packages p → Running setup start packages w isOpen →
    Closure.unmarked all (w.mark p).deps < n →
      ∃ last, (install p).run w = (.ok (), last) ∧ Running setup start packages last isOpen ∧ Grows w last ∧ last.deps p = true

variable {all : Finset Bytes} (inside : ∀ p, Needed setup start packages p → p ∈ all)

include inside

section Lists

variable {n : Nat} {install : Bytes → Act (Stop Failure) World Unit} (installs : Installs setup start packages all n install)

include installs

theorem dep_line_marks {isOpen : Bytes → Prop} {v : Bytes} {w : World} (rest : Act (Stop Failure) World Bytes)
    (needed : Needed setup start packages v) (running : Running setup start packages w isOpen)
    (few : Closure.unmarked all w.deps ≤ n) :
    ∃ next, (if w.deps v then rest else do install v; rest).run w = rest.run next ∧
      Running setup start packages next isOpen ∧ Grows w next ∧ next.deps v = true := by
  cases marked : w.deps v with
  | true => exact ⟨w, by rw [if_pos rfl], running, fun _ before => before, marked⟩
  | false =>
      have fewer := Closure.unmarked_mark all w.deps v (inside v needed) marked
      obtain ⟨next, ran, runs, grows, own⟩ := installs w isOpen v needed running (Nat.lt_of_lt_of_le fewer few)
      refine ⟨next, ?_, runs, grows, own⟩
      rw [if_neg Bool.false_ne_true, run_bind_ok ran]

theorem dep_loop_marks {isOpen : Bytes → Prop} {lines : List Bytes} {w : World} (real : Bytes)
    (needed : ∀ v ∈ listed setup lines, Needed setup start packages v) (running : Running setup start packages w isOpen)
    (few : Closure.unmarked all w.deps ≤ n) :
    ∃ last, (setup.depLoop install lines real).run w = (.ok (real ++ (listed setup lines).flatMap (· ++ [10])), last) ∧
      Running setup start packages last isOpen ∧ Grows w last ∧ ∀ v ∈ listed setup lines, last.deps v = true := by
  induction lines generalizing w real with
  | nil => exact ⟨w, by rw [listed_nil, List.flatMap_nil, List.append_nil]; rfl, running, fun _ marked => marked, by simp⟩
  | cons v rest ih =>
      cases empty : v.isEmpty with
      | true =>
          obtain rfl := List.isEmpty_iff.mp empty
          refine ⟨w, ?_, running, fun _ marked => marked, by simp [listed_stop]⟩
          rw [listed_stop, List.flatMap_nil, List.append_nil]
          rfl
      | false =>
          rw [Setup.depLoop, if_neg (by simp [empty])]
          cases ignored : setup.ignorePackage v with
          | true =>
              rw [if_pos rfl]
              rw [listed_ignored setup v rest empty ignored] at needed ⊢
              exact ih real needed running few
          | false =>
              rw [if_neg Bool.false_ne_true, run_get_bind]
              rw [listed_kept setup v rest empty ignored] at needed ⊢
              obtain ⟨here, later⟩ := List.forall_mem_cons.mp needed
              obtain ⟨middle, ran, runs, grows, own⟩ := dep_line_marks inside installs
                (setup.depLoop install rest (real ++ (v ++ [10]))) here running few
              obtain ⟨last, done, ends, more, marks⟩ := ih (real ++ (v ++ [10])) later runs
                (Nat.le_trans (Closure.unmarked_grows all w.deps middle.deps grows) few)
              refine ⟨last, ?_, ends, grows_trans grows more, List.forall_mem_cons.mpr ⟨more v own, marks⟩⟩
              rw [ran, done, List.flatMap_cons, List.append_assoc]

theorem install_deps_closes (served : Served setup start packages) {isOpen : Bytes → Prop} {p content : Bytes} {w : World}
    (needed : Needed setup start packages p)
    (running : Running setup start packages w (fun q => q = p ∨ isOpen q)) (few : Closure.unmarked all w.deps ≤ n)
    (file : w.disk (setup.fullPath (Setup.depName p)) = .file content) :
    ∃ last, (setup.installDeps install p).run w = (.ok (), last) ∧ Running setup start packages last isOpen ∧ Grows w last := by
  have used : Used setup start packages (Setup.depName p) := ⟨p, needed, Or.inr rfl⟩
  have names : dependencies setup content = dependencies setup (contentOf setup start (Setup.depName p)) := by
    rw [← running.kept.lists _ used, content_of_file setup file]
  have next : ∀ v ∈ listed setup (content.splitOn 10), Needed setup start packages v := by
    intro v member
    have step : Edge setup start p v := by
      rw [Edge, ← names]
      exact member
    exact Closure.reached_next _ _ p v needed step
  obtain ⟨middle, ran, runs, grows, marks⟩ := dep_loop_marks inside installs [] next running few
  rw [List.nil_append] at ran
  have walked := Closure.walked_leave _ _ _ isOpen p (fun q step => by
    rw [Edge, ← names] at step
    exact marks q step) runs.walked
  rw [Setup.installDeps, run_bind_ok (run_read_file setup _ content w file),
    run_bind_ok ran]
  by_cases whole : content = (listed setup (content.splitOn 10)).flatMap (· ++ [10])
  · exact ⟨middle, by rw [if_pos whole]; rfl, ⟨runs.kept, walked⟩, grows⟩
  · rw [if_neg whole, run_bind_ok (run_write_stored setup _ _ middle (served.stored p needed))]
    refine ⟨_, rfl, ⟨?_, walked⟩, grows⟩
    apply kept_store setup start packages runs.kept
    intro name other alike
    rw [runs.kept.lists name other, ← running.kept.lists name other, content_of_file setup (by rw [alike]; exact file)]
    exact rewritten_dependencies setup content

end Lists

omit inside in
theorem blank_list_closes {isOpen : Bytes → Prop} {p : Bytes} {w : World} (needed : Needed setup start packages p)
    (running : Running setup start packages w (fun q => q = p ∨ isOpen q))
    (blank : ∀ name, Used setup start packages name → setup.fullPath name = setup.fullPath (Setup.depName p) →
      contentOf setup w name = []) :
    Running setup start packages (w.store (setup.fullPath (Setup.depName p)) []) isOpen := by
  have used : Used setup start packages (Setup.depName p) := ⟨p, needed, Or.inr rfl⟩
  refine ⟨kept_store setup start packages running.kept ?_, Closure.walked_leave _ _ _ isOpen p ?_ running.walked⟩
  · intro name other alike
    rw [blank name other alike]
  · intro q step
    rw [Edge, ← running.kept.lists _ used, blank _ used rfl, dependencies_nil] at step
    cases step

theorem install_package_marks (served : Served setup start packages) (n : Nat) : Installs setup start packages all n (setup.installPackage n) := by
  induction n with
  | zero => exact fun _ _ _ _ _ impossible => absurd impossible (Nat.not_lt_zero _)
  | succ n ih =>
      intro w isOpen p needed running few
      obtain ⟨fetched, ran, kept, same⟩ := fetch_package served w p running.kept needed
      have counted : (fetched.mark p).deps = (w.mark p).deps := by rw [World.mark, World.mark, same]
      have entered : Running setup start packages (fetched.mark p) (fun q => q = p ∨ isOpen q) := by
        apply running_mark fetched isOpen p needed
        refine ⟨kept, ?_⟩
        rw [same]
        exact running.walked
      have grown : Grows w (fetched.mark p) := by
        intro q marked
        rw [counted]
        exact grows_mark w p q marked
      have own : (fetched.mark p).deps p = true := Function.update_self ..
      rw [Setup.installPackage, run_bind_ok ran,
        run_require_bind _ _ _ rfl,
        run_bind_ok (run_modify_get _ fetched)]
      rcases fetch_list served (fetched.mark p) p entered.kept needed with ⟨read, content, got, keeps, alike, file⟩ | ⟨none, empty⟩
      · have few' : Closure.unmarked all read.deps ≤ n := by
          rw [alike, counted]
          exact Nat.le_of_lt_succ few
        obtain ⟨last, done, runs, grows⟩ := install_deps_closes inside ih served needed ⟨keeps, by rw [alike]; exact entered.walked⟩ few' file
        have more : Grows (fetched.mark p) last := fun q marked => grows q (by rw [alike]; exact marked)
        exact ⟨last, by rw [run_bind_ok got, if_pos rfl, done], runs,
          grows_trans grown more, more p own⟩
      · refine ⟨(fetched.mark p).store (setup.fullPath (Setup.depName p)) [], ?_,
          blank_list_closes needed entered empty, grown, own⟩
        rw [run_bind_ok none, if_neg Bool.false_ne_true,
          run_bind_ok (run_write_stored setup _ _ _ (served.stored p needed))]
        rfl

-- The top-level calls share the marks; no list is open between them.
theorem install_each_marks (served : Served setup start packages) (n : Nat) (few : all.card < n) (rest : List Bytes) (w : World) (among : ∀ cmdName ∈ rest, cmdName ∈ packages)
    (running : Running setup start packages w (fun _ => False)) :
    ∃ last, (setup.installEach n rest).run w = (.ok (), last) ∧ Running setup start packages last (fun _ => False) ∧
      Grows w last ∧ ∀ cmdName ∈ rest, last.deps (cmdName ++ str ".tcz") = true := by
  induction rest generalizing w with
  | nil => exact ⟨w, rfl, running, fun _ marked => marked, by simp⟩
  | cons cmdName rest ih =>
      obtain ⟨here, later⟩ := List.forall_mem_cons.mp among
      have needed : Needed setup start packages (cmdName ++ str ".tcz") := Closure.reached_root _ _ _ ⟨cmdName, here, rfl⟩
      have bound : Closure.unmarked all (w.mark (cmdName ++ str ".tcz")).deps < n :=
        Nat.lt_of_le_of_lt (Finset.card_filter_le _ _) few
      obtain ⟨middle, ran, runs, grows, own⟩ := install_package_marks inside served n w _ _ needed running bound
      obtain ⟨last, done, ends, more, marks⟩ := ih middle later runs
      refine ⟨last, ?_, ends, grows_trans grows more, List.forall_mem_cons.mpr ⟨more _ own, marks⟩⟩
      rw [Setup.installEach, run_bind_ok ran, done]

end Search

theorem installs_closure (setup : Setup) (start : World) (packages : List Bytes) (fresh : ∀ p, start.deps p = false)
    (finite : {p | Needed setup start packages p}.Finite) (served : Served setup start packages) :
    ∃ bound, ∀ fuel, bound ≤ fuel → ∃ last, (setup.installEach fuel packages).run start = (.ok (), last) ∧
      ∀ p, last.deps p = true ↔ Needed setup start packages p := by
  have inside : ∀ p, Needed setup start packages p → p ∈ finite.toFinset := fun p needed => finite.mem_toFinset.mpr needed
  refine ⟨finite.toFinset.card + 1, fun fuel enough => ?_⟩
  have running : Running setup start packages start (fun _ => False) := by
    refine ⟨kept_start setup start packages, ?_, ?_⟩
    · intro p marked
      cases (fresh p).symm.trans marked
    · intro p marked
      cases (fresh p).symm.trans marked
  obtain ⟨last, ran, runs, -, marks⟩ := install_each_marks inside served fuel (Nat.lt_of_succ_le enough) packages
    start (fun _ member => member) running
  refine ⟨last, ran, Closure.walked_all _ _ _ runs.walked ?_⟩
  rintro r ⟨cmdName, member, rfl⟩
  exact marks cmdName member

def cyclic : Setup where
  serverDir := str "/8.x/x86_64/tcz"
  localDir := str "/tcz/8.x/x86_64/tcz"
  ignorePackage v := v == str "c.tcz"
  server path :=
    if path = str "/8.x/x86_64/tcz/a.tcz.dep" then .ok (str "b.tcz\nc.tcz\ne.tcz\n\nd.tcz\n") none
    else if path = str "/8.x/x86_64/tcz/b.tcz.dep" then .ok (str "a.tcz\ne.tcz\n") none
    else if path = str "/8.x/x86_64/tcz/e.tcz.dep" then .status (str "404 Not Found")
    else .ok (str "hsqs") none
  refuses _ := none

def emptyDisk : World := ⟨fun _ => .missing, fun _ => false⟩

def cyclicNames : List Bytes := [str "a.tcz", str "b.tcz", str "e.tcz"]

theorem cyclic_edges : ∀ p ∈ cyclicNames, ∀ q ∈ dependencies cyclic (contentOf cyclic emptyDisk (Setup.depName p)), q ∈ cyclicNames := by
  decide +kernel

theorem cyclic_needed (p : Bytes) : Needed cyclic emptyDisk [str "a"] p ↔ p ∈ cyclicNames := by
  constructor
  · rintro ⟨r, ⟨cmdName, member, rfl⟩, path⟩
    induction path with
    | refl =>
        obtain rfl := List.mem_singleton.mp member
        decide
    | tail _ step ih => exact cyclic_edges _ ih _ step
  · intro member
    have first : Needed cyclic emptyDisk [str "a"] (str "a.tcz") :=
      Closure.reached_root _ _ _ ⟨str "a", List.mem_singleton_self _, by decide⟩
    have edges : ∀ q ∈ [str "b.tcz", str "e.tcz"], q ∈ dependencies cyclic (contentOf cyclic emptyDisk (Setup.depName (str "a.tcz"))) := by
      decide +kernel
    rcases List.mem_cons.mp member with rfl | later
    · exact first
    · exact Closure.reached_next _ _ _ p first (edges p later)

theorem cyclic_plain (name : Bytes) (used : Used cyclic emptyDisk [str "a"] name) : Filepath.Plain name := by
  obtain ⟨p, needed, form⟩ := used
  have checked : ∀ p ∈ cyclicNames, ∀ name ∈ [p, Setup.depName p], (name ≠ [] ∧ name ≠ str ".") ∧
      name ≠ str ".." ∧ Filepath.separator ∉ name := by
    decide +kernel
  obtain ⟨⟨some, notDot⟩, notUp, clear⟩ := checked p ((cyclic_needed p).mp needed) name (by simpa using form)
  exact ⟨some, notDot, notUp, clear⟩

theorem cyclic_served : Served cyclic emptyDisk [str "a"] where
  package p needed := by
    have served : ∀ p ∈ cyclicNames, cyclic.server (cyclic.packageName p) = .ok (str "hsqs") none := by decide +kernel
    exact Or.inr ⟨_, served p ((cyclic_needed p).mp needed), rfl⟩
  list p needed := by
    refine Or.inr ⟨rfl, ?_⟩
    have lists : ∀ p ∈ cyclicNames, cyclic.server (cyclic.packageName (Setup.depName p)) =
          .ok (contentOf cyclic emptyDisk (Setup.depName p)) none ∨
        cyclic.server (cyclic.packageName (Setup.depName p)) = .status (str "404 Not Found") := by
      decide +kernel
    rcases lists p ((cyclic_needed p).mp needed) with ok | status
    · exact Or.inl ⟨_, ok⟩
    · exact Or.inr ⟨_, status⟩
  stored _ _ := rfl
  oneFile := one_file_of_plain cyclic emptyDisk [str "a"] cyclic_plain

theorem cyclic_installed : ∃ bound, ∀ fuel, bound ≤ fuel → ∃ last, (cyclic.installEach fuel [str "a"]).run emptyDisk = (.ok (), last) ∧
    ∀ p, last.deps p = true ↔ p ∈ cyclicNames := by
  have finite : {p | Needed cyclic emptyDisk [str "a"] p}.Finite :=
    (cyclicNames.finite_toSet).subset fun p needed => (cyclic_needed p).mp needed
  obtain ⟨bound, ends⟩ := installs_closure cyclic emptyDisk [str "a"] (fun _ => rfl) finite cyclic_served
  refine ⟨bound, fun fuel enough => ?_⟩
  obtain ⟨last, ran, marks⟩ := ends fuel enough
  exact ⟨last, ran, fun p => (marks p).trans (cyclic_needed p)⟩

end URoot.Tcz
