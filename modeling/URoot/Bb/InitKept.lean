import Mathlib.Data.List.Nodup
import Mathlib.Data.List.Perm.Basic
import URoot.Bb.Rewrite

set_option autoImplicit false

namespace URoot.Bb

open GoLib

section Runtime

def allDecls (files : List File) : List Decl := files.flatMap File.decls

def Decl.function? (name : Bytes) : Decl → Option FuncDecl
  | .func f => if f.recv = none ∧ f.name = name then some f else none
  | .gen _ _ => none

def functions (name : Bytes) (files : List File) : List FuncDecl := (allDecls files).filterMap (Decl.function? name)

def Decl.names : Decl → List Bytes
  | .func f => if f.recv = none ∧ f.name ≠ str "init" ∧ f.name ≠ str "_" then [f.name] else []
  | .gen names _ => names.filter (fun name => name ≠ str "_")

def Decl.method? : Decl → Option (Bytes × Bytes)
  | .func f => f.recv.map (fun type => (type, f.name))
  | .gen _ _ => none

def declared (files : List File) : List Bytes := (allDecls files).flatMap Decl.names

def methods (files : List File) : List (Bytes × Bytes) := (allDecls files).filterMap Decl.method?

def standAlone (files : List File) : List FuncDecl := functions (str "init") files ++ functions (str "main") files

variable (check : List File → Prop) (c : Command)

-- The build of the rewritten package with its wrapper. Check is all the compiler looks at
-- beside the names that are declared and the two functions the wrapper calls.
structure Builds (w : Wrapper) (files : List File) : Prop where
  names : (declared files ++ [c.flagSet]).Nodup
  methods : (methods files).Nodup
  main : functions (str "Main") files ≠ []
  init : w.init ≠ [] → functions (str "Init") files ≠ []
  checked : check files

-- The busybox runs the package's own init functions when it starts, then <name>Init and,
-- from rush, the fork builtin, which calls Main.
def Runs (out : Output) (trace : List FuncDecl) : Prop :=
  ∃ w, out.wrapper = some w ∧ Builds check c w out.files ∧
    trace = functions (str "init") out.files ++
      ((if w.init = [] then [] else functions (str "Init") out.files) ++ functions (str "Main") out.files)

end Runtime

section Names

variable (c : Command)

theorem all_decls_rewritten (files : List File) : allDecls (files.map (rewriteFile c)) = (allDecls files).map (rewriteDecl c) := by
  rw [allDecls, allDecls, List.flatMap_map, List.map_flatMap]
  rfl

theorem rewrite_func_recv (f : FuncDecl) : (rewriteFunc c f).recv = f.recv := by
  rw [rewriteFunc]
  split
  · rfl
  · split
    · rename_i init
      exact init.1.symm
    · rfl

def renamed (f : FuncDecl) : Bytes :=
  if f.name = str "main" then str "Main" else if f.recv = none ∧ f.name = str "init" then str "Init" else f.name

theorem rewrite_func_name (f : FuncDecl) : (rewriteFunc c f).name = renamed f := by
  rw [rewriteFunc, renamed]
  split
  · rfl
  · split <;> rfl

theorem no_init_left (files : List File) : functions (str "init") (files.map (rewriteFile c)) = [] := by
  rw [functions, all_decls_rewritten, List.filterMap_map, List.filterMap_eq_nil_iff]
  intro d _
  cases d with
  | gen names values => rfl
  | func f =>
      simp only [Function.comp, rewriteDecl, Decl.function?, rewrite_func_recv, rewrite_func_name, renamed]
      by_cases main : f.name = str "main"
      · rw [if_pos main, if_neg fun both => absurd both.2 (by decide)]
      · by_cases init : f.recv = none ∧ f.name = str "init"
        · rw [if_neg main, if_pos init, if_neg fun both => absurd both.2 (by decide)]
        · rw [if_neg main, if_neg init, if_neg init]

theorem functions_renamed {files : List File} {old new : Bytes} (notInit : new ≠ str "init") (notBlank : new ≠ str "_")
    (unused : new ∉ declared files) (becomes : ∀ f : FuncDecl, f.recv = none → f.name ≠ new → (renamed f = new ↔ f.name = old)) :
    functions new (files.map (rewriteFile c)) = (functions old files).map (rewriteFunc c) := by
  rw [functions, functions, all_decls_rewritten, List.filterMap_map, List.map_filterMap]
  refine List.filterMap_congr ?_
  intro d member
  cases d with
  | gen names values => rfl
  | func f =>
      simp only [Function.comp, rewriteDecl, Decl.function?, rewrite_func_recv, rewrite_func_name]
      by_cases plain : f.recv = none
      · have other : f.name ≠ new := by
          intro same
          refine unused (List.mem_flatMap.mpr ⟨.func f, member, ?_⟩)
          rw [Decl.names, if_pos ⟨plain, by rw [same]; exact notInit, by rw [same]; exact notBlank⟩, same]
          exact List.mem_singleton.mpr rfl
        by_cases here : f.name = old
        · rw [if_pos ⟨plain, (becomes f plain other).mpr here⟩, if_pos ⟨plain, here⟩]
          rfl
        · rw [if_neg fun both => here ((becomes f plain other).mp both.2), if_neg fun both => here both.2]
          rfl
      · rw [if_neg fun both => plain both.1, if_neg fun both => plain both.1]
        rfl

theorem becomes_main (f : FuncDecl) (_plain : f.recv = none) (other : f.name ≠ str "Main") :
    renamed f = str "Main" ↔ f.name = str "main" := by
  rw [renamed]
  split
  · rename_i main
    exact ⟨fun _ => main, fun _ => rfl⟩
  · rename_i noMain
    split
    · exact ⟨fun same => absurd same.symm (by decide), fun main => absurd main noMain⟩
    · exact ⟨fun same => absurd same other, fun main => absurd main noMain⟩

theorem becomes_init (f : FuncDecl) (plain : f.recv = none) (other : f.name ≠ str "Init") :
    renamed f = str "Init" ↔ f.name = str "init" := by
  rw [renamed]
  split
  · rename_i main
    rw [main]
    exact ⟨fun same => absurd same (by decide), fun same => absurd same (by decide)⟩
  · split
    · rename_i init
      exact ⟨fun _ => init.2, fun _ => rfl⟩
    · rename_i noInit
      exact ⟨fun same => absurd same other, fun init => absurd ⟨plain, init⟩ noInit⟩

end Names

section Declared

variable (c : Command)

def Decl.otherNames : Decl → List Bytes
  | .func f => if (f.recv = none ∧ f.name ≠ str "init" ∧ f.name ≠ str "_") ∧ f.name ≠ str "main" then [f.name] else []
  | .gen names _ => names.filter (fun name => name ≠ str "_")

def otherNames (files : List File) : List Bytes := (allDecls files).flatMap Decl.otherNames

def Decl.each (name as : Bytes) (d : Decl) : List Bytes := (d.function? name).toList.map (fun _ => as)

theorem names_split (d : Decl) : d.names = d.otherNames ++ d.each (str "main") (str "main") := by
  cases d with
  | gen names values => exact (List.append_nil _).symm
  | func f =>
      simp only [Decl.names, Decl.otherNames, Decl.each, Decl.function?]
      by_cases main : f.name = str "main"
      · by_cases plain : f.recv = none
        · simp [main, plain, show str "main" ≠ str "init" by decide, show str "main" ≠ str "_" by decide]
        · simp [main, plain]
      · simp [main]

theorem names_rewritten (d : Decl) :
    (rewriteDecl c d).names =
      d.otherNames ++ (d.each (str "main") (str "Main") ++ d.each (str "init") (str "Init")) := by
  cases d with
  | gen names values => exact (List.append_nil _).symm
  | func f =>
      simp only [rewriteDecl, Decl.names, rewrite_func_recv, rewrite_func_name, renamed, Decl.otherNames, Decl.each, Decl.function?]
      by_cases plain : f.recv = none
      · by_cases main : f.name = str "main"
        · simp [main, plain, show str "main" ≠ str "init" by decide, show str "Main" ≠ str "init" by decide,
            show str "Main" ≠ str "_" by decide]
        · by_cases init : f.name = str "init"
          · simp [init, plain, show str "init" ≠ str "main" by decide, show str "Init" ≠ str "init" by decide,
              show str "Init" ≠ str "_" by decide]
          · simp [main, init, plain]
      · simp [plain]

theorem each_flat_map (name as : Bytes) (files : List File) :
    (allDecls files).flatMap (Decl.each name as) = List.replicate (functions name files).length as := by
  rw [functions, List.filterMap_eq_flatMap_toList, ← List.map_const', List.map_flatMap]
  rfl

theorem declared_split (files : List File) :
    (declared files).Perm (otherNames files ++ List.replicate (functions (str "main") files).length (str "main")) := by
  rw [← each_flat_map, declared, otherNames, funext names_split]
  exact (List.flatMap_append_perm _ _ _).symm

theorem declared_rewritten (files : List File) :
    (declared (files.map (rewriteFile c))).Perm (otherNames files ++
      (List.replicate (functions (str "main") files).length (str "Main") ++
        List.replicate (functions (str "init") files).length (str "Init"))) := by
  rw [← each_flat_map, ← each_flat_map, declared, all_decls_rewritten, List.flatMap_map, otherNames, funext (names_rewritten c)]
  exact ((List.flatMap_append_perm _ _ _).symm).trans ((List.flatMap_append_perm _ _ _).symm.append_left _)

def renamedMethod (method : Bytes × Bytes) : Bytes × Bytes :=
  (method.1, if method.2 = str "main" then str "Main" else method.2)

theorem methods_rewritten (files : List File) : methods (files.map (rewriteFile c)) = (methods files).map renamedMethod := by
  rw [methods, methods, all_decls_rewritten, List.filterMap_map, List.map_filterMap]
  refine List.filterMap_congr ?_
  intro d _
  cases d with
  | gen names values => rfl
  | func f =>
      simp only [Function.comp, rewriteDecl, Decl.method?, rewrite_func_recv, rewrite_func_name, renamed]
      cases type : f.recv with
      | none => rfl
      | some type => simp [renamedMethod]

end Declared

section Build

variable (c : Command) (files : List File)

structure NoClash : Prop where
  main : str "Main" ∉ declared files
  init : functions (str "init") files ≠ [] → str "Init" ∉ declared files
  flagSet : c.flagSet ∉ declared files
  methods : ∀ type, (type, str "main") ∈ methods files → (type, str "Main") ∉ methods files

theorem flag_set_ne (text : Bytes) (four : text.length = 4) (differs : text ≠ str "flag") : c.flagSet ≠ text := by
  intro same
  have length := congrArg List.length same
  rw [Command.flagSet, List.length_append, four, show (str "flag").length = 4 by decide] at length
  have empty : c.cmdName = [] := List.eq_nil_of_length_eq_zero (by omega)
  rw [Command.flagSet, empty, List.nil_append] at same
  exact differs same.symm

theorem mem_declared (m : FuncDecl) (one : functions (str "main") files = [m]) (name : Bytes) (differs : name ≠ str "main") :
    name ∈ declared files ↔ name ∈ otherNames files := by
  rw [(declared_split files).mem_iff, one, List.mem_append, List.mem_replicate]
  exact ⟨fun either => either.resolve_right fun both => differs both.2, Or.inl⟩

theorem nodup_additions {α : Type} (others : List α) (a b last : α) (k : Nat) (nodup : others.Nodup) (ab : a ≠ b)
    (lastA : last ≠ a) (lastB : last ≠ b) :
    (others ++ (List.replicate 1 a ++ List.replicate k b) ++ [last]).Nodup ↔
      k ≤ 1 ∧ a ∉ others ∧ (k ≠ 0 → b ∉ others) ∧ last ∉ others := by
  rw [List.nodup_append, List.nodup_append, List.nodup_append, List.nodup_replicate, List.nodup_replicate]
  constructor
  · rintro ⟨⟨-, ⟨-, few, -⟩, apart⟩, -, ends⟩
    refine ⟨few, ?_, ?_, ?_⟩
    · intro member
      exact apart a member a (List.mem_append_left _ (List.mem_singleton.mpr rfl)) rfl
    · intro some member
      exact apart b member b (List.mem_append_right _ (List.mem_replicate.mpr ⟨some, rfl⟩)) rfl
    · intro member
      exact ends last (List.mem_append_left _ member) last (List.mem_singleton.mpr rfl) rfl
  · rintro ⟨few, freeA, freeB, freeLast⟩
    refine ⟨⟨nodup, ⟨Nat.le_refl 1, few, ?_⟩, ?_⟩, List.nodup_singleton last, ?_⟩
    · intro x isA y isB
      rw [(List.mem_replicate.mp isA).2, (List.mem_replicate.mp isB).2]
      exact ab
    · rintro x member y added rfl
      rcases List.mem_append.mp added with isA | isB
      · exact freeA ((List.mem_replicate.mp isA).2 ▸ member)
      · exact freeB (List.mem_replicate.mp isB).1 ((List.mem_replicate.mp isB).2 ▸ member)
    · rintro x member y isLast rfl
      rw [List.mem_singleton.mp isLast] at member
      rcases List.mem_append.mp member with old | added
      · exact freeLast old
      · rcases List.mem_append.mp added with isA | isB
        · exact lastA (List.mem_replicate.mp isA).2
        · exact lastB (List.mem_replicate.mp isB).2

theorem names_build_iff (m : FuncDecl) (one : functions (str "main") files = [m]) (names : (declared files).Nodup) :
    (declared (files.map (rewriteFile c)) ++ [c.flagSet]).Nodup ↔
      (functions (str "init") files).length ≤ 1 ∧ str "Main" ∉ declared files ∧
        (functions (str "init") files ≠ [] → str "Init" ∉ declared files) ∧ c.flagSet ∉ declared files := by
  have others : (otherNames files).Nodup := ((declared_split files).nodup_iff.mp names).of_append_left
  have flagMain := flag_set_ne c (str "Main") (by decide) (by decide)
  have flagInit := flag_set_ne c (str "Init") (by decide) (by decide)
  rw [((declared_rewritten c files).append_right [c.flagSet]).nodup_iff, one,
    mem_declared files m one (str "Main") (by decide), mem_declared files m one (str "Init") (by decide),
    mem_declared files m one _ (flag_set_ne c (str "main") (by decide) (by decide))]
  rw [List.length_singleton, nodup_additions _ _ _ _ _ others (by decide) flagMain flagInit, ne_eq, ne_eq,
    List.length_eq_zero_iff]

theorem methods_build_iff (methodNames : (methods files).Nodup) :
    (methods (files.map (rewriteFile c))).Nodup ↔
      ∀ type, (type, str "main") ∈ methods files → (type, str "Main") ∉ methods files := by
  have differ : str "Main" ≠ str "main" := by decide
  rw [methods_rewritten, List.nodup_map_iff_inj_on methodNames]
  constructor
  · intro injective type lower upper
    have same := injective _ lower _ upper (by rw [renamedMethod, renamedMethod, if_pos rfl, if_neg differ])
    exact differ (congrArg Prod.snd same).symm
  · rintro apart ⟨typeA, a⟩ memberA ⟨typeB, b⟩ memberB same
    have types : typeA = typeB := congrArg Prod.fst same
    have renames : (if a = str "main" then str "Main" else a) = (if b = str "main" then str "Main" else b) :=
      congrArg Prod.snd same
    subst types
    by_cases mainA : a = str "main"
    · by_cases mainB : b = str "main"
      · rw [mainA, mainB]
      · rw [if_pos mainA, if_neg mainB] at renames
        rw [mainA] at memberA
        rw [← renames] at memberB
        exact absurd memberB (apart typeA memberA)
    · by_cases mainB : b = str "main"
      · rw [if_neg mainA, if_pos mainB] at renames
        rw [mainB] at memberB
        rw [renames] at memberA
        exact absurd memberA (apart typeA memberB)
      · rw [if_neg mainA, if_neg mainB] at renames
        rw [renames]

end Build

section Kept

variable (check : List File → Prop) (c : Command)

theorem functions_mem {name : Bytes} {files : List File} {f : File} (member : f ∈ files) (d : FuncDecl)
    (inside : d ∈ functions name [f]) : d ∈ functions name files := by
  obtain ⟨decl, here, found⟩ := List.mem_filterMap.mp inside
  rw [allDecls, List.flatMap_singleton] at here
  exact List.mem_filterMap.mpr ⟨decl, List.mem_flatMap.mpr ⟨f, member, here⟩, found⟩

theorem is_init_function (d : Decl) : d.isInit = (d.function? (str "init")).isSome := by
  cases d with
  | gen names values => rfl
  | func f =>
      by_cases init : f.recv = none ∧ f.name = str "init"
      · rw [Decl.isInit, Decl.function?, if_pos init, decide_eq_true init]
        rfl
      · rw [Decl.isInit, Decl.function?, if_neg init, decide_eq_false init]
        rfl

theorem init_call_empty (f : File) : initCall c f = [] ↔ functions (str "init") [f] = [] := by
  have filled : c.cmdName ++ str ".Init()" ≠ [] := by
    intro empty
    exact absurd (List.append_eq_nil_iff.mp empty).2 (by decide)
  rw [initCall, functions, allDecls, List.flatMap_singleton, List.filterMap_eq_nil_iff, funext is_init_function]
  by_cases some : f.decls.any (fun d => (d.function? (str "init")).isSome) = true
  · rw [if_pos some]
    obtain ⟨d, member, found⟩ := List.any_eq_true.mp some
    refine ⟨fun empty => absurd empty filled, fun none => ?_⟩
    rw [none d member] at found
    cases found
  · rw [if_neg some]
    refine ⟨fun _ d member => ?_, fun _ => rfl⟩
    by_contra found
    exact some (List.any_eq_true.mpr ⟨d, member, Option.isSome_iff_ne_none.mpr found⟩)

theorem last_main_exists (order : List File) (m : FuncDecl) (main : m ∈ functions (str "main") order) :
    ∃ f, lastMain order = some f ∧ f ∈ order := by
  obtain ⟨d, listed, found⟩ := List.mem_filterMap.mp main
  obtain ⟨f, member, inside⟩ := List.mem_flatMap.mp listed
  have isMain : f.isMain = true := by
    refine List.any_eq_true.mpr ⟨d, inside, ?_⟩
    cases d with
    | gen names values => cases found
    | func g =>
        rw [Decl.function?] at found
        split at found
        · rename_i both
          exact decide_eq_true both.2
        · cases found
  rcases last : lastMain order with _ | g
  · rw [lastMain, List.getLast?_eq_none_iff] at last
    exact absurd (List.mem_filter.mpr ⟨member, isMain⟩) (by rw [last]; exact List.not_mem_nil)
  · exact ⟨g, rfl, (List.mem_filter.mp (List.mem_of_getLast? last)).1⟩

theorem functions_perm (name : Bytes) (order files : List File) (shuffled : order.Perm files) :
    (functions name order).Perm (functions name files) := (shuffled.flatMap_right File.decls).filterMap _

theorem declared_perm {order files : List File} (shuffled : order.Perm files) : (declared order).Perm (declared files) :=
  (shuffled.flatMap_right File.decls).flatMap_right _

theorem methods_perm {order files : List File} (shuffled : order.Perm files) : (methods order).Perm (methods files) :=
  (shuffled.flatMap_right File.decls).filterMap _

theorem no_clash_perm {order files : List File} (shuffled : order.Perm files) (apart : NoClash c order) : NoClash c files := by
  have names := declared_perm shuffled
  have inits := functions_perm (str "init") order files shuffled
  have types := methods_perm shuffled
  refine ⟨?_, ?_, ?_, ?_⟩
  · exact fun member => apart.main (names.mem_iff.mpr member)
  · exact fun some member => apart.init (fun none => some (List.nil_perm.mp (none ▸ inits))) (names.mem_iff.mpr member)
  · exact fun member => apart.flagSet (names.mem_iff.mpr member)
  · exact fun type lower upper => apart.methods type (types.mem_iff.mpr lower) (types.mem_iff.mpr upper)

theorem builds_iff (files : List File) (m : FuncDecl) (w : Wrapper) (one : functions (str "main") files = [m])
    (names : (declared files).Nodup) (methodNames : (methods files).Nodup)
    (called : w.init ≠ [] → functions (str "init") files ≠ []) :
    Builds check c w (files.map (rewriteFile c)) ↔
      (functions (str "init") files).length ≤ 1 ∧ NoClash c files ∧ check (files.map (rewriteFile c)) := by
  constructor
  · intro builds
    obtain ⟨few, main, init, flagSet⟩ := (names_build_iff c files m one names).mp builds.names
    exact ⟨few, ⟨main, init, flagSet, (methods_build_iff c files methodNames).mp builds.methods⟩, builds.checked⟩
  · rintro ⟨few, apart, checked⟩
    refine ⟨(names_build_iff c files m one names).mpr ⟨few, apart.main, apart.init, apart.flagSet⟩,
      (methods_build_iff c files methodNames).mpr apart.methods, ?_, ?_, checked⟩
    · rw [functions_renamed c (by decide) (by decide) apart.main becomes_main, one]
      exact List.cons_ne_nil _ _
    · intro filled
      have some := called filled
      rw [functions_renamed c (by decide) (by decide) (apart.init some) becomes_init]
      exact fun none => some (List.map_eq_nil_iff.mp none)

theorem wrapper_trace (files : List File) (m : FuncDecl) (f : File) (member : f ∈ files)
    (one : functions (str "main") files = [m]) (apart : NoClash c files) :
    functions (str "init") (files.map (rewriteFile c)) ++
      ((if (wrapperOf c f).init = [] then [] else functions (str "Init") (files.map (rewriteFile c))) ++
        functions (str "Main") (files.map (rewriteFile c))) =
      ((if functions (str "init") [f] = [] then [] else functions (str "init") files) ++ [m]).map (rewriteFunc c) := by
  rw [no_init_left, List.nil_append, List.map_append,
    functions_renamed c (by decide) (by decide) apart.main becomes_main, one]
  refine congrArg (· ++ [m].map (rewriteFunc c)) ?_
  have call : (wrapperOf c f).init = [] ↔ functions (str "init") [f] = [] := init_call_empty c f
  by_cases none : functions (str "init") [f] = []
  · rw [if_pos (call.mpr none), if_pos none]
    rfl
  · have some : functions (str "init") files ≠ [] := by
      obtain ⟨d, inside⟩ := List.exists_mem_of_ne_nil _ none
      exact List.ne_nil_of_mem (functions_mem member d inside)
    rw [if_neg (fun empty => none (call.mp empty)), if_neg none,
      functions_renamed c (by decide) (by decide) (apart.init some) becomes_init]

theorem perm_short {α : Type} (a b : List α) (perm : a.Perm b) (few : b.length ≤ 1) : a = b := by
  cases b with
  | nil => exact List.perm_nil.mp perm
  | cons x rest =>
      cases rest with
      | nil => exact List.perm_singleton.mp perm
      | cons y more =>
          simp only [List.length_cons] at few
          omega

theorem only_member {α : Type} (list : List α) (few : list.length ≤ 1) (a b : α) (memberA : a ∈ list) (memberB : b ∈ list) :
    a = b := by
  have single : list = [a] := by
    refine (perm_short [a] list ?_ few).symm
    exact (List.singleton_sublist.mpr memberA).subperm.perm_of_length_le few
  rw [single] at memberB
  exact (List.mem_singleton.mp memberB).symm

theorem init_kept_iff (overwrite : Bool) (files order : List File) (out : Output) (m : FuncDecl)
    (shuffled : order.Perm files) (done : oneCmd c overwrite order = .ok out)
    (one : functions (str "main") files = [m]) (names : (declared files).Nodup) (methodNames : (methods files).Nodup) :
    Runs check c out ((standAlone files).map (rewriteFunc c)) ↔
      (functions (str "init") files).length ≤ 1 ∧
        (∀ d ∈ functions (str "init") files, ∃ f, lastMain order = some f ∧ d ∈ functions (str "init") [f]) ∧
        NoClash c files ∧ check (order.map (rewriteFile c)) := by
  have mainHere : functions (str "main") order = [m] :=
    List.perm_singleton.mp (one ▸ functions_perm (str "main") order files shuffled)
  have inits := functions_perm (str "init") order files shuffled
  obtain ⟨f, last, member⟩ := last_main_exists order m (by rw [mainHere]; exact List.mem_singleton.mpr rfl)
  obtain ⟨written, wrapper⟩ := each_file_inv c overwrite order ⟨[], none⟩ out done
  rw [List.nil_append] at written
  rw [last] at wrapper
  have called : (wrapperOf c f).init ≠ [] → functions (str "init") order ≠ [] := by
    intro filled
    obtain ⟨d, inside⟩ := List.exists_mem_of_ne_nil _ fun none => filled ((init_call_empty c f).mpr none)
    exact List.ne_nil_of_mem (functions_mem member d inside)
  have built := builds_iff check c order m (wrapperOf c f) mainHere
    ((declared_perm shuffled).nodup_iff.mpr names) ((methods_perm shuffled).nodup_iff.mpr methodNames) called
  constructor
  · rintro ⟨w, known, builds, trace⟩
    cases wrapper.symm.trans known
    rw [written] at builds trace
    obtain ⟨few, apart, checked⟩ := built.mp builds
    rw [wrapper_trace c order m f member mainHere apart] at trace
    rw [inits.length_eq] at few
    refine ⟨few, ?_, no_clash_perm c shuffled apart, checked⟩
    intro d listed
    have some : functions (str "init") [f] ≠ [] := by
      intro none
      have lengths := congrArg List.length trace
      have positive := List.length_pos_of_mem listed
      rw [if_pos none, standAlone, one, List.length_map, List.length_map, List.length_append, List.length_append,
        List.length_nil] at lengths
      omega
    obtain ⟨e, inside⟩ := List.exists_mem_of_ne_nil _ some
    have same := only_member _ few e d (inits.mem_iff.mp (functions_mem member e inside)) listed
    exact ⟨f, last, same ▸ inside⟩
  · rintro ⟨few, placed, apart, checked⟩
    have apartHere := no_clash_perm c shuffled.symm apart
    refine ⟨wrapperOf c f, wrapper, ?_, ?_⟩
    · rw [written]
      exact built.mpr ⟨by rw [inits.length_eq]; exact few, apartHere, checked⟩
    · rw [written, wrapper_trace c order m f member mainHere apartHere, standAlone, one]
      refine congrArg (fun found => (found ++ [m]).map (rewriteFunc c)) ?_
      by_cases none : functions (str "init") [f] = []
      · rw [if_pos none]
        refine List.eq_nil_iff_forall_not_mem.mpr ?_
        intro d listed
        obtain ⟨g, lastHere, inside⟩ := placed d listed
        cases last.symm.trans lastHere
        rw [none] at inside
        exact absurd inside List.not_mem_nil
      · rw [if_neg none]
        exact (perm_short _ _ inits few).symm

end Kept

section Commands

def initFunc : FuncDecl := ⟨none, str "init", some [.call (.ident (str "register")) []]⟩

def mainFunc : FuncDecl := ⟨none, str "main", some [.call (.selector (.ident (str "flag")) (str "Parse")) []]⟩

def oneSource : File := ⟨str "main", [], [.func initFunc, .func mainFunc]⟩

theorem one_source_kept :
    ∃ out, oneCmd ⟨str "rm"⟩ false [oneSource] = .ok out ∧
      Runs (fun _ => True) ⟨str "rm"⟩ out ([initFunc, mainFunc].map (rewriteFunc ⟨str "rm"⟩)) := by
  refine ⟨_, rfl, (init_kept_iff (fun _ => True) ⟨str "rm"⟩ false [oneSource] [oneSource] _ mainFunc (.refl _) rfl rfl
    (by decide) (by decide)).mpr ⟨by decide, ?_, ⟨by decide, fun _ => by decide, by decide, ?_⟩, trivial⟩⟩
  · intro d member
    exact ⟨oneSource, rfl, member⟩
  · intro type lower
    exact absurd lower (by rw [show methods [oneSource] = [] from rfl]; exact List.not_mem_nil)

-- As ectool has it: init in lpc.go, main in ectool.go.
def lpcGo : File := ⟨str "main", [], [.func initFunc]⟩

def ectoolGo : File := ⟨str "main", [], [.func mainFunc]⟩

theorem ectool_init_lost :
    ∃ out, oneCmd ⟨str "ectool"⟩ false [lpcGo, ectoolGo] = .ok out ∧ standAlone [lpcGo, ectoolGo] = [initFunc, mainFunc] ∧
      Runs (fun _ => True) ⟨str "ectool"⟩ out [rewriteFunc ⟨str "ectool"⟩ mainFunc] ∧
      ¬ Runs (fun _ => True) ⟨str "ectool"⟩ out ([initFunc, mainFunc].map (rewriteFunc ⟨str "ectool"⟩)) := by
  have none : methods [lpcGo, ectoolGo] = [] := rfl
  have noInit : functions (str "init") [ectoolGo] = [] := rfl
  have apart : NoClash ⟨str "ectool"⟩ [lpcGo, ectoolGo] := by
    refine ⟨by decide, fun _ => by decide, by decide, ?_⟩
    intro type lower
    rw [none] at lower
    exact absurd lower List.not_mem_nil
  have trace := wrapper_trace ⟨str "ectool"⟩ [lpcGo, ectoolGo] mainFunc ectoolGo (by simp) rfl apart
  have builds := (builds_iff (fun _ => True) ⟨str "ectool"⟩ [lpcGo, ectoolGo] mainFunc (wrapperOf ⟨str "ectool"⟩ ectoolGo) rfl
    (by decide) (by decide) (fun _ => List.cons_ne_nil _ _)).mpr ⟨by decide, apart, trivial⟩
  refine ⟨_, rfl, rfl, ⟨wrapperOf ⟨str "ectool"⟩ ectoolGo, rfl, builds, trace.symm⟩, ?_⟩
  rintro ⟨w, known, -, both⟩
  have same : w = wrapperOf ⟨str "ectool"⟩ ectoolGo := (Option.some.inj known).symm
  rw [same] at both
  have lengths := congrArg List.length (both.trans trace)
  rw [List.length_map, List.length_map, if_pos noInit] at lengths
  cases lengths

end Commands

end URoot.Bb
