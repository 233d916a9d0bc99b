import URoot.Ldd.Libraries

set_option autoImplicit false

namespace URoot.Ldd

open GoLib Fuel Relation

section Spans

variable (fs : Bytes → Node)

def Spans (names : Names) (roots : List Bytes) : Prop := ∀ l, names l ≠ none ↔ ∃ r ∈ roots, Chain fs r l

theorem spans_closed (names : Names) (roots : List Bytes) (spans : Spans fs names roots) : Closed fs names := by
  intro l l' present link
  obtain ⟨r, member, chain⟩ := (spans l).mp present
  exact (spans l').mpr ⟨r, member, chain.tail link⟩

theorem spans_known (names : Names) (roots : List Bytes) (l : Bytes) (spans : Spans fs names roots) (known : names l ≠ none) :
    Spans fs names (roots ++ [l]) := by
  intro l'
  rw [spans l']
  obtain ⟨r, member, chain⟩ := (spans l).mp known
  constructor
  · rintro ⟨r', there, chain'⟩
    exact ⟨r', List.mem_append_left _ there, chain'⟩
  · rintro ⟨r', there, chain'⟩
    rcases List.mem_append.mp there with old | new
    · exact ⟨r', old, chain'⟩
    · rw [List.mem_singleton.mp new] at chain'
      exact ⟨r, member, chain.trans chain'⟩

theorem followed_spans (names last : Names) (roots : List Bytes) (l : Bytes) (spans : Spans fs names roots)
    (followed : Followed fs l names last) : Spans fs last (roots ++ [l]) := by
  intro l'
  constructor
  · intro present
    by_cases fresh : names l' = none
    · exact ⟨l, List.mem_append_right _ (List.mem_singleton.mpr rfl), followed.added l' present fresh⟩
    · obtain ⟨r, member, chain⟩ := (spans l').mp fresh
      exact ⟨r, List.mem_append_left _ member, chain⟩
  · rintro ⟨r, there, chain⟩
    rcases List.mem_append.mp there with old | new
    · obtain ⟨info, entry⟩ := Option.ne_none_iff_exists'.mp ((spans l').mpr ⟨r, old, chain⟩)
      rw [followed.kept l' info entry]
      exact Option.some_ne_none _
    · rw [List.mem_singleton.mp new] at chain
      induction chain with
      | refl => exact followed.started
      | tail _ link ih => exact followed.closed _ _ ih link

theorem follow_settles {names : Names} {roots : List Bytes} {l : Bytes} (spans : Spans fs names roots)
    (finite : {l' | Chain fs l l'}.Finite) :
    Settles (fun fuel => follow fs fuel l) names (fun _ last => Spans fs last (roots ++ [l])) := by
  have pending := pending_start fs l names (spans_closed fs names roots spans)
  obtain ⟨out, last, ended, ran⟩ := follow_ends pending (fun l' chain => finite.mem_toFinset.mpr chain) _
    (Nat.lt_succ_self _)
  refine ⟨_, out, last, ended, ran, ?_⟩
  rintro _ rfl
  exact followed_spans fs names last roots l spans (follow_ok pending (ran _ (Nat.le_refl _)))

theorem follow_each_settles (paths : List Bytes) (names : Names) (roots : List Bytes) (spans : Spans fs names roots)
    (finite : ∀ l ∈ paths, {l' | Chain fs l l'}.Finite) :
    Settles (fun fuel => followEach fs fuel paths) names (fun _ last => Spans fs last (roots ++ paths)) := by
  induction paths generalizing names roots with
  | nil =>
      refine settles_const _ _ _ (ok_ended _) fun _ last done => ?_
      cases done
      rwa [List.append_nil]
  | cons l rest ih =>
      obtain ⟨here, later⟩ := List.forall_mem_cons.mp finite
      refine settles_bind _ _ _ _ _ (follow_settles fs spans here) fun _ mid spanned => ?_
      have onward := ih mid (roots ++ [l]) spanned later
      rwa [List.append_assoc] at onward

end Spans

section Files

variable (host : Host)

def interpOf (n : Bytes) : List Bytes :=
  match interpreter host n with
  | .ok (some interp) => [interp]
  | _ => []

def libsOf (n : Bytes) : List Bytes := (interpOf host n).flatMap fun interp =>
  match runinterp host interp n with
  | .ok names => names
  | .error _ => []

structure MapsSpan (maps : Maps) (interps libs : List Bytes) : Prop where
  interps : Spans host.fs maps.interps interps
  list : Spans host.fs maps.list libs

variable (maps : Maps) (interps libs : List Bytes) (span : MapsSpan host maps interps libs)

include span

theorem follow_interp_settles (interp : Bytes) (finite : {l | Chain host.fs interp l}.Finite) :
    Settles (fun fuel => followInterp host fuel interp) maps (fun _ last => MapsSpan host last (interps ++ [interp]) libs) := by
  refine settles_bind _ _ _ (fun seen last => seen = maps ∧ last = maps) _
    (settles_const Act.get maps _ (ok_ended _) fun a last done => by cases done; exact ⟨rfl, rfl⟩) fun seen last same => ?_
  rw [same.1, same.2]
  by_cases known : (maps.interps interp).isSome = true
  · simp only [if_pos known]
    refine settles_const _ _ _ (ok_ended _) fun _ last done => ?_
    cases done
    exact ⟨spans_known host.fs _ _ _ span.interps (Option.isSome_iff_ne_none.mp known), span.list⟩
  · simp only [if_neg known]
    refine settles_imp _ _ _ _ (settles_within _ _ maps _
      (follow_settles host.fs span.interps finite)) ?_
    rintro _ _ ⟨names, rfl, spans⟩
    exact ⟨spans, span.list⟩

theorem ldd_file_settles (n : Bytes) (finite : ∀ r ∈ interpOf host n ++ libsOf host n, {l | Chain host.fs r l}.Finite) :
    Settles (fun fuel => lddFile host fuel n) maps
      (fun _ last => MapsSpan host last (interps ++ interpOf host n) (libs ++ libsOf host n)) := by
  refine settles_bind _ _ _ _ _ (settles_lift (interpreter host n) maps) ?_
  rintro found _ ⟨probed, rfl⟩
  cases found with
  | none =>
      refine settles_const _ _ _ (ok_ended _) fun _ last done => ?_
      cases done
      simpa [libsOf, interpOf, probed] using span
  | some interp =>
      have first : interpOf host n = [interp] := by rw [interpOf, probed]
      rw [libsOf, first, List.flatMap_singleton] at finite ⊢
      refine settles_bind _ _ _ _ _ (follow_interp_settles host _ interps libs span interp (finite interp List.mem_cons_self)) ?_
      intro _ middle ready
      refine settles_bind _ _ _ _ _ (settles_lift (runinterp host interp n) middle) ?_
      rintro names _ ⟨listed, rfl⟩
      rw [listed] at finite ⊢
      refine settles_imp _ _ _ _ (settles_within _ _ _ _ (follow_each_settles host.fs names _ libs ready.list
        fun l member => finite l (List.mem_cons_of_mem _ member))) ?_
      rintro _ _ ⟨list, rfl, spans⟩
      exact ⟨ready.interps, spans⟩

omit span in
theorem ldd_settles (files : List Bytes) (maps : Maps) (interps libs : List Bytes) (span : MapsSpan host maps interps libs)
    (finite : ∀ n ∈ files, ∀ r ∈ interpOf host n ++ libsOf host n, {l | Chain host.fs r l}.Finite) :
    Settles (fun fuel => ldd host fuel files) maps
      (fun _ last => MapsSpan host last (interps ++ files.flatMap (interpOf host)) (libs ++ files.flatMap (libsOf host))) := by
  induction files generalizing maps interps libs with
  | nil =>
      refine settles_const _ _ _ (ok_ended _) fun _ last done => ?_
      cases done
      simpa using span
  | cons n rest ih =>
      obtain ⟨here, later⟩ := List.forall_mem_cons.mp finite
      refine settles_bind _ _ _ _ _ (ldd_file_settles host maps interps libs span n here) fun _ middle ready => ?_
      have onward := ih middle _ _ ready later
      rwa [List.append_assoc, List.append_assoc, ← List.flatMap_cons, ← List.flatMap_cons] at onward

end Files

def noMaps : Maps := ⟨fun _ => none, fun _ => none⟩

def shellTree (path : Bytes) : Node := if path = str "/l" then .symlink (str "/ld") else .regular

def shellHost : Host :=
  ⟨shellTree, fun _ => .elf (some (.ok (str "/l\x00"))) false, .error [], fun _ _ => .ok (str "\tc => /c (0)\n")⟩

theorem shell_chain (r l : Bytes) (chain : Chain shellTree r l) : l ∈ [r, str "/ld"] := by
  induction chain with
  | refl => exact List.mem_cons_self
  | tail _ link _ =>
      obtain ⟨next, target, rfl⟩ := link
      rw [shellTree] at target
      split at target <;> cases target
      exact List.mem_cons_of_mem _ (List.mem_singleton.mpr rfl)

end URoot.Ldd
