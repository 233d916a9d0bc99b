import URoot.SwitchRoot.LittleDoctor

set_option autoImplicit false

namespace URoot.SwitchRoot

open GoLib

section Trees

mutual

def WellFormed : Node → Prop
  | .file _ _ => True
  | .dir inst _ children => WellFormedIn inst children

def WellFormedIn (inst : Nat) : Forest → Prop
  | .nil => True
  | .cons name child tail =>
      ¬ (name = str "." ∨ name = str "..") ∧ (child.inst ≠ inst → child.mounted = true) ∧ WellFormed child ∧ WellFormedIn inst tail

end

mutual

def height : Node → Nat
  | .file _ _ => 0
  | .dir _ _ children => heightIn children + 1

def heightIn : Forest → Nat
  | .nil => 0
  | .cons _ child tail => max (height child) (heightIn tail)

end

def prepend (name : Bytes) (entry : List Bytes × Nat) : List Bytes × Nat := (name :: entry.1, entry.2)

mutual

def nodes : Node → List (List Bytes × Nat)
  | .file inst _ => [([], inst)]
  | .dir inst _ children => ([], inst) :: nodesIn children

def nodesIn : Forest → List (List Bytes × Nat)
  | .nil => []
  | .cons name child tail => (nodes child).map (prepend name) ++ nodesIn tail

end

def nodesAt : Option Node → List (List Bytes × Nat)
  | none => []
  | some n => nodes n

def below : Option Node → List (List Bytes × Nat)
  | some (.dir _ _ children) => nodesIn children
  | _ => []

def isOther (k : Nat) (entry : List Bytes × Nat) : Bool := entry.2 ≠ k

def others (k : Nat) (s : Option Node) : List (List Bytes × Nat) := (nodesAt s).filter (isOther k)

def othersIn (k : Nat) (children : Forest) : List (List Bytes × Nat) := (nodesIn children).filter (isOther k)

theorem others_dir (k inst : Nat) (mounted : Bool) (children : Forest) :
    others k (some (.dir inst mounted children)) = (if inst ≠ k then [([], inst)] else []) ++ othersIn k children := by
  rw [others, nodesAt, nodes, othersIn, List.filter_cons]
  by_cases same : inst = k
  · rw [if_neg (by simp [isOther, same]), if_neg (not_not.mpr same), List.nil_append]
  · rw [if_pos (by simp [isOther, same]), if_pos same, List.singleton_append]

theorem others_cons (k : Nat) (name : Bytes) (child : Node) (tail : Forest) :
    othersIn k (.cons name child tail) = (others k (some child)).map (prepend name) ++ othersIn k tail := by
  rw [othersIn, nodesIn, List.filter_append, List.filter_map, othersIn, others, nodesAt]
  rfl

theorem others_rest (k : Nat) (name : Bytes) (inner : Option Node) (tail : Forest) :
    othersIn k (rest name inner tail) = (others k inner).map (prepend name) ++ othersIn k tail := by
  cases inner with
  | none => rfl
  | some child => exact others_cons k name child tail

theorem others_child (k inst : Nat) (mounted : Bool) (name : Bytes) (child : Node) (inner : Option Node) (tail : Forest)
    (spared : others k inner = others k (some child)) :
    others k (some (.dir inst mounted (rest name inner tail))) = others k (some (.dir inst mounted (.cons name child tail))) := by
  rw [others_dir, others_dir, others_cons, ← spared, ← others_rest]

theorem others_child_fewer (k inst : Nat) (mounted : Bool) (name : Bytes) (child : Node) (inner : Option Node) (tail : Forest)
    (fewer : (others k inner).length < (others k (some child)).length) :
    (others k (some (.dir inst mounted (rest name inner tail)))).length <
      (others k (some (.dir inst mounted (.cons name child tail)))).length := by
  rw [others_dir, others_dir, others_cons, others_rest]
  simp only [List.length_append, List.length_map]
  omega

end Trees

section Doctor

variable (fsType : Nat → Int) (t : Int)

-- The file at the end of the way down by first entries, if the call gets there and may
-- remove it: its instance.
def chainEnd : Node → Option Nat
  | .file inst mounted => if fsType inst = t ∧ mounted = false then some inst else none
  | .dir _ _ .nil => none
  | .dir inst _ (.cons _ child _) => if fsType inst = t then chainEnd child else none

theorem chain_end_dir (inst : Nat) (mounted : Bool) (name : Bytes) (child : Node) (tail : Forest) (same : fsType inst = t) :
    chainEnd fsType t (.dir inst mounted (.cons name child tail)) = chainEnd fsType t child := by
  rw [chainEnd, if_pos same]

theorem chain_end_foreign (n : Node) (differs : fsType n.inst ≠ t) : chainEnd fsType t n = none := by
  cases n with
  | file inst mounted =>
      have other : ¬ (fsType inst = t ∧ mounted = false) := fun both => differs both.1
      rw [chainEnd, if_neg other]
  | dir inst mounted children =>
      have other : ¬ fsType inst = t := differs
      cases children with
      | nil => rfl
      | cons name child tail => rw [chainEnd, if_neg other]

theorem well_formed_names (n : Node) (formed : WellFormed n) (inst : Nat) (mounted : Bool) (name : Bytes) (child : Node)
    (tail : Forest) (shape : n = .dir inst mounted (.cons name child tail)) : ¬ (name = str "." ∨ name = str "..") := by
  rw [shape, WellFormed, WellFormedIn] at formed
  exact formed.1

variable {fsType t} {faults : Call → List Bytes → Option Errno} {depth : Nat} {path : List Bytes} {n : Node}
  (formed : WellFormed n) {result : Except DoctorError Unit} {left : Option Node}

include formed

theorem gone_chain (ran : (littleDoctor fsType faults t depth path).run (some n) = (result, none)) :
    n.mounted = false ∧ chainEnd fsType t n = some n.inst := by
  induction depth generalizing path n result with
  | zero => cases ran
  | succ depth ih =>
      cases little_doctor_inv fsType faults t depth path n result none (well_formed_names n formed) ran with
      | stopped _ _ _ stop => cases stop.1
      | file inst mounted _ _ same removal =>
          cases removal with
          | done free empty =>
              refine ⟨free, ?_⟩
              rw [chainEnd, if_pos ⟨same, free⟩]
              rfl
      | childDone inst mounted name child tail inner _ _ same innerRan removal =>
          cases removal with
          | done free empty =>
              have goneInner : inner = none := by
                cases inner with
                | none => rfl
                | some other => exact absurd ⟨inst, mounted, name, other, tail, rfl⟩ empty
              rw [goneInner] at innerRan
              rw [WellFormed, WellFormedIn] at formed
              obtain ⟨childFree, chain⟩ := ih formed.2.2.1 innerRan
              have together : child.inst = inst := by
                by_contra differs
                rw [formed.2.1 differs] at childFree
                cases childFree
              refine ⟨free, ?_⟩
              rw [chain_end_dir fsType t inst mounted name child tail same, chain, together]
              rfl

theorem others_spared (k : Nat)
    (ran : (littleDoctor fsType faults t depth path).run (some n) = (result, left))
    (safe : ∀ j, chainEnd fsType t n = some j → j = k) : others k left = others k (some n) := by
  induction depth generalizing path n result left with
  | zero =>
      cases ran
      rfl
  | succ depth ih =>
      have outcome := little_doctor_inv fsType faults t depth path n result left (well_formed_names n formed) ran
      have first : ∀ inst mounted name child tail innerResult inner, n = .dir inst mounted (.cons name child tail) →
          fsType inst = t → (littleDoctor fsType faults t depth (path ++ [name])).run (some child) = (innerResult, inner) →
            others k inner = others k (some child) := by
        rintro inst mounted name child tail innerResult inner rfl same innerRan
        rw [WellFormed, WellFormedIn] at formed
        rw [chain_end_dir fsType t inst mounted name child tail same] at safe
        exact ih formed.2.2.1 innerRan safe
      cases left with
      | none =>
          -- The whole node is gone: it lies on k, and so does all that was below.
          have own := safe _ (gone_chain formed ran).2
          cases outcome with
          | stopped _ _ _ stop => cases stop.1
          | file inst mounted _ _ same removal =>
              have here : inst = k := own
              simp [others, nodesAt, nodes, isOther, here]
          | childDone inst mounted name child tail inner _ _ same innerRan removal =>
              cases removal with
              | done free empty =>
                  have here : inst = k := own
                  have spared := first _ _ _ _ _ _ inner rfl same innerRan
                  have emptied : rest name inner tail = .nil := by
                    cases entries : rest name inner tail with
                    | nil => rfl
                    | cons second other more => exact absurd ⟨inst, mounted, second, other, more, by rw [entries]⟩ empty
                  rw [others_dir, if_neg (not_not.mpr here), List.nil_append, others_cons, ← spared, ← others_rest, emptied]
                  rfl
      | some after =>
          cases outcome with
          | stopped _ _ _ stop => rw [stop.1]
          | foreign _ differs => rfl
          | file inst mounted _ _ same removal =>
              cases removal
              rfl
          | empty inst mounted same => rfl
          | childFailed inst mounted name child tail e inner same innerRan =>
              exact others_child k inst mounted name child inner tail (first _ _ _ _ _ _ inner rfl same innerRan)
          | childDone inst mounted name child tail inner _ _ same innerRan removal =>
              cases removal
              exact others_child k inst mounted name child inner tail (first _ _ _ _ _ _ inner rfl same innerRan)

theorem nothing_left_below
    (ran : (littleDoctor fsType faults t depth path).run (some n) = (.ok (), left)) (same : fsType n.inst = t) :
    below left = [] := by
  cases depth with
  | zero => cases ran
  | succ depth =>
      cases little_doctor_inv fsType faults t depth path n (.ok ()) left (well_formed_names n formed) ran with
      | stopped _ _ _ stop =>
          obtain ⟨e, impossible, -⟩ := stop.2.1
          cases impossible
      | foreign _ differs => exact absurd same differs
      | file inst mounted _ _ same removal =>
          cases removal
          rfl
      | empty inst mounted same => rfl
      | childDone inst mounted name child tail inner _ _ same innerRan removal =>
          cases removal
          rfl

theorem deep_enough (ran : (littleDoctor fsType faults t depth path).run (some n) = (result, left)) (deep : height n < depth) :
    result ≠ .error .nesting := by
  induction depth generalizing path n result left with
  | zero => omega
  | succ depth ih =>
      intro nested
      rw [nested] at ran
      cases little_doctor_inv fsType faults t depth path n _ left (well_formed_names n formed) ran with
      | stopped _ _ _ stop =>
          obtain ⟨e, same, differs⟩ := stop.2.1
          cases same
          exact differs rfl
      | file inst mounted _ _ same removal =>
          cases removal with
          | refused _ known why => exact known rfl
      | childFailed inst mounted name child tail _ inner same innerRan =>
          rw [WellFormed, WellFormedIn] at formed
          rw [height, heightIn] at deep
          exact ih formed.2.2.1 innerRan (by omega) rfl
      | childDone inst mounted name child tail inner _ _ same innerRan removal =>
          cases removal with
          | refused _ known why => exact known rfl

theorem chain_end_removed {j k : Nat}
    (ran : (littleDoctor fsType working t depth path).run (some n) = (result, left)) (deep : height n < depth)
    (found : chainEnd fsType t n = some j) (differs : j ≠ k) : (others k left).length < (others k (some n)).length := by
  induction depth generalizing path n result left with
  | zero => omega
  | succ depth ih =>
      have first : ∀ inst mounted name child tail innerResult inner, n = .dir inst mounted (.cons name child tail) →
          fsType inst = t → (littleDoctor fsType working t depth (path ++ [name])).run (some child) = (innerResult, inner) →
            (others k inner).length < (others k (some child)).length := by
        rintro inst mounted name child tail innerResult inner rfl same innerRan
        rw [WellFormed, WellFormedIn] at formed
        rw [height, heightIn] at deep
        rw [chain_end_dir fsType t inst mounted name child tail same] at found
        exact ih formed.2.2.1 innerRan (by omega) found
      cases little_doctor_inv fsType working t depth path n result left (well_formed_names n formed) ran with
      | stopped _ _ _ stop => exact absurd rfl stop.2.2
      | foreign _ other =>
          rw [chain_end_foreign fsType t n other] at found
          cases found
      | file inst mounted _ _ same removal =>
          rw [chainEnd] at found
          split at found
          · rename_i both
            cases found
            cases removal with
            | refused _ known why =>
                rcases why with fault | busy | ⟨i, m, name, child, tail, impossible⟩
                · exact absurd rfl fault
                · rw [Node.mounted, both.2] at busy
                  cases busy
                · cases impossible
            | done free empty => simp [others, nodesAt, nodes, isOther, differs]
          · cases found
      | empty inst mounted same => cases found
      | childFailed inst mounted name child tail e inner same innerRan =>
          exact others_child_fewer k inst mounted name child inner tail (first _ _ _ _ _ _ inner rfl same innerRan)
      | childDone inst mounted name child tail inner _ _ same innerRan removal =>
          have fewer := first _ _ _ _ _ _ inner rfl same innerRan
          cases removal with
          | refused _ known why => exact others_child_fewer k inst mounted name child inner tail fewer
          | done free empty =>
              rw [others_dir, others_cons]
              simp only [others, nodesAt, List.filter_nil, List.length_nil, List.length_append, List.length_map] at fewer ⊢
              omega

end Doctor

section SwitchRoot

variable (fsType : Nat → Int)

theorem old_root_only_iff (n : Node) (formed : WellFormed n) :
    (∀ faults depth path result left,
      (littleDoctor fsType faults (fsType n.inst) depth path).run (some n) = (result, left) →
        others n.inst left = others n.inst (some n) ∧ (result = .ok () → below left = []) ∧
        (height n < depth → result ≠ .error .nesting)) ↔
      ∀ j, chainEnd fsType (fsType n.inst) n = some j → j = n.inst := by
  constructor
  · intro all j found
    by_contra differs
    rcases ran : (littleDoctor fsType working (fsType n.inst) (height n + 1) []).run (some n) with ⟨result, left⟩
    have fewer := chain_end_removed formed ran (Nat.lt_succ_self _) found differs
    rw [(all working (height n + 1) [] result left ran).1] at fewer
    exact absurd fewer (Nat.lt_irrefl _)
  · intro safe faults depth path result left ran
    refine ⟨others_spared formed n.inst ran safe, ?_, ?_⟩
    · intro done
      rw [done] at ran
      exact nothing_left_below formed ran rfl
    · exact deep_enough formed ran

def twoRoots : Node := .dir 0 true (.cons (str "n") (.dir 1 true (.cons (str "f") (.file 1 false) .nil)) .nil)

theorem two_roots_formed : WellFormed twoRoots := by
  have outer : ¬ (str "n" = str "." ∨ str "n" = str "..") := by decide
  have inner : ¬ (str "f" = str "." ∨ str "f" = str "..") := by decide
  exact ⟨outer, fun _ => rfl, ⟨inner, fun differs => absurd rfl differs, trivial, trivial⟩, trivial⟩

theorem disk_root_spared :
    WellFormed twoRoots ∧ ∀ faults depth path result left,
      (littleDoctor (fun inst => if inst = 0 then 0x01021994 else 0xef53) faults 0x01021994 depth path).run (some twoRoots) =
        (result, left) → others 0 left = [([str "n"], 1), ([str "n", str "f"], 1)] := by
  refine ⟨two_roots_formed, ?_⟩
  intro faults depth path result left ran
  have spared := (old_root_only_iff (fun inst => if inst = 0 then 0x01021994 else 0xef53) twoRoots two_roots_formed).mpr (by
    intro j found
    rw [twoRoots, Node.inst] at found
    cases found) faults depth path result left ran
  exact spared.1

-- Two ramdisks have one type: the only file of the new root is removed.
theorem ramdisk_root_lost :
    WellFormed twoRoots ∧
      (littleDoctor (fun _ => 0x01021994) working 0x01021994 3 []).run (some twoRoots) =
        (.error (.sys .remove [str "n"] .busy), some (.dir 0 true (.cons (str "n") (.dir 1 true .nil) .nil))) ∧
      others 0 (some twoRoots) = [([str "n"], 1), ([str "n", str "f"], 1)] ∧
      others 0 (some (.dir 0 true (.cons (str "n") (.dir 1 true .nil) .nil))) = [([str "n"], 1)] := by
  exact ⟨two_roots_formed, rfl, rfl, rfl⟩

end SwitchRoot

end URoot.SwitchRoot
