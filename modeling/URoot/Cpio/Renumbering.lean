import URoot.Cpio.FsUnix
import URoot.Lib.Firsts

set_option autoImplicit false

namespace URoot.Cpio

open GoLib

def renumber : List Info → Inodes → List (Info × Bool)
  | [], _ => []
  | i :: rest, m => (inode i m).1 :: renumber rest (inode i m).2

def inodesOf (infos : List Info) : Inodes := infos.foldl (fun m i => (inode i m).2) Inodes.empty

def appearances (infos : List Info) : List DevInode := firsts id (infos.map Info.devInode)

theorem mem_appearances (infos : List Info) (d : DevInode) : d ∈ appearances infos ↔ d ∈ infos.map Info.devInode :=
  mem_firsts _ d

theorem renumber_at (infos : List Info) (k : Nat) (i : Info) (here : infos[k]? = some i) :
    (renumber infos Inodes.empty)[k]? = some (inode i (inodesOf (infos.take k))).1 := by
  have general : ∀ infos m k, infos[k]? = some i →
      (renumber infos m)[k]? = some (inode i ((infos.take k).foldl (fun m i => (inode i m).2) m)).1 := by
    intro infos
    induction infos with
    | nil =>
        intro m k impossible
        cases impossible
    | cons first rest ih =>
        intro m k there
        cases k with
        | zero =>
            cases there
            rfl
        | succ k => exact ih (inode first m).2 k there
  exact general infos Inodes.empty k here

theorem renumber_length (infos : List Info) (m : Inodes) : (renumber infos m).length = infos.length := by
  induction infos generalizing m with
  | nil => rfl
  | cons first rest ih => rw [renumber, List.length_cons, List.length_cons, ih]

theorem inodes_numbers (infos : List Info) :
    (inodesOf infos).inumber = UInt64.ofNat (appearances infos).length ∧
      ∀ d, (inodesOf infos).number d =
        if d ∈ infos.map Info.devInode then some (UInt64.ofNat ((appearances infos).idxOf d)) else none := by
  induction infos using List.reverseRecOn with
  | nil => exact ⟨rfl, fun _ => rfl⟩
  | append_singleton infos last ih =>
      obtain ⟨counter, numbers⟩ := ih
      have step : inodesOf (infos ++ [last]) = (inode last (inodesOf infos)).2 := by
        rw [inodesOf, List.foldl_append, List.foldl_cons, List.foldl_nil, ← inodesOf]
      have known := numbers last.devInode
      by_cases old : last.devInode ∈ infos.map Info.devInode
      · have same : appearances (infos ++ [last]) = appearances infos := by
          rw [appearances, List.map_append, List.map_singleton, firsts_append_one, List.map_id, id, if_pos old, List.append_nil,
            ← appearances]
        rw [if_pos old] at known
        rw [step, inode_known known, same]
        refine ⟨counter, fun d => ?_⟩
        have members : d ∈ (infos ++ [last]).map Info.devInode ↔ d ∈ infos.map Info.devInode := by
          rw [List.map_append, List.mem_append, List.map_singleton, List.mem_singleton]
          constructor
          · rintro (there | rfl)
            · exact there
            · exact old
          · exact Or.inl
        simp only [numbers d, members]
      · have longer : appearances (infos ++ [last]) = appearances infos ++ [last.devInode] := by
          rw [appearances, List.map_append, List.map_singleton, firsts_append_one, List.map_id, id, if_neg old, ← appearances]
        rw [if_neg old] at known
        obtain ⟨-, next, -, given⟩ := inode_new last _ known
        rw [step, next, longer, counter, List.length_append, List.length_singleton, UInt64.ofNat_add]
        refine ⟨rfl, fun d => ?_⟩
        rw [given d, counter, numbers d, List.map_append, List.map_singleton]
        by_cases same : d = last.devInode
        · rw [if_pos same, if_pos (List.mem_append.mpr (Or.inr (List.mem_singleton.mpr same))), same,
            List.idxOf_append_of_notMem (mt (mem_appearances infos _).mp old), List.idxOf_cons_self, Nat.add_zero]
        · by_cases there : d ∈ infos.map Info.devInode
          · rw [if_neg same, if_pos there, if_pos (List.mem_append.mpr (Or.inl there)),
              List.idxOf_append_of_mem ((mem_appearances infos d).mpr there)]
          · rw [if_neg same, if_neg there, if_neg (by simpa [same] using there)]

theorem result_at {infos : List Info} {k : Nat} {i : Info} (here : infos[k]? = some i) :
    (renumber infos Inodes.empty)[k]? = some ({ i with dev := 0, ino := UInt64.ofNat ((appearances infos).idxOf i.devInode) },
      decide (i.devInode ∈ (infos.take k).map Info.devInode)) := by
  rw [renumber_at infos k i here]
  obtain ⟨counter, numbers⟩ := inodes_numbers (infos.take k)
  have known := numbers i.devInode
  obtain ⟨inside, value⟩ := List.getElem?_eq_some_iff.mp here
  have split : infos.map Info.devInode = (infos.take k).map Info.devInode ++ i.devInode :: (infos.drop (k + 1)).map Info.devInode := by
    rw [← List.map_cons, ← List.map_append, ← value, List.getElem_cons_drop, List.take_append_drop]
  by_cases old : i.devInode ∈ (infos.take k).map Info.devInode
  · rw [if_pos old] at known
    rw [inode_known known, decide_eq_true old, appearances, appearances, split, index_firsts_old _ _ _ old]
  · rw [if_neg old] at known
    rw [(inode_new i _ known).1, counter, decide_eq_false old, appearances, appearances, split, index_firsts_new _ _ _ old]

theorem inodes_renamed_in_order (infos : List Info) (few : (appearances infos).length ≤ 2 ^ 64) :
    (renumber infos Inodes.empty).length = infos.length ∧
      (∀ (k : Nat) (i : Info), infos[k]? = some i → ∃ ino : UInt64, ino.toNat = (appearances infos).idxOf i.devInode ∧
        (renumber infos Inodes.empty)[k]? =
          some ({ i with dev := 0, ino := ino }, decide (i.devInode ∈ (infos.take k).map Info.devInode))) ∧
      ∀ (j k : Nat) (a b : Info) (r s : Info × Bool), infos[j]? = some a → infos[k]? = some b →
        (renumber infos Inodes.empty)[j]? = some r → (renumber infos Inodes.empty)[k]? = some s →
        (r.1.ino = s.1.ino ↔ (a.dev, a.ino) = (b.dev, b.ino)) := by
  have appears : ∀ (k : Nat) (i : Info), infos[k]? = some i → i.devInode ∈ appearances infos :=
    fun k i here => (mem_appearances infos _).mpr (List.mem_map_of_mem (List.mem_of_getElem? here))
  have exact : ∀ (k : Nat) (i : Info), infos[k]? = some i →
      (UInt64.ofNat ((appearances infos).idxOf i.devInode)).toNat = (appearances infos).idxOf i.devInode := by
    intro k i here
    have small : (appearances infos).idxOf i.devInode < 2 ^ 64 :=
      Nat.lt_of_lt_of_le (List.idxOf_lt_length_iff.mpr (appears k i here)) few
    exact UInt64.toNat_ofNat_of_lt' small
  refine ⟨renumber_length infos Inodes.empty, fun k i here => ⟨_, exact k i here, result_at here⟩, ?_⟩
  intro j k a b r s hereA hereB resultA resultB
  rw [result_at hereA] at resultA
  rw [result_at hereB] at resultB
  cases resultA
  cases resultB
  rw [← UInt64.toNat_inj, exact j a hereA, exact k b hereB, List.idxOf_inj (appears j a hereA),
    Info.devInode, Info.devInode, DevInode.mk.injEq, Prod.mk.injEq]

def linkedPair : List Info :=
  [{ dev := 1, ino := 5, name := str "a" }, { dev := 2, ino := 5, name := str "b" }, { dev := 1, ino := 5, name := str "c" }]

theorem linked_pair_renamed : (appearances linkedPair).length ≤ 2 ^ 64 ∧ ∃ ino : UInt64, ino.toNat = 0 ∧
    (renumber linkedPair Inodes.empty)[2]? = some ({ dev := 0, ino := ino, name := str "c" }, true) :=
  ⟨by decide, (inodes_renamed_in_order linkedPair (by decide)).2.1 2 _ rfl⟩

end URoot.Cpio
