import URoot.Lib.CleanPath
import URoot.Lib.Io

set_option autoImplicit false

namespace GoLib.Files

open Act

open Filepath

abbrev Place := List Bytes

inductive Errno where
  | noent
  | notdir
  | isdir
  | exist
  | loop
  | inval
  | nametoolong
deriving DecidableEq, Repr

structure Attr where
  perm : UInt32
  uid : UInt32
  gid : UInt32
  mtime : Int
deriving DecidableEq, Repr

inductive Node where
  | dir (attr : Attr)
  | file (content : Bytes) (attr : Attr)
  | link (target : Bytes) (attr : Attr)
  | device (block : Bool) (number : UInt32) (attr : Attr)
deriving DecidableEq, Repr

namespace Node

def isDir : Node → Bool
  | dir _ => true
  | file _ _ => false
  | link _ _ => false
  | device _ _ _ => false

def withAttr (f : Attr → Attr) : Node → Node
  | dir a => dir (f a)
  | file content a => file content (f a)
  | link target a => link target (f a)
  | device block number a => device block number (f a)

def withContent (f : Bytes → Bytes) : Node → Node
  | dir a => dir a
  | file content a => file (f content) a
  | link target a => link target a
  | device block number a => device block number a

theorem with_attr_dir (f : Attr → Attr) (n : Node) : (n.withAttr f).isDir = n.isDir := by
  cases n <;> rfl

theorem with_content_dir (f : Bytes → Bytes) (n : Node) : (n.withContent f).isDir = n.isDir := by
  cases n <;> rfl

end Node

structure Tree where
  node : Place → Option Node
  rooted : (node []).any Node.isDir = true
  closed : ∀ dir name, (node (dir ++ [name])).isSome = true → (node dir).any Node.isDir = true

namespace Tree

variable (t : Tree) (p : Place)

def isDir : Bool := (t.node p).any Node.isDir

theorem node_of_dir (dir : t.isDir p = true) : ∃ a, t.node p = some (.dir a) := by
  rw [isDir] at dir
  cases here : t.node p with
  | none =>
      rw [here] at dir
      cases dir
  | some n =>
      rw [here] at dir
      cases n with
      | dir a => exact ⟨a, rfl⟩
      | file _ _ => cases dir
      | link _ _ => cases dir
      | device _ _ _ => cases dir

theorem dir_there (dir : t.isDir p = true) : t.node p ≠ none := by
  intro gone
  rw [isDir, gone] at dir
  cases dir

theorem dir_above (q r : Place) (there : t.node (p ++ q) ≠ none) (front : r <+: q) (proper : r ≠ q) : t.isDir (p ++ r) = true := by
  induction q using List.reverseRecOn with
  | nil => exact absurd (List.prefix_nil.mp front) proper
  | append_singleton q name ih =>
      rw [← List.append_assoc] at there
      have dir := t.closed (p ++ q) name (Option.isSome_iff_ne_none.mpr there)
      rcases List.prefix_concat_iff.mp front with same | before
      · exact absurd same proper
      · by_cases last : r = q
        · rw [last]
          exact dir
        · exact ih (t.dir_there _ dir) before last

theorem dir_way (q r : Place) (dir : t.isDir (p ++ q) = true) (front : r <+: q) : t.isDir (p ++ r) = true := by
  by_cases same : r = q
  · rw [same]
    exact dir
  · exact t.dir_above p q r (t.dir_there _ dir) front same

section Modify

variable (f : Node → Node) (keeps : ∀ n, (f n).isDir = n.isDir)

def modified (q : Place) : Option Node := if q = p then (t.node p).map f else t.node q

include keeps

theorem modified_dir (q : Place) : (t.modified p f q).any Node.isDir = (t.node q).any Node.isDir := by
  rw [modified]
  split
  · rename_i here
    rw [here]
    cases t.node p with
    | none => rfl
    | some n => exact keeps n
  · rfl

theorem modified_rooted : (t.modified p f []).any Node.isDir = true := by
  rw [t.modified_dir p f keeps]
  exact t.rooted

theorem modified_closed (dir : Place) (name : Bytes) (there : (t.modified p f (dir ++ [name])).isSome = true) :
    (t.modified p f dir).any Node.isDir = true := by
  rw [t.modified_dir p f keeps]
  apply t.closed dir name
  rw [modified] at there
  split at there
  · rename_i here
    rwa [Option.isSome_map, ← here] at there
  · exact there

end Modify

def modify (f : Node → Node) (keeps : ∀ n, (f n).isDir = n.isDir) : Tree where
  node := t.modified p f
  rooted := t.modified_rooted p f keeps
  closed := t.modified_closed p f keeps

section Insert

variable (n : Node)

def inserted (q : Place) : Option Node := if q = p then some n else t.node q

variable (free : t.node p = none) (parent : t.isDir p.dropLast = true)

include free

theorem free_place : p ≠ [] := by
  rintro rfl
  have root := t.rooted
  rw [free] at root
  cases root

theorem inserted_rooted : (t.inserted p n []).any Node.isDir = true := by
  rw [inserted, if_neg (t.free_place p free).symm]
  exact t.rooted

include parent

theorem inserted_closed (dir : Place) (name : Bytes) (there : (t.inserted p n (dir ++ [name])).isSome = true) :
    (t.inserted p n dir).any Node.isDir = true := by
  have old : (t.node dir).any Node.isDir = true := by
    rw [inserted] at there
    split at there
    · rename_i here
      rw [← here, List.dropLast_concat] at parent
      exact parent
    · exact t.closed dir name there
  have other : dir ≠ p := by
    rintro rfl
    rw [free] at old
    cases old
  rw [inserted, if_neg other]
  exact old

end Insert

def insert (n : Node) (free : t.node p = none) (parent : t.isDir p.dropLast = true) : Tree where
  node := t.inserted p n
  rooted := t.inserted_rooted p n free
  closed := t.inserted_closed p n free parent

def touch (now : Int) : Tree := t.modify p (Node.withAttr fun a => { a with mtime := now }) (Node.with_attr_dir _)

end Tree

-- One process that may do everything, and the times the kernel will see.
structure World where
  tree : Tree
  cwd : Place
  umask : UInt32
  clock : Nat → Int

section Walk

variable (t : Tree) (follow : Bool)

def walkWith (deref : Place → List Bytes → Except Errno Place) : Place → List Bytes → Except Errno Place
  | cur, [] => .ok cur
  | cur, word :: rest =>
      if t.isDir cur = false then .error .notdir
      else if word = [] ∨ word = str "." then walkWith deref cur rest
      else if word = str ".." then walkWith deref cur.dropLast rest
      else if 255 < word.length then .error .nametoolong
      else
        match t.node (cur ++ [word]) with
        | none => if rest = [] then .ok (cur ++ [word]) else .error .noent
        | some (.link target _) =>
            if rest = [] ∧ follow = false then .ok (cur ++ [word])
            else if target = [] then .error .noent
            else deref (if isAbs target then [] else cur) (target.splitOn separator ++ rest)
        | some (.dir _) => walkWith deref (cur ++ [word]) rest
        | some (.file _ _) => walkWith deref (cur ++ [word]) rest
        | some (.device _ _ _) => walkWith deref (cur ++ [word]) rest

def walk : Nat → Place → List Bytes → Except Errno Place
  | 0 => walkWith t follow (fun _ _ => .error .loop)
  | n + 1 => walkWith t follow (walk n)

end Walk

def maxLinks : Nat := 40

-- What is said of a path before any directory is looked at: a zero byte by the syscall package, the rest by the kernel.
def pathError (path : Bytes) : Option Errno :=
  if (0 : UInt8) ∈ path then some .inval
  else if path = [] then some .noent
  else if 4096 ≤ path.length then some .nametoolong
  else none

theorem path_error_none (path : Bytes) : pathError path = none ↔ (0 : UInt8) ∉ path ∧ path ≠ [] ∧ path.length < 4096 := by
  rw [pathError]
  split
  · simp [*]
  · split
    · simp [*]
    · split
      · rename_i long
        simp [Nat.not_lt.mpr long]
      · rename_i clear some short
        simp only [true_iff]
        exact ⟨clear, some, Nat.not_le.mp short⟩

theorem front_taken {front back : Bytes} (some : front ≠ []) (taken : pathError (front ++ back) = none) :
    pathError front = none := by
  rw [path_error_none] at taken ⊢
  refine ⟨fun zero => taken.1 (List.mem_append_left _ zero), some, ?_⟩
  have long := taken.2.2
  rw [List.length_append] at long
  omega

namespace World

variable (w : World)

def resolve (path : Bytes) (follow : Bool) : Except Errno Place :=
  match pathError path with
  | some e => .error e
  | none => walk w.tree follow maxLinks (if isAbs path then [] else w.cwd) (path.splitOn separator)

def fresh (perm : UInt32) : Attr := ⟨perm &&& ~~~w.umask, 0, 0, w.clock 0⟩

def become (t : Tree) : World := { w with tree := t, clock := fun n => w.clock (n + 1) }

end World

section Calls

def find (path : Bytes) (follow : Bool) : Act Errno World Node := do
  let w ← Act.get
  let place ← Act.ofExcept (w.resolve path follow)
  Act.ofOption (w.tree.node place) .noent

def stat (path : Bytes) : Act Errno World Node := find path true

def lstat (path : Bytes) : Act Errno World Node := find path false

def enterAt (place : Place) (make : World → Node) : Act Errno World Unit := do
  let w ← Act.get
  if free : w.tree.node place = none then
    if parent : w.tree.isDir place.dropLast = true then
      Act.set (w.become ((w.tree.insert place (make w) free parent).touch place.dropLast (w.clock 0)))
    else Act.fail .noent
  else Act.fail .exist

def enter (path : Bytes) (make : World → Node) : Act Errno World Unit := do
  let w ← Act.get
  let place ← Act.ofExcept (w.resolve path false)
  enterAt place make

def trimEnd (path : Bytes) : Bytes := (path.reverse.dropWhile (fun byte => byte == separator)).reverse

def mkdir (path : Bytes) (perm : UInt32) : Act Errno World Unit := do
  Act.check (pathError path)
  enter (if trimEnd path = [] then path else trimEnd path) (fun w => .dir (w.fresh perm))

def symlink (target path : Bytes) : Act Errno World Unit := do
  Act.check (pathError target)
  enter path (fun w => .link target { w.fresh 0 with perm := 0o777 })

def mknod (path : Bytes) (block : Bool) (perm number : UInt32) : Act Errno World Unit :=
  enter path (fun w => .device block number (w.fresh perm))

def change (path : Bytes) (f : Attr → Attr) : Act Errno World Unit := do
  let w ← Act.get
  let place ← Act.ofExcept (w.resolve path true)
  let _ ← Act.ofOption (w.tree.node place) .noent
  Act.set (w.become (w.tree.modify place (Node.withAttr f) (Node.with_attr_dir f)))

def chmod (path : Bytes) (perm : UInt32) : Act Errno World Unit := change path (fun a => { a with perm := perm })

def chtimes (path : Bytes) (mtime : Int) : Act Errno World Unit := change path (fun a => { a with mtime := mtime })

-- An id of all ones leaves the owner as it is.
def owner (new old : UInt32) : UInt32 := if new = 0xffffffff then old else new

def chown (path : Bytes) (uid gid : UInt32) : Act Errno World Unit :=
  change path (fun a => { a with uid := owner uid a.uid, gid := owner gid a.gid })

def create (path : Bytes) : Act Errno World Place := do
  let w ← Act.get
  let place ← Act.ofExcept (w.resolve path true)
  match w.tree.node place with
  | none => enterAt place (fun w => .file [] (w.fresh 0o666))
  | some (.dir _) => Act.fail .isdir
  | some (.file _ _) =>
      Act.set (w.become ((w.tree.modify place (Node.withContent fun _ => []) (Node.with_content_dir _)).touch place (w.clock 0)))
  | some (.link _ _) => Act.fail .loop
  | some (.device _ _ _) => pure ()
  pure place

def grow (place : Place) (w : World) (bytes : Bytes) : World :=
  { w with tree := w.tree.modify place (Node.withContent (· ++ bytes)) (Node.with_content_dir _) }

-- The times are arbitrary, so a write need not take another one.
def appendAt (place : Place) (bytes : Bytes) : Act IoError World Nat := ⟨fun w => (.ok bytes.length, grow place w bytes)⟩

-- os.MkdirAll: the path up to the separator in front of its last name, first.
def mkdirAllLoop : Nat → Bytes → UInt32 → Act Errno World Unit
  | 0, _, _ => Act.fail .noent
  | fuel + 1, path, perm => do
      match ← Act.caught (stat path) with
      | .ok node => Act.require (node.isDir = true) .notdir
      | .error _ =>
          (if 1 < (dirPart (trimEnd path)).length then mkdirAllLoop fuel (dirPart (trimEnd path)).dropLast perm else pure ())
          match ← Act.caught (mkdir path perm) with
          | .ok _ => pure ()
          | .error e =>
              match ← Act.caught (lstat path) with
              | .ok node => Act.require (node.isDir = true) e
              | .error _ => Act.fail e

def mkdirAll (path : Bytes) (perm : UInt32) : Act Errno World Unit := mkdirAllLoop (path.length + 1) path perm

end Calls

-- What a new entry in a directory leaves alone: all but the time of the directory.
inductive Lasting where
  | dir (perm uid gid : UInt32)
  | other (n : Node)
deriving DecidableEq, Repr

-- What can be set of a node for good: not the time of a directory, and of a link the target alone.
inductive Seen where
  | dir (perm uid gid : UInt32)
  | file (content : Bytes) (attr : Attr)
  | link (target : Bytes)
  | device (block : Bool) (number : UInt32) (attr : Attr)
deriving DecidableEq, Repr

def Node.lasting : Node → Lasting
  | .dir a => .dir a.perm a.uid a.gid
  | n => .other n

def Node.seen : Node → Seen
  | .dir a => .dir a.perm a.uid a.gid
  | .file content a => .file content a
  | .link target _ => .link target
  | .device block number a => .device block number a

def Seen.isDir : Seen → Bool
  | .dir _ _ _ => true
  | .file _ _ => false
  | .link _ => false
  | .device _ _ _ => false

theorem Node.seen_dir (n : Node) : n.seen.isDir = n.isDir := by
  cases n <;> rfl

theorem seen_of_lasting (n m : Node) (same : n.lasting = m.lasting) : n.seen = m.seen := by
  cases n with
  | dir a =>
      cases m with
      | dir b =>
          rw [Node.lasting, Node.lasting, Lasting.dir.injEq] at same
          rw [Node.seen, Node.seen, same.1, same.2.1, same.2.2]
      | file _ _ => cases same
      | link _ _ => cases same
      | device _ _ _ => cases same
  | file _ _ | link _ _ | device _ _ _ =>
      cases m <;> cases same
      rfl

namespace Tree

variable (t : Tree)

def view (p : Place) : Option Lasting := (t.node p).map Node.lasting

def seen (p : Place) : Option Seen := (t.node p).map Node.seen

theorem seen_dir (p : Place) : (t.seen p).any Seen.isDir = t.isDir p := by
  rw [seen, isDir]
  cases t.node p with
  | none => rfl
  | some n => exact n.seen_dir

theorem seen_of_view (other : Tree) (p : Place) (same : t.view p = other.view p) : t.seen p = other.seen p := by
  rw [view, view] at same
  rw [seen, seen]
  cases here : t.node p with
  | none =>
      rw [here] at same
      rw [Option.map_eq_none_iff.mp same.symm]
  | some n =>
      rw [here] at same
      obtain ⟨m, there, last⟩ := Option.map_eq_some_iff.mp same.symm
      rw [there, Option.map_some, Option.map_some, seen_of_lasting n m last.symm]

theorem dir_of_view {other : Tree} {p : Place} (same : t.view p = other.view p) : t.isDir p = other.isDir p := by
  rw [← seen_dir, ← seen_dir, t.seen_of_view other p same]

theorem none_of_view (p : Place) : t.view p = none ↔ t.node p = none := Option.map_eq_none_iff

theorem view_modify_other (p q : Place) (f : Node → Node) (keeps : ∀ n, (f n).isDir = n.isDir) (other : q ≠ p) :
    (t.modify p f keeps).view q = t.view q := congrArg (Option.map Node.lasting) (if_neg other)

theorem node_modify (p : Place) (f : Node → Node) (keeps : ∀ n, (f n).isDir = n.isDir) :
    (t.modify p f keeps).node p = (t.node p).map f := if_pos rfl

theorem view_touch (p q : Place) (now : Int) (dir : t.isDir p = true) : (t.touch p now).view q = t.view q := by
  by_cases here : q = p
  · obtain ⟨a, found⟩ := t.node_of_dir p dir
    rw [here, view, view, touch, node_modify, found]
    rfl
  · exact t.view_modify_other p q _ _ here

theorem node_touch_other (p q : Place) (now : Int) (other : q ≠ p) : (t.touch p now).node q = t.node q := if_neg other

theorem view_insert_other (p q : Place) (n : Node) (free : t.node p = none) (parent : t.isDir p.dropLast = true)
    (other : q ≠ p) : (t.insert p n free parent).view q = t.view q := congrArg (Option.map Node.lasting) (if_neg other)

theorem node_insert (p : Place) (n : Node) (free : t.node p = none) (parent : t.isDir p.dropLast = true) :
    (t.insert p n free parent).node p = some n := if_pos rfl

end Tree

structure Puts (w next : World) (p : Place) (n : Node) : Prop where
  cwd : next.cwd = w.cwd
  umask : next.umask = w.umask
  here : next.tree.node p = some n
  others : ∀ q, q ≠ p → next.tree.view q = w.tree.view q

theorem puts_trans (w middle next : World) (p : Place) (m n : Node) (first : Puts w middle p m) (second : Puts middle next p n) :
    Puts w next p n where
  cwd := second.cwd.trans first.cwd
  umask := second.umask.trans first.umask
  here := second.here
  others := fun q other => (second.others q other).trans (first.others q other)

structure FileName (name : Bytes) : Prop extends Plain name where
  short : name.length ≤ 255

section Resolving

variable (t : Tree) (follow : Bool) (deref : Place → List Bytes → Except Errno Place)

theorem walk_dots (cur : Place) (dir : t.isDir cur = true) (count : Nat) (words : List Bytes) :
    walkWith t follow deref cur (List.replicate count (str ".") ++ words) = walkWith t follow deref cur words := by
  induction count with
  | zero => rfl
  | succ count ih =>
      rw [List.replicate_succ, List.cons_append, walkWith, if_neg (by simp [dir]), if_pos (Or.inr rfl)]
      exact ih

theorem walk_dirs (cur : Place) (names words : List Bytes) (plain : ∀ name ∈ names, FileName name)
    (dir : t.isDir (cur ++ names) = true) :
    walkWith t follow deref cur (names ++ words) = walkWith t follow deref (cur ++ names) words := by
  induction names generalizing cur with
  | nil => rw [List.nil_append, List.append_nil]
  | cons name rest ih =>
      obtain ⟨here, later⟩ := List.forall_mem_cons.mp plain
      have start := t.dir_way cur (name :: rest) [] dir List.nil_prefix
      rw [List.append_nil] at start
      obtain ⟨a, found⟩ := t.node_of_dir (cur ++ [name]) (t.dir_way cur (name :: rest) [name] dir ⟨rest, rfl⟩)
      have onward : cur ++ name :: rest = cur ++ [name] ++ rest := by rw [List.append_assoc, List.singleton_append]
      rw [onward] at dir ⊢
      rw [List.cons_append, walkWith, if_neg (by simp [start]), if_neg (by simp [here.some, here.notDot]), if_neg here.notUp,
        if_neg (Nat.not_lt.mpr here.short), found]
      exact ih (cur ++ [name]) later dir

theorem walk_last (cur : Place) (name : Bytes) (plain : FileName name) (dir : t.isDir cur = true)
    (kept : ∀ target a, t.node (cur ++ [name]) = some (.link target a) → follow = false) :
    walkWith t follow deref cur [name] = .ok (cur ++ [name]) := by
  rw [walkWith, if_neg (by simp [dir]), if_neg (by simp [plain.some, plain.notDot]), if_neg plain.notUp,
    if_neg (Nat.not_lt.mpr plain.short)]
  split
  · rfl
  · rename_i target a found
    rw [if_pos ⟨rfl, kept target a found⟩]
  · rfl
  · rfl
  · rfl

theorem walk_missing (cur : Place) (names : List Bytes) (plain : ∀ name ∈ names, FileName name) (dir : t.isDir cur = true)
    (clear : ∀ q, q <+: names → t.node (cur ++ q) = none ∨ t.isDir (cur ++ q) = true) (words : List Bytes)
    (missing : t.node (cur ++ names) = none) :
    walkWith t follow deref cur (names ++ words) = .ok (cur ++ names) ∨
      ∃ e, walkWith t follow deref cur (names ++ words) = .error e := by
  induction names generalizing cur with
  | nil =>
      rw [List.append_nil] at missing
      exact absurd missing (t.dir_there cur dir)
  | cons name rest ih =>
      obtain ⟨here, later⟩ := List.forall_mem_cons.mp plain
      rw [List.cons_append, walkWith, if_neg (by simp [dir]), if_neg (by simp [here.some, here.notDot]), if_neg here.notUp,
        if_neg (Nat.not_lt.mpr here.short)]
      rcases clear [name] ⟨rest, rfl⟩ with gone | there
      · rw [gone]
        simp only
        by_cases final : rest ++ words = []
        · rw [if_pos final]
          rw [List.append_eq_nil_iff] at final
          rw [final.1]
          exact Or.inl rfl
        · rw [if_neg final]
          exact Or.inr ⟨_, rfl⟩
      · obtain ⟨a, found⟩ := t.node_of_dir (cur ++ [name]) there
        rw [found]
        simp only
        have onward := ih (cur ++ [name]) later there (by
          intro q front
          rw [List.append_assoc, List.singleton_append]
          exact clear (name :: q) (List.cons_prefix_cons.mpr ⟨rfl, front⟩))
          (by rw [List.append_assoc, List.singleton_append]; exact missing)
        rw [List.append_assoc, List.singleton_append] at onward
        exact onward

end Resolving

structure Named (path : Bytes) (names : List Bytes) : Prop where
  plain : ∀ name ∈ names, FileName name
  text : ∃ dots, 0 < dots + names.length ∧ path = join (List.replicate dots (str ".") ++ names)

section Named

variable (path : Bytes) (names : List Bytes) (named : Named path names)

include named

theorem named_words : ∃ dots, path.splitOn separator = List.replicate dots (str ".") ++ names ∧ isAbs path = false ∧
    path ≠ [] := by
  obtain ⟨dots, some, rfl⟩ := named.text
  have word : ∀ word ∈ List.replicate dots (str ".") ++ names, word ≠ [] ∧ separator ∉ word := by
    intro word member
    rcases List.mem_append.mp member with dot | name
    · rw [List.eq_of_mem_replicate dot]
      decide
    · exact ⟨(named.plain word name).some, (named.plain word name).clear⟩
  have words : List.replicate dots (str ".") ++ names ≠ [] := by
    intro none
    have length := congrArg List.length none
    simp only [List.length_append, List.length_replicate, List.length_nil] at length
    omega
  refine ⟨dots, List.splitOn_intercalate separator (fun w member => (word w member).2) words, ?_, ?_⟩
  · cases form : List.replicate dots (str ".") ++ names with
    | nil => exact absurd form words
    | cons first rest =>
        have plain := word first (by rw [form]; exact List.mem_cons_self)
        exact join_relative rest plain.1 plain.2
  · intro empty
    have split := List.splitOn_intercalate separator (fun w member => (word w member).2) words
    rw [show List.intercalate [separator] (List.replicate dots (str ".") ++ names) = [] from empty, List.splitOn_nil] at split
    exact (word [] (by rw [← split]; exact List.mem_cons_self)).1 rfl

theorem named_trimmed : trimEnd path = path ∧ trimEnd (path ++ [separator]) = path := by
  obtain ⟨dots, words, -, some⟩ := named_words path names named
  have last : ∀ rest byte, path = rest ++ [byte] → byte ≠ separator := by
    rintro rest byte rfl rfl
    rw [List.splitOn_append_cons_self, List.splitOn_nil] at words
    have empty : ([] : Bytes) ∈ List.replicate dots (str ".") ++ names := by
      rw [← words]
      exact List.mem_append_right _ (List.mem_singleton.mpr rfl)
    rcases List.mem_append.mp empty with dot | name
    · exact absurd (List.eq_of_mem_replicate dot) (by decide)
    · exact (named.plain [] name).some rfl
  have kept : path.reverse.dropWhile (fun byte => byte == separator) = path.reverse := by
    cases form : path.reverse with
    | nil => rfl
    | cons byte rest =>
        have split : path = rest.reverse ++ [byte] := by rw [← List.reverse_reverse path, form, List.reverse_cons]
        rw [List.dropWhile_cons_of_neg]
        simpa using last rest.reverse byte split
  refine ⟨by rw [trimEnd, kept, List.reverse_reverse], ?_⟩
  rw [trimEnd, List.reverse_append, List.reverse_singleton, List.singleton_append, List.dropWhile_cons_of_pos (by simp), kept,
    List.reverse_reverse]

end Named

theorem named_unique (path : Bytes) (names others : List Bytes) (first : Named path names) (second : Named path others) :
    names = others := by
  have kept : ∀ dots (words : List Bytes), (∀ word ∈ words, FileName word) →
      (List.replicate dots (str ".") ++ words).filter (fun word => word != str ".") = words := by
    intro dots words plain
    rw [List.filter_append, List.filter_eq_nil_iff.mpr (by simp), List.nil_append, List.filter_eq_self]
    exact fun word member => bne_iff_ne.mpr (plain word member).notDot
  obtain ⟨dots, words, -, -⟩ := named_words path names first
  obtain ⟨more, same, -, -⟩ := named_words path others second
  rw [← kept dots names first.plain, ← words, same, kept more others second.plain]

theorem named_parent {path : Bytes} {names : List Bytes} {last : Bytes} (named : Named path (names ++ [last])) :
    (dirPart path = [] ∧ names = []) ∨ ∃ above, Named above names ∧ dirPart path = above ++ [separator] := by
  obtain ⟨dots, -, rfl⟩ := named.text
  have plain := named.plain last (List.mem_append_right _ (List.mem_singleton.mpr rfl))
  rw [← List.append_assoc]
  by_cases none : List.replicate dots (str ".") ++ names = []
  · rw [none]
    exact Or.inl ⟨by rw [List.nil_append, show join [last] = last by simp [join], dir_part_word last plain.clear],
      (List.append_eq_nil_iff.mp none).2⟩
  · refine Or.inr ⟨_, ⟨fun name member => named.plain name (List.mem_append_left _ member), dots, ?_, rfl⟩, ?_⟩
    · have length := List.length_pos_iff.mpr none
      rw [List.length_append, List.length_replicate] at length
      exact length
    · rw [join_snoc last none, dir_part_slash _ last plain.clear]

theorem dir_part_taken (path above : Bytes) (part : dirPart path = above ++ [separator]) (taken : pathError path = none) :
    pathError (above ++ [separator]) = none := by
  have front : dirPart path <+: path := by
    rw [dirPart, ← List.reverse_suffix, List.reverse_reverse]
    exact List.dropWhile_suffix _
  obtain ⟨rest, form⟩ := front
  rw [part] at form
  exact front_taken (by simp) (by rw [form]; exact taken)

theorem spelled_trimmed {text path : Bytes} {names : List Bytes} (named : Named path names)
    (form : text = path ∨ text = path ++ [separator]) : trimEnd text = path := by
  obtain ⟨plain, slash⟩ := named_trimmed path names named
  rcases form with rfl | rfl
  · exact plain
  · exact slash

theorem spelled_taken {text path : Bytes} {names : List Bytes} (named : Named path names)
    (form : text = path ∨ text = path ++ [separator]) (taken : pathError text = none) : pathError path = none := by
  obtain ⟨-, -, -, some⟩ := named_words path names named
  rcases form with rfl | rfl
  · exact taken
  · exact front_taken some taken

def Spells (text : Bytes) (names : List Bytes) : Prop :=
  ∃ path, Named path names ∧ (text = path ∨ text = path ++ [separator]) ∧ pathError text = none

theorem spells_words {text : Bytes} {names : List Bytes} (spells : Spells text names) :
    ∃ dots tail, text.splitOn separator = List.replicate dots (str ".") ++ (names ++ tail) ∧ (tail = [] ∨ tail = [[]]) ∧
      isAbs text = false := by
  obtain ⟨path, named, form, -⟩ := spells
  obtain ⟨dots, words, relative, some⟩ := named_words path names named
  rcases form with rfl | rfl
  · exact ⟨dots, [], by rw [words, List.append_nil], Or.inl rfl, relative⟩
  · refine ⟨dots, [[]], by rw [List.splitOn_append_cons_self, words, List.splitOn_nil, List.append_assoc], Or.inr rfl, ?_⟩
    cases path with
    | nil => exact absurd rfl some
    | cons byte rest => exact relative

section Worlds

variable (w : World) (names : List Bytes)

def Opens : Prop := w.tree.isDir (w.cwd ++ names.dropLast) = true

theorem opens_there (n : Node) (there : w.tree.node (w.cwd ++ names) = some n) (inner : names = [] → n.isDir = true) :
    Opens w names := by
  rcases List.eq_nil_or_concat names with rfl | ⟨init, last, rfl⟩
  · rw [List.append_nil] at there
    rw [Opens, List.dropLast_nil, List.append_nil, Tree.isDir, there]
    exact inner rfl
  · rw [List.concat_eq_append, ← List.append_assoc] at there
    rw [Opens, List.concat_eq_append, List.dropLast_concat]
    exact w.tree.closed _ last (by rw [there]; rfl)

theorem walk_links (t : Tree) (follow : Bool) (links : Nat) : ∃ deref, walk t follow links = walkWith t follow deref := by
  cases links with
  | zero => exact ⟨_, rfl⟩
  | succ n => exact ⟨_, rfl⟩

theorem resolve_named {path : Bytes} {follow : Bool} (named : Named path names) (taken : pathError path = none)
    (opens : Opens w names)
    (kept : ∀ target a, w.tree.node (w.cwd ++ names) = some (.link target a) → follow = false) :
    w.resolve path follow = .ok (w.cwd ++ names) := by
  obtain ⟨dots, words, relative, -⟩ := named_words path names named
  obtain ⟨deref, walked⟩ := walk_links w.tree follow maxLinks
  have start := w.tree.dir_way w.cwd _ [] opens List.nil_prefix
  rw [List.append_nil] at start
  simp only [World.resolve, taken]
  rw [walked, words, relative, if_neg Bool.false_ne_true, walk_dots _ _ _ _ start]
  rcases List.eq_nil_or_concat names with rfl | ⟨init, last, rfl⟩
  · rw [List.append_nil]
    rfl
  · rw [List.concat_eq_append] at named opens kept ⊢
    rw [Opens, List.dropLast_concat] at opens
    rw [← List.append_assoc] at kept
    have plain := named.plain last (List.mem_append_right _ (List.mem_singleton.mpr rfl))
    rw [walk_dirs _ _ _ _ _ _ (fun name member => named.plain name (List.mem_append_left _ member)) opens,
      walk_last _ _ _ _ _ plain opens kept, List.append_assoc]

theorem resolve_spelled (text : Bytes) (follow : Bool) (spells : Spells text names) (start : w.tree.isDir w.cwd = true) :
    (∀ name ∈ names, FileName name) ∧ ∃ deref tail, (tail = [] ∨ tail = [[]]) ∧
      w.resolve text follow = walkWith w.tree follow deref w.cwd (names ++ tail) := by
  obtain ⟨dots, tail, words, ends, relative⟩ := spells_words spells
  obtain ⟨path, named, -, taken⟩ := spells
  obtain ⟨deref, walked⟩ := walk_links w.tree follow maxLinks
  refine ⟨named.plain, deref, tail, ends, ?_⟩
  simp only [World.resolve, taken]
  rw [walked, words, relative, if_neg Bool.false_ne_true, walk_dots _ _ _ _ start]

theorem resolve_dirs (text : Bytes) (follow : Bool) (spells : Spells text names)
    (dir : w.tree.isDir (w.cwd ++ names) = true) : w.resolve text follow = .ok (w.cwd ++ names) := by
  have start := w.tree.dir_way w.cwd names [] dir List.nil_prefix
  rw [List.append_nil] at start
  obtain ⟨plain, deref, tail, ends, resolved⟩ := resolve_spelled w names text follow spells start
  rw [resolved, walk_dirs _ _ _ _ _ _ plain dir]
  rcases ends with rfl | rfl
  · rfl
  · rw [walkWith, if_neg (by simp [dir]), if_pos (Or.inl rfl), walkWith]

structure Clear : Prop where
  start : w.tree.isDir w.cwd = true
  onWay : ∀ q, q <+: names → w.tree.node (w.cwd ++ q) = none ∨ w.tree.isDir (w.cwd ++ q) = true

theorem find_missing (text : Bytes) (follow : Bool) (spells : Spells text names) (clear : Clear w names)
    (missing : w.tree.node (w.cwd ++ names) = none) : ∃ e, (find text follow).run w = (.error e, w) := by
  obtain ⟨plain, deref, tail, -, resolved⟩ := resolve_spelled w names text follow spells clear.start
  rw [find, run_get_bind, resolved]
  rcases walk_missing w.tree follow deref w.cwd names plain clear.start clear.onWay tail missing with ok | ⟨e, failed⟩
  · rw [ok, run_of_except_bind _ _ rfl, missing]
    exact ⟨_, rfl⟩
  · rw [failed]
    exact ⟨e, rfl⟩

theorem find_there (text : Bytes) (follow : Bool) (p : Place) (n : Node) (resolved : w.resolve text follow = .ok p)
    (there : w.tree.node p = some n) : (find text follow).run w = (.ok n, w) := by
  rw [find, run_get_bind, run_of_except_bind _ _ resolved, there, run_of_option_some]

theorem enter_at_puts (p : Place) (make : World → Node) (free : w.tree.node p = none)
    (parent : w.tree.isDir p.dropLast = true) :
    ∃ next, (enterAt p make).run w = (.ok (), next) ∧ Puts w next p (make w) := by
  have apart : p ≠ p.dropLast := by
    intro same
    rw [← same] at parent
    exact w.tree.dir_there p parent free
  have still : (w.tree.insert p (make w) free parent).isDir p.dropLast = true := by
    rw [Tree.dir_of_view _ (Tree.view_insert_other w.tree p p.dropLast (make w) free parent apart.symm)]
    exact parent
  refine ⟨w.become ((w.tree.insert p (make w) free parent).touch p.dropLast (w.clock 0)), ?_, rfl, rfl, ?_, ?_⟩
  · rw [enterAt, run_get_bind, dif_pos free, dif_pos parent, run_set]
  · exact (Tree.node_touch_other _ _ _ _ apart).trans (Tree.node_insert w.tree p (make w) free parent)
  · intro q other
    exact (Tree.view_touch _ _ _ _ still).trans (Tree.view_insert_other w.tree p q (make w) free parent other)

theorem enter_puts {path : Bytes} (make : World → Node) (p : Place) (resolved : w.resolve path false = .ok p)
    (free : w.tree.node p = none) (parent : w.tree.isDir p.dropLast = true) :
    ∃ next, (enter path make).run w = (.ok (), next) ∧ Puts w next p (make w) := by
  obtain ⟨next, ran, puts⟩ := enter_at_puts w p make free parent
  exact ⟨next, by rw [enter, run_get_bind, run_of_except_bind _ _ resolved, ran], puts⟩

theorem change_puts (path : Bytes) (f : Attr → Attr) (p : Place) (n : Node) (resolved : w.resolve path true = .ok p)
    (there : w.tree.node p = some n) : ∃ next, (change path f).run w = (.ok (), next) ∧ Puts w next p (n.withAttr f) := by
  refine ⟨w.become (w.tree.modify p (Node.withAttr f) (Node.with_attr_dir f)), ?_, rfl, rfl, ?_, ?_⟩
  · rw [change, run_get_bind, run_of_except_bind _ _ resolved, there, run_of_option_bind, run_set]
  · exact (Tree.node_modify w.tree p (Node.withAttr f) (Node.with_attr_dir f)).trans (by rw [there]; rfl)
  · exact fun q other => Tree.view_modify_other w.tree p q (Node.withAttr f) (Node.with_attr_dir f) other

structure MadeDirs (next : World) : Prop where
  cwd : next.cwd = w.cwd
  umask : next.umask = w.umask
  dir : next.tree.isDir (w.cwd ++ names) = true
  kept : ∀ p, w.tree.node p ≠ none ∨ ¬ p <+: w.cwd ++ names → next.tree.view p = w.tree.view p

theorem made_self (dir : w.tree.isDir (w.cwd ++ names) = true) : MadeDirs w names w := ⟨rfl, rfl, dir, fun _ _ => rfl⟩

theorem made_last {init : List Bytes} {last : Bytes} {middle next : World} {a : Attr} (made : MadeDirs w init middle)
    (free : w.tree.node (w.cwd ++ (init ++ [last])) = none)
    (puts : Puts middle next (w.cwd ++ (init ++ [last])) (.dir a)) : MadeDirs w (init ++ [last]) next where
  cwd := puts.cwd.trans made.cwd
  umask := puts.umask.trans made.umask
  dir := by
    rw [Tree.isDir, puts.here]
    rfl
  kept := by
    intro p outside
    have other : p ≠ w.cwd ++ (init ++ [last]) := by
      rintro rfl
      rcases outside with there | apart
      · exact there free
      · exact apart (List.prefix_refl _)
    rw [puts.others p other]
    refine made.kept p (outside.imp_right fun apart front => apart (front.trans ?_))
    rw [← List.append_assoc]
    exact List.prefix_append _ _

theorem mkdir_puts (text path : Bytes) (names : List Bytes) (last : Bytes) (perm : UInt32) (named : Named path (names ++ [last]))
    (form : text = path ∨ text = path ++ [separator]) (taken : pathError text = none)
    (dir : w.tree.isDir (w.cwd ++ names) = true) (free : w.tree.node (w.cwd ++ (names ++ [last])) = none) :
    ∃ next, (mkdir text perm).run w = (.ok (), next) ∧ Puts w next (w.cwd ++ (names ++ [last])) (.dir (w.fresh perm)) := by
  obtain ⟨-, -, -, some⟩ := named_words path _ named
  have opens : Opens w (names ++ [last]) := by
    rw [Opens, List.dropLast_concat]
    exact dir
  have shorter := spelled_taken named form taken
  rw [mkdir, taken, run_bind_ok (run_check_none w), spelled_trimmed named form, if_neg some]
  refine enter_puts w _ _ (resolve_named w _ named shorter opens fun _ _ _ => rfl) free ?_
  rw [← List.append_assoc, List.dropLast_concat]
  exact dir

theorem parent_made (perm : UInt32) (fuel : Nat) (path : Bytes) (last : Bytes) (named : Named path (names ++ [last]))
    (taken : pathError path = none) (start : w.tree.isDir w.cwd = true)
    (inner : ∀ above, Spells above names → ∃ next, (mkdirAllLoop fuel above perm).run w = (.ok (), next) ∧ MadeDirs w names next) :
    ∃ next, (if 1 < (dirPart path).length then mkdirAllLoop fuel (dirPart path).dropLast perm else pure ()).run w =
      (.ok (), next) ∧ MadeDirs w names next := by
  rcases named_parent named with ⟨none, rfl⟩ | ⟨above, upper, part⟩
  · refine ⟨w, by rw [none, if_neg (by decide), run_pure], made_self w [] ?_⟩
    rw [List.append_nil]
    exact start
  · obtain ⟨-, -, -, some⟩ := named_words above _ upper
    have long : 1 < (above ++ [separator]).length := by
      have positive := List.length_pos_iff.mpr some
      rw [List.length_append, List.length_singleton]
      omega
    rw [part, if_pos long, List.dropLast_concat]
    exact inner above ⟨above, upper, Or.inl rfl, front_taken some (dir_part_taken path above part taken)⟩

-- Induction on the fuel: the call for the names in front makes their directories, and one Mkdir the last.
theorem mkdir_all_loop_made (perm : UInt32) (fuel : Nat) (text : Bytes) (spells : Spells text names) (clear : Clear w names)
    (enough : names.length < fuel) : ∃ next, (mkdirAllLoop fuel text perm).run w = (.ok (), next) ∧ MadeDirs w names next := by
  induction fuel generalizing text names with
  | zero => cases enough
  | succ fuel ih =>
      rw [mkdirAllLoop, run_caught_bind]
      by_cases missing : w.tree.node (w.cwd ++ names) = none
      · obtain ⟨e, failed⟩ := find_missing w names text true spells clear missing
        rw [stat, failed]
        simp only
        rcases List.eq_nil_or_concat names with rfl | ⟨init, last, rfl⟩
        · rw [List.append_nil] at missing
          exact absurd missing (w.tree.dir_there _ clear.start)
        rw [List.concat_eq_append] at spells clear enough missing ⊢
        obtain ⟨path, named, form, taken⟩ := spells
        have shorter := spelled_taken named form taken
        obtain ⟨middle, ran, made⟩ := parent_made w init perm fuel path last named shorter clear.start fun above upper =>
          ih init above upper ⟨clear.start, fun q front => clear.onWay q (front.trans (List.prefix_append _ _))⟩
            (by rw [List.length_append, List.length_singleton] at enough; omega)
        rw [← spelled_trimmed named form] at ran
        have apart : ¬ w.cwd ++ (init ++ [last]) <+: w.cwd ++ init := by
          intro front
          have length := front.length_le
          simp only [List.length_append, List.length_singleton] at length
          omega
        have free : middle.tree.node (w.cwd ++ (init ++ [last])) = none := by
          rw [← Tree.none_of_view, made.kept _ (Or.inr apart), Tree.none_of_view]
          exact missing
        rw [← made.cwd] at free
        obtain ⟨next, done, puts⟩ := mkdir_puts middle text path init last perm named form taken (by rw [made.cwd]; exact made.dir)
          free
        rw [made.cwd] at puts
        refine ⟨next, ?_, made_last w made missing puts⟩
        rw [run_bind_ok ran, run_caught_bind, done]
        rfl
      · have dir := (clear.onWay names (List.prefix_refl _)).resolve_left missing
        obtain ⟨a, found⟩ := w.tree.node_of_dir _ dir
        rw [stat, find_there w text true _ _ (resolve_dirs w names text true spells dir) found]
        exact ⟨w, rfl, made_self w names dir⟩

theorem plain_weight (plain : ∀ name ∈ names, FileName name) : 2 * names.length ≤ weight names := by
  induction names with
  | nil => exact Nat.le_refl _
  | cons name rest ih =>
      obtain ⟨here, later⟩ := List.forall_mem_cons.mp plain
      have bound := ih later
      have positive := List.length_pos_iff.mpr here.some
      simp only [weight, List.map_cons, List.sum_cons, List.length_cons] at bound ⊢
      omega

theorem spelled_length (text : Bytes) (spells : Spells text names) : names.length ≤ text.length := by
  obtain ⟨dots, tail, words, -, -⟩ := spells_words spells
  obtain ⟨path, named, -⟩ := spells
  have total := split_weight text
  have each := plain_weight names named.plain
  rw [words] at total
  simp only [weight, List.map_append, List.sum_append] at total each
  omega

theorem mkdir_all_made {text : Bytes} (perm : UInt32) (spells : Spells text names) (clear : Clear w names) :
    ∃ next, (mkdirAll text perm).run w = (.ok (), next) ∧ MadeDirs w names next :=
  mkdir_all_loop_made w names perm (text.length + 1) text spells clear (Nat.lt_succ_of_le (spelled_length names text spells))

theorem create_puts (path : Bytes) (p : Place) (resolved : w.resolve path true = .ok p) (free : w.tree.node p = none)
    (parent : w.tree.isDir p.dropLast = true) :
    ∃ next, (create path).run w = (.ok p, next) ∧ Puts w next p (.file [] (w.fresh 0o666)) := by
  obtain ⟨next, ran, puts⟩ := enter_at_puts w p (fun w => .file [] (w.fresh 0o666)) free parent
  refine ⟨next, ?_, puts⟩
  rw [create, run_get_bind, run_of_except_bind _ _ resolved, free]
  exact run_bind_ok ran

end Worlds

section Filling

theorem tree_ext (a b : Tree) (same : ∀ p, a.node p = b.node p) : a = b := by
  cases a
  cases b
  simp only [Tree.mk.injEq]
  exact funext same

variable (p : Place)

theorem grow_empty (w : World) : grow p w [] = w := by
  rw [grow, tree_ext (w.tree.modify p (Node.withContent (· ++ [])) (Node.with_content_dir _)) w.tree]
  intro q
  by_cases here : q = p
  · rw [here, Tree.node_modify]
    rcases w.tree.node p with _ | _ | _ | _ | _ <;> simp [Node.withContent]
  · exact if_neg here

theorem grow_append (w : World) (a b : Bytes) : grow p (grow p w a) b = grow p w (a ++ b) := by
  simp only [grow]
  congr 1
  apply tree_ext
  intro q
  by_cases here : q = p
  · rw [here]
    simp only [Tree.node_modify]
    rcases w.tree.node p with _ | _ | _ | _ | _ <;> simp [Node.withContent]
  · simp only [Tree.modify, Tree.modified, if_neg here]

theorem copy_puts (w : World) (source : ReadCloser) (a : Attr) (readable : source.readErr = none)
    (there : w.tree.node p = some (.file [] a)) :
    ∃ n next, (ioCopy (appendAt p) source).run w = (.ok n, next) ∧ Puts w next p (.file source.content a) := by
  refine ⟨_, _, io_copy_takes (fun _ _ => rfl) (grow_empty p) (grow_append p) source readable w, rfl, rfl,
    ?_, ?_⟩
  · exact (Tree.node_modify w.tree p _ (Node.with_content_dir (· ++ source.content))).trans (by rw [there]; rfl)
  · exact fun q other => Tree.view_modify_other w.tree p q _ (Node.with_content_dir _) other

end Filling

end GoLib.Files
