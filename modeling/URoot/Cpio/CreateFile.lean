import URoot.Lib.FileTree
import URoot.Cpio.Concat
import URoot.Cpio.DeviceNumbers

set_option autoImplicit false

namespace URoot.Cpio

open GoLib Files Filepath Act

section Model

inductive FileMode where
  | socket
  | symlink
  | file
  | block
  | dir
  | char
  | fifo
deriving DecidableEq, Repr

def modeTypeMask : UInt64 := 0o170000

def modeMap : List (UInt64 × FileMode) :=
  [(0o140000, .socket), (0o120000, .symlink), (0o100000, .file), (0o060000, .block), (0o040000, .dir), (0o020000, .char),
    (0o010000, .fifo)]

def linuxModeToMode (m : UInt64) : Option FileMode := modeMap.lookup (m &&& modeTypeMask)

inductive CreateError where
  | fileType (bits : UInt64)
  | ipc (name : Bytes) (mode : FileMode)
  | call (err : Errno)
  | read (err : IoError)
  | panic
deriving DecidableEq, Repr

def call {α : Type} (x : Act Errno World α) : Act CreateError World α := Act.within id (fun _ w => w) .call x

def perm (r : Record) : UInt32 := r.info.mode.toUInt32 &&& 0o777

-- The ids reach the kernel as 32-bit words, the time as an int64.
def setModes (r : Record) : Act CreateError World Unit := do
  call (chmod r.info.name (perm r))
  call (chtimes r.info.name r.info.mtime.toInt64.toInt)
  call (chown r.info.name r.info.uid.toUInt32 r.info.gid.toUInt32)

-- A record without a reader has a nil interface there.
def source (f : Record) : Act CreateError World ReadCloser := Act.ofOption f.readCloser .panic

def FileMode.needsParents : FileMode → Bool
  | .file => true
  | .block => true
  | .char => true
  | .symlink => true
  | .socket => false
  | .dir => false
  | .fifo => false

def createParents (f : Record) (m : FileMode) : Act CreateError World Unit :=
  if dirPart f.info.name ≠ [] ∧ m.needsParents = true then call (mkdirAll (dirPart f.info.name) 0o755) else pure ()

def createNode (f : Record) (block : Bool) : Act CreateError World Unit := do
  call (mknod f.info.name block (perm f) (dev f).toUInt64.toUInt32)
  setModes f

def createTyped (f : Record) : FileMode → Act CreateError World Unit
  | .socket => Act.fail (.ipc f.info.name .socket)
  | .fifo => Act.fail (.ipc f.info.name .fifo)
  | .file => do
      let nf ← call (create f.info.name)
      let r ← source f
      let _ ← Act.within id (fun _ w => w) .read (ioCopy (appendAt nf) r)
      setModes f
  | .dir => do
      call (mkdirAll f.info.name (perm f))
      setModes f
  | .block => createNode f true
  | .char => createNode f false
  | .symlink => do
      let r ← source f
      Act.check (r.readErr.map .read)
      call (symlink r.content f.info.name)

def createFile (f : Record) : Act CreateError World Unit := do
  let m ← Act.ofOption (linuxModeToMode f.info.mode) (.fileType (f.info.mode &&& modeTypeMask))
  createParents f m
  createTyped f m

end Model

def attrOf (r : Record) : Attr := ⟨perm r, r.info.uid.toUInt32, r.info.gid.toUInt32, r.info.mtime.toInt64.toInt⟩

def madeNode (r : Record) : FileMode → Option Seen
  | .socket => none
  | .fifo => none
  | .file => some (.file r.content (attrOf r))
  | .dir => some (.dir (perm r) r.info.uid.toUInt32 r.info.gid.toUInt32)
  | .block => some (.device true (dev r).toUInt64.toUInt32 (attrOf r))
  | .char => some (.device false (dev r).toUInt64.toUInt32 (attrOf r))
  | .symlink => some (.link r.content)

structure Entry where
  record : Record
  names : List Bytes
  mode : FileMode
  node : Seen
  named : Named record.info.name names
  taken : pathError record.info.name = none
  delivered : ∃ content, record.readCloser = some (newBytesReadCloser content)
  typed : linuxModeToMode record.info.mode = some mode
  made : madeNode record mode = some node
  target : mode = .symlink → pathError record.content = none
  owned : record.info.uid.toUInt32 ≠ 0xffffffff ∧ record.info.gid.toUInt32 ≠ 0xffffffff
  placed : mode = .dir ∨ names ≠ []

section Calls

variable (w : World)

theorem call_ok {α : Type} (x : Act Errno World α) (a : α) (next : World) (done : x.run w = (.ok a, next)) :
    (call x).run w = (.ok a, next) := run_within_ok id (fun _ w => w) CreateError.call x w a next done

structure Stands (w : World) (p : Place) (names : List Bytes) (n : Node) : Prop where
  place : p = w.cwd ++ names
  there : w.tree.node p = some n
  notLink : ∀ target a, n ≠ .link target a
  inner : names = [] → n.isDir = true

theorem with_attr_not_link (n : Node) (f : Attr → Attr) (notLink : ∀ target a, n ≠ .link target a) :
    ∀ target a, n.withAttr f ≠ .link target a := by
  intro target a same
  cases n with
  | dir b => cases same
  | file content b => cases same
  | link target b => exact notLink _ _ rfl
  | device block number b => cases same

theorem change_stands {path : Bytes} {p : Place} {names : List Bytes} {n : Node} (f : Attr → Attr) (named : Named path names)
    (taken : pathError path = none) (stands : Stands w p names n) :
    ∃ next, (call (change path f)).run w = (.ok (), next) ∧ Puts w next p (n.withAttr f) ∧ Stands next p names (n.withAttr f) := by
  obtain ⟨rfl, there, notLink, inner⟩ := stands
  have resolved : w.resolve path true = .ok (w.cwd ++ names) := by
    refine resolve_named w names named taken (opens_there w names n there inner) fun target a found => ?_
    exact absurd (Option.some.inj (there.symm.trans found)) (notLink target a)
  obtain ⟨next, done, puts⟩ := change_puts w path f _ n resolved there
  refine ⟨next, call_ok w _ () next done, puts, by rw [puts.cwd], puts.here, with_attr_not_link n f notLink, ?_⟩
  rw [Node.with_attr_dir]
  exact inner

theorem set_modes_puts {r : Record} {p : Place} {names : List Bytes} {n : Node} (named : Named r.info.name names)
    (taken : pathError r.info.name = none) (stands : Stands w p names n)
    (owned : r.info.uid.toUInt32 ≠ 0xffffffff ∧ r.info.gid.toUInt32 ≠ 0xffffffff) :
    ∃ next, (setModes r).run w = (.ok (), next) ∧ Puts w next p (n.withAttr fun _ => attrOf r) := by
  obtain ⟨first, chmodDone, put, stands⟩ := change_stands w (fun a => { a with perm := perm r }) named
    taken stands
  obtain ⟨second, chtimesDone, putAgain, stands⟩ := change_stands first
    (fun a => { a with mtime := r.info.mtime.toInt64.toInt }) named taken stands
  obtain ⟨third, chownDone, putLast, -⟩ := change_stands second
    (fun a => { a with uid := owner r.info.uid.toUInt32 a.uid, gid := owner r.info.gid.toUInt32 a.gid }) named taken stands
  have whole := puts_trans w first third p _ _ put (puts_trans first second third p _ _ putAgain putLast)
  refine ⟨third, ?_, ?_⟩
  · rw [setModes, chmod, chtimes, chown, run_bind_ok chmodDone, run_bind_ok chtimesDone]
    exact chownDone
  · convert whole using 1
    cases n <;> simp [Node.withAttr, attrOf, owner, owned.1, owned.2]

end Calls

structure Fits (w : World) (names : List Bytes) (mode : FileMode) : Prop where
  start : w.tree.isDir w.cwd = true
  onWay : ∀ q, q <+: names → q ≠ names → w.tree.node (w.cwd ++ q) = none ∨ w.tree.isDir (w.cwd ++ q) = true
  room : w.tree.node (w.cwd ++ names) = none ∨ (mode = .dir ∧ w.tree.isDir (w.cwd ++ names) = true)

structure Created (w next : World) (e : Entry) : Prop where
  cwd : next.cwd = w.cwd
  umask : next.umask = w.umask
  here : next.tree.seen (w.cwd ++ e.names) = some e.node
  kept : ∀ p, p ≠ w.cwd ++ e.names → w.tree.node p ≠ none ∨ ¬ p <+: w.cwd ++ e.names → next.tree.view p = w.tree.view p

section Create

variable (w : World) (e : Entry)

theorem made_created {middle next : World} {front : List Bytes} {n : Node} (made : MadeDirs w front middle)
    (part : front <+: e.names) (puts : Puts middle next (w.cwd ++ e.names) n) (node : n.seen = e.node) : Created w next e where
  cwd := puts.cwd.trans made.cwd
  umask := puts.umask.trans made.umask
  here := by rw [Tree.seen, puts.here, Option.map_some, node]
  kept := by
    intro p other outside
    rw [puts.others p other]
    exact made.kept p (outside.imp_right fun apart before => apart (before.trans ((List.prefix_append_right_inj w.cwd).mpr part)))

structure Ready (middle : World) (p : Place) (names : List Bytes) : Prop where
  place : p = middle.cwd ++ names
  opens : Opens middle names
  free : middle.tree.node p = none
  parent : middle.tree.isDir p.dropLast = true

theorem made_ready (middle : World) (some : e.names ≠ []) (fresh : w.tree.node (w.cwd ++ e.names) = none)
    (made : MadeDirs w e.names.dropLast middle) : Ready middle (w.cwd ++ e.names) e.names where
  place := by rw [made.cwd]
  opens := by
    rw [Opens, made.cwd]
    exact made.dir
  free := by
    have apart : ¬ w.cwd ++ e.names <+: w.cwd ++ e.names.dropLast := by
      intro before
      have length := before.length_le
      have positive := List.length_pos_iff.mpr some
      simp only [List.length_append, List.length_dropLast] at length
      omega
    rw [← Tree.none_of_view, made.kept _ (Or.inr apart), Tree.none_of_view]
    exact fresh
  parent := by
    rw [List.dropLast_append_of_ne_nil some]
    exact made.dir

theorem parents_made (fits : Fits w e.names e.mode) (some : e.names ≠ []) (wanted : e.mode.needsParents = true) :
    ∃ middle, (createParents e.record e.mode).run w = (.ok (), middle) ∧ MadeDirs w e.names.dropLast middle := by
  obtain ⟨init, last, form⟩ := (List.eq_nil_or_concat e.names).resolve_left some
  rw [List.concat_eq_append] at form
  have named := e.named
  rw [form] at named
  rw [form, List.dropLast_concat]
  rcases named_parent named with ⟨none, rfl⟩ | ⟨above, upper, part⟩
  · refine ⟨w, by rw [createParents, none, if_neg (fun both => both.1 rfl), run_pure], made_self w [] ?_⟩
    rw [List.append_nil]
    exact fits.start
  · have clear : Clear w init := by
      refine ⟨fits.start, fun q before => ?_⟩
      exact fits.onWay q (by rw [form]; exact before.trans (List.prefix_append _ _)) (by
        intro same
        have length := before.length_le
        rw [same, form, List.length_append, List.length_singleton] at length
        omega)
    obtain ⟨middle, ran, made⟩ := mkdir_all_made w init 0o755
      ⟨above, upper, Or.inr rfl, dir_part_taken _ above part e.taken⟩ clear
    refine ⟨middle, ?_, made⟩
    rw [createParents, part, if_pos ⟨by simp, wanted⟩]
    exact call_ok w _ () middle ran

section Typed

variable (p : Place) (ready : Ready w p e.names)

include ready

theorem ready_resolves (follow : Bool) : w.resolve e.record.info.name follow = .ok p := by
  rw [ready.place]
  refine resolve_named w e.names e.named e.taken ready.opens fun target a found => ?_
  rw [← ready.place, ready.free] at found
  cases found

theorem modes_after (next : World) (n : Node) (puts : Puts w next p n) (notLink : ∀ target a, n ≠ .link target a)
    (some : e.names ≠ []) : ∃ last, (setModes e.record).run next = (.ok (), last) ∧
      Puts w last p (n.withAttr fun _ => attrOf e.record) := by
  have stands : Stands next p e.names n := ⟨by rw [puts.cwd, ready.place], puts.here, notLink, fun none => absurd none some⟩
  obtain ⟨last, ran, set⟩ := set_modes_puts next e.named e.taken stands e.owned
  exact ⟨last, ran, puts_trans w next last p _ _ puts set⟩

theorem create_node_puts (block : Bool) (some : e.names ≠ []) :
    ∃ next, (createNode e.record block).run w = (.ok (), next) ∧
      Puts w next p (.device block (dev e.record).toUInt64.toUInt32 (attrOf e.record)) := by
  obtain ⟨middle, entered, puts⟩ := enter_puts w
    (fun w => .device block (dev e.record).toUInt64.toUInt32 (w.fresh (perm e.record))) p
    (ready_resolves w e p ready false) ready.free ready.parent
  obtain ⟨last, set, whole⟩ := modes_after w e p ready middle _ puts (fun _ _ => Node.noConfusion) some
  refine ⟨last, ?_, whole⟩
  rw [createNode, run_bind_ok (call_ok w (mknod _ _ _ _) () middle entered)]
  exact set

theorem create_regular_puts (some : e.names ≠ []) :
    ∃ next, (createTyped e.record .file).run w = (.ok (), next) ∧
      Puts w next p (.file e.record.content (attrOf e.record)) := by
  obtain ⟨content, reader⟩ := e.delivered
  have bytes : e.record.content = content := by
    rw [Record.content, reader]
    rfl
  obtain ⟨first, opened, puts⟩ := create_puts w e.record.info.name p (ready_resolves w e p ready true) ready.free ready.parent
  obtain ⟨n, second, copied, filled⟩ := copy_puts p first (newBytesReadCloser content) _ rfl puts.here
  obtain ⟨last, set, whole⟩ := modes_after w e p ready second _ (puts_trans w first second p _ _ puts filled)
    (fun _ _ => Node.noConfusion) some
  rw [bytes]
  refine ⟨last, ?_, whole⟩
  rw [createTyped, run_bind_ok (call_ok w _ _ first opened), source, reader, run_of_option_bind,
    run_bind_ok (run_within_ok id (fun _ w => w) CreateError.read _ first n second copied)]
  exact set

theorem create_link_puts (mode : e.mode = .symlink) :
    ∃ next, (createTyped e.record .symlink).run w = (.ok (), next) ∧
      Puts w next p (.link e.record.content { w.fresh 0 with perm := 0o777 }) := by
  obtain ⟨content, reader⟩ := e.delivered
  have bytes : e.record.content = content := by
    rw [Record.content, reader]
    rfl
  obtain ⟨last, entered, puts⟩ := enter_puts w (fun w => .link content { w.fresh 0 with perm := 0o777 }) p
    (ready_resolves w e p ready false) ready.free ready.parent
  have taken := e.target mode
  rw [bytes] at taken ⊢
  refine ⟨last, ?_, puts⟩
  rw [createTyped, source, reader, run_of_option_bind]
  refine call_ok w (symlink _ _) () last ?_
  rw [symlink, show (newBytesReadCloser content).content = content from rfl, taken,
    run_bind_ok (run_check_none w)]
  exact entered

end Typed

theorem create_typed_puts (p : Place) (ready : Ready w p e.names) (wanted : e.mode.needsParents = true) (some : e.names ≠ []) :
    ∃ next n, (createTyped e.record e.mode).run w = (.ok (), next) ∧ Puts w next p n ∧ n.seen = e.node := by
  have made := e.made
  generalize form : e.mode = mode at made wanted
  cases mode with
  | socket => cases wanted
  | fifo => cases wanted
  | dir => cases wanted
  | file =>
      obtain ⟨next, ran, puts⟩ := create_regular_puts w e p ready some
      exact ⟨next, _, ran, puts, Option.some.inj made⟩
  | block =>
      obtain ⟨next, ran, puts⟩ := create_node_puts w e p ready true some
      exact ⟨next, _, ran, puts, Option.some.inj made⟩
  | char =>
      obtain ⟨next, ran, puts⟩ := create_node_puts w e p ready false some
      exact ⟨next, _, ran, puts, Option.some.inj made⟩
  | symlink =>
      obtain ⟨next, ran, puts⟩ := create_link_puts w e p ready form
      exact ⟨next, _, ran, puts, Option.some.inj made⟩

theorem create_dir_puts (mode : e.mode = .dir) (fits : Fits w e.names e.mode) :
    ∃ next, (createFile e.record).run w = (.ok (), next) ∧ Created w next e := by
  have clear : Clear w e.names := by
    refine ⟨fits.start, fun q before => ?_⟩
    by_cases whole : q = e.names
    · rw [whole]
      exact fits.room.imp_right And.right
    · exact fits.onWay q before whole
  obtain ⟨middle, ran, made⟩ := mkdir_all_made w e.names (perm e.record)
    ⟨_, e.named, Or.inl rfl, e.taken⟩ clear
  obtain ⟨a, found⟩ := middle.tree.node_of_dir _ made.dir
  have stands : Stands middle (w.cwd ++ e.names) e.names (.dir a) :=
    ⟨by rw [made.cwd], found, fun _ _ => Node.noConfusion, fun _ => rfl⟩
  obtain ⟨next, set, puts⟩ := set_modes_puts middle e.named e.taken stands e.owned
  have node := e.made
  rw [mode] at node
  refine ⟨next, ?_, made_created w e made (List.prefix_refl _) puts (Option.some.inj node)⟩
  rw [createFile, e.typed, run_of_option_bind, mode, createParents, if_neg (by simp [FileMode.needsParents]), Act.pure_bind,
    createTyped, run_bind_ok (call_ok w _ () middle ran)]
  exact set

theorem create_file_puts (fits : Fits w e.names e.mode) : ∃ next, (createFile e.record).run w = (.ok (), next) ∧ Created w next e := by
  by_cases mode : e.mode = .dir
  · exact create_dir_puts w e mode fits
  · have some := e.placed.resolve_left mode
    have wanted : e.mode.needsParents = true := by
      have made := e.made
      generalize e.mode = form at made mode
      cases form <;> first | rfl | cases made | exact absurd rfl mode
    obtain ⟨middle, parents, made⟩ := parents_made w e fits some wanted
    have ready := made_ready w e middle some (fits.room.resolve_right fun both => mode both.1) made
    obtain ⟨next, n, ran, puts, node⟩ := create_typed_puts middle e _ ready wanted some
    refine ⟨next, ?_, made_created w e made (List.dropLast_prefix _) puts node⟩
    rw [createFile, e.typed, run_of_option_bind, run_bind_ok parents]
    exact ran

end Create

end URoot.Cpio
