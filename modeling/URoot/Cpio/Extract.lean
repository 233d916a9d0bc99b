import URoot.Cpio.CreateFile

set_option autoImplicit false

namespace URoot.Cpio

open GoLib Files Filepath Act

section Model

inductive UnpackStop where
  | reading (err : Newc.ReadError)
  | panic
deriving DecidableEq, Repr

structure Unpacker where
  world : World
  failed : List (Bytes × CreateError)

def unpackRecord (rec : Record) : Act UnpackStop Unpacker Unit :=
  ⟨fun s =>
    match (createFile rec).run s.world with
    | (.ok _, w) => (.ok (), { s with world := w })
    | (.error .panic, w) => (.error .panic, { s with world := w })
    | (.error e, w) => (.ok (), ⟨w, s.failed ++ [(rec.info.name, e)]⟩)⟩

def unpackLoop (rr : Newc.Reader) (s : Unpacker) : Except UnpackStop Unit × Unpacker :=
  match _step : readRecord.run rr with
  | (.error .eof, _) => (.ok (), s)
  | (.error e, _) => (.error (.reading e), s)
  | (.ok rec, next) =>
      match (unpackRecord rec).run s with
      | (.error e, last) => (.error e, last)
      | (.ok _, last) => unpackLoop next last
termination_by rr.r.length - rr.pos
decreasing_by exact read_record_advances _step

def unpack (data : Bytes) : Act UnpackStop Unpacker Unit := ⟨unpackLoop ⟨data, 0⟩⟩

end Model

section Loop

def unpackEach : List Record → Act UnpackStop Unpacker Unit
  | [] => pure ()
  | rec :: rest => do
      unpackRecord rec
      unpackEach rest

theorem unpack_loop_next (rr next : Newc.Reader) (rec : Record) (s : Unpacker) (step : readRecord.run rr = (.ok rec, next)) :
    unpackLoop rr s = match (unpackRecord rec).run s with
      | (.error e, last) => (.error e, last)
      | (.ok _, last) => unpackLoop next last := by
  rw [unpackLoop]
  split
  · rename_i same
    cases step.symm.trans same
  · rename_i same
    cases step.symm.trans same
  · rename_i same
    cases step.symm.trans same
    rfl

theorem unpack_loop_eof (rr next : Newc.Reader) (s : Unpacker) (step : readRecord.run rr = (.error .eof, next)) :
    unpackLoop rr s = (.ok (), s) := by
  rw [unpackLoop]
  split
  · rfl
  · rename_i notEof same
    cases step.symm.trans same
    exact absurd rfl notEof
  · rename_i same
    cases step.symm.trans same

theorem unpack_loop_reads {rr : Newc.Reader} {files found : List Record} (read : readRecordsLoop rr files = .ok found) :
    ∃ more, found = files ++ more ∧ ∀ s, unpackLoop rr s = (unpackEach more).run s := by
  rcases step : readRecord.run rr with ⟨result, next⟩
  cases result with
  | error e =>
      by_cases eof : e = .eof
      · subst eof
        rw [read_records_loop_eof files step] at read
        cases read
        exact ⟨[], (List.append_nil files).symm, fun s => unpack_loop_eof rr next s step⟩
      · rw [read_records_loop_error files e step eof] at read
        cases read
  | ok f =>
      have shorter := read_record_advances step
      rw [read_records_loop_next rr next f files step] at read
      obtain ⟨more, rfl, agrees⟩ := unpack_loop_reads read
      refine ⟨f :: more, by rw [List.append_assoc, List.singleton_append], fun s => ?_⟩
      rw [unpack_loop_next rr next f s step, unpackEach, run_bind]
      rcases (unpackRecord f).run s with ⟨outcome, last⟩
      cases outcome with
      | error e => rfl
      | ok _ => exact agrees last
termination_by rr.r.length - rr.pos

end Loop

def refusal (f : Record) : Option CreateError :=
  match linuxModeToMode f.info.mode with
  | none => some (.fileType (f.info.mode &&& modeTypeMask))
  | some .socket => some (.ipc f.info.name .socket)
  | some .fifo => some (.ipc f.info.name .fifo)
  | some _ => none

def refused (found : List Record) : List (Bytes × CreateError) :=
  found.filterMap fun f => (refusal f).map fun err => (f.info.name, err)

structure Apart (a b : Entry) : Prop where
  places : a.names ≠ b.names
  under : a.names <+: b.names → a.mode = .dir
  above : b.names <+: a.names → b.mode = .dir

structure Unpacks (w next : World) (entries : List Entry) : Prop where
  cwd : next.cwd = w.cwd
  umask : next.umask = w.umask
  placed : ∀ e ∈ entries, next.tree.seen (w.cwd ++ e.names) = some e.node
  kept : ∀ p, (∀ e ∈ entries, p ≠ w.cwd ++ e.names) →
    (w.tree.node p ≠ none ∨ ∀ e ∈ entries, ¬ p <+: w.cwd ++ e.names) → next.tree.view p = w.tree.view p

section Refused

variable (w : World) (f : Record) (err : CreateError)

theorem refused_untouched (turned : refusal f = some err) : (createFile f).run w = (.error err, w) ∧ err ≠ .panic := by
  rw [refusal] at turned
  rw [createFile]
  split at turned <;> rename_i mode
  · cases turned
    rw [mode]
    exact ⟨rfl, by simp⟩
  · cases turned
    rw [mode, run_of_option_bind, createParents, if_neg (by simp [FileMode.needsParents]), Act.pure_bind]
    exact ⟨rfl, by simp⟩
  · cases turned
    rw [mode, run_of_option_bind, createParents, if_neg (by simp [FileMode.needsParents]), Act.pure_bind]
    exact ⟨rfl, by simp⟩
  · cases turned

theorem unpack_record_refused (log : List (Bytes × CreateError)) (turned : refusal f = some err) :
    (unpackRecord f).run ⟨w, log⟩ = (.ok (), ⟨w, log ++ [(f.info.name, err)]⟩) := by
  obtain ⟨failed, notPanic⟩ := refused_untouched w f err turned
  rw [unpackRecord]
  simp only [failed]

end Refused

section Step

variable (w next : World) (e : Entry)

theorem entry_dir (mode : e.mode = .dir) : e.node.isDir = true := by
  have made := e.made
  rw [mode] at made
  rw [← Option.some.inj made]
  rfl

theorem created_dir (created : Created w next e) (mode : e.mode = .dir) : next.tree.isDir (w.cwd ++ e.names) = true := by
  rw [← Tree.seen_dir, created.here]
  exact entry_dir e mode

theorem created_way (created : Created w next e) (q : List Bytes) (front : q <+: e.names) (proper : q ≠ e.names) :
    next.tree.isDir (w.cwd ++ q) = true := by
  refine next.tree.dir_above w.cwd e.names q (fun gone => ?_) front proper
  have here := created.here
  rw [Tree.seen, gone] at here
  cases here

theorem created_keeps_dir (fits : Fits w e.names e.mode) (created : Created w next e) (p : Place) (dir : w.tree.isDir p = true) :
    next.tree.isDir p = true := by
  have there := w.tree.dir_there p dir
  by_cases here : p = w.cwd ++ e.names
  · subst here
    exact created_dir w next e created ((fits.room.resolve_left there).1)
  · rw [Tree.dir_of_view _ (created.kept p here (Or.inl there))]
    exact dir

theorem created_elsewhere (created : Created w next e) (q : List Bytes) (outside : ¬ q <+: e.names) :
    next.tree.view (w.cwd ++ q) = w.tree.view (w.cwd ++ q) := by
  refine created.kept _ (fun same => ?_) (Or.inr fun front => outside ((List.prefix_append_right_inj w.cwd).mp front))
  rw [List.append_cancel_left same] at outside
  exact outside (List.prefix_refl _)

theorem created_fits (other : Entry) (apart : Apart e other) (fits : Fits w e.names e.mode) (created : Created w next e)
    (later : Fits w other.names other.mode) : Fits next other.names other.mode where
  start := by
    rw [created.cwd]
    exact created_keeps_dir w next e fits created _ later.start
  onWay := by
    intro q before proper
    rw [created.cwd]
    by_cases front : q <+: e.names
    · by_cases same : q = e.names
      · rw [same] at before ⊢
        exact Or.inr (created_dir w next e created (apart.under before))
      · exact Or.inr (created_way w next e created q front same)
    · have view := created_elsewhere w next e created q front
      rw [← Tree.none_of_view, view, Tree.none_of_view, Tree.dir_of_view _ view]
      exact later.onWay q before proper
  room := by
    rw [created.cwd]
    by_cases front : other.names <+: e.names
    · exact Or.inr ⟨apart.above front, created_way w next e created _ front apart.places.symm⟩
    · have view := created_elsewhere w next e created other.names front
      rw [← Tree.none_of_view, view, Tree.none_of_view, Tree.dir_of_view _ view]
      exact later.room

theorem unpacks_cons (last : World) (rest : List Entry) (apart : ∀ other ∈ rest, Apart e other) (created : Created w next e)
    (more : Unpacks next last rest) : Unpacks w last (e :: rest) where
  cwd := more.cwd.trans created.cwd
  umask := more.umask.trans created.umask
  placed := by
    refine List.forall_mem_cons.mpr ⟨?_, fun other member => ?_⟩
    · have still := more.kept (w.cwd ++ e.names)
        (fun other member same => (apart other member).places (by
          rw [created.cwd] at same
          exact List.append_cancel_left same))
        (Or.inl fun gone => by
          have here := created.here
          rw [Tree.seen, gone] at here
          cases here)
      rw [Tree.seen_of_view _ next.tree _ still, created.here]
    · rw [← created.cwd]
      exact more.placed other member
  kept := by
    intro p elsewhere outside
    obtain ⟨notHere, notLater⟩ := List.forall_mem_cons.mp elsewhere
    have first : next.tree.view p = w.tree.view p :=
      created.kept p notHere (outside.imp_right fun none => none e List.mem_cons_self)
    have still : next.tree.node p ≠ none ∨ ∀ other ∈ rest, ¬ p <+: next.cwd ++ other.names := by
      rw [created.cwd, Ne, ← Tree.none_of_view, first, Tree.none_of_view]
      exact outside.imp_right fun none other member => none other (List.mem_cons_of_mem _ member)
    rw [more.kept p (by rw [created.cwd]; exact notLater) still, first]

end Step

section Run

theorem unpack_record_created (e : Entry) (w : World) (log : List (Bytes × CreateError)) (fits : Fits w e.names e.mode) :
    ∃ next, (unpackRecord e.record).run ⟨w, log⟩ = (.ok (), ⟨next, log⟩) ∧ Created w next e := by
  obtain ⟨next, ran, created⟩ := create_file_puts w e fits
  refine ⟨next, ?_, created⟩
  rw [unpackRecord]
  simp only [ran]

-- Induction on the records: every step leaves room for the entries that are still to come.
theorem unpack_each_places (found : List Record) (entries : List Entry) (w : World) (log : List (Bytes × CreateError))
    (creatable : found.filter (fun f => (refusal f).isNone) = entries.map Entry.record)
    (apart : entries.Pairwise Apart) (fits : ∀ e ∈ entries, Fits w e.names e.mode) :
    ∃ next, (unpackEach found).run ⟨w, log⟩ = (.ok (), ⟨next, log ++ refused found⟩) ∧ Unpacks w next entries := by
  induction found generalizing entries w log with
  | nil =>
      cases List.map_eq_nil_iff.mp creatable.symm
      exact ⟨w, by rw [refused, List.filterMap_nil, List.append_nil]; rfl, rfl, rfl, by simp, fun _ _ _ => rfl⟩
  | cons f rest ih =>
      cases turned : refusal f with
      | some err =>
          rw [List.filter_cons_of_neg (by simp [turned])] at creatable
          obtain ⟨next, ran, unpacks⟩ := ih entries w (log ++ [(f.info.name, err)]) creatable apart fits
          refine ⟨next, ?_, unpacks⟩
          rw [unpackEach, run_bind_ok (unpack_record_refused w f err log turned), ran, refused, refused,
            List.filterMap_cons_some (by rw [turned]; rfl), List.append_assoc, List.singleton_append]
      | none =>
          rw [List.filter_cons_of_pos (by simp [turned])] at creatable
          obtain ⟨e, later, rfl, rfl, same⟩ := List.map_eq_cons_iff.mp creatable.symm
          obtain ⟨aparts, pairs⟩ := List.pairwise_cons.mp apart
          obtain ⟨room, rooms⟩ := List.forall_mem_cons.mp fits
          obtain ⟨middle, one, created⟩ := unpack_record_created e w log room
          obtain ⟨next, ran, unpacks⟩ := ih later middle log same.symm pairs fun other member =>
            created_fits w middle e other (aparts other member) room created (rooms other member)
          refine ⟨next, ?_, unpacks_cons w middle e next later aparts created unpacks⟩
          rw [unpackEach, run_bind_ok one, ran, refused, refused,
            List.filterMap_cons_none (by rw [turned]; rfl)]

end Run

section Results

variable (data : Bytes) (found : List Record) (entries : List Entry) (w : World) (log : List (Bytes × CreateError))
variable (read : readRecords data = .ok found) (creatable : found.filter (fun f => (refusal f).isNone) = entries.map Entry.record)
variable (apart : entries.Pairwise Apart) (fits : ∀ e ∈ entries, Fits w e.names e.mode)

include read creatable apart fits

theorem unpack_places_entries :
    ∃ next, (unpack data).run ⟨w, log⟩ = (.ok (), ⟨next, log ++ refused found⟩) ∧ Unpacks w next entries := by
  obtain ⟨more, same, agrees⟩ := unpack_loop_reads read
  obtain ⟨next, ran, unpacks⟩ := unpack_each_places found entries w log creatable apart fits
  rw [List.nil_append] at same
  exact ⟨next, by rw [← ran, same]; exact agrees _, unpacks⟩

end Results

def Whole (w : World) (entries : List Entry) : Prop :=
  ∀ e ∈ entries, ∀ q, q <+: e.names → q ≠ e.names → (∃ other ∈ entries, other.names = q) ∨ w.tree.node (w.cwd ++ q) ≠ none

theorem unpacks_seen (w next last : World) (entries : List Entry)
    (fits : ∀ e ∈ entries, Fits w e.names e.mode) (whole : Whole w entries) (first : Unpacks w next entries)
    (second : Unpacks w last entries) (p : Place) : next.tree.seen p = last.tree.seen p := by
  by_cases listed : ∃ e ∈ entries, p = w.cwd ++ e.names
  · obtain ⟨e, member, rfl⟩ := listed
    rw [first.placed e member, second.placed e member]
  have elsewhere : ∀ e ∈ entries, p ≠ w.cwd ++ e.names := fun e member here => listed ⟨e, member, here⟩
  have outside : w.tree.node p ≠ none ∨ ∀ e ∈ entries, ¬ p <+: w.cwd ++ e.names := by
    by_contra! both
    obtain ⟨gone, e, member, front⟩ := both
    rcases List.prefix_or_prefix_of_prefix front (List.prefix_append w.cwd e.names) with inside | ⟨q, rfl⟩
    · exact w.tree.dir_there p (w.tree.dir_way [] w.cwd p (fits e member).start inside) gone
    · have proper : q ≠ e.names := fun here => elsewhere e member (congrArg (w.cwd ++ ·) here)
      rcases whole e member q ((List.prefix_append_right_inj w.cwd).mp front) proper with ⟨other, inside, rfl⟩ | there
      · exact elsewhere other inside rfl
      · exact there gone
  exact Tree.seen_of_view _ _ _ ((first.kept p elsewhere outside).trans (second.kept p elsewhere outside).symm)

theorem apart_symm (a b : Entry) (apart : Apart a b) : Apart b a := ⟨apart.places.symm, apart.above, apart.under⟩

def bareNode (p : Place) : Option Node := if p = [] then some (.dir ⟨0o755, 0, 0, 0⟩) else none

theorem bare_closed (dir : Place) (name : Bytes) (there : (bareNode (dir ++ [name])).isSome = true) :
    (bareNode dir).any Node.isDir = true := by
  rw [bareNode, if_neg (by simp)] at there
  cases there

def bareWorld : World := ⟨⟨bareNode, rfl, bare_closed⟩, [], 0o022, fun _ => 7⟩

theorem bare_fits (names : List Bytes) (mode : FileMode) (some : names ≠ []) : Fits bareWorld names mode where
  start := rfl
  onWay := by
    intro q _ _
    by_cases none : q = []
    · rw [none]
      exact Or.inr rfl
    · exact Or.inl (if_neg none)
  room := Or.inl (if_neg some)

def binDir : Record := staticRecord [] { name := str "bin", mode := 0o040750 }

def binShell : Record := staticRecord (str "hi") { name := str "bin/sh", mode := 0o100755, uid := 3, mtime := 5 }

def binSocket : Record := staticRecord [] { name := str "bin/s", mode := 0o140755 }

def packed (records : List Record) : Bytes := archiveBytes records ++ Newc.recordBytes (stored trailerRecord)

theorem packed_reads (records : List Record) (ok : ∀ f ∈ records, Archivable f) :
    readRecords (packed records) = .ok (records.map archived) := read_archive_loop records [] [] rfl ok

theorem bin_archivable : ∀ f ∈ [binDir, binSocket, binShell], Archivable f := by
  simp only [List.forall_mem_cons, List.not_mem_nil, false_imp_iff, implies_true, and_true]
  exact ⟨⟨Or.inr ⟨_, _, rfl⟩, by simp [Info.numbers, staticRecord, binDir], by decide, by decide, by decide⟩,
    ⟨Or.inr ⟨_, _, rfl⟩, by simp [Info.numbers, staticRecord, binSocket], by decide, by decide, by decide⟩,
    ⟨Or.inr ⟨_, _, rfl⟩, by simp [Info.numbers, staticRecord, binShell, str], by decide, by decide, by decide⟩⟩

theorem bin_plain : FileName (str "bin") := ⟨⟨by decide, by decide, by decide, by decide⟩, by decide⟩

theorem sh_plain : FileName (str "sh") := ⟨⟨by decide, by decide, by decide, by decide⟩, by decide⟩

theorem bin_entries : ∃ dir shell : Entry, dir.record = archived binDir ∧ shell.record = archived binShell ∧
    dir.names = [str "bin"] ∧ shell.names = [str "bin", str "sh"] ∧ dir.mode = .dir ∧
    shell.node = .file (str "hi") ⟨0o755, 3, 0, 5⟩ := by
  refine ⟨⟨archived binDir, [str "bin"], .dir, .dir 0o750 0 0, ⟨by simp [bin_plain], 0, by decide, by decide⟩, by decide,
      ⟨_, rfl⟩, by decide, by decide, by decide, by decide, Or.inl rfl⟩,
    ⟨archived binShell, [str "bin", str "sh"], .file, .file (str "hi") ⟨0o755, 3, 0, 5⟩,
      ⟨by simp [bin_plain, sh_plain], 0, by decide, by decide⟩, by decide, ⟨_, rfl⟩, by decide, by decide, by decide, by decide,
      Or.inr (by decide)⟩,
    rfl, rfl, rfl, rfl, rfl, rfl⟩

end URoot.Cpio
