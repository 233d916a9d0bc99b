import URoot.Lib.CleanPath
import URoot.Lib.Io
import URoot.Lib.Strconv
import URoot.Lib.Tables

set_option autoImplicit false

namespace URoot.Ps

open GoLib

-- The fields of the process struct, in order. The last two are not read from the file.
inductive Field where
  | pid | cmd | state | ppid | pgrp | sid | ttyNr | ttyPgrp | flags | minFlt | cminFlt | majFlt | cmajFlt | utime
  | stime | cutime | cstime | priority | nice | numThreads | itRealValue | startTime | vsize | rss | rsslim
  | startCode | endCode | startStack | esp | eip | pending | blocked | sigign | sigcatch | wchan | zero1 | zero2
  | exitSignal | taskCpu | rtPriority | policy | blkioTicks | gtime | cgtime | startData | endData | startBrk
  | argStart | argEnd | envStart | envEnd | exitCode | ctty | time
deriving DecidableEq, Repr

def fields : List Field :=
  [.pid, .cmd, .state, .ppid, .pgrp, .sid, .ttyNr, .ttyPgrp, .flags, .minFlt, .cminFlt, .majFlt, .cmajFlt, .utime,
    .stime, .cutime, .cstime, .priority, .nice, .numThreads, .itRealValue, .startTime, .vsize, .rss, .rsslim,
    .startCode, .endCode, .startStack, .esp, .eip, .pending, .blocked, .sigign, .sigcatch, .wchan, .zero1, .zero2,
    .exitSignal, .taskCpu, .rtPriority, .policy, .blkioTicks, .gtime, .cgtime, .startData, .endData, .startBrk,
    .argStart, .argEnd, .envStart, .envEnd, .exitCode, .ctty, .time]

abbrev Process : Type := Field → Bytes

-- A file that is gone when it is read is told apart from other errors; a panic is an error here.
inductive Failure where
  | notExist
  | read (err : Bytes)
  | fieldRange
  | sliceBounds
deriving DecidableEq, Repr

-- ioutil.ReadFile and os.Readlink below /proc.
structure Host where
  readFile : Bytes → Except Failure Bytes
  readlink : Bytes → Option Bytes

section ReadStat

-- reflect.Value.Field panics behind the last field of the struct.
def setFields : List Field → List Bytes → Process → Except Failure Process
  | _, [], p => .ok p
  | [], _ :: _, _ => .error .fieldRange
  | f :: rest, text :: texts, p => setFields rest texts (Function.update p f text)

-- "%02d": the sign counts as a digit.
def twoDigits (n : Int64) : Bytes :=
  if n < 0 then 45 :: Digits.padded 10 1 n.toInt.natAbs else Digits.padded 10 2 n.toInt.natAbs

def getTime (p : Process) : Bytes :=
  let utime := Int64.ofInt (Strconv.atoi (p .utime)).1
  let stime := Int64.ofInt (Strconv.atoi (p .stime)).1
  let jiffies := utime + stime
  let tsecs := jiffies / 100
  let secs := tsecs % 60
  let mins := tsecs / 60 % 60
  let hrs := tsecs / 3600
  twoDigits hrs ++ 58 :: twoDigits mins ++ 58 :: twoDigits secs

def getCtty (host : Host) (p : Process) : Bytes :=
  match host.readlink (Filepath.clean (str "/proc/" ++ p .pid ++ str "/fd/0")) with
  | none => str "?"
  | some tty =>
      if p .ttyPgrp ≠ str "-1" then if 5 < tty.length ∧ tty.take 5 = str "/dev/" then tty.drop 5 else tty
      else str "?"

-- cmd[1 : len(cmd)-1]
def unwrap (cmd : Bytes) : Except Failure Bytes :=
  if cmd.length < 2 then .error .sliceBounds else .ok ((cmd.take (cmd.length - 1)).drop 1)

-- readStat after the file was read. The branch for long command lines is switched off.
def parseStat (host : Host) (p : Process) (b : Bytes) : Except Failure Process := do
  let p ← setFields fields (b.splitOn 32) p
  let p := Function.update p .time (getTime p)
  let p := Function.update p .ctty (getCtty host p)
  let cmd ← unwrap (p .cmd)
  pure (Function.update p .cmd cmd)

def statPath (pid : Nat) : Bytes := str "/proc/" ++ Digits.numeral 10 pid ++ str "/stat"

def readStat (host : Host) (p : Process) (pid : Nat) : Except Failure Process := do
  let b ← host.readFile (statPath pid)
  parseStat host p b

def empty : Process := fun _ => []

def loadTable (host : Host) : List Nat → Except Failure (List Process)
  | [] => .ok []
  | pid :: rest =>
      match readStat host empty pid with
      | .ok p => (loadTable host rest).map (p :: ·)
      | .error .notExist => loadTable host rest
      | .error err => .error err

end ReadStat

section Lines

-- A line of /proc/PID/stat: PID (COMM) and the other fields, the last with the newline.
structure StatLine where
  pid : Bytes
  comm : Bytes
  middle : List Bytes
  last : Bytes
  plain : ∀ word ∈ pid :: last :: middle, 32 ∉ word
  short : comm.length ≤ 15
  few : middle.length + 3 ≤ 52

def StatLine.words (line : StatLine) : List Bytes :=
  line.pid :: (40 :: (line.comm ++ [41])) :: (line.middle ++ [line.last ++ [10]])

def StatLine.text (line : StatLine) : Bytes := List.intercalate [32] line.words

def Correct (line : StatLine) (p : Process) : Prop :=
  p .pid = line.pid ∧ p .cmd = line.comm ∧
    ∀ i text f, line.middle[i]? = some text → fields[i + 2]? = some f → p f = text

end Lines

section Fields

theorem fields_distinct : fields.Nodup := by decide

theorem fields_last : ∀ i < 52, fields[i]? ≠ some .time ∧ fields[i]? ≠ some .ctty := by decide

theorem fields_cmd : ∀ i < 54, fields[i]? = some .cmd → i = 1 := by decide

theorem set_fields_eq (keys : List Field) (texts : List Bytes) (p : Process) : setFields keys texts p =
    if texts.length ≤ keys.length then .ok (Tables.fill Prod.snd p (keys.zip texts)) else .error .fieldRange := by
  induction keys generalizing texts p with
  | nil =>
      cases texts with
      | nil => rfl
      | cons text rest => rfl
  | cons key rest ih =>
      cases texts with
      | nil => rfl
      | cons text texts =>
          rw [setFields, ih]
          simp only [List.length_cons, Nat.add_le_add_iff_right]
          rfl

theorem set_fields_at {texts : List Bytes} {p q : Process} (done : setFields fields texts p = .ok q) (i : Nat) (f : Field)
    (text : Bytes) (field : fields[i]? = some f) (word : texts[i]? = some text) : q f = text := by
  rw [set_fields_eq] at done
  split at done
  · cases done
    exact Tables.fill_zip p fields texts fields_distinct i f text field word
  · cases done

end Fields

section Parsed

variable (host : Host)

theorem unwrap_inv (cmd name : Bytes) (done : unwrap cmd = .ok name) : 2 ≤ cmd.length ∧ name = (cmd.take (cmd.length - 1)).drop 1 := by
  rw [unwrap] at done
  split at done
  · cases done
  · rename_i long
    cases done
    exact ⟨Nat.le_of_not_lt long, rfl⟩

theorem parse_stat_inv {b : Bytes} {p q : Process} (done : parseStat host p b = .ok q) :
    ∃ r cmd, setFields fields (b.splitOn 32) p = .ok r ∧ unwrap (r .cmd) = .ok cmd ∧ q .cmd = cmd ∧
      ∀ f, f ≠ .time → f ≠ .ctty → f ≠ .cmd → q f = r f := by
  rw [parseStat] at done
  obtain ⟨r, set, done⟩ := except_bind_inv done
  obtain ⟨cmd, cut, done⟩ := except_bind_inv done
  cases done
  refine ⟨r, cmd, set, cut, Function.update_self .., ?_⟩
  intro f notTime notCtty notCmd
  rw [Function.update_of_ne notCmd, Function.update_of_ne notCtty, Function.update_of_ne notTime]

theorem parse_stat_ok {b cmd : Bytes} {p r : Process} (set : setFields fields (b.splitOn 32) p = .ok r)
    (cut : unwrap (r .cmd) = .ok cmd) : ∃ q, parseStat host p b = .ok q := by
  rw [parseStat, except_bind_ok set]
  dsimp only
  rw [Function.update_of_ne (by decide), Function.update_of_ne (by decide), except_bind_ok cut]
  exact ⟨_, rfl⟩

theorem line_words (line : StatLine) (whole : 32 ∉ line.comm) : line.text.splitOn 32 = line.words := by
  apply List.splitOn_intercalate
  · obtain ⟨pid, others⟩ := List.forall_mem_cons.mp line.plain
    obtain ⟨last, middle⟩ := List.forall_mem_cons.mp others
    refine List.forall_mem_cons.mpr ⟨pid, List.forall_mem_cons.mpr ⟨by simpa using whole, ?_⟩⟩
    intro word member
    rcases List.mem_append.mp member with inside | final
    · exact middle word inside
    · rw [List.mem_singleton.mp final]
      simpa using last
  · exact List.cons_ne_nil _ _

theorem line_broken {line : StatLine} {before after : Bytes} (comm : line.comm = before ++ 32 :: after) (clear : 32 ∉ before) :
    ∃ rest, line.text.splitOn 32 = line.pid :: (40 :: before) :: rest := by
  have text : line.text = line.pid ++ 32 :: (40 :: before ++ 32 ::
      (after ++ 41 :: 32 :: List.intercalate [32] (line.middle ++ [line.last ++ [10]]))) := by
    rw [StatLine.text, StatLine.words, comm]
    cases line.middle with
    | nil => simp [List.intercalate_cons_cons]
    | cons word rest => simp [List.intercalate_cons_cons]
  rw [text, List.splitOn_append_cons_self_of_not_mem (line.plain _ List.mem_cons_self),
    List.splitOn_append_cons_self_of_not_mem (by simpa using clear)]
  exact ⟨_, rfl⟩

theorem unwrap_comm (comm : Bytes) : unwrap (40 :: (comm ++ [41])) = .ok comm := by
  rw [unwrap, if_neg (by simp)]
  simp

theorem plain_line_parsed (line : StatLine) (p : Process) (whole : 32 ∉ line.comm) :
    ∃ q, parseStat host p line.text = .ok q ∧ Correct line q := by
  have words := line_words line whole
  have count : line.words.length = line.middle.length + 3 := by simp [StatLine.words]
  have few := line.few
  have fits : line.words.length ≤ fields.length := by
    rw [count]
    exact Nat.le_trans few (by decide)
  have set := set_fields_eq fields line.words p
  rw [if_pos fits, ← words] at set
  have name := set_fields_at set 1 .cmd (40 :: (line.comm ++ [41])) rfl (by rw [words]; rfl)
  obtain ⟨q, parsed⟩ := parse_stat_ok host set (by rw [name]; exact unwrap_comm line.comm)
  obtain ⟨r, cmd, again, cut, named, others⟩ := parse_stat_inv host parsed
  cases set.symm.trans again
  rw [name, unwrap_comm] at cut
  cases cut
  refine ⟨q, parsed, ?_, named, ?_⟩
  · rw [others .pid (by decide) (by decide) (by decide)]
    exact set_fields_at set 0 .pid line.pid rfl (by rw [words]; rfl)
  · intro i text f inside field
    have small : i < line.middle.length := (List.getElem?_eq_some_iff.mp inside).1
    obtain ⟨notTime, notCtty⟩ := fields_last (i + 2) (by omega)
    rw [others f]
    · refine set_fields_at set (i + 2) f text field ?_
      rw [words, StatLine.words, List.getElem?_cons_succ, List.getElem?_cons_succ, List.getElem?_append_left small]
      exact inside
    · rintro rfl
      exact notTime field
    · rintro rfl
      exact notCtty field
    · rintro rfl
      have second := fields_cmd (i + 2) (by omega) field
      omega

theorem broken_line_misread (line : StatLine) (p q : Process) (broken : 32 ∈ line.comm)
    (parsed : parseStat host p line.text = .ok q) : q .cmd ≠ line.comm := by
  obtain ⟨before, after, comm, clear⟩ := List.eq_append_cons_of_mem broken
  obtain ⟨rest, words⟩ := line_broken comm clear
  obtain ⟨r, cmd, set, cut, named, -⟩ := parse_stat_inv host parsed
  rw [words] at set
  have name := set_fields_at set 1 .cmd (40 :: before) rfl rfl
  obtain ⟨-, shorter⟩ := unwrap_inv _ _ cut
  rw [named]
  intro same
  have lengths := congrArg List.length (shorter.symm.trans same)
  rw [name, comm] at lengths
  simp at lengths
  omega

end Parsed

section Table

variable (host : Host)

theorem read_stat_line (line : StatLine) (p : Process) (pid : Nat) (read : host.readFile (statPath pid) = .ok line.text) :
    readStat host p pid = parseStat host p line.text := except_bind_ok read

theorem load_table_rows (lines : List (Nat × StatLine)) (read : ∀ l ∈ lines, host.readFile (statPath l.1) = .ok l.2.text)
    (whole : ∀ l ∈ lines, 32 ∉ l.2.comm) :
    ∃ table, loadTable host (lines.map Prod.fst) = .ok table ∧ List.Forall₂ (fun l p => Correct l.2 p) lines table := by
  induction lines with
  | nil => exact ⟨[], rfl, .nil⟩
  | cons l rest ih =>
      obtain ⟨file, files⟩ := List.forall_mem_cons.mp read
      obtain ⟨name, names⟩ := List.forall_mem_cons.mp whole
      obtain ⟨p, parsed, correct⟩ := plain_line_parsed host l.2 empty name
      obtain ⟨table, loaded, rows⟩ := ih files names
      refine ⟨p :: table, ?_, .cons correct rows⟩
      rw [List.map_cons, loadTable, read_stat_line host l.2 empty l.1 file, parsed]
      dsimp only
      rw [loaded]
      rfl

theorem leading_space_panics (line : StatLine) (p : Process) (rest : Bytes) (leading : line.comm = 32 :: rest) :
    parseStat host p line.text = .error .fieldRange ∨ parseStat host p line.text = .error .sliceBounds := by
  obtain ⟨words, split⟩ := line_broken leading List.not_mem_nil
  by_cases fits : (line.text.splitOn 32).length ≤ fields.length
  · have set := set_fields_eq fields (line.text.splitOn 32) p
    rw [if_pos fits] at set
    have name := set_fields_at set 1 .cmd [40] rfl (by rw [split]; rfl)
    refine Or.inr ?_
    rw [parseStat, except_bind_ok set]
    dsimp only
    rw [Function.update_of_ne (by decide), Function.update_of_ne (by decide), name]
    rfl
  · refine Or.inl ?_
    rw [parseStat, set_fields_eq, if_neg fits]
    rfl

end Table

theorem stat_parsed_iff (host : Host) (line : StatLine) (p : Process) (pid : Nat)
    (read : host.readFile (statPath pid) = .ok line.text) :
    (∃ q, readStat host p pid = .ok q ∧ Correct line q) ↔ 32 ∉ line.comm := by
  rw [read_stat_line host line p pid read]
  constructor
  · rintro ⟨q, parsed, -, name, -⟩ broken
    exact broken_line_misread host line p q broken parsed name
  · exact plain_line_parsed host line p

def shell : StatLine where
  pid := str "17"
  comm := str "(sh)"
  middle := [str "S", str "1", str "17", str "17", str "34816"]
  last := str "42"
  plain := by decide
  short := by decide
  few := by decide

theorem shell_parsed : ∃ q, readStat ⟨fun _ => .ok shell.text, fun _ => none⟩ empty 17 = .ok q ∧ Correct shell q :=
  (stat_parsed_iff ⟨fun _ => .ok shell.text, fun _ => none⟩ shell empty 17 rfl).mpr (by decide)

def tmux : StatLine where
  pid := str "9"
  comm := str "tmux: server"
  middle := [str "S", str "1", str "9", str "9", str "0"]
  last := str "-1"
  plain := by decide
  short := by decide
  few := by decide

theorem tmux_misread : ∃ q, readStat ⟨fun _ => .ok tmux.text, fun _ => none⟩ empty 9 = .ok q ∧
    q .cmd = str "tmux" ∧ q .state = str "server)" ∧ q .ppid = str "S" :=
  ⟨_, rfl, by decide +kernel, by decide +kernel, by decide +kernel⟩

end URoot.Ps
