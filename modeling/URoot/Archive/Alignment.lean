import URoot.Archive.Vtoc
import Mathlib.Tactic.IntervalCases

set_option autoImplicit false

namespace URoot.Archive

open GoLib Act Json Digits

theorem letter_bits (mode : UInt32) (plain : letter mode = 45) (i : Nat) (high : 20 ≤ i) (low : i < 32) :
    mode.toNat.testBit i = false := by
  cases found : (str "dalTLDpSugct").zipIdx.find? (fun pair => mode.toNat.testBit (31 - pair.2)) with
  | none =>
      have all := List.find?_eq_none.mp found
      have member : ∀ i, 20 ≤ i → i < 32 → ∃ c, (c, 31 - i) ∈ (str "dalTLDpSugct").zipIdx := by
        intro i high low
        interval_cases i <;> simp [str]
      obtain ⟨c, inside⟩ := member i high low
      have clear := all (c, 31 - i) inside
      rw [show 31 - (31 - i) = i by omega] at clear
      simpa using clear
  | some pair =>
      have none : ∀ pair ∈ (str "dalTLDpSugct").zipIdx, pair.1 ≠ 45 := by decide
      rw [letter, found] at plain
      exact absurd plain (none pair (List.mem_of_find?_eq_some found))

theorem clear_bits {mode mask : UInt32} (high : ∀ i, 20 ≤ i → i < 32 → mode.toNat.testBit i = false)
    (low : ∀ i < 20, mask.toNat.testBit i = false) : mode &&& mask = 0 := by
  apply UInt32.toNat_inj.mp
  rw [UInt32.toNat_and]
  apply Nat.eq_of_testBit_eq
  intro i
  rw [Nat.testBit_and]
  by_cases small : i < 20
  · rw [low i small, Bool.and_false]
    exact (Nat.zero_testBit i).symm
  · by_cases inside : i < 32
    · rw [high i (by omega) inside, Bool.false_and]
      exact (Nat.zero_testBit i).symm
    · have bound : mask.toNat < 2 ^ i :=
        Nat.lt_of_lt_of_le (UInt32.toNat_lt mask) (Nat.pow_le_pow_right (by decide) (by omega))
      rw [Nat.testBit_lt_two_pow bound, Bool.and_false]
      exact (Nat.zero_testBit i).symm

theorem plain_regular (mode : UInt32) (plain : letter mode = 45) : isRegular mode = true :=
  decide_eq_true (clear_bits (letter_bits mode plain) (by decide))

section Entries

variable (times : TimeFormat)

def entries (f : File times.Time) (modTime : Bytes) : List (Bytes × Bytes × Json.Value) :=
  [(str "Name", Json.quote f.name, .str (Json.toValid f.name)),
    (str "Size", Json.intText f.size.toInt, .num (Json.intText f.size.toInt)),
    (str "Mode", Json.intText f.mode.toNat, .num (Json.intText f.mode.toNat)),
    (str "ModTime", Json.quote modTime, .str (Json.toValid modTime)),
    (str "IsDir", Json.boolText f.isDir, .bool f.isDir),
    (str "Link", Json.quote f.link, .str (Json.toValid f.link)),
    (str "Uid", Json.intText f.uid.toInt, .num (Json.intText f.uid.toInt)),
    (str "Gid", Json.intText f.gid.toInt, .num (Json.intText f.gid.toInt)),
    (str "Dev", Json.intText f.dev.toNat, .num (Json.intText f.dev.toNat))]

theorem entries_read (f : File times.Time) (modTime : Bytes) (n : Nat) :
    ∀ entry ∈ entries times f modTime, Json.Reads (Json.valueLoop (n + 1)) entry.2.1 entry.2.2 := by
  simp only [entries, List.forall_mem_cons, List.not_mem_nil, false_imp_iff, implies_true, and_true]
  exact ⟨reads_str n _, reads_int n _, reads_int n _, reads_str n _, reads_bool n _,
    reads_str n _, reads_int n _, reads_int n _, reads_int n _⟩

theorem parse_int_text (z : Int) : parseInt (Json.intText z) = some z := by
  obtain ⟨c, rest, text, digit⟩ := numeral_begins z.natAbs
  have all : (Digits.numeral 10 z.natAbs).all Json.isDigit :=
    List.all_eq_true.mpr (numeral_digits 10 (by decide) (by decide) z.natAbs)
  have digits : parseDigits (Digits.numeral 10 z.natAbs) = some z.natAbs := by
    rw [parseDigits, if_pos ⟨numeral_some 10 _, all⟩, value_numeral 10 (by decide) (by decide)]
  by_cases negative : z < 0
  · rw [Json.intText, if_pos negative, parseInt, digits, Option.map_some]
    congr 1
    omega
  · rw [Json.intText, if_neg negative]
    have plain : parseInt (Digits.numeral 10 z.natAbs) = some (z.natAbs : Int) := by
      rw [text] at digits ⊢
      rw [parseInt, digits, Option.map_some]
      rintro sign same
      cases same
      exact absurd digit (by decide)
    rw [plain]
    congr 1
    omega

theorem int_field_text (low high old z : Int) (atLeast : low ≤ z) (below : z < high) :
    intField low high old (.num (Json.intText z)) = some z := by
  rw [intField, parse_int_text, Option.filter_some, if_pos (by simp [atLeast, below])]

def reread (f : File times.Time) (t : times.Time) : File times.Time :=
  { f with name := Json.toValid f.name, modTime := t, link := Json.toValid f.link }

theorem decode_entries (f : File times.Time) (modTime : Bytes) (t : times.Time)
    (readable : times.unmarshalJSON (Json.toValid modTime) = some t) :
    decodeFile times (.obj ((entries times f modTime).map (fun entry => (Json.toValid entry.1, entry.2.2)))) =
      some (reread times f t) := by
  have word : ∀ (x : Int64) old, intField (-2 ^ 63) (2 ^ 63) old (.num (Json.intText x.toInt)) = some x.toInt :=
    fun x old => int_field_text _ _ old _ x.le_toInt x.toInt_lt
  have natural : ∀ (high n : Nat) old, n < high → intField 0 high old (.num (Json.intText n)) = some (n : Int) :=
    fun high n old small => int_field_text _ _ old _ (Int.natCast_nonneg n) (Int.ofNat_lt.mpr small)
  have name : ∀ (g : File times.Time) s, assign times g (Json.toValid (str "Name"), .str s) = some { g with name := s } :=
    fun _ _ => rfl
  have size : ∀ g : File times.Time, assign times g (Json.toValid (str "Size"), .num (Json.intText f.size.toInt)) =
      some { g with size := f.size } := by
    intro g
    change (intField (-2 ^ 63) (2 ^ 63) g.size.toInt _).map _ = _
    rw [word, Option.map_some, Int64.ofInt_toInt]
  have mode : ∀ g : File times.Time, assign times g (Json.toValid (str "Mode"), .num (Json.intText f.mode.toNat)) =
      some { g with mode := f.mode } := by
    intro g
    change (intField 0 (2 ^ 32 : Nat) g.mode.toNat _).map _ = _
    rw [natural _ _ _ f.mode.toNat_lt, Option.map_some, Int.toNat_natCast, UInt32.ofNat_toNat]
  have modified : ∀ g : File times.Time, assign times g (Json.toValid (str "ModTime"), .str (Json.toValid modTime)) =
      some { g with modTime := t } := by
    intro g
    change (times.unmarshalJSON (Json.toValid modTime)).map _ = _
    rw [readable, Option.map_some]
  have isDir : ∀ (g : File times.Time) b, assign times g (Json.toValid (str "IsDir"), .bool b) = some { g with isDir := b } :=
    fun _ _ => rfl
  have link : ∀ (g : File times.Time) s, assign times g (Json.toValid (str "Link"), .str s) = some { g with link := s } :=
    fun _ _ => rfl
  have uid : ∀ g : File times.Time, assign times g (Json.toValid (str "Uid"), .num (Json.intText f.uid.toInt)) =
      some { g with uid := f.uid } := by
    intro g
    change (intField (-2 ^ 63) (2 ^ 63) g.uid.toInt _).map _ = _
    rw [word, Option.map_some, Int64.ofInt_toInt]
  have gid : ∀ g : File times.Time, assign times g (Json.toValid (str "Gid"), .num (Json.intText f.gid.toInt)) =
      some { g with gid := f.gid } := by
    intro g
    change (intField (-2 ^ 63) (2 ^ 63) g.gid.toInt _).map _ = _
    rw [word, Option.map_some, Int64.ofInt_toInt]
  have dev : ∀ g : File times.Time, assign times g (Json.toValid (str "Dev"), .num (Json.intText f.dev.toNat)) =
      some { g with dev := f.dev } := by
    intro g
    change (intField 0 (2 ^ 64 : Nat) g.dev.toNat _).map _ = _
    rw [natural _ _ _ f.dev.toNat_lt, Option.map_some, Int.toNat_natCast, UInt64.ofNat_toNat]
  simp only [decodeFile, entries, List.map_cons, List.map_nil, List.foldlM_cons, List.foldlM_nil, name, size, mode, modified,
    isDir, link, uid, gid, dev, Option.bind_eq_bind, Option.bind_some]
  rfl

theorem file_text_reads (f : File times.Time) (text : Bytes) (written : fileText times f = .ok text) :
    ∃ value t, (∀ n, Json.Reads (Json.valueLoop (n + 2)) text value) ∧ decodeFile times value = some (reread times f t) := by
  obtain ⟨modTime, marshalled, done⟩ := except_bind_inv written
  cases done
  obtain ⟨t, readable⟩ := Option.isSome_iff_exists.mp (times.reads _ _ marshalled)
  exact ⟨_, t, fun n => reads_obj (n + 1) _ (entries_read times f modTime n), decode_entries times f modTime t readable⟩

def Reread (f g : File times.Time) : Prop := ∃ t, g = reread times f t

theorem file_texts_read (vtoc : List (File times.Time)) (texts : List Bytes)
    (written : vtoc.mapM (fileText times) = .ok texts) :
    ∃ pairs : List (Bytes × Json.Value), pairs.map Prod.fst = texts ∧
      (∀ pair ∈ pairs, ∀ n, Json.Reads (Json.valueLoop (n + 2)) pair.1 pair.2) ∧
      ∃ found, (pairs.map Prod.snd).mapM (decodeFile times) = some found ∧ List.Forall₂ (Reread times) vtoc found := by
  induction vtoc generalizing texts with
  | nil =>
      cases written
      exact ⟨[], rfl, by simp, [], rfl, .nil⟩
  | cons f rest ih =>
      rw [List.mapM_cons] at written
      obtain ⟨text, first, later⟩ := except_bind_inv written
      obtain ⟨more, others, done⟩ := except_bind_inv later
      cases done
      obtain ⟨value, t, reads, decoded⟩ := file_text_reads times f text first
      obtain ⟨pairs, same, all, found, decodedRest, matching⟩ := ih more others
      refine ⟨(text, value) :: pairs, by rw [List.map_cons, same], List.forall_mem_cons.mpr ⟨reads, all⟩,
        reread times f t :: found, ?_, .cons ⟨t, rfl⟩ matching⟩
      rw [List.map_cons, List.mapM_cons, decoded, decodedRest]
      rfl

theorem table_reads (vtoc : List (File times.Time)) (text : Bytes) (written : tableText times vtoc = .ok text) :
    ∃ value found, Json.parse (text ++ [10]) = some (value, [10]) ∧ decodeTable times value = some found ∧
      List.Forall₂ (Reread times) vtoc found := by
  obtain ⟨texts, each, done⟩ := except_bind_inv written
  cases done
  obtain ⟨pairs, rfl, all, found, decoded, matching⟩ := file_texts_read times vtoc texts each
  refine ⟨.arr (pairs.map Prod.snd), found, ?_, decoded, matching⟩
  have ends : Json.Ends [10] := by simp [Json.Ends]
  have deep : ∃ n, (Json.arrText (pairs.map Prod.fst) ++ [10]).length = n + 3 := by
    refine ⟨(Json.arrText (pairs.map Prod.fst) ++ [10]).length - 3, ?_⟩
    rw [List.length_append, Json.arrText, List.length_cons]
    have body : 1 ≤ (Json.bodyText 93 (pairs.map Prod.fst)).length := by
      cases pairs with
      | nil => exact Nat.le_refl 1
      | cons pair pairs =>
          have count := tail_text_length 93 (pairs.map Prod.fst)
          rw [List.map_cons, Json.bodyText, List.length_append]
          omega
    rw [List.length_singleton]
    omega
  obtain ⟨n, depth⟩ := deep
  rw [Json.parse, depth]
  exact (reads_arr (n + 2) pairs (fun pair member => all pair member n)).read [10] ends

end Entries

section Length

theorem scan_digits {digits tail : Bytes} (some : digits ≠ []) (all : ∀ c ∈ digits, (fromHexChar c).isSome)
    (stops : ∀ c ∈ tail.head?, fromHexChar c = none) :
    fscanfHex (digits ++ tail) = .ok ((Digits.value 16 digits : Nat), digits.length + min 1 tail.length) := by
  cases digits with
  | nil => exact absurd rfl some
  | cons c rest =>
      have digit := all c List.mem_cons_self
      have differs : ∀ x : UInt8, fromHexChar x = none → c ≠ x := by
        intro x other same
        rw [same, other] at digit
        cases digit
      have blank : ((c :: rest) ++ tail).takeWhile (fun c => c = 32 ∨ c = 9 ∨ c = 11 ∨ c = 12 ∨ c = 13) = [] := by
        rw [List.cons_append, List.takeWhile_cons_of_neg]
        simp [differs 32 (by decide), differs 9 (by decide), differs 11 (by decide), differs 12 (by decide),
          differs 13 (by decide)]
      have signless : (if c = 43 ∨ c = 45 then 1 else 0) = 0 := by
        simp [differs 43 (by decide), differs 45 (by decide)]
      have run : ((c :: rest) ++ tail).takeWhile (fun d => (fromHexChar d).isSome) = c :: rest := by
        rw [List.takeWhile_append_of_pos all]
        cases tail with
        | nil => simp
        | cons d more =>
            have other := stops d rfl
            rw [List.takeWhile_cons_of_neg (by simp [other]), List.append_nil]
      rw [List.cons_append] at blank run ⊢
      simp only [fscanfHex]
      rw [blank, List.length_nil, List.drop_zero]
      split
      · rename_i empty
        cases empty
      · rename_i newline
        exact absurd (List.cons.inj newline).1 (differs 10 (by decide))
      · rename_i d more _ same
        cases same
        rw [signless, List.drop_zero, run, if_neg (List.cons_ne_nil _ _), if_neg (List.cons_ne_nil _ _),
          if_neg (differs 45 (by decide))]
        congr 2
        simp only [List.length_cons, List.length_append]
        split
        · omega
        · omega

theorem scan_used (input : Bytes) (n : Int) (used : Nat) (scanned : fscanfHex input = .ok (n, used)) : 0 < used := by
  simp only [fscanfHex] at scanned
  split at scanned
  · cases scanned
  · cases scanned
  · rename_i c rest _ _
    generalize (if c = 43 ∨ c = 45 then 1 else 0) = sign at scanned
    split at scanned
    · cases scanned
    split at scanned
    · cases scanned
    · rename_i something
      have some := List.length_pos_iff.mpr something
      cases scanned
      split
      · omega
      · omega

theorem scan_length (n : Nat) (tail : Bytes) :
    ∃ l used, fscanfHex ((Digits.padded 16 7 n ++ 10 :: tail).take 8) = .ok (l, used) ∧ used = 8 ∧ l.toNat ≤ n ∧
      (n < 16 ^ 7 → l = n) := by
  have value := value_padded 16 (by decide) (by decide) 7 n
  have size := padded_length 16 7 n
  have hex : ∀ c ∈ Digits.padded 16 7 n, (fromHexChar c).isSome :=
    fun c member => digit_hex 16 c (padded_digits 16 (by decide) (by decide) 7 n c member)
  generalize Digits.padded 16 7 n = digits at value size hex ⊢
  by_cases small : n < 16 ^ 7
  · have short := numeral_length_le 16 (by decide) small
    have seven : digits.length = 7 := by omega
    have window : (digits ++ 10 :: tail).take 8 = digits ++ [10] := by
      rw [List.take_append, seven, List.take_of_length_le (by omega)]
      rfl
    refine ⟨n, 8, ?_, rfl, Nat.le_refl _, fun _ => rfl⟩
    rw [window, scan_digits (List.length_pos_iff.mp (by omega)) hex (by simp; decide), value, seven]
    rfl
  · have long := numeral_length_gt 16 (by decide) (by decide) n 7 (by omega)
    have eight : (digits.take 8).length = 8 := by rw [List.length_take]; omega
    have window : (digits ++ 10 :: tail).take 8 = digits.take 8 ++ [] := by
      rw [List.take_append_of_le_length (by omega), List.append_nil]
    have lower := value_append_le 16 (by decide) (by decide) (digits.take 8) (digits.drop 8)
    rw [List.take_append_drop, value] at lower
    refine ⟨(Digits.value 16 (digits.take 8) : Nat), 8, ?_, rfl, by simpa using lower, fun bound => absurd bound small⟩
    rw [window, scan_digits (List.length_pos_iff.mp (by omega))
      (fun c member => hex c (List.mem_of_mem_take member)) (by simp), eight]
    rfl

end Length

section Streams

variable (times : TimeFormat) (opens : Bytes → Except IoError ReadCloser) (content : Bytes → Bytes)

def buffer (bytes : Bytes) : Act IoError Bytes Nat := ⟨fun out => (.ok bytes.length, out ++ bytes)⟩

theorem buffer_takes : Takes buffer (fun out bytes => out ++ bytes) := fun _ _ => rfl

def contents (files : List (File times.Time)) : Bytes := files.flatMap (fun f => content f.name)

structure Stored (f : File times.Time) : Prop where
  plain : letter f.mode = 45
  size : f.size.toInt = ((content f.name).length : Nat)
  opens : ∃ closeErr, opens f.name = .ok ⟨content f.name, none, closeErr⟩

theorem encode_one_run (f : File times.Time) (out : Bytes) (stored : Stored times opens content f) :
    (encodeOne times buffer opens f).run out = (.ok (), out ++ content f.name) := by
  obtain ⟨plain, size, closeErr, opened⟩ := stored
  have regular := plain_regular f.mode plain
  rw [encodeOne]
  by_cases zero : f.size = 0
  · have empty : content f.name = [] := by
      rw [zero] at size
      exact List.length_eq_zero_iff.mp (Int.ofNat.inj size.symm)
    rw [if_pos (.inl zero), empty, List.append_nil]
    rfl
  · rw [if_neg (by simp [zero, regular]), run_of_except_bind _ _ opened,
      run_bind_ok (io_copy_takes buffer_takes List.append_nil
        (fun s a b => List.append_assoc s a b) ⟨content f.name, none, closeErr⟩ rfl out)]
    rfl

theorem encode_each_run (files : List (File times.Time)) (out : Bytes) (stored : ∀ f ∈ files, Stored times opens content f) :
    (encodeEach times buffer opens files).run out = (.ok (), out ++ contents times content files) := by
  induction files generalizing out with
  | nil => rw [contents, List.flatMap_nil, List.append_nil]; rfl
  | cons f rest ih =>
      have first := encode_one_run times opens content f out (stored f List.mem_cons_self)
      have later := ih (out ++ content f.name) fun g member => stored g (List.mem_cons_of_mem _ member)
      rw [encodeEach, run_bind_ok first, later, contents, contents, List.flatMap_cons, List.append_assoc]

def cleaned (f : File times.Time) : File times.Time := { f with name := if f.name.head? = some 47 then f.name.tail else f.name }

theorem clean_file (f : File times.Time) : cleanFile times f = if f.name = [] then none else some (cleaned times f) := by
  cases name : f.name with
  | nil => simp [cleanFile, cleanName, name]
  | cons c rest => simp [cleanFile, cleanName, cleaned, name]

def named (files : List (File times.Time)) : Bool := files.all (fun f => f.name ≠ [])

theorem clean_files (files : List (File times.Time)) :
    files.mapM (cleanFile times) = if named times files then some (files.map (cleaned times)) else none := by
  induction files with
  | nil => rfl
  | cons f rest ih =>
      have both : named times (f :: rest) = (decide (f.name ≠ []) && named times rest) := rfl
      rw [List.mapM_cons, clean_file, ih, both]
      by_cases empty : f.name = []
      · simp [empty]
      · by_cases all : named times rest
        · simp [empty, all]
        · simp [empty, all]

def lengthLine (text : Bytes) : Bytes := Digits.padded 16 7 (text.length + 1) ++ [10]

def encodedAs (files : List (File times.Time)) : Except Failure Unit × Bytes :=
  if named times files then
    match tableText times (files.map (cleaned times)) with
    | .error _ => (.ok (), contents times content files)
    | .ok text => (.ok (), lengthLine text ++ (text ++ 10 :: contents times content files))
  else (.error .indexOutOfRange, [])

theorem encode_outcome (files : List (File times.Time)) (dirs : List Bytes)
    (stored : ∀ f ∈ files, Stored times opens content f) :
    (encode times buffer opens (fun _ => .ok files) dirs).run [] = encodedAs times content files := by
  have built : (encode times buffer opens (fun _ => .ok files) dirs).run [] = (encodeBuilt times buffer opens files).run [] :=
    rfl
  have each : ∀ out, (raising (encodeEach times buffer opens files)).run out =
      (.ok (), out ++ contents times content files) := by
    intro out
    have run := encode_each_run times opens content files out stored
    simp only [raising, Act.within, id, run]
    rfl
  rw [built, encodedAs, encodeBuilt]
  by_cases all : named times files
  · rw [if_pos all]
    have clean : files.mapM (cleanFile times) = some (files.map (cleaned times)) := by rw [clean_files, if_pos all]
    cases table : tableText times (files.map (cleaned times)) with
    | error why =>
        have some : files.isEmpty = false := by
          cases files with
          | nil => cases table
          | cons f rest => rfl
        have failed : (writeVTOC times buffer files).run [] = (.error (.failed (.other (str "Encoding files: " ++ why))), []) := by
          rw [writeVTOC, clean, run_of_option_bind, table]
          rfl
        simp only [failed, some]
        exact each []
    | ok text =>
        have done : (writeVTOC times buffer files).run [] =
            (.ok (text ++ [10]).length, Digits.padded 16 7 (text ++ [10]).length ++ [10] ++ (text ++ [10])) := by
          rw [writeVTOC, clean, run_of_option_bind, table]
          rfl
        simp only [done]
        rw [each, lengthLine, List.length_append, List.length_singleton, List.append_assoc _ (text ++ [10]),
          List.append_assoc text, List.singleton_append]
  · have panics : (writeVTOC times buffer files).run [] = (.error .indexOutOfRange, []) := by
      rw [writeVTOC, clean_files, if_neg all]
      rfl
    rw [if_neg all]
    simp only [panics]

end Streams

section Positions

variable (times : TimeFormat) (dec : Decoder) (content : Bytes → Bytes)

theorem load_inv {name data : Bytes} {fd : Fd} {vtoc : List (File times.Time)}
    (loaded : loadVTOC times dec (fun _ => .ok data) name = .ok (fd, vtoc)) :
    ∃ l used, fscanfHex (data.take 8) = .ok (l, used) ∧
      fd = ⟨data, used + dec.taken ((data.drop used).take l.toNat)⟩ := by
  obtain ⟨same, first, rest⟩ := except_bind_inv loaded
  cases first
  obtain ⟨⟨l, used⟩, scanned, done⟩ := except_bind_inv rest
  cases scan : fscanfHex (data.take 8) with
  | error why =>
      rw [scan] at scanned
      cases scanned
  | ok found =>
      rw [scan] at scanned
      cases scanned
      refine ⟨l, used, rfl, ?_⟩
      simp only at done
      split at done
      · cases done
      · cases done
        rfl

theorem load_ok (data name rest : Bytes) (l : Int) (used : Nat) (value : Json.Value) (found : List (File times.Time))
    (scanned : fscanfHex (data.take 8) = .ok (l, used)) (parsed : Json.parse ((data.drop used).take l.toNat) = some (value, rest))
    (decoded : decodeTable times value = some found) :
    loadVTOC times dec (fun _ => .ok data) name =
      .ok (⟨data, used + dec.taken ((data.drop used).take l.toNat)⟩, found) := by
  rw [loadVTOC, except_bind_ok rfl, except_bind_ok (by rw [scanned]; rfl)]
  simp only [parsed, Option.bind_some, decoded]

def target (f : File times.Time) : Bytes := Json.toValid (cleaned times f).name

def restored (f : File times.Time) : List Op :=
  [.openFile (target times f) f.mode, .copy (target times f) (content f.name), .lchown (target times f) f.uid f.gid]

def willing : List Op → Op → Option IoError := fun _ _ => none

theorem perform_willing (op : Op) (m : Machine) :
    (perform willing op).run m = (.ok (), { m with log := m.log ++ [op] }) := rfl

theorem do_one_plain (v : File times.Time) (bytes rest data : Bytes) (pos : Nat) (log : List Op) (plain : letter v.mode = 45)
    (size : v.size.toInt = (bytes.length : Nat)) (here : data.drop pos = bytes ++ rest) :
    (doOneFile times willing v).run ⟨⟨data, pos⟩, log⟩ = (.ok (), ⟨⟨data, pos + bytes.length⟩,
      log ++ [.openFile v.name v.mode, .copy v.name bytes, .lchown v.name v.uid v.gid]⟩) := by
  have read : ∀ log, (readLimited v.size.toInt).run ⟨⟨data, pos⟩, log⟩ = (.ok bytes, ⟨⟨data, pos + bytes.length⟩, log⟩) := by
    intro log
    rw [readLimited, run_modify_get, size, Int.toNat_natCast]
    simp only [here, List.take_left]
  simp only [doOneFile, plain]
  rw [run_bind_ok (perform_willing _ _), run_bind_ok (read _),
    run_bind_ok (perform_willing _ _), perform_willing]
  simp only [List.append_assoc, List.cons_append, List.nil_append]

theorem do_files_run (files found : List (File times.Time)) (data : Bytes) (pos : Nat) (log : List Op)
    (matching : List.Forall₂ (Reread times) (files.map (cleaned times)) found)
    (plain : ∀ f ∈ files, letter f.mode = 45)
    (sizes : ∀ f ∈ files, f.size.toInt = ((content f.name).length : Nat))
    (rest : data.drop pos = contents times content files) :
    (doFiles times willing found).run ⟨⟨data, pos⟩, log⟩ =
      (.ok (), ⟨⟨data, pos + (contents times content files).length⟩, log ++ files.flatMap (restored times content)⟩) := by
  induction files generalizing found pos log with
  | nil =>
      cases matching
      simp [doFiles, contents]
  | cons f files ih =>
      rw [List.map_cons] at matching
      cases matching with
      | cons first later =>
          rename_i g found
          obtain ⟨t, rfl⟩ := first
          rw [contents, List.flatMap_cons, ← contents] at rest ⊢
          have one := do_one_plain times (reread times (cleaned times f) t) (content f.name) (contents times content files)
            data pos log (plain f List.mem_cons_self) (sizes f List.mem_cons_self) rest
          have next : data.drop (pos + (content f.name).length) = contents times content files := by
            rw [← List.drop_drop, rest, List.drop_left]
          have run := ih found (pos + (content f.name).length) (log ++ restored times content f) later
            (fun g member => plain g (List.mem_cons_of_mem _ member))
            (fun g member => sizes g (List.mem_cons_of_mem _ member)) next
          rw [doFiles, run_bind_ok one]
          refine run.trans ?_
          rw [List.flatMap_cons, List.append_assoc, List.length_append, Nat.add_assoc]

def Aligned (name stream : Bytes) (files : List (File times.Time)) : Prop :=
  ∃ fd vtoc, loadVTOC times dec (fun _ => .ok stream) name = .ok (fd, vtoc) ∧
    fd.pos + (contents times content files).length = stream.length ∧
    ∀ m : Machine, ((decode times dec willing (fun _ => .ok stream) [name]).run m).1 = .ok () ∧
      ((decode times dec willing (fun _ => .ok stream) [name]).run m).2.log = m.log ++ files.flatMap (restored times content)

def Fits (files : List (File times.Time)) : Prop :=
  (∀ f ∈ files, f.name ≠ []) ∧ ∃ text, tableText times (files.map (cleaned times)) = .ok text ∧
    text.length + 1 < 16 ^ 7 ∧ dec.taken (text ++ [10]) = text.length + 1

section Stream

variable (text bytes : Bytes)

theorem line_parts : Digits.padded 16 7 (text.length + 1) ++ 10 :: (text ++ 10 :: bytes) = lengthLine text ++ (text ++ 10 :: bytes) := by
  rw [lengthLine, List.append_assoc, List.singleton_append]

theorem line_length : (lengthLine text).length = max 7 (Digits.numeral 16 (text.length + 1)).length + 1 := by
  rw [lengthLine, List.length_append, padded_length, List.length_singleton]

theorem line_eight (small : text.length + 1 < 16 ^ 7) : (lengthLine text).length = 8 := by
  have digits := numeral_length_le 16 (by decide) small
  rw [line_length]
  omega

theorem behind_line (small : text.length + 1 < 16 ^ 7) :
    (lengthLine text ++ (text ++ 10 :: bytes)).drop 8 = (text ++ [10]) ++ bytes := by
  rw [List.drop_left' (line_eight text small), List.append_assoc, List.singleton_append]

theorem table_length : (text ++ [10]).length = text.length + 1 := by
  rw [List.length_append, List.length_singleton]

end Stream

theorem aligned_of_fits (opens : Bytes → Except IoError ReadCloser) (files : List (File times.Time)) (name text : Bytes)
    (stored : ∀ f ∈ files, Stored times opens content f) (table : tableText times (files.map (cleaned times)) = .ok text)
    (small : text.length + 1 < 16 ^ 7) (takes : dec.taken (text ++ [10]) = text.length + 1) :
    Aligned times dec content name (lengthLine text ++ (text ++ 10 :: contents times content files)) files := by
  obtain ⟨value, found, parsed, decoded, matching⟩ := table_reads times _ text table
  generalize data : contents times content files = bytes
  obtain ⟨l, used, scanned, rfl, -, exact⟩ := scan_length (text.length + 1) (text ++ 10 :: bytes)
  rw [line_parts] at scanned
  have behind := behind_line text bytes small
  have line := line_eight text small
  generalize stream : lengthLine text ++ (text ++ 10 :: bytes) = s at scanned behind ⊢
  have window : (s.drop 8).take l.toNat = text ++ [10] := by
    rw [behind, exact small, Int.toNat_natCast, List.take_left' (table_length text)]
  have loaded : loadVTOC times dec (fun _ => .ok s) name = .ok (⟨s, 8 + (text.length + 1)⟩, found) := by
    have run := load_ok times dec s name [10] l 8 value found scanned (by rw [window]; exact parsed) decoded
    rwa [window, takes] at run
  have rest : s.drop (8 + (text.length + 1)) = contents times content files := by
    rw [data, ← List.drop_drop, behind, List.drop_left' (table_length text)]
  refine ⟨_, _, loaded, ?_, fun m => ?_⟩
  · dsimp only
    rw [data, ← stream, List.length_append, List.length_append, List.length_cons, line]
    omega
  · have run := do_files_run times content files found s _ m.log matching (fun f member => (stored f member).plain)
      (fun f member => (stored f member).size) rest
    have done : (decode times dec willing (fun _ => .ok s) [name]).run m =
        (do doFiles times willing found; pure () : Act IoError Machine Unit).run ⟨⟨s, 8 + (text.length + 1)⟩, m.log⟩ := by
      rw [decode, loaded]
      rfl
    rw [done, run_bind_ok run]
    exact ⟨rfl, rfl⟩

theorem fits_of_aligned (files : List (File times.Time)) (name text : Bytes)
    (aligned : Aligned times dec content name (lengthLine text ++ (text ++ 10 :: contents times content files)) files) :
    text.length + 1 < 16 ^ 7 ∧ dec.taken (text ++ [10]) = text.length + 1 := by
  obtain ⟨fd, vtoc, loaded, position, -⟩ := aligned
  generalize contents times content files = bytes at loaded position
  obtain ⟨l, used, scanned, rfl⟩ := load_inv times dec loaded
  obtain ⟨l', used', again, rfl, bound, exact⟩ := scan_length (text.length + 1) (text ++ 10 :: bytes)
  rw [line_parts, scanned] at again
  cases again
  dsimp only at position
  by_cases small : text.length + 1 < 16 ^ 7
  · refine ⟨small, ?_⟩
    have window : ((lengthLine text ++ (text ++ 10 :: bytes)).drop 8).take l.toNat = text ++ [10] := by
      rw [behind_line text bytes small, exact small, Int.toNat_natCast, List.take_left' (table_length text)]
    rw [window, List.length_append, List.length_append, List.length_cons, line_eight text small] at position
    omega
  · -- Eight digits leave the newline, and the table ends a byte behind what the limit allows.
    have digits := numeral_length_gt 16 (by decide) (by decide) (text.length + 1) 7 (by omega)
    have line := line_length text
    have inside := dec.inside (((lengthLine text ++ (text ++ 10 :: bytes)).drop 8).take l.toNat)
    have limit := List.length_take_le l.toNat ((lengthLine text ++ (text ++ 10 :: bytes)).drop 8)
    simp only [List.length_append, List.length_cons] at position
    omega

theorem data_section_found_iff (opens : Bytes → Except IoError ReadCloser) (files : List (File times.Time)) (dirs : List Bytes)
    (name : Bytes) (stored : ∀ f ∈ files, Stored times opens content f) :
    (∃ stream, (encode times buffer opens (fun _ => .ok files) dirs).run [] = (.ok (), stream) ∧
      Aligned times dec content name stream files) ↔ Fits times dec files := by
  rw [encode_outcome times opens content files dirs stored, encodedAs]
  by_cases all : named times files
  · have names : ∀ f ∈ files, f.name ≠ [] := by simpa [named] using all
    rw [if_pos all]
    cases table : tableText times (files.map (cleaned times)) with
    | error why =>
        constructor
        · rintro ⟨stream, written, fd, vtoc, loaded, position, -⟩
          cases written
          obtain ⟨l, used, scanned, rfl⟩ := load_inv times dec loaded
          have read := scan_used _ l used scanned
          dsimp only at position
          omega
        · rintro ⟨-, text, written, -⟩
          rw [table] at written
          cases written
    | ok text =>
        constructor
        · rintro ⟨stream, written, aligned⟩
          cases written
          exact ⟨names, text, table, fits_of_aligned times dec content files name text aligned⟩
        · rintro ⟨-, text', written, small, takes⟩
          rw [table] at written
          cases written
          exact ⟨_, rfl, aligned_of_fits times dec content opens files name text stored table small takes⟩
  · rw [if_neg all]
    constructor
    · rintro ⟨stream, written, -⟩
      cases written
    · rintro ⟨names, -⟩
      exact absurd (by simpa [named] using names) all

end Positions

section Examples

def epoch : TimeFormat where
  Time := Unit
  zero := ()
  marshalJSON _ := .ok (str "1970-01-01T00:00:00Z")
  unmarshalJSON text := if text = str "1970-01-01T00:00:00Z" then some () else none
  reads _ text written := by
    cases written
    decide +kernel

def refill : Nat → Nat → Nat → Nat
  | 0, size, _ => size
  | fuel + 1, size, need => if need ≤ size then size else refill fuel (2 * size + 512) need

theorem refill_enough (fuel size need : Nat) (bound : need ≤ size + fuel) : need ≤ refill fuel size need := by
  induction fuel generalizing size with
  | zero => exact bound
  | succ fuel ih =>
      rw [refill]
      split
      · assumption
      · exact ih _ (by omega)

-- encoding/json's own decoder: 512 bytes first, then twice the buffer and 512 more.
def buffered : Decoder where
  taken input :=
    match Json.parse input with
    | some (_, rest) => min (refill input.length 512 (input.length - rest.length)) input.length
    | none => input.length
  complaint _ := []
  inside input := by
    split
    · exact Nat.min_le_right _ _
    · exact Nat.le_refl _
  whole input value rest parsed := by
    have enough := refill_enough input.length 512 (input.length - rest.length) (by omega)
    simp only [parsed]
    omega

def greeting (name : Bytes) : File Unit := ⟨name, 2, 0o644, (), false, [], 0, 0, 0⟩

def greetings : Bytes → Except IoError ReadCloser := fun _ => .ok (newBytesReadCloser (str "hi"))

theorem greeting_stored {name : Bytes} {files : List (File Unit)} (only : files = [greeting name]) :
    ∀ f ∈ files, Stored epoch greetings (fun _ => str "hi") f := by
  rw [only]
  intro f member
  rw [List.mem_singleton.mp member]
  have mode : letter 0o644 = 45 := by decide
  exact ⟨mode, rfl, none, rfl⟩

theorem short_table_found : ∃ stream, (encode epoch buffer greetings (fun _ => .ok [greeting (str "/a")]) []).run [] = (.ok (), stream) ∧
    Aligned epoch buffered (fun _ => str "hi") (str "x") stream [greeting (str "/a")] :=
  (data_section_found_iff epoch buffered (fun _ => str "hi") greetings [greeting (str "/a")] [] (str "x")
    (greeting_stored rfl)).mpr
    ⟨by decide, _, rfl, by decide +kernel, by decide +kernel⟩

def longPath : Bytes := List.replicate 199 97 ++ 47 :: List.replicate 198 98

theorem long_path_slips : (∀ f ∈ [greeting longPath], Stored epoch greetings (fun _ => str "hi") f) ∧
    ((encode epoch buffer greetings (fun _ => .ok [greeting longPath]) []).run []).1 = .ok () ∧
      (decode epoch buffered willing
        (fun _ => .ok ((encode epoch buffer greetings (fun _ => .ok [greeting longPath]) []).run []).2) [str "x"]).run ⟨⟨[], 0⟩, []⟩ =
      (.ok (), ⟨⟨((encode epoch buffer greetings (fun _ => .ok [greeting longPath]) []).run []).2, 522⟩,
        [.openFile longPath 0o644, .copy longPath (str "\nh"), .lchown longPath 0 0]⟩) :=
  ⟨greeting_stored rfl, by decide +kernel⟩

end Examples

end URoot.Archive
