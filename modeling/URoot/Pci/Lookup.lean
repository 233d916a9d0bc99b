import URoot.Lib.Scanner

set_option autoImplicit false

namespace URoot.Pci

open GoLib Scanner

section Lookup

inductive State where
  | findingVendor
  | findingDevice
deriving DecidableEq, Repr

def isHex (b : UInt8) : Bool := (97 ≤ b ∧ b ≤ 102) ∨ (65 ≤ b ∧ b ≤ 70) ∨ (48 ≤ b ∧ b ≤ 57)

structure Id where
  text : Bytes
  four : text.length = 4

variable (vendor device : Id)

-- The lines are those that Scan yields. A line that gets past the first case has the bytes that the others look at.
def lookupLoop : State → Bytes → List Bytes → Bytes × Bytes
  | _, vendorName, [] => (vendorName, device.text)
  | state, vendorName, line :: lines =>
      if line.length < 7 ∨ line.getD 0 0 = 35 then lookupLoop state vendorName lines
      else if state = .findingVendor ∧ isHex (line.getD 0 0) = true ∧ isHex (line.getD 1 0) = true then
        if vendor.text.take 4 = line.take 4 then lookupLoop .findingDevice (line.drop 6) lines
        else lookupLoop state vendorName lines
      else if state = .findingDevice ∧ line.take 2 = [9, 9] then lookupLoop state vendorName lines
      else if state = .findingDevice ∧ (line.getD 0 0 ≠ 9 ∨ isHex (line.getD 1 0) = false) then (vendorName, device.text)
      else if state = .findingDevice ∧ line.getD 0 0 = 9 ∧ isHex (line.getD 1 0) = true then
        if device.text.take 4 = (line.drop 1).take 4 then (vendorName, line.drop 7)
        else lookupLoop state vendorName lines
      else lookupLoop state vendorName lines

def lookup (pciids : Bytes) : Bytes × Bytes := lookupLoop vendor device .findingVendor vendor.text (scanLines pciids)

end Lookup

section Table

def Noise (line : Bytes) : Prop := line.length < 7 ∨ line.head? = some 35
deriving Decidable

structure Entry where
  id : Bytes
  name : Bytes
  four : id.length = 4
  hex : id.all isHex = true
  named : name ≠ []

def Entry.line (e : Entry) : Bytes := e.id ++ [32, 32] ++ e.name

structure Device where
  entry : Entry
  after : List Bytes
  subdevices : ∀ line ∈ after, Noise line ∨ line.take 2 = [9, 9]

def Device.lines (d : Device) : List Bytes := (9 :: d.entry.line) :: d.after

structure Vendor where
  entry : Entry
  after : List Bytes
  noise : ∀ line ∈ after, Noise line
  devices : List Device

def Vendor.lines (v : Vendor) : List Bytes := v.entry.line :: (v.after ++ v.devices.flatMap Device.lines)

def Heading (line : Bytes) : Prop := line.take 2 = [67, 32]
deriving Decidable

structure Classes where
  before : List Bytes
  noise : ∀ line ∈ before, Noise line
  section_ : List Bytes
  begins : ∀ line ∈ section_.head?, 7 ≤ line.length ∧ Heading line
  body : ∀ line ∈ section_, Noise line ∨ Heading line ∨ line.head? = some 9

structure Table where
  before : List Bytes
  noise : ∀ line ∈ before, Noise line
  vendors : List Vendor
  classes : Classes

def Table.lines (t : Table) : List Bytes :=
  t.before ++ (t.vendors.flatMap Vendor.lines ++ (t.classes.before ++ t.classes.section_))

def Vendor.deviceName (v : Vendor) (device : Id) : Bytes :=
  ((v.devices.find? (fun d => d.entry.id = device.text)).map (fun d => d.entry.name)).getD device.text

def Table.names (t : Table) (vendor device : Id) : Bytes × Bytes :=
  match t.vendors.find? (fun v => v.entry.id = vendor.text) with
  | none => (vendor.text, device.text)
  | some v => (v.entry.name, v.deviceName device)

end Table

section Step

variable (vendor device : Id) (state : State) (vendorName : Bytes)

theorem head_get {line : Bytes} {b : UInt8} (first : line.head? = some b) : line.getD 0 0 = b := by
  obtain ⟨rest, rfl⟩ := List.head?_eq_some_iff.mp first
  rfl

theorem noise_step {line : Bytes} (lines : List Bytes) (noise : Noise line) :
    lookupLoop vendor device state vendorName (line :: lines) = lookupLoop vendor device state vendorName lines := by
  have first : line.length < 7 ∨ line.getD 0 0 = 35 := noise.imp_right (head_get)
  rw [lookupLoop, if_pos first]

theorem tab_vendor_step (line : Bytes) (lines : List Bytes) (tab : line.head? = some 9) :
    lookupLoop vendor device .findingVendor vendorName (line :: lines) = lookupLoop vendor device .findingVendor vendorName lines := by
  have first := head_get tab
  have plain : isHex 9 = false := by decide
  rw [lookupLoop]
  simp only [first, plain, reduceCtorEq, false_and, and_false, Bool.false_eq_true, if_false, ite_self]

theorem heading_vendor_step (line : Bytes) (lines : List Bytes) (heading : Heading line) :
    lookupLoop vendor device .findingVendor vendorName (line :: lines) = lookupLoop vendor device .findingVendor vendorName lines := by
  have second : line.getD 1 0 = 32 := by
    have same := congrArg (fun front => front.getD 1 0) heading
    simpa [List.getD_eq_getElem?_getD, List.getElem?_take] using same
  have blank : isHex 32 = false := by decide
  rw [lookupLoop]
  simp only [second, blank, reduceCtorEq, false_and, and_false, Bool.false_eq_true, if_false, ite_self]

theorem sub_device_step (line : Bytes) (lines : List Bytes) (tabs : line.take 2 = [9, 9]) :
    lookupLoop vendor device state vendorName (line :: lines) = lookupLoop vendor device state vendorName lines := by
  cases state with
  | findingVendor =>
      refine tab_vendor_step vendor device vendorName line lines ?_
      have same := congrArg List.head? tabs
      rwa [List.head?_take, if_neg (by decide)] at same
  | findingDevice =>
      rw [lookupLoop]
      simp only [tabs, reduceCtorEq, false_and, if_false, and_self, if_true, ite_self]

theorem hex_bytes (e : Entry) : ∃ a b c d, e.id = [a, b, c, d] ∧ isHex a = true ∧ isHex b = true := by
  obtain ⟨a, rest, first⟩ := List.exists_cons_of_length_pos (l := e.id) (by rw [e.four]; decide)
  have three := e.four
  have hex := e.hex
  rw [first] at three hex ⊢
  obtain ⟨b, c, d, rfl⟩ := List.length_eq_three.mp (Nat.succ.inj three)
  simp only [List.all_cons, Bool.and_eq_true] at hex
  exact ⟨a, b, c, d, rfl, hex.1, hex.2.1⟩

theorem entry_long (e : Entry) : 7 ≤ e.line.length := by
  have named := List.length_pos_iff.mpr e.named
  have four := e.four
  simp only [Entry.line, List.length_append, List.length_cons, List.length_nil]
  omega

theorem hex_other (b : UInt8) (hex : isHex b = true) : b ≠ 35 ∧ b ≠ 9 := by
  refine ⟨?_, ?_⟩
  · rintro rfl
    exact absurd hex (by decide)
  · rintro rfl
    exact absurd hex (by decide)

theorem vendor_line_step (e : Entry) (lines : List Bytes) :
    lookupLoop vendor device .findingVendor vendorName (e.line :: lines) =
      if e.id = vendor.text then lookupLoop vendor device .findingDevice e.name lines
      else lookupLoop vendor device .findingVendor vendorName lines := by
  have long := entry_long e
  obtain ⟨a, b, c, d, id, hexA, hexB⟩ := hex_bytes e
  have whole : e.line = a :: b :: c :: d :: 32 :: 32 :: e.name := by rw [Entry.line, id]; rfl
  rw [whole] at long
  have past : ¬ ((a :: b :: c :: d :: 32 :: 32 :: e.name).length < 7 ∨ (a :: b :: c :: d :: 32 :: 32 :: e.name).getD 0 0 = 35) := by
    rintro (short | comment)
    · omega
    · exact (hex_other a hexA).1 comment
  have own : vendor.text.take 4 = vendor.text := List.take_of_length_le (Nat.le_of_eq vendor.four)
  rw [whole, lookupLoop, if_neg past, if_pos ⟨rfl, hexA, hexB⟩, own, id]
  simp only [List.take_succ_cons, List.take_zero, List.drop_succ_cons, List.drop_zero, eq_comm]

theorem device_line_step (e : Entry) (lines : List Bytes) :
    lookupLoop vendor device .findingDevice vendorName ((9 :: e.line) :: lines) =
      if e.id = device.text then (vendorName, e.name) else lookupLoop vendor device .findingDevice vendorName lines := by
  have long := entry_long e
  obtain ⟨a, b, c, d, id, hexA, hexB⟩ := hex_bytes e
  have whole : e.line = a :: b :: c :: d :: 32 :: 32 :: e.name := by rw [Entry.line, id]; rfl
  rw [whole] at long ⊢
  generalize inside : 9 :: a :: b :: c :: d :: 32 :: 32 :: e.name = line
  have size : ¬ line.length < 7 := by
    rw [← inside, List.length_cons]
    omega
  have first : line.getD 0 0 = 9 := by rw [← inside]; rfl
  have second : line.getD 1 0 = a := by rw [← inside]; rfl
  have single : ¬ line.take 2 = [9, 9] := by
    rw [← inside]
    intro same
    exact (hex_other a hexA).2 (List.cons.inj (List.cons.inj same).2).1
  have own : device.text.take 4 = device.text := List.take_of_length_le (Nat.le_of_eq device.four)
  have code : (line.drop 1).take 4 = e.id := by rw [← inside, id]; rfl
  have name : line.drop 7 = e.name := by rw [← inside]; rfl
  have comment : ¬ ((9 : UInt8) = 35) := by decide
  rw [lookupLoop]
  simp only [size, first, second, single, own, code, name, comment, hexA, or_self, reduceCtorEq, false_and, and_false, if_false,
    ne_eq, not_true_eq_false, and_self, if_true, eq_comm]

theorem other_line_stop (line : Bytes) (lines : List Bytes) (long : 7 ≤ line.length) (comment : line.getD 0 0 ≠ 35)
    (tab : line.getD 0 0 ≠ 9) : lookupLoop vendor device .findingDevice vendorName (line :: lines) = (vendorName, device.text) := by
  have past : ¬ (line.length < 7 ∨ line.getD 0 0 = 35) := by
    rintro (short | same)
    · omega
    · exact comment same
  have tabs : ¬ line.take 2 = [9, 9] := by
    intro same
    refine tab (head_get ?_)
    have first := congrArg List.head? same
    rwa [List.head?_take, if_neg (by decide)] at first
  rw [lookupLoop, if_neg past, if_neg (by simp), if_neg (fun both => tabs both.2), if_pos ⟨rfl, Or.inl tab⟩]

theorem vendor_line_stop (e : Entry) (lines : List Bytes) :
    lookupLoop vendor device .findingDevice vendorName (e.line :: lines) = (vendorName, device.text) := by
  obtain ⟨a, b, c, d, id, hexA, -⟩ := hex_bytes e
  have first : e.line.getD 0 0 = a := by rw [Entry.line, id]; rfl
  have other := hex_other a hexA
  exact other_line_stop vendor device vendorName e.line lines (entry_long e) (by rw [first]; exact other.1) (by rw [first]; exact other.2)

theorem heading_stop (line : Bytes) (lines : List Bytes) (long : 7 ≤ line.length) (heading : Heading line) :
    lookupLoop vendor device .findingDevice vendorName (line :: lines) = (vendorName, device.text) := by
  have head : line.getD 0 0 = 67 := by
    refine head_get ?_
    have first := congrArg List.head? heading
    rwa [List.head?_take, if_neg (by decide)] at first
  exact other_line_stop vendor device vendorName line lines long (by rw [head]; decide) (by rw [head]; decide)

end Step

section Search

def findAt {α : Type} (size : α → Nat) (wanted : α → Bool) : List α → Option (Nat × α)
  | [] => none
  | item :: rest =>
      if wanted item then some (0, item) else (findAt size wanted rest).map (fun found => (size item + found.1, found.2))

theorem find_at_find {α : Type} (size : α → Nat) (wanted : α → Bool) (items : List α) :
    items.find? wanted = (findAt size wanted items).map Prod.snd := by
  induction items with
  | nil => rfl
  | cons item rest ih =>
      rw [List.find?_cons, findAt]
      cases here : wanted item with
      | true => rfl
      | false =>
          simp only [Bool.false_eq_true, if_false]
          rw [ih, Option.map_map]
          rfl

variable (vendor device : Id) (state : State) (vendorName : Bytes)

theorem skip_lines {front : List Bytes} (rest : List Bytes) (n : Nat)
    (skip : ∀ line ∈ front, ∀ lines, lookupLoop vendor device state vendorName (line :: lines) =
      lookupLoop vendor device state vendorName lines) :
    lookupLoop vendor device state vendorName ((front ++ rest).take n) =
      lookupLoop vendor device state vendorName (rest.take (n - front.length)) := by
  induction front generalizing n with
  | nil => rfl
  | cons line front ih =>
      obtain ⟨here, later⟩ := List.forall_mem_cons.mp skip
      cases n with
      | zero => simp
      | succ n => rw [List.cons_append, List.take_succ_cons, here, ih n later, List.length_cons, Nat.succ_sub_succ]

def Vendor.deviceAt (v : Vendor) (device : Id) : Option (Nat × Device) :=
  (findAt (fun d => d.lines.length) (fun d => d.entry.id = device.text) v.devices).map (fun found => (1 + v.after.length + found.1, found.2))

def Table.vendorAt (t : Table) (vendor : Id) : Option (Nat × Vendor) :=
  (findAt (fun v => v.lines.length) (fun v => v.entry.id = vendor.text) t.vendors).map (fun found => (t.before.length + found.1, found.2))

def seenName (found : Option (Nat × Device)) (n : Nat) : Bytes :=
  match found with
  | none => device.text
  | some (before, d) => if before < n then d.entry.name else device.text

theorem seen_shift (found : Option (Nat × Device)) (k n : Nat) :
    seenName device (found.map (fun f => (k + f.1, f.2))) n = seenName device found (n - k) := by
  cases found with
  | none => rfl
  | some f =>
      simp only [seenName, Option.map_some]
      by_cases inside : k + f.1 < n
      · rw [if_pos inside, if_pos (by omega)]
      · rw [if_neg inside, if_neg (by omega)]

theorem seen_zero (found : Option (Nat × Device)) : seenName device found 0 = device.text := by
  cases found with
  | none => rfl
  | some f => rfl

theorem sub_devices_skipped (d : Device) (line : Bytes) (there : line ∈ d.after) (lines : List Bytes) :
    lookupLoop vendor device state vendorName (line :: lines) = lookupLoop vendor device state vendorName lines := by
  rcases d.subdevices line there with noise | tabs
  · exact noise_step vendor device state vendorName lines noise
  · exact sub_device_step vendor device state vendorName line lines tabs

theorem devices_seen (devices : List Device) (rest : List Bytes) (n : Nat)
    (stop : ∀ m, lookupLoop vendor device .findingDevice vendorName (rest.take m) = (vendorName, device.text)) :
    lookupLoop vendor device .findingDevice vendorName ((devices.flatMap Device.lines ++ rest).take n) =
      (vendorName, seenName device (findAt (fun d => d.lines.length) (fun d => d.entry.id = device.text) devices) n) := by
  induction devices generalizing n with
  | nil => exact stop n
  | cons d devices ih =>
      cases n with
      | zero => rw [List.take_zero, lookupLoop, seen_zero]
      | succ n =>
          rw [List.flatMap_cons, List.append_assoc, Device.lines, List.cons_append, List.take_succ_cons, device_line_step, findAt]
          by_cases here : d.entry.id = device.text
          · rw [if_pos here, if_pos (decide_eq_true here)]
            rfl
          · rw [if_neg here, if_neg (by simpa using here), skip_lines vendor device _ vendorName _ n
              (fun line there lines => sub_devices_skipped vendor device _ vendorName d line there lines), ih, seen_shift,
              Device.lines, List.length_cons, Nat.succ_sub_succ]

def seenNames (found : Option (Nat × Vendor)) (n : Nat) : Bytes × Bytes :=
  match found with
  | none => (vendor.text, device.text)
  | some (before, v) =>
      if before < n then (v.entry.name, seenName device (v.deviceAt device) (n - before)) else (vendor.text, device.text)

theorem names_shift (found : Option (Nat × Vendor)) (k n : Nat) :
    seenNames vendor device (found.map (fun f => (k + f.1, f.2))) n = seenNames vendor device found (n - k) := by
  cases found with
  | none => rfl
  | some f =>
      simp only [seenNames, Option.map_some]
      by_cases inside : k + f.1 < n
      · rw [if_pos inside, if_pos (by omega), Nat.sub_add_eq]
      · rw [if_neg inside, if_neg (by omega)]

theorem names_zero (found : Option (Nat × Vendor)) : seenNames vendor device found 0 = (vendor.text, device.text) := by
  cases found with
  | none => rfl
  | some f => rfl

theorem block_seen (v : Vendor) (rest : List Bytes) (n : Nat)
    (stop : ∀ m, lookupLoop vendor device .findingDevice v.entry.name (rest.take m) = (v.entry.name, device.text)) :
    lookupLoop vendor device .findingDevice v.entry.name ((v.after ++ (v.devices.flatMap Device.lines ++ rest)).take n) =
      (v.entry.name, seenName device (v.deviceAt device) (n + 1)) := by
  have skip := fun line there lines => noise_step vendor device .findingDevice v.entry.name lines (v.noise line there)
  rw [skip_lines vendor device _ _ _ n skip, devices_seen vendor device _ v.devices rest _ stop, Vendor.deviceAt, seen_shift]
  congr 2
  omega

theorem block_skipped (v : Vendor) (rest : List Bytes) (n : Nat) :
    lookupLoop vendor device .findingVendor vendorName ((v.after ++ (v.devices.flatMap Device.lines ++ rest)).take n) =
      lookupLoop vendor device .findingVendor vendorName (rest.take (n + 1 - v.lines.length)) := by
  rw [← List.append_assoc, skip_lines]
  · congr 2
    rw [Vendor.lines, List.length_cons]
    omega
  · intro line there lines
    rcases List.mem_append.mp there with noise | inside
    · exact noise_step vendor device _ vendorName lines (v.noise line noise)
    · obtain ⟨d, -, own⟩ := List.mem_flatMap.mp inside
      rcases List.mem_cons.mp own with rfl | sub
      · exact tab_vendor_step vendor device vendorName _ lines rfl
      · exact sub_devices_skipped vendor device _ vendorName d line sub lines

theorem vendors_seen (vendors : List Vendor) (rest : List Bytes) (n : Nat)
    (stopDevice : ∀ name m, lookupLoop vendor device .findingDevice name (rest.take m) = (name, device.text))
    (stopVendor : ∀ m, lookupLoop vendor device .findingVendor vendor.text (rest.take m) = (vendor.text, device.text)) :
    lookupLoop vendor device .findingVendor vendor.text ((vendors.flatMap Vendor.lines ++ rest).take n) =
      seenNames vendor device (findAt (fun v => v.lines.length) (fun v => v.entry.id = vendor.text) vendors) n := by
  have stop : ∀ vendors : List Vendor, ∀ name m,
      lookupLoop vendor device .findingDevice name ((vendors.flatMap Vendor.lines ++ rest).take m) = (name, device.text) := by
    intro vendors name m
    cases vendors with
    | nil => exact stopDevice name m
    | cons v vendors =>
        cases m with
        | zero => rw [List.take_zero, lookupLoop]
        | succ m =>
            rw [List.flatMap_cons, List.append_assoc, Vendor.lines, List.cons_append, List.take_succ_cons]
            exact vendor_line_stop vendor device name v.entry _
  induction vendors generalizing n with
  | nil => exact stopVendor n
  | cons v vendors ih =>
      cases n with
      | zero => rw [List.take_zero, lookupLoop, names_zero]
      | succ n =>
          rw [List.flatMap_cons, List.append_assoc, Vendor.lines, List.cons_append, List.take_succ_cons, vendor_line_step, findAt,
            List.append_assoc]
          by_cases here : v.entry.id = vendor.text
          · rw [if_pos here, if_pos (decide_eq_true here), block_seen vendor device v _ n (stop vendors v.entry.name)]
            rfl
          · rw [if_neg here, if_neg (by simpa using here), block_skipped, ih, names_shift]

end Search

section Names

variable (vendor device : Id)

theorem classes_stop_device (c : Classes) (name : Bytes) (m : Nat) :
    lookupLoop vendor device .findingDevice name ((c.before ++ c.section_).take m) = (name, device.text) := by
  have skip := fun line there lines => noise_step vendor device .findingDevice name lines (c.noise line there)
  rw [skip_lines vendor device _ name c.section_ m skip]
  cases body : c.section_ with
  | nil => rw [List.take_nil, lookupLoop]
  | cons line lines =>
      obtain ⟨long, heading⟩ := c.begins line (by rw [body]; rfl)
      cases m - c.before.length with
      | zero => rw [List.take_zero, lookupLoop]
      | succ k => exact heading_stop vendor device name line _ long heading

theorem classes_stop_vendor (c : Classes) (m : Nat) :
    lookupLoop vendor device .findingVendor vendor.text ((c.before ++ c.section_).take m) = (vendor.text, device.text) := by
  have skip : ∀ line ∈ c.before ++ c.section_, ∀ lines, lookupLoop vendor device .findingVendor vendor.text (line :: lines) =
      lookupLoop vendor device .findingVendor vendor.text lines := by
    intro line there lines
    rcases List.mem_append.mp there with noise | inside
    · exact noise_step vendor device _ _ lines (c.noise line noise)
    · rcases c.body line inside with noise | heading | tab
      · exact noise_step vendor device _ _ lines noise
      · exact heading_vendor_step vendor device _ line lines heading
      · exact tab_vendor_step vendor device _ line lines tab
  rw [← List.append_nil (c.before ++ c.section_), skip_lines vendor device _ _ [] m skip, List.take_nil, lookupLoop]

theorem lookup_seen {t : Table} {text : Bytes} (written : (lineTexts text).map dropCR = t.lines) :
    lookup vendor device text = seenNames vendor device (t.vendorAt vendor) ((lineTexts text).takeWhile fits).length := by
  have cut : scanLines text = t.lines.take ((lineTexts text).takeWhile fits).length := by
    rw [← written, ← List.map_take, ← List.prefix_iff_eq_take.mp (List.takeWhile_prefix fits)]
    rfl
  have skip := fun line there lines => noise_step vendor device .findingVendor vendor.text lines (t.noise line there)
  rw [lookup, cut, Table.lines, skip_lines vendor device _ _ _ _ skip, vendors_seen vendor device t.vendors _ _
    (classes_stop_device vendor device t.classes) (classes_stop_vendor vendor device t.classes), Table.vendorAt, names_shift]

theorem names_at (t : Table) : t.names vendor device =
    ((t.vendorAt vendor).map (fun found => (found.2.entry.name, found.2.deviceName device))).getD (vendor.text, device.text) := by
  rw [Table.names, find_at_find (fun v => v.lines.length), Table.vendorAt, Option.map_map]
  cases findAt (fun v => v.lines.length) (fun v => decide (v.entry.id = vendor.text)) t.vendors with
  | none => rfl
  | some found => rfl

theorem device_name_at (v : Vendor) :
    v.deviceName device = ((v.deviceAt device).map (fun found => found.2.entry.name)).getD device.text := by
  rw [Vendor.deviceName, find_at_find (fun d => d.lines.length), Vendor.deviceAt, Option.map_map, Option.map_map]
  rfl

-- The vendor's line and that of the device are among the first n, or the names are the ids.
structure Table.Reached (t : Table) (n : Nat) : Prop where
  vendorLine : ∀ before v, t.vendorAt vendor = some (before, v) →
    before < n ∨ v.entry.name = vendor.text ∧ v.deviceName device = device.text
  deviceLine : ∀ before v more d, t.vendorAt vendor = some (before, v) → v.deviceAt device = some (more, d) → before < n →
    before + more < n ∨ d.entry.name = device.text

theorem seen_name_iff (v : Vendor) (n : Nat) :
    seenName device (v.deviceAt device) n = v.deviceName device ↔
      ∀ more d, v.deviceAt device = some (more, d) → more < n ∨ d.entry.name = device.text := by
  rw [device_name_at device v]
  cases found : v.deviceAt device with
  | none => exact iff_of_true rfl (fun _ _ impossible => by cases impossible)
  | some f =>
      obtain ⟨more, d⟩ := f
      simp only [seenName, Option.map_some, Option.getD_some, Option.some.injEq, Prod.mk.injEq]
      refine ⟨?_, fun holds => ?_⟩
      · rintro same _ _ ⟨rfl, rfl⟩
        by_cases inside : more < n
        · exact Or.inl inside
        · rw [if_neg inside] at same
          exact Or.inr same.symm
      · rcases holds more d ⟨rfl, rfl⟩ with inside | same
        · rw [if_pos inside]
        · rw [same, ite_self]

theorem reached_none (t : Table) (n : Nat) (absent : t.vendorAt vendor = none) : t.Reached vendor device n := by
  refine ⟨?_, ?_⟩
  · intro before v found
    rw [absent] at found
    cases found
  · intro before v more d found
    rw [absent] at found
    cases found

theorem reached_some (t : Table) (n before : Nat) (v : Vendor) (found : t.vendorAt vendor = some (before, v)) :
    t.Reached vendor device n ↔ (before < n ∨ v.entry.name = vendor.text ∧ v.deviceName device = device.text) ∧
      (before < n → ∀ more d, v.deviceAt device = some (more, d) → before + more < n ∨ d.entry.name = device.text) := by
  have only : ∀ b w, t.vendorAt vendor = some (b, w) → before = b ∧ v = w := by
    intro b w other
    rw [found] at other
    exact Prod.mk.inj (Option.some.inj other)
  refine ⟨fun reached => ⟨reached.vendorLine before v found, fun inside more d inner => ?_⟩, fun both => ⟨?_, ?_⟩⟩
  · exact reached.deviceLine before v more d found inner inside
  · intro b w other
    obtain ⟨rfl, rfl⟩ := only b w other
    exact both.1
  · intro b w more d other inner inside
    obtain ⟨rfl, rfl⟩ := only b w other
    exact both.2 inside more d inner

theorem lookup_names_iff (t : Table) (text : Bytes) (written : (lineTexts text).map dropCR = t.lines) :
    lookup vendor device text = t.names vendor device ↔ t.Reached vendor device ((lineTexts text).takeWhile fits).length := by
  rw [lookup_seen vendor device written, names_at]
  generalize ((lineTexts text).takeWhile fits).length = n
  cases found : t.vendorAt vendor with
  | none => exact iff_of_true rfl (reached_none vendor device t n found)
  | some f =>
      obtain ⟨before, v⟩ := f
      rw [reached_some vendor device t n before v found]
      simp only [seenNames, Option.map_some, Option.getD_some]
      by_cases inside : before < n
      · have shift : ∀ more, more < n - before ↔ before + more < n := by omega
        rw [if_pos inside, Prod.mk.injEq, seen_name_iff]
        simp only [inside, true_or, true_and, true_imp_iff, shift]
      · rw [if_neg inside, Prod.mk.injEq, eq_comm, @eq_comm _ device.text]
        simp only [inside, false_or, false_imp_iff, and_true]

end Names

section Instance

def rivaTnt : Device := ⟨⟨str "0020", str "Riva TNT", by decide, by decide, by decide⟩, [], by decide⟩

def nvidia : Vendor := ⟨⟨str "10de", str "NVIDIA", by decide, by decide, by decide⟩, [], by decide, [rivaTnt]⟩

def raidController : Device :=
  ⟨⟨str "0007", str "82379AB", by decide, by decide, by decide⟩, [str "\t\t1af4 1100  Qemu"], by decide⟩

def memoryController : Device := ⟨⟨str "1237", str "PMC", by decide, by decide, by decide⟩, [], by decide⟩

def intel : Vendor :=
  ⟨⟨str "8086", str "Intel", by decide, by decide, by decide⟩, [str "# chipsets"], by decide, [raidController, memoryController]⟩

def classes : Classes := ⟨[[]], by decide, [str "C 00  Unclassified device", str "\t00  Non-VGA device"], by decide, by decide⟩

def intelId : Id := ⟨str "8086", by decide⟩

def controllerId : Id := ⟨str "1237", by decide⟩

def block : Bytes :=
  str "# PCI IDs\n10de  NVIDIA\n\t0020  Riva TNT\n8086  Intel\n# chipsets\n\t0007  82379AB\n\t\t1af4 1100  Qemu\n\t1237  PMC\n" ++
    str "\nC 00  Unclassified device\n\t00  Non-VGA device\n"

def blockTable : Table := ⟨[str "# PCI IDs"], by decide, [nvidia, intel], classes⟩

theorem controller_found : (lineTexts block).map dropCR = blockTable.lines ∧
    lookup intelId controllerId block = (str "Intel", str "PMC") := by
  have written : (lineTexts block).map dropCR = blockTable.lines := by decide
  have seen : ((lineTexts block).takeWhile fits).length = 11 := by decide
  have at_ : blockTable.vendorAt intelId = some (3, intel) := rfl
  have inner : intel.deviceAt controllerId = some (4, memoryController) := rfl
  refine ⟨written, (lookup_names_iff intelId controllerId blockTable block written).mpr ?_⟩
  rw [seen]
  refine ⟨?_, ?_⟩
  · intro before v found
    rw [at_] at found
    cases found
    exact Or.inl (by decide)
  · intro before v more d found deeper _
    rw [at_] at found
    cases found
    rw [inner] at deeper
    cases deeper
    exact Or.inl (by decide)

def comment : Bytes := List.replicate maxTokenSize 35

def commentTable : Table :=
  { blockTable with
    before := comment :: blockTable.before
    noise := List.forall_mem_cons.mpr ⟨Or.inr rfl, blockTable.noise⟩ }

theorem comment_hides_vendor : (lineTexts (comment ++ 10 :: block)).map dropCR = commentTable.lines ∧
    commentTable.names intelId controllerId = (str "Intel", str "PMC") ∧
      lookup intelId controllerId (comment ++ 10 :: block) = (str "8086", str "1237") := by
  have apart : 10 ∉ comment := by
    intro there
    exact absurd (List.eq_of_mem_replicate there) (by decide)
  have lines := line_texts_front comment block apart
  have kept : dropCR comment = comment := by
    have last : comment.getLast? = some 35 := by
      rw [comment, List.getLast?_replicate, if_neg (by decide)]
    rw [dropCR, last, if_neg (by decide)]
  have long : fits comment = false := by
    rw [fits, comment, List.length_replicate]
    decide
  have written : (lineTexts (comment ++ 10 :: block)).map dropCR = commentTable.lines := by
    have later : (lineTexts block).map dropCR = blockTable.lines := by decide
    rw [lines, List.map_cons, kept, later]
    rfl
  refine ⟨written, rfl, ?_⟩
  rw [lookup_seen intelId controllerId written, lines, List.takeWhile_cons_of_neg (by rw [long]; decide),
    List.length_nil, names_zero]
  rfl

end Instance

end URoot.Pci
