import URoot.Lib.Calendar
import URoot.Lib.Strconv

set_option autoImplicit false

namespace URoot.Date

open GoLib Calendar

-- What time.Now().In(z) is asked for: the date in the zone, and Format with a layout.
structure Moment where
  date : Calendar.Date
  format : Bytes → Bytes

section DateMap

def fmtMap : List (Bytes × Bytes) :=
  [(str "%a", str "Mon"), (str "%A", str "Monday"), (str "%b", str "Jan"), (str "%h", str "Jan"), (str "%B", str "January"),
    (str "%c", str "Mon Jan _2 15:04:05 MST 2006"), (str "%d", str "02"), (str "%e", str "_2"), (str "%H", str "15"),
    (str "%I", str "03"), (str "%m", str "1"), (str "%M", str "04"), (str "%p", str "PM"), (str "%S", str "05"),
    (str "%y", str "06"), (str "%Y", str "2006"), (str "%z", str "-0700"), (str "%Z", str "MST")]

def isLetter (c : UInt8) : Bool := (97 ≤ c ∧ c ≤ 122) ∨ (65 ≤ c ∧ c ≤ 90)

-- The matches of %[a-zA-Z], from left to right.
def formatParser : Bytes → List Bytes
  | [] => []
  | b :: rest =>
      match rest with
      | [] => []
      | c :: later => if b = 37 ∧ isLetter c = true then [b, c] :: formatParser later else formatParser (c :: later)

-- strings.Replace with a limit of one.
def replaceFirst (old new_ : Bytes) : Bytes → Bytes
  | [] => []
  | b :: rest => if old.isPrefixOf (b :: rest) then new_ ++ (b :: rest).drop old.length else b :: replaceFirst old new_ rest

variable (m : Moment)

def dayYear (d : Calendar.Date) : Int := d.isoWeek.2 * 7 - ((newYearWeekday d.isoWeek.1 : Int) - 1) + d.weekday

def isNotSunday (d : Calendar.Date) : Int := if d.weekday = 0 then 0 else 1

-- nested is the call of dateMap on another format; none leaves the pattern as it is.
def toReplace (nested : Bytes → Bytes) (pattern : Bytes) : Option Bytes :=
  match fmtMap.find? (fun entry => entry.1 = pattern) with
  | some entry => some (m.format entry.2)
  | none =>
      if pattern = str "%C" then some (Strconv.itoa (m.date.year / 100 : Nat))
      else if pattern = str "%D" then some (nested (str "%m/%d/%y"))
      else if pattern = str "%j" then some (Strconv.itoa (dayYear m.date))
      else if pattern = str "%n" then some (str "\n")
      else if pattern = str "%r" then some (nested (str "%I:%M:%S %p"))
      else if pattern = str "%t" then some (str "\t")
      else if pattern = str "%T" then some (nested (str "%H:%M:%S"))
      else if pattern = str "%W" then some (Strconv.itoa (m.date.isoWeek.2 - isNotSunday m.date))
      else if pattern = str "%w" then some (Strconv.itoa m.date.weekday)
      else if pattern = str "%V" then some (Strconv.itoa m.date.isoWeek.2)
      else if pattern = str "%x" then some (nested (str "%m/%d/%y"))
      else if pattern = str "%F" then some (nested (str "%Y-%m-%d"))
      else if pattern = str "%X" then some (nested (str "%I:%M:%S %p"))
      else none

def replaceAll (nested : Bytes → Bytes) (format : Bytes) : Bytes :=
  (formatParser format).foldl (fun text pattern => ((toReplace m nested pattern).map (fun new_ => replaceFirst pattern new_ text)).getD text) format

-- The formats of the nested calls hold patterns of fmtMap only, which make no call of their own.
def dateMap (format : Bytes) : Bytes := replaceAll m (replaceAll m id) format

theorem date_map_j : dateMap m (str "%j") = Strconv.itoa (dayYear m.date) := by
  have parsed : formatParser (str "%j") = [str "%j"] := by decide
  have unmapped : fmtMap.find? (fun entry => entry.1 = str "%j") = none := by decide
  have number : ∀ nested, toReplace m nested (str "%j") = some (Strconv.itoa (dayYear m.date)) := by
    intro nested
    rw [toReplace, unmapped]
    rfl
  rw [dateMap, replaceAll, parsed, List.foldl_cons, List.foldl_nil, number]
  exact List.append_nil _

end DateMap

section DayOfYear

def InOwnYear (d : Calendar.Date) : Prop := 0 ≤ d.thursday ∧ d.thursday < yearLength d.year

def BeginsLate (year : Nat) : Prop := newYearWeekday year = 5 ∨ newYearWeekday year = 6

theorem thursday_near (d : Calendar.Date) : (d.yearDay : Int) - 4 ≤ d.thursday ∧ d.thursday ≤ (d.yearDay : Int) + 2 := by
  have week := Nat.mod_lt d.number (show 0 < 7 by decide)
  rw [Calendar.Date.thursday]
  omega

theorem day_year_own (d : Calendar.Date) (own : InOwnYear d) :
    dayYear d = d.yearDay ↔ (BeginsLate d.year ↔ d.weekday ≠ 0) := by
  have bounds := year_day_bounds d
  have iso : d.isoWeek = (d.year, (d.thursday / 7 + 1).toNat) := by
    rw [Calendar.Date.isoWeek, if_neg (by have := own.1; omega), if_pos own.2]
  rw [dayYear, iso, BeginsLate, Calendar.Date.weekday, newYearWeekday, weekdayOf, weekdayOf]
  have lower := own.1
  simp only [Calendar.Date.thursday, Calendar.Date.number] at lower ⊢
  generalize daysBeforeYear d.year = before at lower ⊢
  generalize d.yearDay = day at bounds lower ⊢
  omega

theorem weekday_small (number : Nat) : weekdayOf number < 7 := Nat.mod_lt _ (by decide)

-- The first days of January then get a number of the last week of the year before.
theorem day_year_before (d : Calendar.Date) (early : d.thursday < 0) : dayYear d ≠ d.yearDay := by
  have near := thursday_near d
  have bounds := year_day_bounds d
  have length := year_length_cases (d.year - 1)
  have first := weekday_small (daysBeforeYear (d.year - 1))
  have iso : d.isoWeek = (d.year - 1, ((d.thursday + yearLength (d.year - 1)) / 7 + 1).toNat) := by
    rw [Calendar.Date.isoWeek, if_pos early]
  simp only [dayYear, iso, newYearWeekday]
  omega

-- The last days of December get one of the first week of the next.
theorem day_year_after (d : Calendar.Date) (late : (yearLength d.year : Int) ≤ d.thursday) : dayYear d ≠ d.yearDay := by
  have near := thursday_near d
  have bounds := year_day_bounds d
  have length := year_length_cases d.year
  have last : d.weekday < 7 := weekday_small d.number
  have iso : d.isoWeek = (d.year + 1, ((d.thursday - yearLength d.year) / 7 + 1).toNat) := by
    rw [Calendar.Date.isoWeek, if_neg (by omega), if_neg (by omega)]
  simp only [dayYear, iso]
  omega

theorem day_of_year_iff (m : Moment) : dateMap m (str "%j") = Strconv.itoa m.date.yearDay ↔
    InOwnYear m.date ∧ (BeginsLate m.date.year ↔ m.date.weekday ≠ 0) := by
  have numbers : dateMap m (str "%j") = Strconv.itoa m.date.yearDay ↔ dayYear m.date = m.date.yearDay := by
    rw [date_map_j]
    exact ⟨Strconv.itoa_inj _ _, congrArg Strconv.itoa⟩
  rw [numbers]
  by_cases own : InOwnYear m.date
  · rw [day_year_own m.date own]
    exact ⟨fun same => ⟨own, same⟩, And.right⟩
  · refine iff_of_false ?_ (fun both => own both.1)
    by_cases early : m.date.thursday < 0
    · exact day_year_before m.date early
    · refine day_year_after m.date (Int.not_lt.mp (fun inside => own ⟨Int.not_lt.mp early, inside⟩))

-- Monday, 2 January 2017.
def secondOfJanuary : Moment := ⟨⟨2017, 1, 2, by decide, by decide, by decide⟩, fun _ => []⟩

theorem second_day_is_ninth : secondOfJanuary.date.yearDay = 2 ∧ dateMap secondOfJanuary (str "%j") = str "9" := by
  rw [date_map_j]
  decide

end DayOfYear

end URoot.Date
