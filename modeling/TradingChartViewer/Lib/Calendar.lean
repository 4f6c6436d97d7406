import Mathlib.Data.Nat.Basic
import Mathlib.Algebra.BigOperators.Group.List.Basic
import Mathlib.Algebra.Order.BigOperators.Group.List
import Mathlib.Tactic.Linarith

/-!
# Days and dates

A number of units falls in one of consecutive periods of different lengths: a
day in a year, a day of the year in a month.

* `split`, `upTo`: the period and what is left, and the way back; `upTo_split`, `split_lt`;
* `dateOfDays`, `daysOfDate`: the proleptic Gregorian calendar, with days counted from 1970;
  `daysOfDate_dateOfDays`: no day is lost;
* `sameDay_iff`: the year and the day of the year determine the day.
-/

namespace Lib.Calendar

/-! ## Periods -/

/-- The period in which the unit `rest` after the start of period `i` falls, among
the `fuel` periods that follow it, and its place there. -/
def split (len : Nat → Nat) : Nat → Nat → Nat → Nat × Nat
  | 0, i, rest => (i, rest)
  | fuel + 1, i, rest => if rest < len i then (i, rest) else split len fuel (i + 1) (rest - len i)

/-- The units in `n` periods from period `i` on. -/
def units (len : Nat → Nat) (i n : Nat) : Nat := ((List.range' i n).map len).sum

section Periods

variable {len : Nat → Nat}

theorem units_succ (i n : Nat) : units len i (n + 1) = len i + units len (i + 1) n := by
  rw [units, List.range'_succ, List.map_cons, List.sum_cons]
  rfl

theorem split_le (len : Nat → Nat) (fuel i rest : Nat) :
    i ≤ (split len fuel i rest).1 ∧ (split len fuel i rest).1 ≤ i + fuel := by
  induction fuel generalizing i rest with
  | zero => exact ⟨le_rfl, le_rfl⟩
  | succ fuel ih =>
    rw [split]
    split
    · exact ⟨le_rfl, Nat.le_add_right ..⟩
    · have := ih (i + 1) (rest - len i)
      omega

/-- Nothing is lost. -/
theorem units_split (len : Nat → Nat) (fuel i rest : Nat) :
    units len i ((split len fuel i rest).1 - i) + (split len fuel i rest).2 = rest := by
  induction fuel generalizing i rest with
  | zero => simp [split, units]
  | succ fuel ih =>
    rw [split]
    split
    · simp [units]
    · have hle := split_le len fuel (i + 1) (rest - len i)
      have hrest := ih (i + 1) (rest - len i)
      obtain ⟨n, hn⟩ : ∃ n, (split len fuel (i + 1) (rest - len i)).1 = i + 1 + n :=
        ⟨_, (Nat.add_sub_cancel' hle.1).symm⟩
      rw [hn, Nat.add_sub_cancel_left] at hrest
      rw [hn, show i + 1 + n - i = n + 1 by omega, units_succ]
      omega

/-- The place is one of the period. -/
theorem split_lt (len : Nat → Nat) {fuel i rest : Nat} (h : rest < units len i (fuel + 1)) :
    (split len fuel i rest).2 < len (split len fuel i rest).1 := by
  induction fuel generalizing i rest with
  | zero =>
    rw [units_succ] at h
    simpa [split, units] using h
  | succ fuel ih =>
    rw [split]
    split
    · assumption
    · rw [units_succ] at h
      exact ih (by omega)

end Periods

/-! ## The calendar -/

def isLeap (year : Int) : Bool := year % 4 = 0 && (year % 100 ≠ 0 || year % 400 = 0)

def yearLength (year : Int) : Nat := if isLeap year then 366 else 365

def monthLength (year : Int) (month : Nat) : Nat :=
  match month with
  | 2 => if isLeap year then 29 else 28
  | 4 | 6 | 9 | 11 => 30
  | _ => 31

/-- A day: its year, its place in the year from 0 on, its month and its place in
the month, both from 1 on. -/
structure Date where
  year : Int
  yday : Nat
  month : Nat
  mday : Nat
  deriving DecidableEq, Repr

/-- The days from the beginning of year 0 to 1970. -/
def daysTo1970 : Int := 719528

/-- The days of 400 years. -/
def cycleLength : Nat := 146097

/-- The date of a day that is counted from the first of January 1970. -/
def dateOfDays (days : Int) : Date :=
  let day := days + daysTo1970
  let (yearOfCycle, yday) := split (fun y => yearLength y) 399 0 (day % cycleLength).toNat
  let year := day / cycleLength * 400 + yearOfCycle
  let (month, rest) := split (monthLength year) 11 1 yday
  { year := year, yday := yday, month := month, mday := rest + 1 }

/-- The day on which a year begins. -/
def daysOfYear (year : Int) : Int :=
  year / 400 * cycleLength + units (fun y => yearLength y) 0 (year % 400).toNat - daysTo1970

def daysOfDate (year : Int) (month mday : Nat) : Int :=
  daysOfYear year + units (monthLength year) 1 (month - 1) + (mday - 1 : Nat)

section Calendar

theorem units_cycle : units (fun y => yearLength y) 0 400 = cycleLength := by decide +kernel

theorem isLeap_cycle (cycle : Int) (y : Nat) : isLeap (cycle * 400 + y) = isLeap y := by
  have h4 : (cycle * 400 + y : Int) % 4 = y % 4 := by omega
  have h100 : (cycle * 400 + y : Int) % 100 = y % 100 := by omega
  have h400 : (cycle * 400 + y : Int) % 400 = y % 400 := by omega
  rw [isLeap, h4, h100, h400, isLeap]

/-- The place of a day in the cycle is one of the cycle. -/
theorem day_mod_lt (day : Int) : (day % cycleLength).toNat < cycleLength := by
  have := Int.emod_lt_of_pos day (show (0 : Int) < cycleLength by decide)
  have := Int.emod_nonneg day (show (cycleLength : Int) ≠ 0 by decide)
  omega

/-- The year of a date, and the place in it. -/
theorem dateOfDays_spec (days : Int) :
    (dateOfDays days).yday < yearLength (dateOfDays days).year ∧
    daysOfYear (dateOfDays days).year + (dateOfDays days).yday = days := by
  obtain ⟨day, hday⟩ : ∃ day, day = days + daysTo1970 := ⟨_, rfl⟩
  have hrest : (day % cycleLength).toNat < units (fun y => yearLength y) 0 (399 + 1) := by
    rw [units_cycle]
    exact day_mod_lt day
  have hlt := split_lt (fun y => yearLength y) hrest
  have hsum := units_split (fun y => yearLength y) 399 0 (day % cycleLength).toNat
  have hle := (split_le (fun y => yearLength y) 399 0 (day % cycleLength).toNat).2
  have hmod := Int.emod_add_mul_ediv day cycleLength
  have hnonneg := Int.emod_nonneg day (show (cycleLength : Int) ≠ 0 by decide)
  unfold dateOfDays daysOfYear
  dsimp only
  rw [← hday]
  generalize split (fun y => yearLength y) 399 0 (day % cycleLength).toNat = p at hlt hsum hle
  have hcycle : (day / cycleLength * 400 + (p.1 : Int)) / 400 = day / cycleLength := by omega
  have hyear : ((day / cycleLength * 400 + (p.1 : Int)) % 400).toNat = p.1 := by omega
  rw [Nat.sub_zero] at hsum
  rw [hcycle, hyear, yearLength, isLeap_cycle, ← yearLength]
  refine ⟨hlt, ?_⟩
  have : (units (fun y => yearLength y) 0 p.1 : Int) + p.2 = day % cycleLength := by
    rw [← Int.toNat_of_nonneg hnonneg]
    exact_mod_cast hsum
  rw [Int.mul_comm] at hmod
  omega

/-- No day is lost. -/
theorem daysOfDate_dateOfDays (days : Int) :
    daysOfDate (dateOfDays days).year (dateOfDays days).month (dateOfDays days).mday = days := by
  obtain ⟨-, hdays⟩ := dateOfDays_spec days
  have hsum := units_split (monthLength (dateOfDays days).year) 11 1 (dateOfDays days).yday
  have hmonth : (dateOfDays days).month =
    (split (monthLength (dateOfDays days).year) 11 1 (dateOfDays days).yday).1 := rfl
  have hmday : (dateOfDays days).mday =
    (split (monthLength (dateOfDays days).year) 11 1 (dateOfDays days).yday).2 + 1 := rfl
  rw [daysOfDate, hmday, hmonth, Nat.add_sub_cancel]
  have : (units (monthLength (dateOfDays days).year) 1
      ((split (monthLength (dateOfDays days).year) 11 1 (dateOfDays days).yday).1 - 1) : Int) +
      (split (monthLength (dateOfDays days).year) 11 1 (dateOfDays days).yday).2 =
      (dateOfDays days).yday := by
    exact_mod_cast hsum
  omega

/-- The year and the day of the year determine the day. -/
theorem sameDay_iff (days days' : Int) :
    (dateOfDays days).year = (dateOfDays days').year ∧
      (dateOfDays days).yday = (dateOfDays days').yday ↔ days = days' := by
  constructor
  · rintro ⟨hyear, hyday⟩
    have h := (dateOfDays_spec days).2
    have h' := (dateOfDays_spec days').2
    rw [hyear, hyday] at h
    omega
  · rintro rfl
    exact ⟨rfl, rfl⟩

theorem year_nonneg {days : Int} (h : 0 ≤ days) : 0 ≤ (dateOfDays days).year := by
  have : 0 ≤ (days + daysTo1970) / cycleLength :=
    Int.ediv_nonneg (Int.add_nonneg h (by decide)) (by decide)
  unfold dateOfDays
  dsimp only
  omega

end Calendar

end Lib.Calendar
