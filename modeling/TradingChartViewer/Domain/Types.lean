import TradingChartViewer.Lib.Grid
import Mathlib.Data.Rat.Defs

/-!
# Domain types

The types of `domain/Types.h` and `domain/DomainContracts.h`. Integers
(`TimestampMs`, `TradeCount`) are unbounded and prices exact. A field or a value
whose source name is a Lean keyword has an underscore after it (`open_`,
`end_`).

`core/TimeUtils.h` is not among the sources. Its units of time are what their
names say, and `domain::floorToMinuteMs` is a parameter: `TimeUtils`.
-/

namespace TCV.Domain

open Lib.Grid

/-- A `double`, taken as an exact number. -/
abbrev Price := Rat

/-! ## Time -/

/-- `core::TimeUtils::kMillisPerSecond`. -/
def kMillisPerSecond : Int := 1000

/-- `core::TimeUtils::kMillisPerMinute`. -/
def kMillisPerMinute : Int := 60000

/-- `domain::floorToMinuteMs`, the minute a time falls in, and what the storage
layer relies on. Where a time before 0 is rounded to is left open. -/
class TimeUtils where
  floorToMinuteMs : Int → Int
  dvd_floorToMinuteMs (t : Int) : kMillisPerMinute ∣ floorToMinuteMs t
  floorToMinuteMs_of_dvd {t : Int} : kMillisPerMinute ∣ t → floorToMinuteMs t = t
  floorToMinuteMs_le {t : Int} : 0 ≤ t → floorToMinuteMs t ≤ t
  lt_floorToMinuteMs_add {t : Int} : 0 ≤ t → t < floorToMinuteMs t + kMillisPerMinute

export TimeUtils (floorToMinuteMs dvd_floorToMinuteMs floorToMinuteMs_of_dvd floorToMinuteMs_le
  lt_floorToMinuteMs_add)

/-- Rounding down by division. -/
instance TimeUtils.byDivision : TimeUtils where
  floorToMinuteMs t := t / kMillisPerMinute * kMillisPerMinute
  dvd_floorToMinuteMs t := Int.dvd_mul_left _ _
  floorToMinuteMs_of_dvd h := Int.ediv_mul_cancel h
  floorToMinuteMs_le {t} _ := by
    show t / 60000 * 60000 ≤ t
    omega
  lt_floorToMinuteMs_add {t} _ := by
    show t < t / 60000 * 60000 + 60000
    omega

structure Interval where
  ms : Int := 0
  deriving DecidableEq, Repr

def Interval.valid (i : Interval) : Bool := 0 < i.ms

/-- `align_down_ms`: C's division rounds towards zero. -/
def alignDownMs (t step : Int) : Int :=
  if 0 < step then t.tdiv step * step else t

theorem alignDownMs_eq {I : Int} (hI : 0 < I) (t : Int) :
    alignDownMs t I = floorTo t I := by
  rw [alignDownMs, if_pos hI, floorTo]

theorem alignDownMs_of_dvd {I t : Int} (h : I ∣ t) : alignDownMs t I = t := by
  unfold alignDownMs
  split
  · exact Int.tdiv_mul_cancel h
  · rfl

/-- An inclusive range of open times. -/
structure TimeRange where
  start : Int
  end_ : Int
  deriving DecidableEq, Repr

def TimeRange.empty (r : TimeRange) : Bool := r.end_ ≤ r.start

/-! ## Candles -/

structure Candle where
  openTime : Int
  closeTime : Int
  open_ : Price
  high : Price
  low : Price
  close : Price
  baseVolume : Price
  quoteVolume : Price
  trades : Int
  isClosed : Bool
  deriving DecidableEq, Repr

/-- The candle after `isClosed = true`. -/
def Candle.sealed (candle : Candle) : Candle := { candle with isClosed := true }

/-- A candle whose price stays at 1. -/
def flatCandle (openTime : Int) (isClosed : Bool) : Candle :=
  ⟨openTime, 0, 1, 1, 1, 1, 0, 0, 0, isClosed⟩

structure CandleSeries where
  interval : Interval := {}
  data : List Candle := []
  firstOpen : Int := 0
  lastOpen : Int := 0
  deriving DecidableEq, Repr

structure LiveCandle where
  candle : Candle
  isFinal : Bool
  deriving DecidableEq, Repr

/-! ## Contiguous series -/

/-- A series that is not empty, whose candles stand at consecutive times. Its
interval may be left out. -/
structure CandleSeries.Contiguous (I : Int) (series : CandleSeries) : Prop where
  interval : series.interval.valid = true → series.interval.ms = I
  spaced : Spaced I (series.data.map Candle.openTime)
  first : (series.data.map Candle.openTime).head? = some series.firstOpen
  last : (series.data.map Candle.openTime).getLast? = some series.lastOpen

section

variable {I : Int} {series : CandleSeries}

theorem CandleSeries.Contiguous.ne_nil (h : series.Contiguous I) : series.data ≠ [] := by
  intro hd
  have := h.first
  rw [hd] at this
  cases this

theorem CandleSeries.Contiguous.length_pos (h : series.Contiguous I) : 0 < series.data.length :=
  List.length_pos_iff.mpr h.ne_nil

theorem CandleSeries.Contiguous.times (h : series.Contiguous I) :
    series.data.map Candle.openTime = ticks series.firstOpen I series.data.length := by
  have hf := h.first
  have hs := h.spaced
  cases hd : series.data with
  | nil => exact absurd hd h.ne_nil
  | cons candle rest =>
    rw [hd, List.map_cons] at hf hs
    have hf : candle.openTime = series.firstOpen := Option.some.inj hf
    rw [List.map_cons, hs.eq_ticks, List.length_map, List.length_cons, hf]

theorem CandleSeries.Contiguous.lastOpen_eq (h : series.Contiguous I) :
    series.lastOpen = series.firstOpen + (series.data.length - 1 : Nat) * I := by
  have hl := h.last
  obtain ⟨n, hn⟩ : ∃ n, series.data.length = n + 1 := ⟨_, (Nat.succ_pred h.length_pos.ne').symm⟩
  rw [h.times, hn, getLast?_ticks] at hl
  rw [hn, Nat.add_sub_cancel]
  exact (Option.some.inj hl).symm

/-- The times of the candles are the grid times from the first to the last. -/
theorem CandleSeries.Contiguous.exists_candle (hI : 0 < I) (h : series.Contiguous I) {t : Int}
    (ht : I ∣ t - series.firstOpen) (h₁ : series.firstOpen ≤ t) (h₂ : t ≤ series.lastOpen) :
    ∃ candle ∈ series.data, candle.openTime = t := by
  have hlast := h.lastOpen_eq
  have hn : (((series.data.length - 1 : Nat) : Int) + 1) * I = series.data.length * I := by
    have := h.length_pos
    congr 1
    omega
  rw [Int.add_mul, Int.one_mul] at hn
  have hm : t ∈ series.data.map Candle.openTime := by
    rw [h.times, mem_ticks_iff hI]
    exact ⟨h₁, by omega, ht⟩
  exact List.mem_map.mp hm

/-- A candle's time is the first one plus its index. -/
theorem CandleSeries.Contiguous.openTime_getElem (h : series.Contiguous I) {i : Nat}
    (hi : i < series.data.length) : (series.data[i]).openTime = series.firstOpen + i * I := by
  have hs := ticks_take_drop h.times hi.le
  have hd := hs.2
  rw [List.drop_eq_getElem_cons hi, List.map_cons, List.length_cons, ticks_succ] at hd
  exact (List.cons.inj hd).1

end

/-! ## The repository contract -/

inductive RangeState
  | ok
  | replaced
  | gap
  | overlap
  deriving DecidableEq, Repr

structure AppendResult where
  state : RangeState := .ok
  expectedFrom : Int := 0
  expectedTo : Int := 0
  appended : Nat := 0
  touchedDisk : Bool := false
  liveOnly : Bool := false
  deriving DecidableEq, Repr

structure RepoMetadata where
  minOpen : Int := 0
  maxOpen : Int := 0
  count : Nat := 0
  deriving DecidableEq, Repr

end TCV.Domain
