import TradingChartViewer.Storage.Observers
import Mathlib.Algebra.Order.Field.Rat
import Mathlib.Tactic.FieldSimp

/-!
# The timeline

`ui::GridTime`: the minutes along the lower edge of the chart, the newest first,
and where a minute is drawn. `core::Timestamp` is a time with a place; the
conversions of whole minutes are parameters, as `core/TimeUtils.h` is not among
the sources. `displacement`, which counts with `core::Timestamp`, and the drawing
are left out.

* `rebuildTimeline`, `onCacheUpdated`, `spectatorModeActualize`;
* `timeline`: the minutes of an engine, worked out at once;
* `rebuildTimeline_newest`, `rebuildTimeline_none`: a rebuild at the newest minute.
-/

namespace TCV.Ui

open TCV.Domain TCV.Storage Lib.Grid

/-- `domain::alignToMinute` and `domain::millisToMinutes`, on whole minutes. -/
class MinuteUtils where
  alignToMinute : Int → Int
  millisToMinutes : Int → Int
  alignToMinute_of_dvd {t : Int} : kMillisPerMinute ∣ t → alignToMinute t = t
  millisToMinutes_mul (n : Int) : millisToMinutes (n * kMillisPerMinute) = n

export MinuteUtils (alignToMinute millisToMinutes alignToMinute_of_dvd millisToMinutes_mul)

instance MinuteUtils.byDivision : MinuteUtils where
  alignToMinute t := t / kMillisPerMinute * kMillisPerMinute
  millisToMinutes t := t / kMillisPerMinute
  alignToMinute_of_dvd h := Int.ediv_mul_cancel h
  millisToMinutes_mul n := Int.mul_ediv_cancel n (by decide)

/-! ## The functions -/

def kGridWidthPixels : Rat := 1800

def kVisibleTimestamps : Nat := 20

/-- `core::Timestamp`: a time and its place. -/
structure Timestamp where
  time : Int
  positionX : Rat := 0
  deriving DecidableEq, Repr

structure GridTime where
  lowestRealTime : Rat := 0
  range : Rat := 0
  minutesperpixel : Rat := 0
  highestTime : Int := 0
  timestamps : List Timestamp := []
  ready : Bool := false
  minOpenTime : Int := 0
  maxOpenTime : Int := 0
  deriving DecidableEq, Repr

namespace GridTime

section Minutes

variable [TimeUtils] {e : DatabaseEngine} {front : MinuteRecord}

/-- The loop over the timestamps, with `left` passes left. -/
def visibleFrom (e : DatabaseEngine) (minAligned : Int) (left : Nat) (currentTimestamp : Int) :
    List Int :=
  match left with
  | 0 => []
  | left + 1 =>
    if 0 < minAligned && currentTimestamp < minAligned then []
    else if !e.isTimestampWithinRange currentTimestamp then []
    else currentTimestamp :: visibleFrom e minAligned left (currentTimestamp - kMillisPerMinute)

/-- How many minutes are shown. -/
def visibleCount (e : DatabaseEngine) : Nat :=
  min kVisibleTimestamps ((e.maxOpenTime - e.minOpenTime) / kMillisPerMinute + 1).toNat

/-- The newest minutes, with those that have no record, back to the first one. -/
def timeline (e : DatabaseEngine) : List Int :=
  ticks e.maxOpenTime (-kMillisPerMinute) (visibleCount e)

/-- The loop goes back minute by minute to the first one, if it has enough passes. -/
theorem visibleFrom_eq (h : e.Ring) (hf : e.cache.head? = some front) (left : Nat) {t : Int}
    (ht : kMillisPerMinute ∣ t) (hmin : e.minOpenTime ≤ t) (hmax : t ≤ e.maxOpenTime) :
    visibleFrom e e.minOpenTime left t = ticks t (-kMillisPerMinute)
      (min left ((t - e.minOpenTime) / kMillisPerMinute + 1).toNat) := by
  have hI : kMillisPerMinute = 60000 := rfl
  induction left generalizing t with
  | zero => simp [visibleFrom]
  | succ left ih =>
    have hhere : visibleFrom e e.minOpenTime (left + 1) t =
        t :: visibleFrom e e.minOpenTime left (t - kMillisPerMinute) := by
      rw [visibleFrom, if_neg (by simp; omega), if_neg]
      simp [(h.within_iff hf ht).mpr ⟨hmin, hmax⟩]
    rw [hhere]
    by_cases hnext : e.minOpenTime ≤ t - kMillisPerMinute
    · rw [ih (Int.dvd_sub ht (Int.dvd_refl _)) hnext (by omega),
        show min (left + 1) ((t - e.minOpenTime) / kMillisPerMinute + 1).toNat =
          min left ((t - kMillisPerMinute - e.minOpenTime) / kMillisPerMinute + 1).toNat + 1 by
            rw [hI] at *; omega,
        ticks_succ, ← sub_eq_add_neg]
    · have hnil : visibleFrom e e.minOpenTime left (t - kMillisPerMinute) = [] := by
        obtain ⟨hpos, -⟩ := h.range hf
        cases left with
        | zero => rfl
        | succ left => rw [visibleFrom, if_pos (by simp; omega)]
      rw [hnil, show min (left + 1) ((t - e.minOpenTime) / kMillisPerMinute + 1).toNat = 1 by
          rw [hI] at *; omega,
        ticks_succ, ticks_zero]

theorem visibleCount_pos (h : e.Ring) (hf : e.cache.head? = some front) : 1 ≤ visibleCount e := by
  obtain ⟨-, hle, -, -⟩ := h.range hf
  have hnonneg : 0 ≤ (e.maxOpenTime - e.minOpenTime) / kMillisPerMinute :=
    Int.ediv_nonneg (by omega) (by decide)
  unfold visibleCount kVisibleTimestamps
  omega

end Minutes

variable [MinuteUtils]

def alignToMinuteCeil (timestampMs : Int) : Int :=
  if timestampMs ≤ 0 then 0
  else
    let aligned := alignToMinute timestampMs
    if aligned < timestampMs then aligned + kMillisPerMinute else aligned

theorem alignToMinuteCeil_of_dvd {t : Int} (ht : kMillisPerMinute ∣ t) (hpos : 0 < t) :
    alignToMinuteCeil t = t := by
  rw [alignToMinuteCeil, if_neg (by omega)]
  dsimp only
  rw [alignToMinute_of_dvd ht, if_neg (by omega)]

/-- A request between the first and the last minute. -/
def clampToRange (g : GridTime) (highestTimestampMs : Int) : Int :=
  let maxAligned := alignToMinute g.maxOpenTime
  let minAligned := alignToMinuteCeil g.minOpenTime
  let highest :=
    if 0 < maxAligned && maxAligned < highestTimestampMs then maxAligned else highestTimestampMs
  if 0 < minAligned && highest < minAligned then minAligned else highest

/-- A rebuild goes to the newest minute if that, or nothing, or more is asked for. -/
theorem clampToRange_newest (g : GridTime) {minOpenTime maxOpenTime highest : Int}
    (hmin : kMillisPerMinute ∣ minOpenTime) (hpos : 0 < minOpenTime)
    (hmax : kMillisPerMinute ∣ maxOpenTime) (hle : minOpenTime ≤ maxOpenTime)
    (hg : g.minOpenTime = minOpenTime ∧ g.maxOpenTime = maxOpenTime)
    (hhighest : highest ≤ 0 ∨ maxOpenTime ≤ highest) :
    g.clampToRange (if highest ≤ 0 && 0 < maxOpenTime then maxOpenTime else highest) =
      maxOpenTime := by
  unfold clampToRange
  rw [hg.1, hg.2, alignToMinute_of_dvd hmax, alignToMinuteCeil_of_dvd hmin hpos]
  simp only [Bool.and_eq_true, decide_eq_true_eq]
  split_ifs <;> omega

variable [TimeUtils]

def refreshDataRange (g : GridTime) (e : DatabaseEngine) : GridTime × Bool :=
  match e.getOpenTimeRange with
  | none => ({ g with minOpenTime := 0, maxOpenTime := 0 }, false)
  | some (minOpenTime, maxOpenTime) =>
    ({ g with minOpenTime := minOpenTime, maxOpenTime := maxOpenTime },
      0 < maxOpenTime && minOpenTime ≤ maxOpenTime)

def getValuePosX (g : GridTime) (dateTimeInMinutes : Int) : Rat :=
  if !g.ready || g.minutesperpixel = 0 then 0
  else (dateTimeInMinutes - g.lowestRealTime) / g.minutesperpixel

/-- The part of `rebuildTimeline` that fills the timeline from the newest minute on. -/
def fillTimeline (g : GridTime) (e : DatabaseEngine) (highestTimestampMs : Int) :
    GridTime × Bool :=
  if highestTimestampMs ≤ 0 then ({ g with timestamps := [], ready := false }, false)
  else
    let times := visibleFrom e (alignToMinuteCeil g.minOpenTime) kVisibleTimestamps
      highestTimestampMs
    let g := { g with highestTime := highestTimestampMs }
    match times.getLast? with
    | none => ({ g with timestamps := [], ready := false }, false)
    | some lowestTimestampMs =>
      let lowestRealTime := millisToMinutes lowestTimestampMs
      let range := max 0 (millisToMinutes highestTimestampMs - lowestRealTime)
      let minutesperpixel := ((range + 1 : Int) : Rat) / kGridWidthPixels
      let minutesperpixel := if minutesperpixel ≤ 0 then 1 / kGridWidthPixels else minutesperpixel
      let g := { g with
        lowestRealTime := lowestRealTime
        range := range
        minutesperpixel := minutesperpixel }
      -- `ready_` is still what it was before.
      let timestamps := times.map fun t : Int => ⟨t, g.getValuePosX (millisToMinutes t)⟩
      ({ g with timestamps := timestamps, ready := true }, true)

def rebuildTimeline (g : GridTime) (e : DatabaseEngine) (highestTimestampMs : Int) :
    GridTime × Bool :=
  let (g, fresh) := g.refreshDataRange e
  if !fresh then ({ g with timestamps := [], ready := false }, false)
  else
    let maxAligned := alignToMinute g.maxOpenTime
    g.fillTimeline e (g.clampToRange
      (if highestTimestampMs ≤ 0 && 0 < maxAligned then maxAligned else highestTimestampMs))

/-- The constructor. -/
def construct (e : DatabaseEngine) (uninitialised : Int) : GridTime :=
  let highestAligned := (e.getLastEventTimestamp uninitialised).getD 0
  (rebuildTimeline {} e (alignToMinute highestAligned)).1

def getHighestTime (g : GridTime) : Option Int := if g.ready then some g.highestTime else none

def onCacheUpdated (g : GridTime) (e : DatabaseEngine) (priceData : MinuteRecord) : GridTime :=
  if !g.ready then (g.rebuildTimeline e priceData.openTime).1
  else if g.highestTime ≤ priceData.openTime then (g.rebuildTimeline e priceData.openTime).1
  else g

def spectatorModeActualize (g : GridTime) (e : DatabaseEngine) (newHighestTime : Int) : GridTime :=
  let (g, _) := g.refreshDataRange e
  if !g.ready then (g.rebuildTimeline e newHighestTime).1
  else
    let requestedTimestamp := alignToMinute (g.clampToRange newHighestTime)
    if requestedTimestamp ≠ g.highestTime then (g.rebuildTimeline e requestedTimestamp).1 else g

/-! ## Rebuilding -/

/-- The timeline shows the newest minutes of the engine, evenly over its width,
the newest one at the right. -/
structure Shows (g : GridTime) (e : DatabaseEngine) : Prop where
  ready : g.ready = true
  highestTime : g.highestTime = e.maxOpenTime
  times : g.timestamps.map Timestamp.time = timeline e
  places : ∀ i < visibleCount e, g.getValuePosX
    (millisToMinutes (e.maxOpenTime - i * kMillisPerMinute)) =
      (visibleCount e - 1 - i) * (kGridWidthPixels / visibleCount e)

section Rebuild

variable {e : DatabaseEngine} {front : MinuteRecord}

/-- Without a record there is nothing to show. -/
theorem rebuildTimeline_none (g : GridTime) (hr : e.getOpenTimeRange = none) (highest : Int) :
    (g.rebuildTimeline e highest).1.ready = false ∧
      (g.rebuildTimeline e highest).1.timestamps = [] := by
  unfold rebuildTimeline refreshDataRange
  rw [hr]
  exact ⟨rfl, rfl⟩

/-- The timeline from the newest minute on. -/
theorem fillTimeline_shows (g : GridTime) (h : e.Ring) (hf : e.cache.head? = some front)
    (hg : g.minOpenTime = e.minOpenTime) : (g.fillTimeline e e.maxOpenTime).1.Shows e := by
  obtain ⟨hpos, hle, hmin, hfront⟩ := h.range hf
  have hmax : kMillisPerMinute ∣ e.maxOpenTime := hfront ▸ front.dvd_openTime
  obtain ⟨n, hn⟩ : ∃ n, visibleCount e = n + 1 :=
    ⟨visibleCount e - 1, by have := visibleCount_pos h hf; omega⟩
  obtain ⟨newest, hnewest⟩ := hmax
  -- The minutes before the newest one, counted in minutes.
  have hminutes (i : Int) : millisToMinutes (e.maxOpenTime - i * kMillisPerMinute) = newest - i := by
    rw [hnewest, show kMillisPerMinute * newest - i * kMillisPerMinute =
      (newest - i) * kMillisPerMinute by ring, millisToMinutes_mul]
  have hlowest : millisToMinutes (e.maxOpenTime + n * -kMillisPerMinute) = newest - n := by
    rw [← hminutes, mul_neg, sub_eq_add_neg]
  have hhigh : millisToMinutes e.maxOpenTime = newest := by simpa using hminutes 0
  have hvisible : visibleFrom e e.minOpenTime kVisibleTimestamps e.maxOpenTime = timeline e :=
    visibleFrom_eq h hf _ ⟨newest, hnewest⟩ hle le_rfl
  have hlast : (timeline e).getLast? = some (e.maxOpenTime + n * -kMillisPerMinute) := by
    rw [timeline, hn, getLast?_ticks]
  have hwidth : (((max 0 (newest - (newest - n)) + 1 : Int) : Rat) / kGridWidthPixels) =
      visibleCount e / kGridWidthPixels := by
    rw [sub_sub_cancel, max_eq_right (by omega), hn]
    push_cast
    rfl
  have hcount : (0 : Rat) < visibleCount e := by rw [hn]; positivity
  have hpixels : (0 : Rat) < kGridWidthPixels := by unfold kGridWidthPixels; norm_num
  unfold fillTimeline
  rw [if_neg (by omega), hg, alignToMinuteCeil_of_dvd hmin hpos, hvisible]
  dsimp only
  rw [hlast]
  dsimp only
  rw [hlowest, hhigh, hwidth, if_neg (not_le.mpr (div_pos hcount hpixels))]
  refine ⟨rfl, rfl, ?_, fun i hi => ?_⟩
  · rw [List.map_map]
    exact List.map_id _
  · unfold getValuePosX
    rw [hminutes, if_neg]
    · push_cast
      field_simp
      rw [hn]
      push_cast
      ring
    · simp [hcount.ne', hpixels.ne']

/-- A rebuild without a request, or with one that is not before the newest minute. -/
theorem rebuildTimeline_newest (g : GridTime) (h : e.Ring) (hf : e.cache.head? = some front)
    {highest : Int} (hhighest : highest ≤ 0 ∨ e.maxOpenTime ≤ highest) :
    (g.rebuildTimeline e highest).1.Shows e := by
  obtain ⟨hpos, hle, hmin, hfront⟩ := h.range hf
  have hmax : kMillisPerMinute ∣ e.maxOpenTime := hfront ▸ front.dvd_openTime
  unfold rebuildTimeline refreshDataRange
  rw [h.range_some hf]
  dsimp only
  rw [if_neg (by simp; omega), alignToMinute_of_dvd hmax,
    clampToRange_newest _ hmin hpos hmax hle ⟨rfl, rfl⟩ hhighest]
  exact fillTimeline_shows _ h hf rfl

end Rebuild

end GridTime

end TCV.Ui
