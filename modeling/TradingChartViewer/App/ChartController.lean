import TradingChartViewer.Domain.Types
import Mathlib.Data.Rat.Floor

/-!
# The chart controller

`ChartController`: the view over the series it was last given. Sizes and times
are unbounded and pixel arithmetic is exact. The callbacks for a snapshot, the
window and the pixel accumulator of a drag are left out; a request for older
history is the second component of the result.

`core/Viewport.h` is not among the sources: `ViewportMaths` stands for what the
controller calls of it.

* `ensureVisibleWithinSeries`, `setSeries`, `panByCandles`, `onZoomWheel`,
  `setVisibleLimits`: the operations;
* `ChartController.Within`, `ChartController.Fits`: the view on a contiguous
  series; `ensureVisibleWithinSeries_within`;
* `calls_fit`: every run of operations keeps the view on the series.
-/

namespace TCV.App

open TCV.Domain Lib.Grid

/-! ## The view -/

structure Viewport where
  candlesVisible : Nat
  rightmostOpenTime : Int
  minCandles : Rat
  maxCandles : Rat
  deriving DecidableEq, Repr

/-- `Viewport::clampVisibleRange`, which leaves a number of candles, and
`Viewport::clampCandles`. -/
class ViewportMaths where
  clampVisibleRange : Viewport → Nat
  clampCandles : Viewport → Rat → Nat

/-- `std::clamp`. -/
def clamp {α : Type*} [LT α] [DecidableLT α] (v lo hi : α) : α :=
  if v < lo then lo else if hi < v then hi else v

theorem clamp_mem {α : Type*} [LinearOrder α] {lo hi : α} (h : lo ≤ hi) (v : α) :
    lo ≤ clamp v lo hi ∧ clamp v lo hi ≤ hi := by
  unfold clamp
  split
  · exact ⟨le_rfl, h⟩
  · rename_i hlo
    split
    · exact ⟨h, le_rfl⟩
    · rename_i hhi
      exact ⟨not_lt.mp hlo, not_lt.mp hhi⟩

/-- Limits taken by rounding. -/
instance ViewportMaths.byLimits : ViewportMaths where
  clampVisibleRange v := (clamp (v.candlesVisible : Rat) v.minCandles v.maxCandles).floor.toNat
  clampCandles v candles := (clamp candles v.minCandles v.maxCandles).floor.toNat

def kZoomBase : Rat := 6 / 5
def kDefaultVisibleCandles : Nat := 300
def kPanBackfillMarginCandles : Nat := 50
def kBackfillBatchCandles : Nat := 2000

/-- `inferIntervalMs`, the same in `ChartController.cpp` and
`RenderSnapshotBuilder.cpp`. -/
def inferIntervalMs (series : CandleSeries) : Int :=
  if series.interval.valid then series.interval.ms
  else
    let deltas := (series.data.zip (series.data.drop 1)).map fun p => p.2.openTime - p.1.openTime
    (deltas.find? (0 < ·)).getD 0

def toSizeT (value : Nat) : Nat := if value = 0 then 1 else value

/-! ## The controller -/

/-- `backfillRequest` says whether the callback is set. -/
structure ChartController where
  series : Option CandleSeries := none
  view : Viewport
  initialized : Bool := false
  lastSeriesLastOpen : Int := 0
  minBars : Nat := 30
  maxBars : Nat := 5000
  backfillRequest : Bool := true
  backfillInFlight : Bool := false
  awaitedFirstOpen : Int := 2 ^ 63 - 1
  lastKnownFirstOpen : Int := 0
  deriving DecidableEq, Repr

/-- The constructor, on what `core::Viewport` starts with. -/
def ChartController.construct (view : Viewport) : ChartController :=
  { view := { view with minCandles := (30 : Nat), maxCandles := (5000 : Nat) } }

/-- The series, unless it is null or empty. -/
def ChartController.shown (c : ChartController) : Option CandleSeries :=
  c.series.filter fun series => !series.data.isEmpty

def ChartController.intervalMs (c : ChartController) : Int :=
  match c.series with
  | none => 0
  | some series =>
    if series.data.length < 2 then if series.interval.valid then series.interval.ms else 0
    else
      let explicitInterval := if series.interval.valid then series.interval.ms else 0
      if 0 < explicitInterval then explicitInterval else inferIntervalMs series

/-- The milliseconds from the first to the last of `candles` candles. -/
def spanMs (candles : Nat) (interval : Int) : Int := (toSizeT candles - 1 : Nat) * interval

def ChartController.ensureVisibleWithinSeries (c : ChartController) : ChartController :=
  match c.shown with
  | none => c
  | some series =>
    let total := series.data.length
    let minVisible := min (max c.minBars 1) total
    let maxVisible := min (max c.maxBars minVisible) total
    let maxVisible := if maxVisible = 0 then 1 else maxVisible
    let desired := clamp (max 1 c.view.candlesVisible) minVisible maxVisible
    let interval := c.intervalMs
    if interval ≤ 0 then { c with view := { c.view with
      candlesVisible := desired, rightmostOpenTime := series.lastOpen } }
    else
      let minRight := series.firstOpen + spanMs desired interval
      let maxRight := series.lastOpen
      { c with view := { c.view with
        candlesVisible := desired
        rightmostOpenTime :=
          if maxRight < minRight then maxRight
          else clamp c.view.rightmostOpenTime minRight maxRight } }

section

variable [ViewportMaths]

open ViewportMaths

def ChartController.clampToSeries (c : ChartController) : ChartController :=
  match c.shown with
  | none => { c with view := { c.view with candlesVisible := clampVisibleRange c.view } }
  | some _ => c.ensureVisibleWithinSeries

def ChartController.setVisibleLimits (c : ChartController) (minBars maxBars : Nat) :
    ChartController :=
  let minBars := if minBars = 0 then 1 else minBars
  let maxBars := if maxBars < minBars then minBars else maxBars
  let view := { c.view with minCandles := minBars, maxCandles := maxBars }
  let view := { view with candlesVisible := clampVisibleRange view }
  { c with minBars := minBars, maxBars := maxBars, view := view }.clampToSeries

def ChartController.setSeries (c : ChartController) (series : Option CandleSeries) :
    ChartController :=
  let c := { c with series := series }
  match c.shown with
  | none => { c with
      initialized := false
      lastSeriesLastOpen := 0
      backfillInFlight := false
      awaitedFirstOpen := 2 ^ 63 - 1
      lastKnownFirstOpen := 0 }
  | some series =>
    let c :=
      if c.lastKnownFirstOpen = 0 || series.firstOpen < c.lastKnownFirstOpen then
        { c with backfillInFlight := false }
      else c
    let c :=
      if c.backfillInFlight && series.firstOpen ≤ c.awaitedFirstOpen then
        { c with backfillInFlight := false, awaitedFirstOpen := 2 ^ 63 - 1 }
      else c
    let safeTotal := max series.data.length 1
    let minVisible := min (max c.minBars 1) safeTotal
    let maxVisible := min (max c.maxBars minVisible) safeTotal
    let view :=
      if !c.initialized then
        let targetVisible := clamp kDefaultVisibleCandles minVisible maxVisible
        let targetVisible := if safeTotal < minVisible then safeTotal else targetVisible
        { c.view with
          candlesVisible := max targetVisible 1, rightmostOpenTime := series.lastOpen }
      else { c.view with
        candlesVisible := clamp c.view.candlesVisible minVisible maxVisible
        rightmostOpenTime :=
          if c.lastSeriesLastOpen ≤ c.view.rightmostOpenTime then series.lastOpen
          else c.view.rightmostOpenTime }
    { c with
      view := view, initialized := true, lastSeriesLastOpen := series.lastOpen,
      lastKnownFirstOpen := series.firstOpen }.clampToSeries

/-- The request goes to the callback: a start and a number of candles. -/
def ChartController.maybeRequestBackfill (c : ChartController) :
    ChartController × Option (Int × Nat) :=
  match c.shown with
  | none => (c, none)
  | some series =>
    let interval := c.intervalMs
    if !c.backfillRequest || interval ≤ 0 then (c, none)
    else
      let span := if 1 < c.view.candlesVisible then spanMs c.view.candlesVisible interval else 0
      let leftMost := c.view.rightmostOpenTime - span
      let margin := kPanBackfillMarginCandles * interval
      if series.firstOpen + margin < leftMost then (c, none)
      else if c.backfillInFlight && c.awaitedFirstOpen ≤ leftMost then (c, none)
      else
        let desiredStart := max 0 (series.firstOpen - kBackfillBatchCandles * interval)
        if series.firstOpen ≤ desiredStart then (c, none)
        else
          ({ c with backfillInFlight := true, awaitedFirstOpen := desiredStart },
            some (desiredStart, kBackfillBatchCandles))

def ChartController.panByCandles (c : ChartController) (candles : Int) :
    ChartController × Option (Int × Nat) :=
  if candles = 0 || c.shown.isNone then (c, none)
  else
    let interval := c.intervalMs
    if interval ≤ 0 then (c, none)
    else
      let view := { c.view with
        rightmostOpenTime := c.view.rightmostOpenTime - candles * interval }
      { c with view := view }.clampToSeries.maybeRequestBackfill

def ChartController.onZoomWheel (c : ChartController) (wheelDelta : Int) (mouseX : Rat)
    (canvasX : Nat) : ChartController :=
  match c.shown with
  | none => c
  | some series =>
    let interval := c.intervalMs
    if wheelDelta = 0 || interval ≤ 0 || canvasX = 0 then c
    else
      let width : Rat := canvasX
      let clampedMouseX := clamp mouseX 0 width
      let pxPerCandle := width / (max c.view.candlesVisible 1 : Nat)
      let idxFromRight := (width - clampedMouseX) / pxPerCandle
      let floorIdx := (max idxFromRight 0).floor
      let factor := kZoomBase ^ wheelDelta
      if pxPerCandle ≤ 0 || factor ≤ 0 then c
      else
        let targetCandles := c.view.candlesVisible / factor
        let newCandles := clampCandles c.view targetCandles
        let newCandles := clamp newCandles 1 (max 1 c.maxBars)
        if newCandles = c.view.candlesVisible then c
        else
          let offsetRight := (max floorIdx 0).toNat
          let maxOffset := if 0 < newCandles then newCandles - 1 else 0
          let preservedOffset := min offsetRight maxOffset
          let candleUnderCursor := c.view.rightmostOpenTime - offsetRight * interval
          let rightmostPrime := candleUnderCursor + preservedOffset * interval
          let leftmostPrime := rightmostPrime - spanMs newCandles interval
          let rightmost :=
            if leftmostPrime < series.firstOpen then series.firstOpen + spanMs newCandles interval
            else rightmostPrime
          let view := { c.view with candlesVisible := newCandles, rightmostOpenTime := rightmost }
          { c with view := view }.clampToSeries

/-- The user's and the owner's calls. -/
inductive ChartCall
  | setSeries (series : CandleSeries)
  | panByCandles (candles : Int)
  | onZoomWheel (wheelDelta : Int) (mouseX : Rat) (canvasX : Nat)
  | setVisibleLimits (minBars maxBars : Nat)
  deriving DecidableEq, Repr

def ChartController.call (c : ChartController) : ChartCall → ChartController
  | .setSeries series => c.setSeries (some series)
  | .panByCandles candles => (c.panByCandles candles).1
  | .onZoomWheel wheelDelta mouseX canvasX => c.onZoomWheel wheelDelta mouseX canvasX
  | .setVisibleLimits minBars maxBars => c.setVisibleLimits minBars maxBars

def ChartController.calls (c : ChartController) (cs : List ChartCall) : ChartController :=
  cs.foldl ChartController.call c

end

/-! ## The view stays on the series -/

/-- The view lies on the series, and shows a number of candles between the two
limits. -/
structure ChartController.Within (I : Int) (c : ChartController) (series : CandleSeries) :
    Prop where
  shows : c.series = some series
  least : 1 ≤ min c.minBars series.data.length
  visible : min c.minBars series.data.length ≤ c.view.candlesVisible ∧
    c.view.candlesVisible ≤ min (max c.maxBars c.minBars) series.data.length
  right : series.firstOpen + (c.view.candlesVisible - 1) * I ≤ c.view.rightmostOpenTime ∧
    c.view.rightmostOpenTime ≤ series.lastOpen

/-- It also ends at a candle of the series. -/
structure ChartController.Fits (I : Int) (c : ChartController) (series : CandleSeries) : Prop
    extends c.Within I series where
  onCandle : ∃ candle ∈ series.data, candle.openTime = c.view.rightmostOpenTime

section

variable {I : Int} {c : ChartController} {series : CandleSeries}

/-- The inferred interval is missing only from a single candle. -/
theorem inferIntervalMs_of_contiguous (hI : 0 < I) (h : series.Contiguous I) :
    inferIntervalMs series = I ∨ inferIntervalMs series = 0 ∧ series.data.length = 1 := by
  unfold inferIntervalMs
  cases hv : series.interval.valid with
  | true => exact .inl (h.interval hv)
  | false =>
    rw [if_neg Bool.false_ne_true]
    have hs := h.spaced
    cases hd : series.data with
    | nil => exact absurd hd h.ne_nil
    | cons a rest =>
      cases rest with
      | nil => exact .inr ⟨rfl, rfl⟩
      | cons b rest =>
        left
        rw [hd] at hs
        have hb : b.openTime = a.openTime + I := (List.isChain_cons_cons.mp hs).1
        have hab : b.openTime - a.openTime = I := by omega
        simp [hab, hI]

theorem intervalMs_of_contiguous (hI : 0 < I) (hc : c.series = some series)
    (h : series.Contiguous I) :
    c.intervalMs = I ∨ c.intervalMs = 0 ∧ series.data.length = 1 := by
  have hinfer := inferIntervalMs_of_contiguous hI h
  have hlen := h.length_pos
  unfold ChartController.intervalMs
  rw [hc]
  dsimp only
  cases hv : series.interval.valid with
  | true =>
    have := h.interval hv
    split_ifs <;> simp_all
  | false =>
    simp only [Bool.false_eq_true, if_false, lt_irrefl]
    split
    · exact .inr ⟨rfl, by omega⟩
    · exact hinfer

theorem shown_congr {c' : ChartController} (h : c'.series = c.series) : c'.shown = c.shown := by
  unfold ChartController.shown
  rw [h]

theorem shown_of_contiguous (hc : c.series = some series) (h : series.Contiguous I) :
    c.shown = some series := by
  rw [ChartController.shown, hc, Option.filter_some, if_pos]
  simpa using h.ne_nil

theorem spanMs_of_pos {candles : Nat} (h : 0 < candles) : spanMs candles I = (candles - 1) * I := by
  rw [spanMs, toSizeT, if_neg h.ne', Nat.cast_sub h, Nat.cast_one]

/-- The number of candles between the two limits. -/
theorem clamp_visible {minBars total minVisible maxVisible : Nat} (maxBars : Nat) (hmin : 1 ≤ minBars)
    (ht : 0 < total) (hlo : minVisible = min (max minBars 1) total)
    (hhi : maxVisible = min (max maxBars minVisible) total) (visible : Nat) :
    min minBars total ≤ clamp visible minVisible (if maxVisible = 0 then 1 else maxVisible) ∧
    clamp visible minVisible (if maxVisible = 0 then 1 else maxVisible) ≤
      min (max maxBars minBars) total := by
  rw [if_neg (by omega)]
  have := clamp_mem (show minVisible ≤ maxVisible by omega) visible
  omega

/-- Where every operation ends. -/
theorem ensureVisibleWithinSeries_within (hI : 0 < I) (hc : c.series = some series)
    (h : series.Contiguous I) (hmin : 1 ≤ c.minBars) :
    c.ensureVisibleWithinSeries.Within I series ∧
    (I ∣ c.view.rightmostOpenTime - series.firstOpen →
      I ∣ c.ensureVisibleWithinSeries.view.rightmostOpenTime - series.firstOpen) := by
  have hlen := h.length_pos
  have hlast := h.lastOpen_eq
  have hv := clamp_visible c.maxBars hmin hlen rfl rfl (max 1 c.view.candlesVisible)
  have hdlast : I ∣ series.lastOpen - series.firstOpen :=
    ⟨(series.data.length - 1 : Nat), by rw [hlast]; ring⟩
  unfold ChartController.ensureVisibleWithinSeries
  rw [shown_of_contiguous hc h]
  dsimp only at hv ⊢
  generalize clamp (max 1 c.view.candlesVisible) _ _ = desired at hv ⊢
  have hdesired : 0 < desired := by omega
  have hleast : 1 ≤ min c.minBars series.data.length := by omega
  have hspan : ((desired : Int) - 1) * I ≤ (series.data.length - 1 : Nat) * I :=
    Int.mul_le_mul_of_nonneg_right (by omega) hI.le
  rcases intervalMs_of_contiguous hI hc h with hi | ⟨hi, hone⟩
  · have hle : series.firstOpen + (desired - 1) * I ≤ series.lastOpen := by omega
    rw [hi, if_neg (not_le.mpr hI), spanMs_of_pos hdesired, if_neg (not_lt.mpr hle)]
    refine ⟨⟨hc, hleast, hv, clamp_mem hle _⟩, fun hd => ?_⟩
    dsimp only [clamp]
    split_ifs
    · exact ⟨desired - 1, by ring⟩
    · exact hdlast
    · exact hd
  · rw [hi, if_pos le_rfl]
    refine ⟨⟨hc, hleast, hv, ?_, le_rfl⟩, fun _ => hdlast⟩
    rw [hlast]
    exact Int.add_le_add_left hspan _

theorem ChartController.Within.fits (hI : 0 < I) (h : series.Contiguous I)
    (hw : c.Within I series) (hd : I ∣ c.view.rightmostOpenTime - series.firstOpen) :
    c.Fits I series := by
  have hvisible : 1 ≤ c.view.candlesVisible := hw.least.trans hw.visible.1
  have h0 : 0 ≤ ((c.view.candlesVisible : Int) - 1) * I := Int.mul_nonneg (by omega) hI.le
  exact ⟨hw, h.exists_candle hI hd ((Int.le_add_of_nonneg_right h0).trans hw.right.1) hw.right.2⟩

/-! ## Runs -/

/-- The controller holds a series on the grid. -/
structure ChartController.Holds (I : Int) (c : ChartController) (series : CandleSeries) : Prop where
  shows : c.series = some series
  contiguous : series.Contiguous I
  onGrid : I ∣ series.firstOpen
  minBars : 1 ≤ c.minBars

theorem ChartController.Fits.dvd (hh : c.Holds I series) (hf : c.Fits I series) :
    I ∣ c.view.rightmostOpenTime := by
  obtain ⟨candle, hm, ht⟩ := hf.onCandle
  have hmem := List.mem_map_of_mem (f := Candle.openTime) hm
  rw [hh.contiguous.times, mem_ticks] at hmem
  obtain ⟨k, -, hk⟩ := hmem
  rw [← ht, hk]
  exact Int.dvd_add hh.onGrid (Int.dvd_mul_left ..)

theorem maybeRequestBackfill_eq (c : ChartController) : ∃ flag awaited,
    c.maybeRequestBackfill.1 =
      { c with backfillInFlight := flag, awaitedFirstOpen := awaited : ChartController } := by
  unfold ChartController.maybeRequestBackfill
  split
  · exact ⟨_, _, rfl⟩
  · dsimp only
    split_ifs <;> exact ⟨_, _, rfl⟩

variable [ViewportMaths]

theorem clampToSeries_within (hI : 0 < I) (hc : c.series = some series)
    (h : series.Contiguous I) (hmin : 1 ≤ c.minBars) :
    c.clampToSeries.Within I series ∧ (I ∣ c.view.rightmostOpenTime - series.firstOpen →
      I ∣ c.clampToSeries.view.rightmostOpenTime - series.firstOpen) := by
  rw [ChartController.clampToSeries, shown_of_contiguous hc h]
  exact ensureVisibleWithinSeries_within hI hc h hmin

/-- Clamping changes nothing but the view. -/
theorem clampToSeries_eq (c : ChartController) :
    ∃ view, c.clampToSeries = { c with view := view } := by
  unfold ChartController.clampToSeries ChartController.ensureVisibleWithinSeries
  split
  · exact ⟨_, rfl⟩
  · split
    · exact ⟨_, rfl⟩
    · dsimp only
      split <;> exact ⟨_, rfl⟩

theorem clampToSeries_fits (hI : 0 < I) (h : c.Holds I series)
    (hd : I ∣ c.view.rightmostOpenTime) :
    c.clampToSeries.Holds I series ∧ c.clampToSeries.Fits I series := by
  obtain ⟨hw, hdvd⟩ := clampToSeries_within hI h.shows h.contiguous h.minBars
  obtain ⟨view, e⟩ := clampToSeries_eq c
  refine ⟨?_, hw.fits hI h.contiguous (hdvd (Int.dvd_sub hd h.onGrid))⟩
  rw [e]
  exact ⟨h.shows, h.contiguous, h.onGrid, h.minBars⟩

/-- What `setSeries` leaves to `clampToSeries`. -/
theorem setSeries_eq (h : series.data ≠ []) :
    ∃ view awaited, c.setSeries (some series) =
      { c with
        series := some series, view := view, initialized := true
        lastSeriesLastOpen := series.lastOpen
        backfillInFlight := c.backfillInFlight && !(c.lastKnownFirstOpen = 0 ||
          series.firstOpen < c.lastKnownFirstOpen) && !(series.firstOpen ≤ c.awaitedFirstOpen)
        awaitedFirstOpen := awaited
        lastKnownFirstOpen := series.firstOpen : ChartController }.clampToSeries ∧
      (view.rightmostOpenTime = series.lastOpen ∨
        c.initialized = true ∧ view.rightmostOpenTime = c.view.rightmostOpenTime) ∧
      (view.minCandles = c.view.minCandles ∧ view.maxCandles = c.view.maxCandles) ∧
      (¬ series.firstOpen ≤ c.awaitedFirstOpen → awaited = c.awaitedFirstOpen) := by
  have hs : { c with series := some series }.shown = some series := by
    rw [ChartController.shown, Option.filter_some, if_pos]
    simpa using h
  unfold ChartController.setSeries
  dsimp only
  rw [hs]
  cases hf : c.backfillInFlight <;>
    cases h₁ : decide (c.lastKnownFirstOpen = 0) || decide (series.firstOpen < c.lastKnownFirstOpen) <;>
    cases h₂ : decide (series.firstOpen ≤ c.awaitedFirstOpen) <;>
    simp only [h₁, h₂, if_true, Bool.false_and, Bool.true_and, Bool.not_true, Bool.not_false,
      Bool.false_eq_true, if_false] <;>
    refine ⟨_, _, rfl, ?_⟩
  all_goals
    refine ⟨?_, ?_, fun hfirst => ?_⟩
    · cases c.initialized with
      | false => exact .inl rfl
      | true =>
        by_cases hle : c.lastSeriesLastOpen ≤ c.view.rightmostOpenTime
        · exact .inl (if_pos hle)
        · exact .inr ⟨rfl, if_neg hle⟩
    · cases c.initialized <;> exact ⟨rfl, rfl⟩
    · first
      | rfl
      | exact absurd (of_decide_eq_true h₂) hfirst

theorem setSeries_empty (h : series.data = []) :
    c.setSeries (some series) =
      { c with
        series := some series, initialized := false, lastSeriesLastOpen := 0
        backfillInFlight := false, awaitedFirstOpen := 2 ^ 63 - 1
        lastKnownFirstOpen := 0 : ChartController } := by
  have hs : { c with series := some series }.shown = none := by
    rw [ChartController.shown, Option.filter_some, if_neg]
    simpa using h
  unfold ChartController.setSeries
  dsimp only
  rw [hs]

theorem setSeries_fits (hI : 0 < I) (hmin : 1 ≤ c.minBars)
    (hd : c.initialized = true → I ∣ c.view.rightmostOpenTime) (h : series.Contiguous I)
    (hg : I ∣ series.firstOpen) :
    (c.setSeries (some series)).Holds I series ∧ (c.setSeries (some series)).Fits I series := by
  obtain ⟨view, awaited, e, hview, -⟩ := setSeries_eq (c := c) h.ne_nil
  rw [e]
  refine clampToSeries_fits hI ⟨rfl, h, hg, hmin⟩ ?_
  obtain hr | ⟨hi, hr⟩ := hview
  · rw [hr, h.lastOpen_eq]
    exact Int.dvd_add hg (Int.dvd_mul_left ..)
  · rw [hr]
    exact hd hi

/-- The view with another number of candles and right edge. -/
def ChartController.moved (c : ChartController) (candlesVisible : Nat) (rightmostOpenTime : Int) :
    ChartController :=
  { c with view := { c.view with
    candlesVisible := candlesVisible, rightmostOpenTime := rightmostOpenTime } }

theorem panByCandles_cases (c : ChartController) (candles : Int) :
    (candles = 0 ∨ c.shown = none ∨ c.intervalMs ≤ 0) ∧ c.panByCandles candles = (c, none) ∨
    (candles ≠ 0 ∧ c.shown ≠ none ∧ 0 < c.intervalMs) ∧
      c.panByCandles candles = (c.moved c.view.candlesVisible
        (c.view.rightmostOpenTime - candles * c.intervalMs)).clampToSeries.maybeRequestBackfill := by
  unfold ChartController.panByCandles
  dsimp only
  split_ifs with h₁ h₂
  · rw [Bool.or_eq_true, decide_eq_true_eq, Option.isNone_iff_eq_none] at h₁
    exact .inl ⟨h₁.imp_right .inl, rfl⟩
  · exact .inl ⟨.inr (.inr h₂), rfl⟩
  · rw [Bool.or_eq_true, decide_eq_true_eq, Option.isNone_iff_eq_none, not_or] at h₁
    exact .inr ⟨⟨h₁.1, h₁.2, not_le.mp h₂⟩, rfl⟩

/-- A zoom moves the right edge by candles, or puts it at a candle counted from
the first one. -/
theorem onZoomWheel_cases (c : ChartController) (wheelDelta : Int) (mouseX : Rat)
    (canvasX : Nat) :
    c.onZoomWheel wheelDelta mouseX canvasX = c ∨ ∃ series newCandles rightmost,
      c.shown = some series ∧ 0 < c.intervalMs ∧
      (c.intervalMs ∣ rightmost - series.firstOpen ∨
        c.intervalMs ∣ rightmost - c.view.rightmostOpenTime) ∧
      c.onZoomWheel wheelDelta mouseX canvasX = (c.moved newCandles rightmost).clampToSeries := by
  unfold ChartController.onZoomWheel
  split
  · exact .inl rfl
  · rename_i series hs
    dsimp only
    split
    · exact .inl rfl
    rename_i h₁
    split
    · exact .inl rfl
    split
    · exact .inl rfl
    simp only [Bool.or_eq_true, decide_eq_true_eq, not_or, not_le] at h₁
    refine .inr ⟨series, _, _, hs, h₁.1.2, ?_, rfl⟩
    refine iteInduction
      (motive := fun t => c.intervalMs ∣ t - series.firstOpen ∨
        c.intervalMs ∣ t - c.view.rightmostOpenTime)
      (fun _ => .inl ?_) fun _ => .inr ?_
    · rw [add_sub_cancel_left]
      exact Int.dvd_mul_left ..
    · rw [sub_add, sub_sub_cancel_left, Int.dvd_neg]
      exact Int.dvd_sub (Int.dvd_mul_left ..) (Int.dvd_mul_left ..)

theorem setVisibleLimits_fits (hI : 0 < I) (h : c.Holds I series) (hf : c.Fits I series)
    (minBars maxBars : Nat) :
    (c.setVisibleLimits minBars maxBars).Holds I series ∧
      (c.setVisibleLimits minBars maxBars).Fits I series := by
  have hd := hf.dvd h
  refine clampToSeries_fits hI ⟨h.shows, h.contiguous, h.onGrid, ?_⟩ hd
  dsimp only
  split <;> omega

theorem panByCandles_fits (hI : 0 < I) (h : c.Holds I series) (hf : c.Fits I series)
    (candles : Int) :
    (c.panByCandles candles).1.Holds I series ∧ (c.panByCandles candles).1.Fits I series := by
  obtain ⟨-, e⟩ | ⟨⟨-, -, hi⟩, e⟩ := panByCandles_cases c candles
  · rw [e]
    exact ⟨h, hf⟩
  · have hi : c.intervalMs = I :=
      (intervalMs_of_contiguous hI h.shows h.contiguous).resolve_right fun h0 => by omega
    obtain ⟨flag, awaited, e'⟩ := maybeRequestBackfill_eq (c.moved c.view.candlesVisible
      (c.view.rightmostOpenTime - candles * c.intervalMs)).clampToSeries
    have hd : I ∣ c.view.rightmostOpenTime - candles * c.intervalMs := by
      rw [hi]
      exact Int.dvd_sub (hf.dvd h) (Int.dvd_mul_left ..)
    obtain ⟨h', hf'⟩ := clampToSeries_fits (c := c.moved c.view.candlesVisible
      (c.view.rightmostOpenTime - candles * c.intervalMs)) hI
      ⟨h.shows, h.contiguous, h.onGrid, h.minBars⟩ hd
    rw [e, e']
    exact ⟨⟨h'.shows, h'.contiguous, h'.onGrid, h'.minBars⟩,
      ⟨hf'.shows, hf'.least, hf'.visible, hf'.right⟩, hf'.onCandle⟩

theorem onZoomWheel_fits (hI : 0 < I) (h : c.Holds I series) (hf : c.Fits I series)
    (wheelDelta : Int) (mouseX : Rat) (canvasX : Nat) :
    (c.onZoomWheel wheelDelta mouseX canvasX).Holds I series ∧
      (c.onZoomWheel wheelDelta mouseX canvasX).Fits I series := by
  obtain e | ⟨s, n, rightmost, hs, hi, hr, e⟩ := onZoomWheel_cases c wheelDelta mouseX canvasX
  · rw [e]
    exact ⟨h, hf⟩
  · obtain rfl : series = s :=
      Option.some.inj ((shown_of_contiguous h.shows h.contiguous).symm.trans hs)
    have hi : c.intervalMs = I :=
      (intervalMs_of_contiguous hI h.shows h.contiguous).resolve_right fun h0 => by omega
    rw [hi] at hr
    rw [e]
    refine clampToSeries_fits (c := c.moved _ _) hI
      ⟨h.shows, h.contiguous, h.onGrid, h.minBars⟩ ?_
    obtain hr | hr := hr
    · exact (Int.dvd_iff_dvd_of_dvd_sub hr).mpr h.onGrid
    · exact (Int.dvd_iff_dvd_of_dvd_sub hr).mpr (hf.dvd h)

/-- A call on a series of the grid. -/
def ChartCall.OnGrid (I : Int) : ChartCall → Prop
  | .setSeries series => series.Contiguous I ∧ I ∣ series.firstOpen
  | _ => True

theorem call_fits (hI : 0 < I) (h : c.Holds I series) (hf : c.Fits I series) {a : ChartCall}
    (ha : a.OnGrid I) : ∃ series', (c.call a).Holds I series' ∧ (c.call a).Fits I series' := by
  cases a with
  | setSeries series' =>
    exact ⟨series', setSeries_fits hI h.minBars (fun _ => hf.dvd h) ha.1 ha.2⟩
  | panByCandles candles => exact ⟨series, panByCandles_fits hI h hf candles⟩
  | onZoomWheel wheelDelta mouseX canvasX =>
    exact ⟨series, onZoomWheel_fits hI h hf wheelDelta mouseX canvasX⟩
  | setVisibleLimits minBars maxBars =>
    exact ⟨series, setVisibleLimits_fits hI h hf minBars maxBars⟩

theorem calls_holds (hI : 0 < I) {as : List ChartCall} (has : ∀ a ∈ as, a.OnGrid I)
    (h : ∃ series, c.Holds I series ∧ c.Fits I series) :
    ∃ series, (c.calls as).Holds I series ∧ (c.calls as).Fits I series := by
  induction as generalizing c with
  | nil => exact h
  | cons a as ih =>
    obtain ⟨series, h, hf⟩ := h
    exact ih (fun b hb => has b (List.mem_cons_of_mem _ hb))
      (call_fits hI h hf (has a List.mem_cons_self))

end

/-- After every run of calls that starts with a series, the view shows between
the two limits of candles of the series it holds, from a candle of the series
to a candle of the series. -/
theorem calls_fit [ViewportMaths] (I : Int) (hI : 0 < I) (view : Viewport) (first : CandleSeries)
    (calls : List ChartCall) (hcalls : ∀ a ∈ .setSeries first :: calls, a.OnGrid I) :
    ∃ series, ((ChartController.construct view).calls (.setSeries first :: calls)).Fits I series :=
  have ⟨h, hg⟩ := hcalls _ List.mem_cons_self
  have ⟨series, hfits⟩ := calls_holds hI (fun a ha => hcalls a (List.mem_cons_of_mem _ ha))
    ⟨first, setSeries_fits (c := .construct view) hI (by show 1 ≤ 30; decide)
      (fun hc => nomatch hc) h hg⟩
  ⟨series, hfits.2⟩

/-- Three candles are narrowed to two, moved one candle back, and replaced by a
later series of two. -/
theorem calls_fit_pan :
    let series : CandleSeries := ⟨⟨60000⟩, [flatCandle 60000 true, flatCandle 120000 true,
      flatCandle 180000 true], 60000, 180000⟩
    let later : CandleSeries := ⟨⟨60000⟩, [flatCandle 120000 true, flatCandle 180000 true],
      120000, 180000⟩
    let c := (ChartController.construct ⟨0, 0, 0, 0⟩).calls
      [.setSeries series, .setVisibleLimits 1 2, .panByCandles 1, .onZoomWheel 1 0 100,
        .setSeries later]
    c.view.candlesVisible = 1 ∧ c.view.rightmostOpenTime = 120000 ∧
      ∃ series, c.Fits 60000 series := by
  intro series later c
  refine ⟨by decide +kernel, by decide +kernel,
    calls_fit 60000 (by decide) ⟨0, 0, 0, 0⟩ series _ fun a ha => ?_⟩
  simp only [List.mem_cons, List.not_mem_nil, or_false] at ha
  rcases ha with rfl | rfl | rfl | rfl | rfl
  · exact ⟨⟨fun _ => rfl, by unfold Spaced; decide, rfl, rfl⟩, by decide⟩
  · trivial
  · trivial
  · trivial
  · exact ⟨⟨fun _ => rfl, by unfold Spaced; decide, rfl, rfl⟩, by decide⟩

/-! ## The limits -/

/-- The view has the controller's limits. -/
structure ChartController.Limited (c : ChartController) : Prop where
  pos : 1 ≤ c.minBars
  le : c.minBars ≤ c.maxBars
  minCandles : c.view.minCandles = c.minBars
  maxCandles : c.view.maxCandles = c.maxBars

section

variable {c : ChartController}

theorem construct_limited (view : Viewport) : (ChartController.construct view).Limited :=
  ⟨by show 1 ≤ 30; decide, by show 30 ≤ 5000; decide, rfl, rfl⟩

theorem ensureVisibleWithinSeries_limited (h : c.Limited) :
    c.ensureVisibleWithinSeries.Limited := by
  unfold ChartController.ensureVisibleWithinSeries
  split
  · exact h
  · dsimp only
    split <;> exact ⟨h.pos, h.le, h.minCandles, h.maxCandles⟩

variable [ViewportMaths]

theorem clampToSeries_limited (h : c.Limited) : c.clampToSeries.Limited := by
  unfold ChartController.clampToSeries
  split
  · exact ⟨h.pos, h.le, h.minCandles, h.maxCandles⟩
  · exact ensureVisibleWithinSeries_limited h

theorem call_limited (h : c.Limited) (a : ChartCall) : (c.call a).Limited := by
  cases a with
  | setSeries series =>
    rw [ChartController.call]
    by_cases hs : series.data = []
    · rw [setSeries_empty hs]
      exact ⟨h.pos, h.le, h.minCandles, h.maxCandles⟩
    · obtain ⟨view, awaited, e, -, ⟨hmin, hmax⟩, -⟩ := setSeries_eq (c := c) hs
      rw [e]
      exact clampToSeries_limited ⟨h.pos, h.le, hmin.trans h.minCandles, hmax.trans h.maxCandles⟩
  | panByCandles candles =>
    rw [ChartController.call]
    obtain ⟨-, e⟩ | ⟨-, e⟩ := panByCandles_cases c candles
    · rwa [e]
    · obtain ⟨flag, awaited, e'⟩ := maybeRequestBackfill_eq (c.moved c.view.candlesVisible
        (c.view.rightmostOpenTime - candles * c.intervalMs)).clampToSeries
      have hm := clampToSeries_limited (c := c.moved c.view.candlesVisible
        (c.view.rightmostOpenTime - candles * c.intervalMs))
        ⟨h.pos, h.le, h.minCandles, h.maxCandles⟩
      rw [e, e']
      exact ⟨hm.pos, hm.le, hm.minCandles, hm.maxCandles⟩
  | onZoomWheel wheelDelta mouseX canvasX =>
    rw [ChartController.call]
    obtain e | ⟨_, _, _, -, -, -, e⟩ := onZoomWheel_cases c wheelDelta mouseX canvasX
    · rwa [e]
    · rw [e]
      exact clampToSeries_limited (c := c.moved _ _) ⟨h.pos, h.le, h.minCandles, h.maxCandles⟩
  | setVisibleLimits minBars maxBars =>
    refine clampToSeries_limited ⟨?_, ?_, rfl, rfl⟩ <;> dsimp only <;> split_ifs <;> omega

theorem calls_limited (h : c.Limited) (as : List ChartCall) : (c.calls as).Limited := by
  induction as generalizing c with
  | nil => exact h
  | cons a as ih => exact ih (call_limited h a)

end

end TCV.App
