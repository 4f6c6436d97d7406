import TradingChartViewer.App.ChartController

/-!
# The render snapshot

`RenderSnapshotBuilder`: which candles of a series a snapshot shows, and where.
Pixels and prices are exact numbers; sizes are unbounded. The labels, the ticks,
the crosshair, the indicators and the state of the user interface are left out.

* `buildCandles`, `build`: the two overloads of `build`; `visibleWindow` is the
  choice of the window in the first;
* `build_window`: the window of a view of a contiguous series;
* `build_anchored_iff`: when the window ends at the right edge of the view.
-/

namespace TCV.App

open TCV.Domain Lib.Grid

/-! ## The builder -/

def kMinPxPerCandle : Rat := 3
def kMinVisibleCandlesClamp : Nat := 5

/-- `core::RenderCandleData`. -/
structure RenderCandleData where
  openTimeMs : Int
  open_ : Price
  high : Price
  low : Price
  close : Price
  deriving DecidableEq, Repr

structure ViewportParams where
  firstIndex : Nat := 0
  visibleCount : Nat := 120
  canvasWidth : Nat := 0
  canvasHeight : Nat := 0
  snapToLatest : Bool := true
  minVisibleCandles : Rat := 20
  maxVisibleCandles : Rat := 500
  deriving DecidableEq, Repr

structure CandleRect where
  centerX : Rat
  top : Rat
  height : Rat
  halfWidth : Rat
  bullish : Bool
  deriving DecidableEq, Repr

structure CandleWick where
  x : Rat
  top : Rat
  bottom : Rat
  deriving DecidableEq, Repr

/-- `core::RenderSnapshot`. -/
structure RenderSnapshot where
  canvasWidth : Nat := 0
  canvasHeight : Nat := 0
  valid : Bool := false
  firstVisibleIndex : Nat := 0
  visibleCount : Nat := 0
  snappedToLatest : Bool := false
  visiblePriceMin : Price := 0
  visiblePriceMax : Price := 0
  pxPerCandle : Rat := 0
  pxPerPrice : Rat := 0
  intervalMs : Int := 0
  logicalFromMs : Int := 0
  logicalToMs : Int := 0
  candles : List CandleRect := []
  wicks : List CandleWick := []
  deriving DecidableEq, Repr

structure RenderSnapshotBuilder where
  candleWidthRatio : Rat
  minBodyHeight : Rat
  deriving DecidableEq, Repr

/-- The constructor. -/
def RenderSnapshotBuilder.construct (candleWidthRatio : Rat := 3 / 4) (minBodyHeight : Rat := 1) :
    RenderSnapshotBuilder :=
  { candleWidthRatio := clamp candleWidthRatio (1 / 10) 1
    minBodyHeight := max minBodyHeight (1 / 2) }

/-- A finite value is rounded to the nearest number, halves up, and never below
1. -/
def clampFromFloat (value : Rat) (fallback : Nat) : Nat :=
  let safe := max value 1
  let rounded := (safe + 1 / 2).floor
  if rounded ≤ 0 then max fallback 1 else rounded.toNat

def priceToY (price minPrice : Price) (pxPerPrice : Rat) (canvasHeight : Nat) : Rat :=
  canvasHeight - (price - minPrice) * pxPerPrice

def estimateIntervalMs (series : List RenderCandleData) (startIndex count : Nat) : Int :=
  if count < 2 then 0
  else
    let window := (series.drop startIndex).take count
    let deltas := ((window.zip (window.drop 1)).map fun p => p.2.openTimeMs - p.1.openTimeMs).filter
      (0 < ·)
    if deltas.isEmpty then 0 else deltas.sum.tdiv deltas.length

/-- The choice of the window: its start, its end, and the start of the latest
window of its size. -/
def visibleWindow (viewport : ViewportParams) (total : Nat) : Nat × Nat × Nat :=
  let maxVisibleByWidth := max 1 (viewport.canvasWidth / kMinPxPerCandle).floor.toNat
  let fallbackCount := if 0 < viewport.visibleCount then viewport.visibleCount else total
  let minVisible := clampFromFloat viewport.minVisibleCandles fallbackCount
  let maxVisible := clampFromFloat viewport.maxVisibleCandles fallbackCount
  let (minVisible, maxVisible) :=
    if maxVisible < minVisible then (maxVisible, minVisible) else (minVisible, maxVisible)
  let minVisible := max 1 minVisible
  let maxVisible := max minVisible maxVisible
  let desiredCount := max 1 fallbackCount
  let desiredCount := min desiredCount total
  let desiredCount := clamp desiredCount minVisible maxVisible
  let desiredCount := min desiredCount maxVisibleByWidth
  let desiredCount := max 1 (min desiredCount total)
  let maxStart := if desiredCount < total then total - desiredCount else 0
  let startIndex := if viewport.snapToLatest then maxStart else min viewport.firstIndex maxStart
  let startIndex := if total ≤ startIndex then maxStart else startIndex
  (startIndex, min (startIndex + desiredCount) total, maxStart)

/-- The lowest and the highest price so far. -/
def priceBounds (bounds : Option (Price × Price)) (candle : RenderCandleData) :
    Option (Price × Price) :=
  let low := min (min candle.low candle.open_) candle.close
  let high := max (max candle.high candle.open_) candle.close
  match bounds with
  | none => some (low, high)
  | some (minPrice, maxPrice) => some (min minPrice low, max maxPrice high)

/-- The price range of a window with some room at both ends. -/
def paddedRange (minPrice maxPrice : Price) : Price × Price :=
  if !(minPrice < maxPrice) then
    let reference := (maxPrice + minPrice) * (1 / 2)
    let base := max |reference| 1
    let padding := max (base * (1 / 1000)) (1 / 1000000)
    (reference - padding, reference + padding)
  else
    let range := maxPrice - minPrice
    let base := max (max |maxPrice| |minPrice|) 1
    let padding := max (range * (1 / 1000)) (base * (1 / 1000000))
    (minPrice - padding, maxPrice + padding)

/-- The body of one candle, the `localIndex`-th of the window. -/
def RenderSnapshotBuilder.candleRect (b : RenderSnapshotBuilder) (minPrice pxPerCandle pxPerPrice : Rat)
    (canvasHeight localIndex : Nat) (candle : RenderCandleData) : CandleRect :=
  let openY := priceToY candle.open_ minPrice pxPerPrice canvasHeight
  let closeY := priceToY candle.close minPrice pxPerPrice canvasHeight
  { centerX := pxPerCandle * (1 / 2 + localIndex)
    top := min openY closeY
    height := max |openY - closeY| b.minBodyHeight
    halfWidth := pxPerCandle * b.candleWidthRatio * (1 / 2)
    bullish := candle.open_ ≤ candle.close }

/-- Its wick. -/
def candleWick (minPrice pxPerCandle pxPerPrice : Rat) (canvasHeight localIndex : Nat)
    (candle : RenderCandleData) : CandleWick :=
  { x := pxPerCandle * (1 / 2 + localIndex)
    top := priceToY candle.high minPrice pxPerPrice canvasHeight
    bottom := priceToY candle.low minPrice pxPerPrice canvasHeight }

/-- `build` on candles. -/
def RenderSnapshotBuilder.buildCandles (b : RenderSnapshotBuilder) (series : List RenderCandleData)
    (viewport : ViewportParams) : RenderSnapshot :=
  let snapshot : RenderSnapshot :=
    { canvasWidth := viewport.canvasWidth, canvasHeight := viewport.canvasHeight }
  if viewport.canvasWidth = 0 || viewport.canvasHeight = 0 then snapshot
  else if series.isEmpty then snapshot
  else
    let (startIndex, endIndex, maxStart) := visibleWindow viewport series.length
    if endIndex ≤ startIndex then snapshot
    else
      let actualCount := endIndex - startIndex
      let snapshot := { snapshot with
        firstVisibleIndex := startIndex
        visibleCount := actualCount
        snappedToLatest := startIndex = maxStart }
      let window := (series.drop startIndex).take actualCount
      let (minPrice, maxPrice) := (window.foldl priceBounds none).getD (0, 0)
      let (minPrice, maxPrice) := paddedRange minPrice maxPrice
      let priceRange := maxPrice - minPrice
      if !(0 < priceRange) then snapshot
      else
        let pxPerCandle := max kMinPxPerCandle (viewport.canvasWidth / actualCount)
        let pxPerCandle := if pxPerCandle ≤ 0 then kMinPxPerCandle else pxPerCandle
        let pxPerPrice := viewport.canvasHeight / priceRange
        let snapshot := { snapshot with
          visiblePriceMin := minPrice
          visiblePriceMax := maxPrice
          pxPerCandle := pxPerCandle
          pxPerPrice := pxPerPrice }
        if pxPerPrice ≤ 0 then snapshot
        else
          let intervalMs := estimateIntervalMs series startIndex actualCount
          let times := window.map RenderCandleData.openTimeMs
          let candles := window.zipIdx.map fun p =>
            b.candleRect minPrice pxPerCandle pxPerPrice viewport.canvasHeight p.2 p.1
          { snapshot with
            intervalMs := intervalMs
            logicalFromMs := times.head?.getD 0
            logicalToMs :=
              times.getLast?.getD 0 + if 0 < intervalMs then intervalMs else 0
            candles := candles
            wicks := window.zipIdx.map fun p =>
              candleWick minPrice pxPerCandle pxPerPrice viewport.canvasHeight p.2 p.1
            valid := !candles.isEmpty }

/-- `build` on a series. -/
def RenderSnapshotBuilder.build (b : RenderSnapshotBuilder) (series : CandleSeries)
    (view : Viewport) (canvasWidth canvasHeight : Nat) : RenderSnapshot :=
  let snapshot : RenderSnapshot := { canvasWidth := canvasWidth, canvasHeight := canvasHeight }
  if canvasWidth = 0 || canvasHeight = 0 then snapshot
  else if series.data.isEmpty then snapshot
  else
    let renderSeries := series.data.map fun candle : Candle =>
      RenderCandleData.mk candle.openTime candle.open_ candle.high candle.low candle.close
    let total := renderSeries.length
    let interval := inferIntervalMs series
    let rightIndex := if 0 < total then total - 1 else 0
    -- `std::upper_bound` on ascending times.
    let upper := (series.data.takeWhile (·.openTime ≤ view.rightmostOpenTime)).length
    let rightIndex :=
      if 0 < interval then if upper = 0 then 0 else upper - 1 else rightIndex
    let requestedVisible := max view.candlesVisible kMinVisibleCandlesClamp
    let desired := max 1 (min requestedVisible total)
    let startIndex := if desired ≤ rightIndex + 1 then rightIndex + 1 - desired else 0
    b.buildCandles renderSeries
      { canvasWidth := canvasWidth
        canvasHeight := canvasHeight
        minVisibleCandles := view.minCandles
        maxVisibleCandles := view.maxCandles
        snapToLatest := if total ≤ rightIndex then false else rightIndex = total - 1
        firstIndex := startIndex
        visibleCount := desired }

/-! ## The window -/

theorem clampFromFloat_natCast {n : Nat} (hn : 1 ≤ n) (fallback : Nat) :
    clampFromFloat n fallback = n := by
  have hmax : max (n : Rat) 1 = n := max_eq_left (by exact_mod_cast hn)
  have hfloor : ((n : Rat) + 1 / 2).floor = n := by
    have h₁ : (n : Int) ≤ ((n : Rat) + 1 / 2).floor := Rat.le_floor_iff.mpr (by push_cast; linarith)
    have h₂ : ((n : Rat) + 1 / 2).floor < n + 1 := Rat.floor_lt_iff.mpr (by push_cast; linarith)
    omega
  rw [clampFromFloat, hmax, hfloor, if_neg (by omega), Int.toNat_natCast]

theorem floor_div_kMinPxPerCandle (width : Nat) :
    ((width : Rat) / kMinPxPerCandle).floor.toNat = width / 3 := by
  have := Rat.floor_natCast_div_natCast width 3
  have e : ((width : Rat) / kMinPxPerCandle).floor = ((width / 3 : Nat) : Int) := this
  rw [e, Int.toNat_natCast]

/-- A window of limits that are numbers of candles. -/
theorem visibleWindow_eq (viewport : ViewportParams) {total minBars maxBars count : Nat}
    (ht : 0 < total) (hmin : 1 ≤ minBars) (hle : minBars ≤ maxBars)
    (hmn : viewport.minVisibleCandles = minBars) (hmx : viewport.maxVisibleCandles = maxBars)
    (hv : 0 < viewport.visibleCount)
    (hcount : count = min (min (clamp (min viewport.visibleCount total) minBars maxBars)
      (max 1 (viewport.canvasWidth / 3))) total) :
    1 ≤ count ∧ visibleWindow viewport total =
      (if viewport.snapToLatest then total - count else min viewport.firstIndex (total - count),
        (if viewport.snapToLatest then total - count
          else min viewport.firstIndex (total - count)) + count, total - count) := by
  have hclamp := clamp_mem hle (min viewport.visibleCount total)
  have hcount' : 1 ≤ count := by omega
  refine ⟨hcount', ?_⟩
  unfold visibleWindow
  rw [floor_div_kMinPxPerCandle, if_pos hv, hmn, hmx]
  dsimp only
  rw [clampFromFloat_natCast hmin, clampFromFloat_natCast (hmin.trans hle),
    if_neg (not_lt.mpr hle)]
  dsimp only
  rw [max_eq_right hmin, max_eq_right hle, max_eq_right (show 1 ≤ viewport.visibleCount from hv),
    ← hcount, max_eq_right hcount']
  have hstart : (if count < total then total - count else 0) = total - count := by
    split <;> omega
  rw [hstart]
  have hlt : (if viewport.snapToLatest = true then total - count
      else min viewport.firstIndex (total - count)) < total := by
    split <;> omega
  rw [if_neg (not_le.mpr hlt)]
  congr 2
  split <;> omega

theorem paddedRange_lt (minPrice maxPrice : Price) :
    (paddedRange minPrice maxPrice).1 < (paddedRange minPrice maxPrice).2 := by
  unfold paddedRange
  dsimp only
  split
  · have : (0 : Rat) < max (max |(maxPrice + minPrice) * (1 / 2)| 1 * (1 / 1000)) (1 / 1000000) :=
      lt_max_of_lt_right (by norm_num)
    linarith
  · rename_i h
    have hlt : minPrice < maxPrice := by simpa using h
    have : (0 : Rat) < max ((maxPrice - minPrice) * (1 / 1000))
        (max (max |maxPrice| |minPrice|) 1 * (1 / 1000000)) :=
      lt_max_of_lt_left (by linarith)
    linarith

/-- The test of both functions that there is a canvas. -/
theorem canvas_shown {width height : Nat} (hw : 1 ≤ width) (hh : 1 ≤ height) :
    (decide (width = 0) || decide (height = 0)) = false := by
  simp only [Bool.or_eq_false_iff, decide_eq_false_iff_not]
  omega

/-- A window that is not empty gives a valid snapshot. -/
theorem buildCandles_window (b : RenderSnapshotBuilder) (series : List RenderCandleData)
    {viewport : ViewportParams} (hw : 1 ≤ viewport.canvasWidth) (hh : 1 ≤ viewport.canvasHeight)
    {startIndex count maxStart : Nat} (hcount : 1 ≤ count) (hle : startIndex + count ≤ series.length)
    (hwin : visibleWindow viewport series.length = (startIndex, startIndex + count, maxStart)) :
    (b.buildCandles series viewport).valid = true ∧
    (b.buildCandles series viewport).firstVisibleIndex = startIndex ∧
    (b.buildCandles series viewport).visibleCount = count := by
  have hne : series.isEmpty = false := by
    rw [List.isEmpty_eq_false_iff, ← List.length_pos_iff]
    omega
  unfold RenderSnapshotBuilder.buildCandles
  rw [canvas_shown hw hh, hne, hwin]
  dsimp only
  rw [if_neg Bool.false_ne_true, if_neg Bool.false_ne_true, if_neg (by omega), Nat.add_sub_cancel_left]
  generalize List.foldl priceBounds none _ = bounds
  have hrange := paddedRange_lt (bounds.getD (0, 0)).1 (bounds.getD (0, 0)).2
  have hprice : (0 : Rat) < (paddedRange (bounds.getD (0, 0)).1 (bounds.getD (0, 0)).2).2 -
      (paddedRange (bounds.getD (0, 0)).1 (bounds.getD (0, 0)).2).1 := by linarith
  have hpx : (0 : Rat) < viewport.canvasHeight / ((paddedRange (bounds.getD (0, 0)).1
      (bounds.getD (0, 0)).2).2 - (paddedRange (bounds.getD (0, 0)).1 (bounds.getD (0, 0)).2).1) :=
    div_pos (by exact_mod_cast hh) hprice
  rw [if_neg (by simpa using hprice), if_neg (not_le.mpr hpx)]
  refine ⟨?_, rfl, rfl⟩
  rw [Bool.not_eq_true', List.isEmpty_eq_false_iff, ← List.length_pos_iff, List.length_map,
    List.length_zipIdx, List.length_take, List.length_drop]
  omega

section

variable {I : Int} {series : CandleSeries}

/-- How many candles there are up to `t`. -/
theorem length_takeWhile_openTime (hI : 0 < I) (h : series.Contiguous I) (t : Int) :
    (series.data.takeWhile (·.openTime ≤ t)).length =
      min series.data.length ((t - series.firstOpen) / I + 1).toNat := by
  rw [← length_takeWhile_ticks hI, ← h.times, List.takeWhile_map, List.length_map]
  rfl

/-- The candle at or before `t` on the series, counted from the first. -/
def upTo (I : Int) (series : CandleSeries) (t : Int) : Nat :=
  ((t - series.firstOpen) / I).toNat + 1

theorem upTo_le (hI : 0 < I) (h : series.Contiguous I) {t : Int} (h₁ : series.firstOpen ≤ t)
    (h₂ : t ≤ series.lastOpen) :
    ((t - series.firstOpen) / I + 1).toNat = upTo I series t ∧
    upTo I series t ≤ series.data.length ∧
    (upTo I series t = series.data.length ↔ t = series.lastOpen) := by
  have h0 : 0 ≤ (t - series.firstOpen) / I := Int.ediv_nonneg (by omega) hI.le
  have hlen := h.length_pos
  have hlast := h.lastOpen_eq
  have hdiv : (series.data.length - 1 : Nat) * I / I = ((series.data.length - 1 : Nat) : Int) :=
    Int.mul_ediv_cancel _ hI.ne'
  have hle : (t - series.firstOpen) / I ≤ (series.data.length - 1 : Nat) := by
    rw [← hdiv]
    exact Int.ediv_le_ediv hI (by omega)
  have hmul := Int.ediv_mul_le (t - series.firstOpen) hI.ne'
  unfold upTo
  refine ⟨by omega, by omega, fun he => ?_, fun he => ?_⟩
  · have e : (t - series.firstOpen) / I = (series.data.length - 1 : Nat) := by omega
    rw [e] at hmul
    omega
  · have e : t - series.firstOpen = (series.data.length - 1 : Nat) * I := by omega
    rw [e, hdiv]
    omega

/-- The limits of the view leave its number of candles alone, but for `maxBars`
below the minimum of the snapshot. -/
theorem clamp_wanted {visible total minBars maxBars least wanted : Nat} (hle : minBars ≤ maxBars)
    (hvis : min minBars total ≤ visible) (hwanted : wanted = min (max visible least) total)
    (room : Nat) :
    min (min (clamp (min wanted total) minBars maxBars) room) total =
      min wanted (min maxBars room) := by
  unfold clamp
  split_ifs <;> omega

/-- What the overload on a series asks the other for: as many candles as the view
has, five at least, up to the one at its right edge. -/
theorem build_eq (b : RenderSnapshotBuilder) (hI : 0 < I) (h : series.Contiguous I)
    {view : Viewport} {width height wanted : Nat} (hright : series.firstOpen ≤ view.rightmostOpenTime ∧
      view.rightmostOpenTime ≤ series.lastOpen) (hw : 1 ≤ width) (hh : 1 ≤ height)
    (hwanted : wanted = min (max view.candlesVisible kMinVisibleCandlesClamp) series.data.length)
    (hwanted1 : 1 ≤ wanted) :
    b.build series view width height = b.buildCandles
      (series.data.map fun candle =>
        ⟨candle.openTime, candle.open_, candle.high, candle.low, candle.close⟩)
      { canvasWidth := width
        canvasHeight := height
        minVisibleCandles := view.minCandles
        maxVisibleCandles := view.maxCandles
        snapToLatest := view.rightmostOpenTime = series.lastOpen
        firstIndex := upTo I series view.rightmostOpenTime - wanted
        visibleCount := wanted } := by
  have hlen := h.length_pos
  obtain ⟨hup, hupn, hlast⟩ := upTo_le hI h hright.1 hright.2
  have hup1 : 1 ≤ upTo I series view.rightmostOpenTime := by unfold upTo; omega
  have hupper : (series.data.takeWhile (·.openTime ≤ view.rightmostOpenTime)).length =
      upTo I series view.rightmostOpenTime := by
    rw [length_takeWhile_openTime hI h, hup, min_eq_right hupn]
  -- Without an interval there is one candle, and it is the newest.
  have hindex : (if 0 < inferIntervalMs series then
      if upTo I series view.rightmostOpenTime = 0 then 0
        else upTo I series view.rightmostOpenTime - 1
      else if 0 < series.data.length then series.data.length - 1 else 0) =
      upTo I series view.rightmostOpenTime - 1 := by
    rcases inferIntervalMs_of_contiguous hI h with hi | ⟨hi, hone⟩
    · rw [hi, if_pos hI, if_neg (by omega)]
    · rw [hi, if_neg (lt_irrefl 0), if_pos hlen]
      omega
  have hsnap : (if series.data.length ≤ upTo I series view.rightmostOpenTime - 1 then false
      else decide (upTo I series view.rightmostOpenTime - 1 = series.data.length - 1)) =
      decide (view.rightmostOpenTime = series.lastOpen) := by
    rw [if_neg (by omega), decide_eq_decide, ← hlast]
    omega
  have hfirst : (if wanted ≤ upTo I series view.rightmostOpenTime - 1 + 1 then
      upTo I series view.rightmostOpenTime - 1 + 1 - wanted else 0) =
      upTo I series view.rightmostOpenTime - wanted := by
    split <;> omega
  have hne : series.data.isEmpty = false := List.isEmpty_eq_false_iff.mpr h.ne_nil
  unfold RenderSnapshotBuilder.build
  rw [canvas_shown hw hh, hne]
  dsimp only
  rw [if_neg Bool.false_ne_true, if_neg Bool.false_ne_true, List.length_map, hupper, hindex,
    ← hwanted, max_eq_right hwanted1, hsnap, hfirst]

/-- The window of a view of a contiguous series. -/
theorem build_window (b : RenderSnapshotBuilder) (hI : 0 < I) (h : series.Contiguous I)
    {view : Viewport} {minBars maxBars width height count : Nat} (hmin : 1 ≤ minBars)
    (hle : minBars ≤ maxBars) (hmn : view.minCandles = minBars) (hmx : view.maxCandles = maxBars)
    (hvis : min minBars series.data.length ≤ view.candlesVisible)
    (hright : series.firstOpen ≤ view.rightmostOpenTime ∧
      view.rightmostOpenTime ≤ series.lastOpen) (hw : 1 ≤ width) (hh : 1 ≤ height)
    (hcount : count = min (min (max view.candlesVisible kMinVisibleCandlesClamp)
      series.data.length) (min maxBars (max 1 (width / 3)))) :
    let snapshot := b.build series view width height
    snapshot.valid = true ∧ snapshot.visibleCount = count ∧ 1 ≤ count ∧
    snapshot.firstVisibleIndex =
      if view.rightmostOpenTime = series.lastOpen then series.data.length - count
      else min (upTo I series view.rightmostOpenTime -
        min (max view.candlesVisible kMinVisibleCandlesClamp) series.data.length)
        (series.data.length - count) := by
  have hlen := h.length_pos
  obtain ⟨wanted, hwanted⟩ : ∃ n, n = min (max view.candlesVisible kMinVisibleCandlesClamp)
    series.data.length := ⟨_, rfl⟩
  have hwanted1 : 1 ≤ wanted := by
    have : 1 ≤ kMinVisibleCandlesClamp := by decide
    omega
  intro snapshot
  have hsnapshot : snapshot = _ := build_eq b hI h hright hw hh hwanted hwanted1
  generalize hrender : series.data.map _ = render at hsnapshot
  have hrlen : render.length = series.data.length := by rw [← hrender, List.length_map]
  have hcount' : count = min (min (clamp (min wanted render.length) minBars maxBars)
      (max 1 (width / 3))) render.length := by
    rw [hrlen, hcount, ← hwanted, clamp_wanted hle hvis hwanted]
  rw [← hwanted, ← hrlen, hsnapshot]
  obtain ⟨hcount1, hwin⟩ := visibleWindow_eq (.mk _ wanted width height _ _ _)
    (hrlen ▸ hlen) hmin hle hmn hmx hwanted1 hcount'
  obtain ⟨hvalid, hfirst, hvisible⟩ := buildCandles_window b render hw hh hcount1
    (by split <;> omega) hwin
  refine ⟨hvalid, hvisible, hcount1, hfirst.trans ?_⟩
  by_cases hr : view.rightmostOpenTime = series.lastOpen
  · simp only [hr, decide_true, if_true]
  · simp only [hr, decide_false, Bool.false_eq_true, if_false]

/-! ## The right edge -/

/-- The last candle the snapshot shows is the one at the right edge of the view. -/
def RenderSnapshot.Anchored (snapshot : RenderSnapshot) (series : CandleSeries) (view : Viewport) :
    Prop :=
  ∃ candle, series.data[snapshot.firstVisibleIndex + snapshot.visibleCount - 1]? = some candle ∧
    candle.openTime = view.rightmostOpenTime

/-- There is a candle at the right edge; and it is the newest, or the canvas has
room for all the candles the snapshot wants to show before it, or for exactly
those that are there. -/
def HasRoom (I : Int) (series : CandleSeries) (view : Viewport) (maxBars width : Nat) : Prop :=
  let wanted := max view.candlesVisible kMinVisibleCandlesClamp
  let room := min maxBars (max 1 (width / 3))
  let available := upTo I series view.rightmostOpenTime
  I ∣ view.rightmostOpenTime - series.firstOpen ∧
    (view.rightmostOpenTime = series.lastOpen ∨ wanted ≤ min available room ∨
      available < wanted ∧ room = available)

instance (I : Int) (series : CandleSeries) (view : Viewport) (maxBars width : Nat) :
    Decidable (HasRoom I series view maxBars width) := by
  unfold HasRoom
  infer_instance

theorem getElem?_openTime_iff (hI : 0 < I) (h : series.Contiguous I) {t : Int}
    (h₁ : series.firstOpen ≤ t) {i : Nat} (hi : i < series.data.length) :
    (∃ candle, series.data[i]? = some candle ∧ candle.openTime = t) ↔
      I ∣ t - series.firstOpen ∧ i + 1 = upTo I series t := by
  rw [List.getElem?_eq_getElem hi]
  simp only [Option.some.injEq, exists_eq_left', h.openTime_getElem hi, upTo]
  constructor
  · rintro rfl
    rw [add_sub_cancel_left, Int.mul_ediv_cancel _ hI.ne', Int.toNat_natCast]
    exact ⟨Int.dvd_mul_left .., rfl⟩
  · rintro ⟨hd, he⟩
    have h0 : 0 ≤ (t - series.firstOpen) / I := Int.ediv_nonneg (by omega) hI.le
    have e : (i : Int) = (t - series.firstOpen) / I := by omega
    rw [e, Int.ediv_mul_cancel hd]
    omega

/-- The last candle of a window of `count` that is to start `wanted` candles before
the end of those `available`. -/
theorem last_shown_iff {wanted room available total count : Nat} (hpos : 1 ≤ count)
    (hlt : available < total) (hcount : count = min (min wanted total) room) :
    min (available - min wanted total) (total - count) + count - 1 + 1 = available ↔
      wanted ≤ min available room ∨ available < wanted ∧ room = available := by
  rw [Nat.sub_add_cancel (hpos.trans (Nat.le_add_left _ _))]
  rcases le_or_gt wanted available with hle | hgt
  · -- The window starts where it is to, and is as long as the room allows.
    have hwt : min wanted total = wanted := min_eq_left (hle.trans hlt.le)
    rw [hwt] at hcount ⊢
    have hstart : min (available - wanted) (total - count) = available - wanted :=
      min_eq_left (by omega)
    rw [hstart, le_min_iff]
    omega
  · -- The window starts with the first candle.
    have hstart : available - min wanted total = 0 := by omega
    rw [hstart, Nat.zero_min, Nat.zero_add, le_min_iff]
    omega

/-- The snapshot of a view on the series. -/
theorem build_of_within (b : RenderSnapshotBuilder) (hI : 0 < I) {c : ChartController}
    (hc : c.Limited) (h : series.Contiguous I) (hwithin : c.Within I series) {width height : Nat}
    (hw : 1 ≤ width) (hh : 1 ≤ height) :
    (b.build series c.view width height).valid = true ∧
      ((b.build series c.view width height).Anchored series c.view ↔
        HasRoom I series c.view c.maxBars width) := by
  have hpos : 1 ≤ c.view.candlesVisible := hwithin.least.trans hwithin.visible.1
  have h0 : 0 ≤ ((c.view.candlesVisible : Int) - 1) * I := Int.mul_nonneg (by omega) hI.le
  have hright : series.firstOpen ≤ c.view.rightmostOpenTime ∧
      c.view.rightmostOpenTime ≤ series.lastOpen :=
    ⟨(Int.le_add_of_nonneg_right h0).trans hwithin.right.1, hwithin.right.2⟩
  obtain ⟨hvalid, hcount, hcount1, hfirst⟩ := build_window b hI h hc.pos hc.le hc.minCandles
    hc.maxCandles hwithin.visible.1 hright hw hh rfl
  obtain ⟨-, hup, hlast⟩ := upTo_le hI h hright.1 hright.2
  have hup1 : 1 ≤ upTo I series c.view.rightmostOpenTime := by unfold upTo; omega
  refine ⟨hvalid, ?_⟩
  unfold RenderSnapshot.Anchored
  rw [hcount, hfirst, getElem?_openTime_iff hI h hright.1]
  · apply and_congr_right
    intro _
    by_cases hr : c.view.rightmostOpenTime = series.lastOpen
    · have := hlast.mpr hr
      simp only [hr, true_or, iff_true, if_true] at this ⊢
      omega
    · have hlt : upTo I series c.view.rightmostOpenTime < series.data.length :=
        lt_of_le_of_ne hup (mt hlast.mp hr)
      simp only [hr, false_or, if_false]
      exact last_shown_iff hcount1 hlt rfl
  · split <;> omega

end

/-- The snapshot of a view of a contiguous series is always valid, and it ends
at the right edge of the view exactly when there is room for that. -/
theorem build_anchored_iff [ViewportMaths] (b : RenderSnapshotBuilder) (I : Int) (hI : 0 < I)
    (c : ChartController) (hc : c.Limited) (series : CandleSeries) (hs : c.series = some series)
    (h : series.Contiguous I) (width height : Nat) (hw : 1 ≤ width) (hh : 1 ≤ height) :
    let view := c.clampToSeries.view
    let snapshot := b.build series view width height
    snapshot.valid = true ∧
      (snapshot.Anchored series view ↔ HasRoom I series view c.maxBars width) := by
  obtain ⟨view, e⟩ := clampToSeries_eq c
  have hmax : c.clampToSeries.maxBars = c.maxBars := by rw [e]
  have hwithin := (clampToSeries_within hI hs h hc.pos).1
  have := build_of_within b hI (clampToSeries_limited hc) h hwithin hw hh
  rwa [hmax] at this

/-- Seven candles. -/
def sevenCandles : CandleSeries :=
  ⟨⟨60000⟩, [flatCandle 60000 true, flatCandle 120000 true, flatCandle 180000 true,
    flatCandle 240000 true, flatCandle 300000 true, flatCandle 360000 true,
    flatCandle 420000 true], 60000, 420000⟩

/-- A view of five of seven candles that ends at the last but one. -/
def pannedController : ChartController :=
  (ChartController.construct ⟨0, 0, 0, 0⟩).calls
    [.setVisibleLimits 5 5, .setSeries sevenCandles, .panByCandles 1]

/-- A canvas of 15 pixels has room for the view of five. -/
theorem build_anchored_wide :
    let view := pannedController.clampToSeries.view
    HasRoom 60000 sevenCandles view pannedController.maxBars 15 ∧
      (RenderSnapshotBuilder.construct.build sevenCandles view 15 15).Anchored sevenCandles view := by
  have hroom : HasRoom 60000 sevenCandles pannedController.clampToSeries.view
      pannedController.maxBars 15 := by decide +kernel
  refine ⟨hroom, (build_anchored_iff .construct 60000 (by decide) pannedController
    (calls_limited (construct_limited _) _) sevenCandles (by decide +kernel)
    ⟨fun _ => rfl, ?_, rfl, rfl⟩ 15 15 (by decide) (by decide)).2.mpr hroom⟩
  unfold Spaced
  decide

/-- A canvas of 9 pixels shows three candles, from the left end of the view: the
last is the one of 240000, and the right edge of the view is at 360000. -/
theorem build_not_anchored_narrow :
    let view := pannedController.clampToSeries.view
    let snapshot := RenderSnapshotBuilder.construct.build sevenCandles view 9 9
    snapshot.valid = true ∧ view.rightmostOpenTime = 360000 ∧
      (sevenCandles.data[snapshot.firstVisibleIndex + snapshot.visibleCount - 1]?).map
        Candle.openTime = some 240000 ∧ ¬ snapshot.Anchored sevenCandles view := by
  intro view snapshot
  have hright : view.rightmostOpenTime = 360000 := by decide +kernel
  have hlast : (sevenCandles.data[snapshot.firstVisibleIndex + snapshot.visibleCount - 1]?).map
      Candle.openTime = some 240000 := by decide +kernel
  refine ⟨by decide +kernel, hright, hlast, ?_⟩
  rintro ⟨candle, hcandle, ht⟩
  rw [hcandle, Option.map_some, ht, hright] at hlast
  cases hlast

end TCV.App
