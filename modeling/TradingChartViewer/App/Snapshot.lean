import TradingChartViewer.App.TimeLabels

/-!
# The checks of a snapshot

`RenderSnapshotBuilder::build` on candles, with its two axes and the crosshair.
`none` is what the source leaves undefined, an access past the end of the series
or a `std::clamp` whose bounds are in the wrong order, and a loop without enough
iterations. The rounding of the limits is a parameter. Texts are left out: a
label carries the number it is the text of.

* `buildChecked`: the function;
* `checkedWindow_spec`: the choice of the window, for limits in any order;
* `Window.frame`: what is drawn of a window; `buildChecked_eq`: the function on every input;
* `buildChecked_buildCandles`: it draws what `buildCandles` does;
* `Crosshair.Names`: the candle under the cursor; `buildChecked_safe`: nothing is undefined.
-/

namespace TCV.App

open TCV.Domain Lib.Loop

/-! ## The function -/

/-- `std::clamp` is not defined for bounds in the wrong order. -/
def clampOrdered {α : Type*} [LT α] [DecidableLT α] (v lo hi : α) : Option α :=
  if hi < lo then none else some (clamp v lo hi)

structure CursorState where
  active : Bool := false
  x : Rat := 0
  y : Rat := 0
  deriving DecidableEq, Repr

structure Crosshair where
  x : Rat
  y : Rat
  timeMs : Int
  price : Price
  deriving DecidableEq, Repr

structure PriceLabel where
  y : Rat
  tick : Price
  deriving DecidableEq, Repr

/-- A snapshot with its labels and its crosshair. -/
structure FullSnapshot extends RenderSnapshot where
  priceLabels : List PriceLabel := []
  timeLabels : List TimeLabel := []
  crosshair : Option Crosshair := none
  deriving DecidableEq, Repr

/-- The candles that are drawn, and the start of the latest as many. -/
structure Window where
  startIndex : Nat
  endIndex : Nat
  maxStart : Nat
  desiredCount : Nat
  deriving DecidableEq, Repr

/-- The choice of the window; `limits` is what `clampFromFloat` makes of the two limits. -/
def checkedWindow (viewport : ViewportParams) (limits : Nat × Nat) (total : Nat) :
    Option Window := do
  let maxVisibleByWidth := max 1 (viewport.canvasWidth / kMinPxPerCandle).floor.toNat
  let fallbackCount := if 0 < viewport.visibleCount then viewport.visibleCount else total
  let (minVisible, maxVisible) :=
    if limits.2 < limits.1 then (limits.2, limits.1) else (limits.1, limits.2)
  let minVisible := max 1 minVisible
  let maxVisible := max minVisible maxVisible
  let desiredCount := max 1 fallbackCount
  let desiredCount := min desiredCount total
  let desiredCount ← clampOrdered desiredCount minVisible maxVisible
  let desiredCount := min desiredCount maxVisibleByWidth
  let desiredCount := max 1 (min desiredCount total)
  let maxStart := if desiredCount < total then total - desiredCount else 0
  let startIndex := if viewport.snapToLatest then maxStart else min viewport.firstIndex maxStart
  let startIndex := if total ≤ startIndex then maxStart else startIndex
  some ⟨startIndex, min (startIndex + desiredCount) total, maxStart, desiredCount⟩

/-- A loop over `count` elements of the series. -/
def readRange (series : List RenderCandleData) (startIndex count : Nat) :
    Option (List RenderCandleData) :=
  (List.range' startIndex count).mapM fun i => series[i]?

def checkedIntervalMs (series : List RenderCandleData) (startIndex count : Nat) : Option Int :=
  if count < 2 then some 0
  else do
    let deltas ← (List.range' 1 (count - 1)).mapM fun i => do
      let current ← series[startIndex + i]?
      let previous ← series[startIndex + i - 1]?
      some (current.openTimeMs - previous.openTimeMs)
    let deltas := deltas.filter (0 < ·)
    some (if deltas.isEmpty then 0 else deltas.sum.tdiv deltas.length)

/-- The interval of the time axis. -/
def baseIntervalMs (series : List RenderCandleData) (startIndex desiredCount : Nat)
    (intervalMs : Int) : Option Int := do
  let baseIntervalMs ←
    if intervalMs ≤ 0 && 1 < desiredCount then do
      let second ← series[startIndex + 1]?
      let first ← series[startIndex]?
      let delta := second.openTimeMs - first.openTimeMs
      some (if 0 < delta then delta else intervalMs)
    else some intervalMs
  some (if baseIntervalMs ≤ 0 then 1 else baseIntervalMs)

def kPriceLabelMinSpacingPx : Rat := 14

/-- One tick of the price axis, after the labels so far. -/
def addPriceLabel (minPrice pxPerPrice : Rat) (canvasHeight : Nat) (labels : List PriceLabel)
    (tick : Price) : List PriceLabel :=
  let y := priceToY tick minPrice pxPerPrice canvasHeight
  if y < -kPriceLabelMinSpacingPx || canvasHeight + kPriceLabelMinSpacingPx < y then labels
  else if labels.getLast?.any fun last => |last.y - y| < kPriceLabelMinSpacingPx then labels
  else labels ++ [⟨y, tick⟩]

def yToPrice (y minPrice pxPerPrice : Rat) (canvasHeight : Nat) : Option Price := do
  let clampedY ← clampOrdered y 0 (canvasHeight : Rat)
  let offsetFromBottom := canvasHeight - clampedY
  some (minPrice + offsetFromBottom / pxPerPrice)

/-- The crosshair of a cursor that is active. -/
def crosshairAt (series : List RenderCandleData) (snapshot : RenderSnapshot)
    (startIndex desiredCount : Nat) (cursor : CursorState) : Option (Option Crosshair) :=
  if 0 ≤ cursor.x && cursor.x ≤ snapshot.canvasWidth && 0 ≤ cursor.y &&
      cursor.y ≤ snapshot.canvasHeight then do
    let indexF ← clampOrdered (cursor.x / snapshot.pxPerCandle) 0 ((desiredCount - 1 : Nat) : Rat)
    let index := ⌊indexF⌋.toNat
    let candle ← series[startIndex + index]?
    let y ← clampOrdered cursor.y 0 (snapshot.canvasHeight : Rat)
    let price ← yToPrice y snapshot.visiblePriceMin snapshot.pxPerPrice snapshot.canvasHeight
    some (some
      { x := snapshot.pxPerCandle * (1 / 2 + index)
        y := y
        timeMs := candle.openTimeMs
        price := price })
  else some none

def buildCrosshair (series : List RenderCandleData) (snapshot : RenderSnapshot)
    (startIndex desiredCount : Nat) : Option CursorState → Option (Option Crosshair)
  | none => some none
  | some cursor =>
    if cursor.active then crosshairAt series snapshot startIndex desiredCount cursor else some none

/-- What the label loop reads. -/
def timeAxis (snapshot : RenderSnapshot) (firstTime lastTime base : Int) (timeStep : Nat) :
    TimeAxis :=
  { pxPerCandle := snapshot.pxPerCandle
    canvasWidth := snapshot.canvasWidth
    firstTime := firstTime
    lastTime := lastTime
    baseIntervalMs := base
    stepMs := base * (max timeStep 1 : Nat) }

/-- `build` on candles. -/
def RenderSnapshotBuilder.buildChecked (b : RenderSnapshotBuilder) (fuel : Nat)
    (series : List RenderCandleData) (viewport : ViewportParams) (limits : Nat × Nat)
    (cursor : Option CursorState) : Option FullSnapshot :=
  let snapshot : RenderSnapshot :=
    { canvasWidth := viewport.canvasWidth, canvasHeight := viewport.canvasHeight }
  if viewport.canvasWidth = 0 || viewport.canvasHeight = 0 then some { snapshot with }
  else if series.isEmpty then some { snapshot with }
  else do
    let window ← checkedWindow viewport limits series.length
    if window.desiredCount = 0 then some { snapshot with }
    else if window.endIndex ≤ window.startIndex then some { snapshot with }
    else
      let actualCount := window.endIndex - window.startIndex
      let snapshot := { snapshot with
        firstVisibleIndex := window.startIndex
        visibleCount := actualCount
        snappedToLatest := window.startIndex = window.maxStart }
      let priced ← readRange series window.startIndex actualCount
      let (minPrice, maxPrice) := (priced.foldl priceBounds none).getD (0, 0)
      let (minPrice, maxPrice) := paddedRange minPrice maxPrice
      let priceRange := maxPrice - minPrice
      if !(0 < priceRange) then some { snapshot with }
      else
        let pxPerCandle := max kMinPxPerCandle (viewport.canvasWidth / actualCount)
        let pxPerCandle := if pxPerCandle ≤ 0 then kMinPxPerCandle else pxPerCandle
        let pxPerPrice := viewport.canvasHeight / priceRange
        let snapshot := { snapshot with
          visiblePriceMin := minPrice
          visiblePriceMax := maxPrice
          pxPerCandle := pxPerCandle
          pxPerPrice := pxPerPrice }
        if pxPerPrice ≤ 0 then some { snapshot with }
        else do
          let intervalMs ← checkedIntervalMs series window.startIndex actualCount
          let first ← series[window.startIndex]?
          let last ← series[window.endIndex - 1]?
          let drawn ← readRange series window.startIndex actualCount
          let candles := drawn.zipIdx.map fun p =>
            b.candleRect minPrice pxPerCandle pxPerPrice viewport.canvasHeight p.2 p.1
          let snapshot := { snapshot with
            intervalMs := intervalMs
            logicalFromMs := first.openTimeMs
            logicalToMs := last.openTimeMs + if 0 < intervalMs then intervalMs else 0
            candles := candles
            wicks := drawn.zipIdx.map fun p =>
              candleWick minPrice pxPerCandle pxPerPrice viewport.canvasHeight p.2 p.1
            valid := !candles.isEmpty }
          let scale ← buildPriceScale fuel minPrice maxPrice
          let timeStep ← chooseTimeStep fuel window.desiredCount pxPerCandle
          let base ← baseIntervalMs series window.startIndex window.desiredCount intervalMs
          let timeLabels ←
            (timeAxis snapshot first.openTimeMs last.openTimeMs base timeStep).labels fuel
          let crosshair ←
            buildCrosshair series snapshot window.startIndex window.desiredCount cursor
          some { snapshot with
            priceLabels := scale.ticks.foldl
              (addPriceLabel minPrice pxPerPrice viewport.canvasHeight) []
            timeLabels := timeLabels
            crosshair := crosshair }

/-! ## Accesses -/

section Reads

variable {series : List RenderCandleData} {startIndex count : Nat}

/-- A loop in which nothing is missing. -/
theorem mapM_eq_some {α β : Type*} {f : α → Option β} {l : List α} {r : List β}
    (h : l.map f = r.map some) : l.mapM f = some r := by
  induction l generalizing r with
  | nil =>
    obtain rfl : r = [] := by simpa using h.symm
    rfl
  | cons a l ih =>
    cases r with
    | nil => cases h
    | cons b r =>
      rw [List.map_cons, List.map_cons, List.cons.injEq] at h
      rw [List.mapM_cons, h.1, ih h.2]
      rfl

theorem readRange_eq (h : startIndex + count ≤ series.length) :
    readRange series startIndex count = some ((series.drop startIndex).take count) := by
  refine mapM_eq_some (List.ext_getElem? fun i => ?_)
  rcases Nat.lt_or_ge i count with hi | hi
  · rw [List.getElem?_map, List.getElem?_range' hi, List.getElem?_map, List.getElem?_take_of_lt hi,
      List.getElem?_drop, Nat.one_mul, Option.map_some, List.getElem?_eq_getElem (by omega)]
    rfl
  · rw [List.getElem?_eq_none (by simpa using hi),
      List.getElem?_eq_none (by simp; omega)]

theorem checkedIntervalMs_eq (h : startIndex + count ≤ series.length) :
    checkedIntervalMs series startIndex count = some (estimateIntervalMs series startIndex count) := by
  unfold checkedIntervalMs estimateIntervalMs
  split
  · rfl
  · have hdeltas : (List.range' 1 (count - 1)).mapM (fun i => do
        let current ← series[startIndex + i]?
        let previous ← series[startIndex + i - 1]?
        some (current.openTimeMs - previous.openTimeMs)) =
        some ((((series.drop startIndex).take count).zip
          (((series.drop startIndex).take count).drop 1)).map fun p =>
            p.2.openTimeMs - p.1.openTimeMs) := by
      refine mapM_eq_some (List.ext_getElem (by simp; omega) fun i hi _ => ?_)
      have hi : i < count - 1 := by simpa using hi
      have hprevious : startIndex + (1 + 1 * i) - 1 = startIndex + i := by omega
      rw [List.getElem_map, List.getElem_range', hprevious,
        List.getElem?_eq_getElem (show startIndex + (1 + 1 * i) < series.length by omega),
        List.getElem?_eq_getElem (show startIndex + i < series.length by omega)]
      simp [Nat.add_comm 1 i]
    rw [hdeltas]
    rfl

theorem baseIntervalMs_some (hle : startIndex + count ≤ series.length) (intervalMs : Int) :
    ∃ base, baseIntervalMs series startIndex count intervalMs = some base ∧ 1 ≤ base ∧
      (1 ≤ intervalMs → base = intervalMs) := by
  unfold baseIntervalMs
  by_cases hread : (decide (intervalMs ≤ 0) && decide (1 < count)) = true
  · rw [if_pos hread]
    simp only [Bool.and_eq_true, decide_eq_true_eq] at hread
    rw [List.getElem?_eq_getElem (show startIndex + 1 < series.length by omega),
      List.getElem?_eq_getElem (show startIndex < series.length by omega)]
    refine ⟨_, rfl, ?_, by omega⟩
    split <;> omega
  · rw [if_neg hread]
    refine ⟨_, rfl, ?_, ?_⟩ <;> split <;> omega

end Reads

/-! ## The window -/

theorem clampOrdered_eq {α : Type*} [LinearOrder α] {v lo hi : α} (h : lo ≤ hi) :
    clampOrdered v lo hi = some (clamp v lo hi) := if_neg (not_lt.mpr h)

/-- A window of the series that is not empty. -/
structure Window.Fits (window : Window) (total : Nat) : Prop where
  pos : 1 ≤ window.desiredCount
  le : window.startIndex + window.desiredCount ≤ total
  endIndex : window.endIndex = window.startIndex + window.desiredCount

/-- The bounds of the clamp are in order, whatever the limits, and the window is in
the series, whatever is wanted. -/
theorem checkedWindow_spec (viewport : ViewportParams) (limits : Nat × Nat) {total : Nat}
    (ht : 1 ≤ total) : ∃ window, checkedWindow viewport limits total = some window ∧
      window.Fits total := by
  unfold checkedWindow
  dsimp only
  rw [clampOrdered_eq (le_max_left _ _), Option.bind_eq_bind, Option.bind_some]
  generalize clamp (α := Nat) _ _ _ = desiredCount
  generalize (viewport.canvasWidth / kMinPxPerCandle : Rat).floor.toNat = width
  obtain ⟨count, hcount⟩ : ∃ n, n = max 1 (min (min desiredCount (max 1 width)) total) := ⟨_, rfl⟩
  rw [← hcount]
  have hmaxStart : (if count < total then total - count else 0) = total - count := by
    split <;> omega
  have hstart : (if viewport.snapToLatest = true then total - count
      else min viewport.firstIndex (total - count)) ≤ total - count := by
    split
    · exact le_rfl
    · exact min_le_right _ _
  rw [hmaxStart]
  generalize (if viewport.snapToLatest = true then total - count
    else min viewport.firstIndex (total - count)) = start at hstart ⊢
  rw [if_neg (show ¬ total ≤ start by omega), min_eq_left (show start + count ≤ total by omega)]
  exact ⟨_, rfl, by dsimp only; omega, by dsimp only; omega, rfl⟩

/-! ## The crosshair -/

/-- The crosshair is at the candle whose column the cursor is in, or at the last
one if the cursor is right of them all. -/
structure Crosshair.Names (crosshair : Crosshair) (series : List RenderCandleData)
    (snapshot : RenderSnapshot) (mouseX : Rat) (i : Nat) : Prop where
  shown : i < snapshot.visibleCount
  candle : ∃ candle, series[snapshot.firstVisibleIndex + i]? = some candle ∧
    crosshair.timeMs = candle.openTimeMs
  centre : crosshair.x = snapshot.pxPerCandle * (1 / 2 + i)
  column : snapshot.pxPerCandle * i ≤ mouseX ∧ mouseX < snapshot.pxPerCandle * (i + 1) ∨
    snapshot.pxPerCandle * snapshot.visibleCount ≤ mouseX ∧ i + 1 = snapshot.visibleCount

/-- The cursor is on the canvas. -/
structure CursorState.Inside (cursor : CursorState) (width height : Nat) : Prop where
  x : 0 ≤ cursor.x ∧ cursor.x ≤ width
  y : 0 ≤ cursor.y ∧ cursor.y ≤ height

/-- The index under a cursor. -/
theorem cursorIndex_spec {mouseX pxPerCandle : Rat} {count : Nat} (hx : 0 ≤ mouseX)
    (hpx : 0 < pxPerCandle) (hcount : 1 ≤ count) :
    let i := ⌊clamp (mouseX / pxPerCandle) 0 ((count - 1 : Nat) : Rat)⌋.toNat
    i < count ∧ (pxPerCandle * i ≤ mouseX ∧ mouseX < pxPerCandle * (i + 1) ∨
      pxPerCandle * count ≤ mouseX ∧ i + 1 = count) := by
  have h0 : 0 ≤ mouseX / pxPerCandle := div_nonneg hx hpx.le
  intro i
  by_cases hlast : ((count - 1 : Nat) : Rat) < mouseX / pxPerCandle
  · have hi : i = count - 1 := by
      show ⌊clamp _ _ _⌋.toNat = _
      rw [clamp, if_neg (not_lt.mpr h0), if_pos hlast, Int.floor_natCast, Int.toNat_natCast]
    have hsucc : ((i : Rat) + 1) = count := by
      rw [hi]
      exact_mod_cast Nat.sub_add_cancel hcount
    rw [lt_div_iff₀ hpx] at hlast
    refine ⟨by omega, ?_⟩
    rcases lt_or_ge mouseX (pxPerCandle * count) with hlt | hge
    · refine .inl ⟨?_, by rwa [hsucc]⟩
      rw [hi, mul_comm]
      exact hlast.le
    · exact .inr ⟨hge, by omega⟩
  · have hi : (i : Int) = ⌊mouseX / pxPerCandle⌋ := by
      show (⌊clamp _ _ _⌋.toNat : Int) = _
      rw [clamp, if_neg (not_lt.mpr h0), if_neg hlast,
        Int.toNat_of_nonneg (Int.floor_nonneg.mpr h0)]
    have hlo : (i : Rat) ≤ mouseX / pxPerCandle := by
      have := Int.floor_le (mouseX / pxPerCandle)
      rwa [← hi, Int.cast_natCast] at this
    have hhi : mouseX / pxPerCandle < i + 1 := by
      have := Int.lt_floor_add_one (mouseX / pxPerCandle)
      rwa [← hi, Int.cast_natCast] at this
    have hle : i ≤ count - 1 := by exact_mod_cast hlo.trans (not_lt.mp hlast)
    rw [le_div_iff₀ hpx] at hlo
    rw [div_lt_iff₀ hpx] at hhi
    exact ⟨by omega, .inl ⟨by linarith, by linarith⟩⟩

theorem crosshairAt_spec {series : List RenderCandleData} {snapshot : RenderSnapshot}
    (hpx : 0 < snapshot.pxPerCandle) (hcount : 1 ≤ snapshot.visibleCount)
    (hle : snapshot.firstVisibleIndex + snapshot.visibleCount ≤ series.length)
    (cursor : CursorState) :
    ∃ crosshair, crosshairAt series snapshot snapshot.firstVisibleIndex snapshot.visibleCount
        cursor = some crosshair ∧
      (cursor.Inside snapshot.canvasWidth snapshot.canvasHeight →
        ∃ c i, crosshair = some c ∧ c.Names series snapshot cursor.x i) := by
  unfold crosshairAt
  split
  · rename_i hin
    simp only [Bool.and_eq_true, decide_eq_true_eq] at hin
    obtain ⟨hi, hcolumn⟩ := cursorIndex_spec hin.1.1.1 hpx hcount
    have hy : (0 : Rat) ≤ snapshot.canvasHeight := Nat.cast_nonneg _
    have hread := List.getElem?_eq_getElem
      (show snapshot.firstVisibleIndex +
        ⌊clamp (cursor.x / snapshot.pxPerCandle) 0 ((snapshot.visibleCount - 1 : Nat) : Rat)⌋.toNat <
          series.length by omega)
    rw [clampOrdered_eq (Nat.cast_nonneg _), Option.bind_eq_bind, Option.bind_some]
    dsimp only
    rw [hread, Option.bind_eq_bind, Option.bind_some, clampOrdered_eq hy, Option.bind_some,
      yToPrice, clampOrdered_eq hy]
    exact ⟨_, rfl, fun _ => ⟨_, _, rfl, hi, ⟨_, hread, rfl⟩, rfl, hcolumn⟩⟩
  · rename_i hout
    refine ⟨none, rfl, fun hin => absurd ?_ hout⟩
    simp only [Bool.and_eq_true, decide_eq_true_eq]
    exact ⟨⟨hin.x, hin.y.1⟩, hin.y.2⟩

theorem buildCrosshair_spec {series : List RenderCandleData} (snapshot : RenderSnapshot)
    (hpx : 0 < snapshot.pxPerCandle) (hcount : 1 ≤ snapshot.visibleCount)
    (hle : snapshot.firstVisibleIndex + snapshot.visibleCount ≤ series.length)
    (cursor : Option CursorState) :
    ∃ crosshair, buildCrosshair series snapshot snapshot.firstVisibleIndex snapshot.visibleCount
        cursor = some crosshair ∧
      ∀ c ∈ cursor, c.active = true → c.Inside snapshot.canvasWidth snapshot.canvasHeight →
        ∃ shown i, crosshair = some shown ∧ shown.Names series snapshot c.x i := by
  cases cursor with
  | none => exact ⟨none, rfl, fun c hc => nomatch hc⟩
  | some cursor =>
    unfold buildCrosshair
    dsimp only
    split
    · obtain ⟨crosshair, hat, hnames⟩ := crosshairAt_spec hpx hcount hle cursor
      exact ⟨crosshair, hat, fun c hc _ hin => Option.some.inj hc ▸ hnames (Option.some.inj hc ▸ hin)⟩
    · rename_i hidle
      exact ⟨none, rfl, fun c hc hactive => absurd (Option.some.inj hc ▸ hactive) hidle⟩

/-! ## The frame -/

/-- What is drawn of a window, but for the labels and the crosshair. -/
def RenderSnapshotBuilder.frame (b : RenderSnapshotBuilder) (series : List RenderCandleData)
    (viewport : ViewportParams) (window : Window) : RenderSnapshot :=
  let drawn := (series.drop window.startIndex).take window.desiredCount
  let bounds := (drawn.foldl priceBounds none).getD (0, 0)
  let range := paddedRange bounds.1 bounds.2
  let pxPerCandle := max kMinPxPerCandle (viewport.canvasWidth / window.desiredCount)
  let pxPerPrice := viewport.canvasHeight / (range.2 - range.1)
  let intervalMs := estimateIntervalMs series window.startIndex window.desiredCount
  let times := drawn.map RenderCandleData.openTimeMs
  { canvasWidth := viewport.canvasWidth
    canvasHeight := viewport.canvasHeight
    valid := true
    firstVisibleIndex := window.startIndex
    visibleCount := window.desiredCount
    snappedToLatest := window.startIndex = window.maxStart
    visiblePriceMin := range.1
    visiblePriceMax := range.2
    pxPerCandle := pxPerCandle
    pxPerPrice := pxPerPrice
    intervalMs := intervalMs
    logicalFromMs := times.head?.getD 0
    logicalToMs := times.getLast?.getD 0 + if 0 < intervalMs then intervalMs else 0
    candles := drawn.zipIdx.map fun p =>
      b.candleRect range.1 pxPerCandle pxPerPrice viewport.canvasHeight p.2 p.1
    wicks := drawn.zipIdx.map fun p =>
      candleWick range.1 pxPerCandle pxPerPrice viewport.canvasHeight p.2 p.1 }

section Frames

variable (b : RenderSnapshotBuilder) {series : List RenderCandleData} (viewport : ViewportParams)
  {window : Window}

theorem frame_pxPerCandle_pos (series : List RenderCandleData) (window : Window) :
    0 < (b.frame series viewport window).pxPerCandle :=
  lt_max_of_lt_left (by unfold kMinPxPerCandle; norm_num)

theorem frame_prices_lt (series : List RenderCandleData) (window : Window) :
    (b.frame series viewport window).visiblePriceMin <
      (b.frame series viewport window).visiblePriceMax := paddedRange_lt _ _

theorem frame_lengths (h : window.Fits series.length) :
    (b.frame series viewport window).candles.length = window.desiredCount ∧
    (b.frame series viewport window).wicks.length = window.desiredCount := by
  have hle := h.le
  unfold RenderSnapshotBuilder.frame
  simp
  omega

/-- The times at the ends of the window. -/
theorem frame_times (h : window.Fits series.length) : ∃ first last,
    series[window.startIndex]? = some first ∧
    series[window.startIndex + window.desiredCount - 1]? = some last ∧
    (b.frame series viewport window).logicalFromMs = first.openTimeMs ∧
    (b.frame series viewport window).logicalToMs = last.openTimeMs +
      if 0 < estimateIntervalMs series window.startIndex window.desiredCount then
        estimateIntervalMs series window.startIndex window.desiredCount else 0 := by
  have hpos := h.pos
  have hle := h.le
  have hlen : (((series.drop window.startIndex).take window.desiredCount).map
      RenderCandleData.openTimeMs).length = window.desiredCount := by
    simp
    omega
  have hfirst := List.getElem?_eq_getElem (show window.startIndex < series.length by omega)
  have hlast := List.getElem?_eq_getElem
    (show window.startIndex + (window.desiredCount - 1) < series.length by omega)
  refine ⟨_, _, hfirst, by rw [Nat.add_sub_assoc hpos]; exact hlast, ?_, ?_⟩
  · show Option.getD _ 0 = _
    rw [List.head?_eq_getElem?, List.getElem?_map, List.getElem?_take_of_lt (by omega),
      List.getElem?_drop, Nat.add_zero, hfirst]
    rfl
  · show Option.getD _ 0 + _ = _
    rw [List.getLast?_eq_getElem?, hlen, List.getElem?_map, List.getElem?_take_of_lt (by omega),
      List.getElem?_drop, hlast]
    rfl

theorem frame_candles (hfits : window.Fits series.length) :
    (b.frame series viewport window).candles.isEmpty = false := by
  rw [List.isEmpty_eq_false_iff, ← List.length_pos_iff, (frame_lengths b viewport hfits).1]
  exact hfits.pos

variable {b viewport}

/-- The snapshot on every canvas and series, from what its parts return. -/
theorem buildChecked_eq {limits : Nat × Nat} {cursor : Option CursorState}
    (hw : 1 ≤ viewport.canvasWidth) (hh : 1 ≤ viewport.canvasHeight) (hne : series ≠ [])
    (hwin : checkedWindow viewport limits series.length = some window)
    (hfits : window.Fits series.length) {scale : PriceScale} {timeStep : Nat} {base : Int}
    {first last : RenderCandleData} {labels : List TimeLabel} {crosshair : Option Crosshair}
    (hfirst : series[window.startIndex]? = some first)
    (hlast : series[window.startIndex + window.desiredCount - 1]? = some last)
    (hscale : Returns (fun fuel => buildPriceScale fuel
      (b.frame series viewport window).visiblePriceMin
      (b.frame series viewport window).visiblePriceMax) scale)
    (hstep : Returns (fun fuel => chooseTimeStep fuel window.desiredCount
      (b.frame series viewport window).pxPerCandle) timeStep)
    (hbase : baseIntervalMs series window.startIndex window.desiredCount
      (estimateIntervalMs series window.startIndex window.desiredCount) = some base)
    (hlabels : Returns (timeAxis (b.frame series viewport window) first.openTimeMs last.openTimeMs
      base timeStep).labels labels)
    (hcross : buildCrosshair series (b.frame series viewport window) window.startIndex
      window.desiredCount cursor = some crosshair) :
    Returns (fun fuel => b.buildChecked fuel series viewport limits cursor)
      { toRenderSnapshot := b.frame series viewport window
        priceLabels := scale.ticks.foldl
          (addPriceLabel (b.frame series viewport window).visiblePriceMin
            (b.frame series viewport window).pxPerPrice viewport.canvasHeight) []
        timeLabels := labels
        crosshair := crosshair } := by
  obtain ⟨k₁, hk₁⟩ := hscale
  obtain ⟨k₂, hk₂⟩ := hstep
  obtain ⟨k₃, hk₃⟩ := hlabels
  refine ⟨max (max k₁ k₂) k₃, fun fuel hfuel => ?_⟩
  have hk₁ := hk₁ fuel (by omega)
  have hk₂ := hk₂ fuel (by omega)
  have hk₃ := hk₃ fuel (by omega)
  have hpos := hfits.pos
  have hrange := frame_prices_lt b viewport series window
  have hheight : (0 : Rat) < viewport.canvasHeight := by exact_mod_cast hh
  have hcandles := frame_candles b viewport hfits
  obtain ⟨first', last', hfirst', hlast', hfrom, hto⟩ :=
    frame_times b viewport hfits
  obtain rfl := Option.some.inj (hfirst'.symm.trans hfirst)
  obtain rfl := Option.some.inj (hlast'.symm.trans hlast)
  unfold RenderSnapshotBuilder.frame at *
  dsimp only at *
  rw [hfrom, hto] at hk₃ hcross ⊢
  unfold RenderSnapshotBuilder.buildChecked
  rw [canvas_shown hw hh, if_neg Bool.false_ne_true, if_neg (by simpa using hne), hwin]
  dsimp only [Option.bind_eq_bind, Option.bind_some]
  rw [if_neg (by omega), hfits.endIndex, if_neg (by omega), Nat.add_sub_cancel_left,
    readRange_eq hfits.le]
  dsimp only [Option.bind_some]
  rw [if_neg (by simpa using hrange), if_neg (not_le.mpr (lt_max_of_lt_left (by decide +kernel))),
    if_neg (not_le.mpr (div_pos hheight (sub_pos.mpr hrange))), checkedIntervalMs_eq hfits.le,
    hfirst, hlast]
  dsimp only [Option.bind_some]
  rw [hcandles, Bool.not_false, hk₁, hk₂, hbase]
  dsimp only [Option.bind_some]
  rw [hk₃, hcross]
  rfl

/-- Without a label, a crosshair or a check it is `buildCandles`. -/
theorem buildCandles_eq_frame (hw : 1 ≤ viewport.canvasWidth) (hh : 1 ≤ viewport.canvasHeight)
    (hne : series ≠ []) (hfits : window.Fits series.length)
    (hwin : visibleWindow viewport series.length =
      (window.startIndex, window.startIndex + window.desiredCount, window.maxStart)) :
    b.buildCandles series viewport = b.frame series viewport window := by
  have hpos := hfits.pos
  have hrange := frame_prices_lt b viewport series window
  have hheight : (0 : Rat) < viewport.canvasHeight := by exact_mod_cast hh
  have hcandles := frame_candles b viewport hfits
  unfold RenderSnapshotBuilder.frame at *
  dsimp only at *
  unfold RenderSnapshotBuilder.buildCandles
  rw [canvas_shown hw hh, if_neg Bool.false_ne_true, if_neg (by simpa using hne), hwin]
  dsimp only
  rw [if_neg (by omega), Nat.add_sub_cancel_left, if_neg (by simpa using hrange),
    if_neg (not_le.mpr (lt_max_of_lt_left (by decide +kernel))),
    if_neg (not_le.mpr (div_pos hheight (sub_pos.mpr hrange))), hcandles, Bool.not_false]

end Frames

/-- What `clampFromFloat` makes of the two limits. -/
def ViewportParams.limits (viewport : ViewportParams) (total : Nat) : Nat × Nat :=
  let fallbackCount := if 0 < viewport.visibleCount then viewport.visibleCount else total
  (clampFromFloat viewport.minVisibleCandles fallbackCount,
    clampFromFloat viewport.maxVisibleCandles fallbackCount)

theorem visibleWindow_eq_checked {viewport : ViewportParams} {total : Nat} {window : Window}
    (hwin : checkedWindow viewport (viewport.limits total) total = some window) :
    visibleWindow viewport total = (window.startIndex, window.endIndex, window.maxStart) := by
  unfold checkedWindow at hwin
  dsimp only at hwin
  rw [clampOrdered_eq (le_max_left _ _), Option.bind_eq_bind, Option.bind_some,
    Option.some_inj] at hwin
  rw [← hwin]
  rfl

/-- With those limits the two functions draw the same. -/
theorem buildChecked_buildCandles (b : RenderSnapshotBuilder) {series : List RenderCandleData}
    {viewport : ViewportParams} {window : Window} (hw : 1 ≤ viewport.canvasWidth)
    (hh : 1 ≤ viewport.canvasHeight) (hne : series ≠ []) (hfits : window.Fits series.length)
    (hwin : checkedWindow viewport (viewport.limits series.length) series.length = some window) :
    b.frame series viewport window = b.buildCandles series viewport := by
  have hvisible := visibleWindow_eq_checked hwin
  rw [hfits.endIndex] at hvisible
  exact (buildCandles_eq_frame hw hh hne hfits hvisible).symm

/-! ## Nothing is undefined -/

/-- What the time axis is made from. -/
structure AxisParts (b : RenderSnapshotBuilder) (series : List RenderCandleData)
    (viewport : ViewportParams) (window : Window) (first last : RenderCandleData) (base : Int)
    (timeStep : Nat) : Prop where
  fits : window.Fits series.length
  first : series[window.startIndex]? = some first
  last : series[window.startIndex + window.desiredCount - 1]? = some last
  base : baseIntervalMs series window.startIndex window.desiredCount
    (estimateIntervalMs series window.startIndex window.desiredCount) = some base
  step : Returns (fun fuel => chooseTimeStep fuel window.desiredCount
    (b.frame series viewport window).pxPerCandle) timeStep
  one_le : 1 ≤ timeStep
  few : window.desiredCount / timeStep + 1 ≤ kMaxTimeLabels

/-- The snapshot is made if its time labels are. -/
theorem exists_buildChecked (b : RenderSnapshotBuilder) {series : List RenderCandleData}
    (hne : series ≠ []) {viewport : ViewportParams} (hw : 1 ≤ viewport.canvasWidth)
    (hh : 1 ≤ viewport.canvasHeight) (limits : Nat × Nat) (cursor : Option CursorState) :
    ∃ window first last base timeStep,
      AxisParts b series viewport window first last base timeStep ∧
      ∀ labels, Returns (timeAxis (b.frame series viewport window) first.openTimeMs last.openTimeMs
          base timeStep).labels labels →
        ∃ snapshot,
          Returns (fun fuel => b.buildChecked fuel series viewport limits cursor) snapshot ∧
          snapshot.toRenderSnapshot = b.frame series viewport window ∧
          snapshot.timeLabels = labels ∧
          ∀ c ∈ cursor, c.active = true → c.Inside viewport.canvasWidth viewport.canvasHeight →
            ∃ shown i, snapshot.crosshair = some shown ∧
              shown.Names series snapshot.toRenderSnapshot c.x i := by
  obtain ⟨window, hwin, hfits⟩ := checkedWindow_spec viewport limits
    (List.length_pos_iff.mpr hne)
  obtain ⟨first, last, hfirst, hlast, -, -⟩ := frame_times b viewport hfits
  obtain ⟨r, from_, n, -, hscale, -, -⟩ := buildPriceScale_eq
    (frame_prices_lt b viewport series window)
    (paddedRange_gap _ _)
  obtain ⟨timeStep, hstep, hone, hfew⟩ := chooseTimeStep_spec hfits.pos
    (frame_pxPerCandle_pos b viewport series window)
  obtain ⟨base, hbase, -, -⟩ := baseIntervalMs_some hfits.le
    (estimateIntervalMs series window.startIndex window.desiredCount)
  obtain ⟨crosshair, hcross, hnames⟩ := buildCrosshair_spec
    (b.frame series viewport window) (frame_pxPerCandle_pos b viewport series window) hfits.pos
    hfits.le cursor
  refine ⟨window, first, last, base, timeStep,
    ⟨hfits, hfirst, hlast, hbase, hstep, hone, hfew⟩, fun labels hlabels => ?_⟩
  exact ⟨_, buildChecked_eq hw hh hne hwin hfits hfirst hlast ⟨12, hscale⟩ hstep hbase hlabels hcross,
    rfl, rfl, hnames⟩

theorem AxisParts.stepMs_pos {b : RenderSnapshotBuilder} {series : List RenderCandleData}
    {viewport : ViewportParams} {window : Window} {first last : RenderCandleData} {base : Int}
    {timeStep : Nat} (h : AxisParts b series viewport window first last base timeStep) :
    0 < (timeAxis (b.frame series viewport window) first.openTimeMs last.openTimeMs base
      timeStep).stepMs := by
  obtain ⟨base', hbase, hpos, -⟩ := baseIntervalMs_some h.fits.le
    (estimateIntervalMs series window.startIndex window.desiredCount)
  obtain rfl := Option.some.inj (hbase.symm.trans h.base)
  exact Int.mul_pos hpos (by omega)

/-- Every snapshot of candles on a canvas is made, whatever the limits and the
cursor, without an access past the end or a clamp between bounds in the wrong
order: its window is in the series and not empty, it has a body and a wick for
each candle of it, and a crosshair for a cursor on the canvas. -/
theorem buildChecked_safe (b : RenderSnapshotBuilder) (series : List RenderCandleData)
    (hne : series ≠ []) (viewport : ViewportParams) (hw : 1 ≤ viewport.canvasWidth)
    (hh : 1 ≤ viewport.canvasHeight) (limits : Nat × Nat) (cursor : Option CursorState) :
    ∃ snapshot, Returns (fun fuel => b.buildChecked fuel series viewport limits cursor) snapshot ∧
      (1 ≤ snapshot.visibleCount ∧
        snapshot.firstVisibleIndex + snapshot.visibleCount ≤ series.length) ∧
      (snapshot.valid = true ∧ snapshot.candles.length = snapshot.visibleCount ∧
        snapshot.wicks.length = snapshot.visibleCount) ∧
      ∀ c ∈ cursor, c.active = true → c.Inside viewport.canvasWidth viewport.canvasHeight →
        ∃ shown i, snapshot.crosshair = some shown ∧
          shown.Names series snapshot.toRenderSnapshot c.x i := by
  obtain ⟨window, first, last, base, timeStep, hparts, hbuild⟩ :=
    exists_buildChecked b hne hw hh limits cursor
  obtain ⟨-, labels, -, -, hlabels⟩ := labels_halt hparts.stepMs_pos
  obtain ⟨snapshot, hreturns, hframe, -, hnames⟩ := hbuild _ hlabels
  refine ⟨snapshot, hreturns, ?_, ?_, hnames⟩
  · rw [hframe]
    exact ⟨hparts.fits.pos, hparts.fits.le⟩
  · rw [hframe]
    exact ⟨rfl, frame_lengths b viewport hparts.fits⟩

/-- Five candles, not in the order of their times. -/
def fiveCandles : List RenderCandleData :=
  [⟨300000, 1, 2, 1, 2⟩, ⟨60000, 2, 3, 1, 1⟩, ⟨60000, 1, 1, 1, 1⟩, ⟨240000, 4, 5, 3, 3⟩,
    ⟨120000, 3, 4, 2, 4⟩]

/-- A canvas with room for four of them, limits in the wrong order, and a cursor at
its right end. -/
theorem buildChecked_safe_narrow : ∃ snapshot,
    Returns (fun fuel => RenderSnapshotBuilder.construct.buildChecked fuel fiveCandles
      { canvasWidth := 12, canvasHeight := 20 } (5, 3) (some ⟨true, 12, 5⟩)) snapshot ∧
    snapshot.candles.length = snapshot.visibleCount ∧
    ∃ shown i, snapshot.crosshair = some shown ∧
      shown.Names fiveCandles snapshot.toRenderSnapshot 12 i := by
  obtain ⟨snapshot, hreturns, -, hvalid, hnames⟩ :=
    buildChecked_safe .construct fiveCandles (List.cons_ne_nil _ _)
      { canvasWidth := 12, canvasHeight := 20 } (by decide) (by decide) (5, 3) (some ⟨true, 12, 5⟩)
  exact ⟨snapshot, hreturns, hvalid.2.1, hnames _ rfl rfl ⟨by norm_num, by norm_num⟩⟩

end TCV.App
