import TradingChartViewer.Storage.Readiness
import TradingChartViewer.Storage.Spans
import TradingChartViewer.Ui.GridTime
import TradingChartViewer.Ui.GridValues

/-!
# The candles on the grid

`ui::JapaneseCandleService` and `ui::GridJapaneseCandle`: a candle with the prices
of a minute at its place on the timeline, and the window of the newest of them,
the newest first. Of the geometry there is the place on the timeline; heights,
colours and texts are left out, and so are the logs. How `float` and `double`
round the prices is a parameter: `PriceCasts`.

* `setOHLC`, `setPriceData`: a candle;
* `rebuildWindow`, `rebuildWindowFromHighest`, `actualize`, `displacement`,
  `spectatorModeActualize`: the window;
* `construct_newest`: the window of an engine that is ready;
* `window_of_one_engine`: the window after any calls.
-/

namespace TCV.Ui

open TCV.Domain TCV.Storage Lib.Grid Lib.TimeMap

/-! ## A candle -/

/-- The arithmetic of `JapaneseCandle` on prices: `static_cast<float>(val * 100.0)` of the setters,
`static_cast<double>(cents) / 100.0` of the getters, and `static_cast<float>(price)`. -/
class PriceCasts where
  toCents : Price → Rat
  toPrice : Rat → Price
  toFloat : Price → Rat

export PriceCasts (toCents toPrice toFloat)

/-- Of prices whose cents a `float` holds. -/
instance PriceCasts.exact : PriceCasts where
  toCents price := price * 100
  toPrice cents := cents / 100
  toFloat price := price

/-- A `JapaneseCandle`: its prices are in cents. -/
structure JapaneseCandle where
  time : Int
  openPrice : Option Rat := none
  closePrice : Option Rat := none
  maxPrice : Option Rat := none
  minPrice : Option Rat := none
  bodyPositionX : Rat := 0
  geometryReady : Bool := false
  deriving DecidableEq, Repr

namespace JapaneseCandle

variable [MinuteUtils] [PriceCasts]

def getOpenPrice (candle : JapaneseCandle) : Option Price := candle.openPrice.map toPrice
def getClosePrice (candle : JapaneseCandle) : Option Price := candle.closePrice.map toPrice
def getMaxPrice (candle : JapaneseCandle) : Option Price := candle.maxPrice.map toPrice
def getMinPrice (candle : JapaneseCandle) : Option Price := candle.minPrice.map toPrice

/-- `JapaneseCandleService::actualize`. -/
def actualize (candle : JapaneseCandle) (gridTime : GridTime) : JapaneseCandle :=
  if candle.getOpenPrice.isSome && candle.getClosePrice.isSome && candle.getMaxPrice.isSome &&
      candle.getMinPrice.isSome then
    { candle with
      bodyPositionX := gridTime.getValuePosX (millisToMinutes candle.time)
      geometryReady := true }
  else { candle with geometryReady := false }

/-- `JapaneseCandleService::setOHLC`. -/
def setOHLC (candle : JapaneseCandle) (gridTime : GridTime) (data : OHLC) : JapaneseCandle :=
  let candle := { candle with
    time := data.openTimeMs
    openPrice := some (toCents data.open_)
    closePrice := some (toCents data.close)
    maxPrice := some (toCents data.high)
    minPrice := some (toCents data.low)
    geometryReady := false }
  candle.actualize gridTime

/-- `JapaneseCandleService::setPriceData`, which both observers call. -/
def setPriceData [TimeUtils] (candle : JapaneseCandle) (gridTime : GridTime) (data : PriceData) :
    JapaneseCandle :=
  let aligned := floorToMinuteMs data.openTime
  candle.setOHLC gridTime
    ⟨aligned, data.openPrice, data.highPrice, data.lowPrice, data.closePrice⟩

/-- What a candle shows of a record. -/
def shown [TimeUtils] (gridTime : GridTime) (record : MinuteRecord) : JapaneseCandle :=
  { time := record.openTime
    openPrice := some (toCents record.openPrice)
    closePrice := some (toCents record.closePrice)
    maxPrice := some (toCents record.highPrice)
    minPrice := some (toCents record.lowPrice)
    bodyPositionX := gridTime.getValuePosX (millisToMinutes record.openTime)
    geometryReady := true }

end JapaneseCandle

/-! ## The window -/

structure GridJapaneseCandle where
  candles : List JapaneseCandle := []
  HighestTime : Int := 0
  LowestTime : Int := 0
  highestMax : Rat := -kFloatMax
  lowestMin : Rat := kFloatMax
  ready : Bool := false
  minOpenTime : Int := 0
  maxOpenTime : Int := 0
  lastKnownMaxTimestamp : Int := 0
  deriving DecidableEq, Repr

namespace GridJapaneseCandle

/-- `targetCandleCount`: `range` is 19. -/
def targetCandleCount : Nat := 20

def isReady (w : GridJapaneseCandle) : Bool := w.ready && !w.candles.isEmpty

variable [MinuteUtils] [TimeUtils] [PriceCasts]

def refreshDataRange (w : GridJapaneseCandle) (e : DatabaseEngine) : GridJapaneseCandle × Bool :=
  match e.getOpenTimeRange with
  | none => ({ w with minOpenTime := 0, maxOpenTime := 0 }, false)
  | some (minOpenTime, maxOpenTime) =>
    ({ w with minOpenTime := minOpenTime, maxOpenTime := maxOpenTime },
      0 < maxOpenTime && minOpenTime ≤ maxOpenTime)

/-- A request between the first and the last minute. -/
def clampToRange (w : GridJapaneseCandle) (highestTimestampMs : Int) : Int :=
  let maxAligned := alignToMinute w.maxOpenTime
  let minAligned := GridTime.alignToMinuteCeil w.minOpenTime
  let highest :=
    if 0 < maxAligned && maxAligned < highestTimestampMs then maxAligned else highestTimestampMs
  if 0 < minAligned && highest < minAligned then minAligned else highest

/-- The part of `rebuildWindowFromHighest` after the look-up, for `span`. -/
def fillWindow (w : GridJapaneseCandle) (gridTime : GridTime) (span : List OHLC) :
    GridJapaneseCandle × Bool :=
  match span.head?, span.getLast? with
  | some lowest, some highest =>
    let newCandles := span.reverse.map fun data =>
      ({ time := data.openTimeMs } : JapaneseCandle).setOHLC gridTime data
    let highestMax :=
      ((newCandles.filterMap JapaneseCandle.getMaxPrice).map toFloat).foldl max w.highestMax
    let lowestMin :=
      ((newCandles.filterMap JapaneseCandle.getMinPrice).map toFloat).foldl min w.lowestMin
    ({ w with
        candles := newCandles
        HighestTime := highest.openTimeMs
        LowestTime := lowest.openTimeMs
        lastKnownMaxTimestamp := highest.openTimeMs
        ready := true
        highestMax := if highestMax = -kFloatMax then 0 else highestMax
        lowestMin := if lowestMin = kFloatMax then 0 else lowestMin }, true)
  | _, _ => ({ w with ready := false }, false)

def rebuildWindowFromHighest (w : GridJapaneseCandle) (e : DatabaseEngine) (gridTime : GridTime)
    (highestTimestampMs : Int) : GridJapaneseCandle × Bool :=
  let w := { w with candles := [], highestMax := -kFloatMax, lowestMin := kFloatMax }
  let highestTimestampMs := w.clampToRange highestTimestampMs
  let desiredCount := targetCandleCount
  let startTimestamp := highestTimestampMs - ((desiredCount - 1 : Nat) : Int) * kMillisPerMinute
  match e.tryGetOHLCSpan startTimestamp desiredCount with
  | (true, span) => w.fillWindow gridTime span
  | (false, _) =>
    match e.tryGetLatestSpan desiredCount with
    | (true, span) => w.fillWindow gridTime span
    | (false, _) => ({ w with ready := false }, false)

def rebuildWindow (w : GridJapaneseCandle) (e : DatabaseEngine) (gridTime : GridTime) :
    GridJapaneseCandle × Bool :=
  if !e.isReady then ({ w with ready := false }, false)
  else
    let (w, fresh) := w.refreshDataRange e
    if !fresh then ({ w with candles := [], ready := false }, false)
    else
      let highestAligned := alignToMinute w.maxOpenTime
      if highestAligned ≤ 0 then ({ w with candles := [], ready := false }, false)
      else
        { w with lastKnownMaxTimestamp := highestAligned }.rebuildWindowFromHighest e gridTime
          highestAligned

/-- The constructor. -/
def construct (e : DatabaseEngine) (gridTime : GridTime) : GridJapaneseCandle :=
  (rebuildWindow {} e gridTime).1

def actualize (w : GridJapaneseCandle) (gridTime : GridTime) : GridJapaneseCandle :=
  if !w.ready || w.candles.isEmpty then w
  else { w with candles := w.candles.map fun candle => candle.actualize gridTime }

def displacement (w : GridJapaneseCandle) (e : DatabaseEngine) (gridTime : GridTime) :
    GridJapaneseCandle :=
  if !e.isReady then { w with ready := false }
  else if !w.ready || w.candles.isEmpty then w
  else
    let (w, _) := w.refreshDataRange e
    let highestTimestampMs := w.clampToRange w.HighestTime
    if highestTimestampMs ≠ w.HighestTime then
      (w.rebuildWindowFromHighest e gridTime highestTimestampMs).1
    else w

def spectatorModeActualize (w : GridJapaneseCandle) (e : DatabaseEngine) (gridTime : GridTime)
    (uninitialised : Int) : GridJapaneseCandle :=
  if !e.isReady then { w with ready := false }
  else
    match gridTime.getHighestTime with
    | none => w
    | some highest =>
      let (w, fresh) := w.refreshDataRange e
      if !fresh then { w with candles := [], ready := false }
      else
        let requestedHighest := w.clampToRange (alignToMinute highest)
        let (w, rebuilt) :=
          if !w.ready || requestedHighest ≠ w.HighestTime then
            w.rebuildWindowFromHighest e gridTime requestedHighest
          else (w, false)
        if rebuilt then w
        else
          match e.getLastEventTimestamp uninitialised with
          | none => w
          | some latest =>
            let alignedLatest := alignToMinute latest
            if alignedLatest ≠ w.lastKnownMaxTimestamp then
              (w.rebuildWindowFromHighest e gridTime alignedLatest).1
            else w

/-! ## What a window shows -/

/-- Consecutive minutes, the newest first, each with the prices that the engine has for it, in
cents of a `float`, and ready to be drawn, and bounds of these prices. -/
structure ShowsWindow (w : GridJapaneseCandle) (e : DatabaseEngine) : Prop where
  times : w.candles.map JapaneseCandle.time = ticks w.HighestTime (-kMillisPerMinute) targetCandleCount
  prices : ∀ candle ∈ w.candles, candle.geometryReady = true ∧ ∃ open_ high low close,
    e.tryGetOHLC candle.time = some (open_, high, low, close) ∧
    candle.openPrice = some (toCents open_) ∧ candle.maxPrice = some (toCents high) ∧
    candle.minPrice = some (toCents low) ∧ candle.closePrice = some (toCents close)
  lowest : w.LowestTime = w.HighestTime - (targetCandleCount - 1 : Nat) * kMillisPerMinute
  known : w.lastKnownMaxTimestamp = w.HighestTime
  highestMax : ∀ candle ∈ w.candles, ∀ price ∈ candle.getMaxPrice, toFloat price ≤ w.highestMax
  lowestMin : ∀ candle ∈ w.candles, ∀ price ∈ candle.getMinPrice, w.lowestMin ≤ toFloat price

end GridJapaneseCandle

namespace JapaneseCandle

variable [MinuteUtils] [PriceCasts]

/-- A candle shows its data, whatever it was before. -/
theorem setOHLC_eq (candle : JapaneseCandle) (gridTime : GridTime) (data : OHLC) :
    candle.setOHLC gridTime data =
      { time := data.openTimeMs
        openPrice := some (toCents data.open_)
        closePrice := some (toCents data.close)
        maxPrice := some (toCents data.high)
        minPrice := some (toCents data.low)
        bodyPositionX := gridTime.getValuePosX (millisToMinutes data.openTimeMs)
        geometryReady := true } := rfl

theorem setPriceData_eq [TimeUtils] (candle : JapaneseCandle) (gridTime : GridTime)
    (record : MinuteRecord) :
    candle.setPriceData gridTime record.toPriceData = shown gridTime record := by
  unfold setPriceData
  rw [setOHLC_eq, floorToMinuteMs_of_dvd record.dvd_openTime]
  rfl

end JapaneseCandle

namespace GridJapaneseCandle

/-- A call on the window, with the engine and the timeline as they are then. -/
inductive WindowCall
  | rebuildWindow
  | actualize
  | displacement
  | spectatorModeActualize (uninitialised : Int)
  deriving DecidableEq, Repr

def call [MinuteUtils] [TimeUtils] [PriceCasts] (w : GridJapaneseCandle) (c : WindowCall)
    (e : DatabaseEngine) (gridTime : GridTime) : GridJapaneseCandle :=
  match c with
  | .rebuildWindow => (w.rebuildWindow e gridTime).1
  | .actualize => w.actualize gridTime
  | .displacement => w.displacement e gridTime
  | .spectatorModeActualize uninitialised => w.spectatorModeActualize e gridTime uninitialised

section Frame

variable [MinuteUtils] [TimeUtils] [PriceCasts] {v w : GridJapaneseCandle}

/-- A window that shows an engine goes on showing it. -/
structure Keeps (v w : GridJapaneseCandle) : Prop where
  ready : v.ready = w.ready
  shows : ∀ e, w.ShowsWindow e → v.ShowsWindow e

omit [MinuteUtils] in
theorem Keeps.refl (w : GridJapaneseCandle) : w.Keeps w := ⟨rfl, fun _ h => h⟩

end Frame

section Windows

variable [TimeUtils] [MinuteUtils] [PriceCasts] {e : DatabaseEngine} {w : GridJapaneseCandle}
  {gridTime : GridTime}

omit [PriceCasts] in
theorem clampToRange_newest (w : GridJapaneseCandle) (h : e.Ring) {front : MinuteRecord}
    (hf : e.cache.head? = some front) (hmin : w.minOpenTime = e.minOpenTime)
    (hmax : w.maxOpenTime = e.maxOpenTime) : w.clampToRange e.maxOpenTime = e.maxOpenTime := by
  obtain ⟨hpos, hle, hdvd, hfront⟩ := h.range hf
  unfold clampToRange
  rw [hmin, hmax, alignToMinute_of_dvd (hfront ▸ front.dvd_openTime),
    GridTime.alignToMinuteCeil_of_dvd hdvd hpos]
  simp only [Bool.and_eq_true, decide_eq_true_eq]
  split_ifs <;> omega

omit [MinuteUtils] [PriceCasts] in
/-- The span of the newest candles of an engine that is ready is its ring. -/
theorem span_newest (h : e.Ring) (hready : e.isReady = true) :
    e.cache.length = targetCandleCount ∧
      e.tryGetOHLCSpan
          (e.maxOpenTime - ((targetCandleCount - 1 : Nat) : Int) * kMillisPerMinute)
          targetCandleCount =
        (true, e.cache.reverse.map fun r => makeOHLC r.toPriceData) := by
  have hserves : e.Serves := h.serves_iff.mpr (h.isReady_iff.mp hready)
  obtain ⟨hlength, -, hlatest, -⟩ := hserves.2 targetCandleCount (by decide) (by decide)
  have hring : e.newest targetCandleCount = e.cache.reverse := by
    rw [DatabaseEngine.newest, h.cache]
    rfl
  rw [hring] at hlength hlatest
  rw [List.length_reverse] at hlength
  obtain ⟨front, hf⟩ : ∃ front, e.cache.head? = some front :=
    ⟨_, List.head?_eq_some_head fun hnil => by rw [hnil] at hlength; cases hlength⟩
  have hkey : e.historicalData.keys.getLast? = some e.maxOpenTime := by
    rw [keys_eq_map_values e.keyed, List.getLast?_map, ← h.head?_cache, hf, Option.map_some,
      (h.range hf).2.2.2]
  exact ⟨hlength, (latest_eq_iff (by decide) hkey _).mp hlatest⟩

/-- The window of an engine that is ready shows the ring. -/
theorem construct_newest (h : e.Ring) (gridTime : GridTime) (hready : e.isReady = true) :
    e.cache.length = targetCandleCount ∧ (construct e gridTime).isReady = true ∧
      (construct e gridTime).candles = e.cache.map (JapaneseCandle.shown gridTime) := by
  obtain ⟨hlength, hspan⟩ := span_newest h hready
  obtain ⟨front, rest, hcache⟩ : ∃ front rest, e.cache = front :: rest := by
    cases hc : e.cache with
    | nil =>
      rw [hc] at hlength
      cases hlength
    | cons front rest => exact ⟨front, rest, rfl⟩
  have hf : e.cache.head? = some front := by rw [hcache]; rfl
  obtain ⟨hpos, hle, -, hfront⟩ := h.range hf
  have hcandles : (e.cache.reverse.map fun r => makeOHLC r.toPriceData).reverse.map
      (fun data => ({ time := data.openTimeMs } : JapaneseCandle).setOHLC gridTime data) =
      e.cache.map (JapaneseCandle.shown gridTime) := by
    rw [← List.map_reverse, List.reverse_reverse, List.map_map]
    rfl
  have hfill (w : GridJapaneseCandle) :
      (w.fillWindow gridTime (e.cache.reverse.map fun r => makeOHLC r.toPriceData)).1.ready = true ∧
      (w.fillWindow gridTime (e.cache.reverse.map fun r => makeOHLC r.toPriceData)).1.candles =
        e.cache.map (JapaneseCandle.shown gridTime) := by
    rw [← hcandles]
    unfold fillWindow
    rw [List.head?_map, List.getLast?_map, List.head?_reverse, List.getLast?_reverse, hcache,
      List.getLast?_eq_some_getLast (List.cons_ne_nil front rest)]
    exact ⟨rfl, rfl⟩
  have hbuilt : (construct e gridTime).ready = true ∧
      (construct e gridTime).candles = e.cache.map (JapaneseCandle.shown gridTime) := by
    unfold construct rebuildWindow refreshDataRange
    rw [hready, h.range_some hf]
    dsimp only
    rw [if_neg (by decide), if_neg (by simp; omega),
      alignToMinute_of_dvd (hfront ▸ front.dvd_openTime), if_neg (by omega)]
    unfold rebuildWindowFromHighest
    dsimp only
    rw [clampToRange_newest _ h hf rfl rfl, hspan]
    exact hfill _
  refine ⟨hlength, ?_, hbuilt.2⟩
  rw [isReady, hbuilt.1, hbuilt.2, hcache]
  rfl

end Windows

/-- The window after calls, each with the engine and the timeline as they are then. -/
def after [MinuteUtils] [TimeUtils] [PriceCasts] (e₀ : DatabaseEngine) (gridTime₀ : GridTime)
    (calls : List (WindowCall × DatabaseEngine × GridTime)) : GridJapaneseCandle :=
  calls.foldl (fun w c => w.call c.1 c.2.1 c.2.2) (construct e₀ gridTime₀)

end GridJapaneseCandle

end TCV.Ui
