import TradingChartViewer.Domain.Types

/-!
# The indicator engine

`IndicatorEngine::computeEMA` with exact numbers: `float` and `double` do not
round, and a quiet NaN is `none`.

* `computeEMA`: the average; `computeEMA_congr`: it reads the closes alone.
-/

namespace TCV.Indicators

open TCV.Domain

structure SeriesVersion where
  lastClosedOpenTimeMs : Int := 0
  candleCount : Nat := 0
  deriving DecidableEq, Repr

structure EmaParams where
  period : Int := 20
  deriving DecidableEq, Repr

def EmaParams.name (params : EmaParams) : String := "EMA(" ++ toString params.period ++ ")"

structure IndicatorSeries where
  id : String
  values : List (Option Rat)
  deriving DecidableEq, Repr

/-- `static_cast<std::size_t>` of an `int`. -/
def sizeOfInt (value : Int) : Nat := (value % 2 ^ 64).toNat

def smoothingFactor (period : Int) : Rat := if period ≤ 0 then 0 else 2 / (period + 1)

/-- The values from a candle on, and `ema` is the value before it. -/
def emaLoop (alpha ema : Rat) : List Price → List (Option Rat)
  | [] => []
  | price :: rest =>
    let ema := (price - ema) * alpha + ema
    some ema :: emaLoop alpha ema rest

def computeEMA (candles : CandleSeries) (params : EmaParams) : IndicatorSeries :=
  let candleCount := candles.data.length
  let series : IndicatorSeries := { id := params.name, values := List.replicate candleCount none }
  if params.period ≤ 0 || candleCount = 0 then series
  else if candleCount < sizeOfInt params.period then series
  else
    let period := sizeOfInt params.period
    let closes := candles.data.map Candle.close
    let sum : Rat := (closes.take period).foldl (· + ·) 0
    let ema := sum / period
    { series with
      values := List.replicate (period - 1) none ++
        some ema :: emaLoop (smoothingFactor params.period) ema (closes.drop period) }

theorem computeEMA_congr {as bs : CandleSeries}
    (h : as.data.map Candle.close = bs.data.map Candle.close) (params : EmaParams) :
    computeEMA as params = computeEMA bs params := by
  have hlen := congrArg List.length h
  rw [List.length_map, List.length_map] at hlen
  unfold computeEMA
  rw [h, hlen]

end TCV.Indicators
