import TradingChartViewer.Domain.Labels
import TradingChartViewer.Storage.PriceDataManager
import Mathlib.Data.List.Sort

/-!
# The time series repository

`PriceDataTimeSeriesRepository`: the candles in memory, their metadata and the
record file behind them. Every public operation holds the repository's mutex,
so each is one atomic function of the repository.

* `appendOrReplaceLocked`: where a candle goes (a new series, the last candle
  replaced, one candle appended, `Overlap`, `Gap`);
* `appendBatch`, `sealOpenTailIfAny`: the other two writers;
* `construct`: the constructor, which loads the candles back from the file.
-/

namespace TCV.Storage

open TCV.Domain

structure Repository where
  file : DataFile
  symbol : List Char
  interval : Interval
  intervalMs : Int
  intervalLabel : List Char
  candles : List Candle
  metadata : RepoMetadata
  hasGap : Bool
  deriving DecidableEq, Repr

/-- What `std::sort` by open time may do with a list: any arrangement of it
that ascends (it is not stable). -/
structure StdSort where
  run : List Candle → List Candle
  perm : ∀ l, (run l).Perm l
  sorted : ∀ l, (run l).Pairwise fun lhs rhs => lhs.openTime ≤ rhs.openTime

/-- One such arrangement. -/
def StdSort.insertion : StdSort where
  run := List.insertionSort fun lhs rhs => lhs.openTime ≤ rhs.openTime
  perm := List.perm_insertionSort _
  sorted := by
    have : Std.Total fun lhs rhs : Candle => lhs.openTime ≤ rhs.openTime :=
      ⟨fun lhs rhs => Int.le_total lhs.openTime rhs.openTime⟩
    have : IsTrans Candle fun lhs rhs => lhs.openTime ≤ rhs.openTime :=
      ⟨fun _ _ _ => Int.le_trans⟩
    exact List.pairwise_insertionSort _

/-- `clampIntervalMs` of `PriceDataTimeSeriesRepository.cpp`. -/
def clampIntervalMs (interval : Interval) : Int :=
  if interval.valid && 0 < interval.ms then interval.ms else kMillisPerMinute

/-! ## Candles and records -/

def Repository.normalizeCandle (r : Repository) (candle : Candle) : Candle :=
  if 0 < r.intervalMs then
    let openTime := alignDownMs candle.openTime r.intervalMs
    { candle with
      openTime := openTime
      closeTime := if 0 < openTime then openTime + r.intervalMs - 1 else 0 }
  else candle

def Repository.toPriceData (r : Repository) (candle : Candle) : PriceData :=
  let alignedOpen := alignDownMs candle.openTime r.intervalMs
  { openTime := alignedOpen
    openPrice := candle.open_
    highPrice := candle.high
    lowPrice := candle.low
    closePrice := candle.close
    volume := candle.baseVolume
    closeTime :=
      if 0 < alignedOpen && 0 < r.intervalMs then alignedOpen + r.intervalMs - 1 else 0
    baseAssetVolume := candle.quoteVolume
    numberOfTrades := candle.trades
    takerBuyVolume := 0
    takerBuyBaseAssetVolume := 0
    symbol := strncpy 16 r.symbol
    interval := strncpy 8 r.intervalLabel }

def Repository.toCandle (r : Repository) (record : PriceData) : Candle :=
  let alignedOpen := alignDownMs record.openTime r.intervalMs
  { openTime := alignedOpen
    closeTime :=
      if 0 < alignedOpen && 0 < r.intervalMs then alignedOpen + r.intervalMs - 1 else 0
    open_ := record.openPrice
    high := record.highPrice
    low := record.lowPrice
    close := record.closePrice
    baseVolume := record.volume
    quoteVolume := record.baseAssetVolume
    trades := max record.numberOfTrades 0
    isClosed := true }

/-! ## Metadata -/

/-- One iteration of the loop of `refreshMetadataLocked`, over `metadata_` and
`firstClosed`. -/
def metadataStep (s : RepoMetadata × Bool) (candle : Candle) : RepoMetadata × Bool :=
  if !candle.isClosed then s
  else
    let minOpen := if s.2 then candle.openTime else s.1.minOpen
    ({ minOpen := minOpen, maxOpen := candle.openTime, count := s.1.count + 1 }, false)

/-- The metadata of a list of candles. -/
def metadataOf (candles : List Candle) : RepoMetadata := (candles.foldl metadataStep ({}, true)).1

def Repository.refreshMetadataLocked (r : Repository) : Repository :=
  { r with metadata := metadataOf r.candles }

/-! ## Writing -/

variable [TimeUtils]

def Repository.persistClosed (r : Repository) (candle : Candle) : Bool × Repository :=
  if !candle.isClosed then (false, r)
  else
    let record := r.toPriceData candle
    if !isValidRecord record then (false, r)
    else (true, { r with file := saveRecords r.file [record] })

/-- The end of the three accepting branches of `appendOrReplaceLocked`, after
`normalized` became the last candle. -/
def Repository.commit (r : Repository) (state : RangeState) (appended : Nat) (sealedDisk : Bool)
    (normalized : Candle) : AppendResult × Repository :=
  let (persisted, r) := if normalized.isClosed then r.persistClosed normalized else (false, r)
  let touchedDisk := persisted || sealedDisk
  let r := if touchedDisk then r.refreshMetadataLocked else r
  ({ state := state, appended := appended, touchedDisk := touchedDisk,
     liveOnly := !normalized.isClosed }, { r with hasGap := false })

def Repository.appendOrReplaceLocked (r : Repository) (candle : Candle) :
    AppendResult × Repository :=
  let normalized := r.normalizeCandle candle
  if !isValidRecord (r.toPriceData normalized) then ({}, r)
  else
    match r.candles.getLast? with
    | none => { r with candles := r.candles ++ [normalized] }.commit .ok 1 false normalized
    | some last =>
      let expected := last.openTime + r.intervalMs
      if normalized.openTime = last.openTime then
        if last.isClosed && !normalized.isClosed then ({ state := .overlap }, r)
        else
          { r with candles := r.candles.dropLast ++ [normalized] }.commit .replaced 0 false
            normalized
      else if normalized.openTime < expected then ({ state := .overlap }, r)
      else if expected < normalized.openTime then
        ({ state := .gap, expectedFrom := expected, expectedTo := normalized.openTime },
          { r with hasGap := true })
      else
        -- An open last candle is closed and persisted before the new one is appended.
        let (sealedDisk, r) :=
          if !last.isClosed then
            { r with candles := r.candles.dropLast ++ [last.sealed] }.persistClosed last.sealed
          else (false, r)
        { r with candles := r.candles ++ [normalized] }.commit .ok 1 sealedDisk normalized

def Repository.appendOrReplace (r : Repository) (candle : Candle) : AppendResult × Repository :=
  r.appendOrReplaceLocked candle

/-- The loop of `appendBatch`. -/
def Repository.appendSorted (r : Repository) (summary : AppendResult) :
    List Candle → AppendResult × Repository
  | [] => (summary, r)
  | candle :: rest =>
    let (result, r) := r.appendOrReplaceLocked candle
    let summary := { summary with
      appended := summary.appended + result.appended
      touchedDisk := summary.touchedDisk || result.touchedDisk
      liveOnly := summary.liveOnly || result.liveOnly }
    match result.state with
    | .gap =>
      ({ summary with
        state := .gap, expectedFrom := result.expectedFrom, expectedTo := result.expectedTo }, r)
    | .overlap =>
      let summary := if summary.state ≠ .gap then { summary with state := .overlap } else summary
      r.appendSorted summary rest
    | .replaced =>
      let summary := if summary.state = .ok then { summary with state := .replaced } else summary
      r.appendSorted summary rest
    | .ok => r.appendSorted summary rest

def Repository.appendBatch (sort : StdSort) (r : Repository) (batch : List Candle) :
    AppendResult × Repository :=
  if batch.isEmpty then ({}, r) else r.appendSorted {} (sort.run batch)

def Repository.hasTailOpenLocked (r : Repository) : Bool :=
  r.candles.getLast?.any fun tail => !tail.isClosed

def Repository.sealOpenTailIfAny (r : Repository) : AppendResult × Repository :=
  if !r.hasTailOpenLocked then ({}, r)
  else
    match r.candles.getLast? with
    | none => ({}, r)
    | some tail =>
      let r := { r with candles := r.candles.dropLast ++ [tail.sealed] }
      let (persisted, r) := r.persistClosed tail.sealed
      let r := if persisted then r.refreshMetadataLocked else r
      ({ state := .replaced, touchedDisk := persisted }, r)

/-! ## Loading -/

/-- One iteration of the loop of `loadHistoricalLocked`. -/
def Repository.loadRecord (r : Repository) (record : PriceData) : Repository :=
  if !isValidRecord record then r
  else
    let parsed := parseIntervalMs record.interval
    let r :=
      if record.interval ≠ [] && 0 < parsed then
        { r with
          intervalMs := parsed, interval := { ms := parsed }, intervalLabel := record.interval }
      else r
    { r with candles := r.candles ++ [r.toCandle record] }

def Repository.loadHistoricalLocked (sort : StdSort) (r : Repository) : Repository :=
  let r := (readAllRecords r.file).foldl Repository.loadRecord { r with candles := [] }
  let r := { r with candles := sort.run r.candles }
  let r :=
    if 0 < r.intervalMs then
      let interval : Interval := { ms := r.intervalMs }
      { r with
        interval := interval
        intervalLabel :=
          if r.intervalLabel.isEmpty then Domain.intervalLabel interval else r.intervalLabel }
    else r
  { r with hasGap := false }

/-- The constructor. -/
def Repository.construct (sort : StdSort) (file : DataFile) (symbol : List Char)
    (interval : Interval) : Repository :=
  let interval : Interval := if !interval.valid then { ms := kMillisPerMinute } else interval
  let label := Domain.intervalLabel interval
  let r : Repository :=
    { file := file
      symbol := symbol
      interval := interval
      intervalMs := clampIntervalMs interval
      intervalLabel := if label.isEmpty then "1m".toList else label
      candles := []
      metadata := {}
      hasGap := false }
  (r.loadHistoricalLocked sort).refreshMetadataLocked

/-- `intervalMs()`. -/
def Repository.getIntervalMs (r : Repository) : Int :=
  if 0 < r.intervalMs then r.intervalMs else r.interval.ms

end TCV.Storage
