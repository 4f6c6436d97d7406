import TradingChartViewer.Lib.Loop
import TradingChartViewer.Storage.Series

/-!
# The sync orchestrator

`SyncOrchestrator`: the backfill loop, the gap repair, the paging thread and
the live handler, over one repository and one market source. What only
publishes or logs (`publishSnapshot`, the log lines, `cfg_.trace`) and the
waits between pages change neither and are left out.

* `backfillBody`, `loopStart`: the paging loop of `runBackfill`;
* `repairGap`: the repair after a `Gap`;
* `requestBackfillOlder`, `handleLiveCandle`: the other writers.
-/

namespace TCV.App

open TCV.Domain TCV.Storage

variable [TimeUtils]

/-- `MarketSource::fetchRange` at one moment, for the configured symbol and
interval. -/
abbrev Market := TimeRange → Nat → List Candle

structure SyncConfig where
  restBatch : Nat := 1000
  interval : List Char := "1m".toList
  candleInterval : Interval := { ms := kMillisPerMinute }
  deriving DecidableEq, Repr

def alignDown (value step : Int) : Int := if 0 < step then value.tdiv step * step else value

def intervalToMs (label : List Char) : Int :=
  if label.isEmpty then kMillisPerMinute
  else
    let parsed := intervalFromLabel label
    if parsed.valid then parsed.ms else kMillisPerMinute

def seedBarsFor (interval : List Char) : Nat :=
  let lower := interval.map Char.toLower
  if lower = "1m".toList then 7 * 24 * 60
  else if lower = "5m".toList then 7 * 24 * 12
  else if lower = "15m".toList then 30 * 24 * 4
  else if lower = "1h".toList then 60 * 24
  else if lower = "4h".toList then 90 * 24 / 4
  else if lower = "1d".toList then 365
  else 7 * 24 * 60

/-- `clampIntervalMs` of `SyncOrchestrator.cpp`. -/
def clampIntervalMs (cfg : SyncConfig) : Int :=
  if 0 < cfg.candleInterval.ms then cfg.candleInterval.ms else intervalToMs cfg.interval

structure Orchestrator where
  repo : Repository
  running : Bool := false
  backfilling : Bool := false
  pagingBackfill : Bool := false
  repairing : Bool := false
  widenedOnce : Bool := false
  deriving DecidableEq, Repr

/-! ## Appending -/

/-- The loops that append candle by candle up to the first `Gap`: the result of
that gap, if there is one, and the repository. -/
def appendUntilGap (repo : Repository) : List Candle → Option AppendResult × Repository
  | [] => (none, repo)
  | candle :: rest =>
    let (result, repo) := repo.appendOrReplace candle
    if result.state = .gap then (some result, repo) else appendUntilGap repo rest

/-- The number of candles `repairGap` asks for. -/
def repairLimit (gap : AppendResult) (intervalMs : Int) : Nat :=
  let span := gap.expectedTo - gap.expectedFrom
  let limit := (span / intervalMs).toNat
  let limit := if span % intervalMs ≠ 0 then limit + 1 else limit
  if limit = 0 then 1 else limit

def repairGap (cfg : SyncConfig) (market : Market) (s : Orchestrator) (gap : AppendResult)
    (batch : List Candle) : Orchestrator :=
  if s.repairing then s
  else
    let intervalMs := clampIntervalMs cfg
    if intervalMs ≤ 0 then s
    else if gap.expectedTo ≤ gap.expectedFrom then s
    else
      -- `repairing_` is set here and reset on every way out.
      let missingRange : TimeRange := ⟨gap.expectedFrom, gap.expectedTo - 1⟩
      let missing := market missingRange (repairLimit gap intervalMs)
      let (_, repo) := appendUntilGap s.repo missing
      let retry := batch.filter fun candle =>
        gap.expectedTo ≤ alignDownMs candle.openTime intervalMs
      let (_, repo) := appendUntilGap repo retry
      { s with repo := repo }

/-! ## The paging loop -/

/-- The variables `runBackfill` sets before its loop and does not change in it. -/
structure BackfillWindow where
  intervalMs : Int
  repoEmpty : Bool
  seedEnd : Int
  widenAmount : Int
  deriving DecidableEq, Repr

/-- The variables of the loop. -/
structure BackfillState where
  sync : Orchestrator
  metadata : RepoMetadata
  nextFetch : Int
  fetchedAny : Bool
  deriving DecidableEq, Repr

def batchLimit (cfg : SyncConfig) : Nat := max cfg.restBatch 1

/-- The part of `runBackfill` before its loop, with the clock at `nowMs`. -/
def backfillWindow (cfg : SyncConfig) (repo : Repository) (nowMs : Int) : BackfillWindow × Int :=
  let intervalMs := clampIntervalMs cfg
  let repoEmpty := repo.metadata.count = 0 || repo.metadata.maxOpen ≤ 0
  let seedBars := max (seedBarsFor cfg.interval) 1
  let seedSpanMs := if repoEmpty then intervalMs * seedBars else 0
  let seedEnd := if repoEmpty then alignDown nowMs intervalMs else 0
  let nextFetch :=
    if repoEmpty then max 0 (seedEnd - seedSpanMs) else repo.metadata.maxOpen + intervalMs
  let widenAmount := seedSpanMs
  let widenAmount := if widenAmount ≤ 0 then intervalMs * batchLimit cfg else widenAmount
  let widenAmount := if widenAmount ≤ 0 then intervalMs else widenAmount
  ({ intervalMs := intervalMs, repoEmpty := repoEmpty, seedEnd := seedEnd,
     widenAmount := widenAmount }, nextFetch)

/-- The state at the head of the first iteration. -/
def loopStart (cfg : SyncConfig) (s : Orchestrator) (nowMs : Int) : BackfillState :=
  { sync := { s with backfilling := true, widenedOnce := false }
    metadata := s.repo.metadata
    nextFetch := (backfillWindow cfg s.repo nowMs).2
    fetchedAny := false }

/-- The request of an iteration, if the loop goes on to make one. -/
def backfillRequest (cfg : SyncConfig) (w : BackfillWindow) (nextFetch : Int) :
    Option TimeRange :=
  if w.repoEmpty && 0 < w.seedEnd && w.seedEnd < nextFetch then none
  else
    let span := w.intervalMs * batchLimit cfg
    let span := if span ≤ 0 then w.intervalMs else span
    if span ≤ 0 then none
    else
      let requestEnd := nextFetch + span - 1
      let cappedEnd := w.seedEnd + w.intervalMs - 1
      let requestEnd :=
        if w.repoEmpty && 0 < w.seedEnd && nextFetch ≤ cappedEnd then min requestEnd cappedEnd
        else requestEnd
      let requestRange : TimeRange := ⟨nextFetch, requestEnd⟩
      if requestRange.empty then none else some requestRange

/-- The part of an iteration that hands a page to the repository. -/
def appendPage (cfg : SyncConfig) (market : Market) (s : Orchestrator) (candles : List Candle) :
    Bool × Orchestrator :=
  let (gapResult, repo) := appendUntilGap s.repo candles
  let s := { s with repo := repo }
  match gapResult with
  | none => (false, s)
  | some gap => (true, repairGap cfg market s gap candles)

/-- One iteration of the paging loop of `runBackfill`. -/
def backfillBody (cfg : SyncConfig) (market : Market) (w : BackfillWindow) (s : BackfillState) :
    BackfillState ⊕ BackfillState :=
  if !s.sync.running then .inr s
  else
    match backfillRequest cfg w s.nextFetch with
    | none => .inr s
    | some requestRange =>
      let candles := market requestRange (batchLimit cfg)
      if candles.isEmpty then
        if !s.fetchedAny && w.repoEmpty && !s.sync.widenedOnce && 0 < w.widenAmount then
          .inl { s with
            sync := { s.sync with widenedOnce := true }
            nextFetch := max 0 (s.nextFetch - w.widenAmount) }
        else .inr s
      else
        let (gapDetected, sync) := appendPage cfg market s.sync candles
        let metadata := sync.repo.metadata
        if metadata.count = 0 then
          .inl { s with sync := sync, metadata := metadata, fetchedAny := true }
        else
          let s : BackfillState :=
            { sync := sync, metadata := metadata, nextFetch := metadata.maxOpen + w.intervalMs,
              fetchedAny := true }
          let morePages := !(candles.length < batchLimit cfg && !gapDetected)
          if morePages then .inl s else .inr s

/-- The loop ends with the worker still running, and `startLiveStream` is
called next. -/
def StartsLiveStream (cfg : SyncConfig) (market : Market) (s : Orchestrator) (nowMs : Int) : Prop :=
  ∃ t, Lib.Loop.Ends (backfillBody cfg market (backfillWindow cfg s.repo nowMs).1)
    (loopStart cfg s nowMs) t ∧ t.sync.running = true

/-! ## Paging and live candles -/

/-- The call and its paging thread, run to its end. -/
def requestBackfillOlder (sort : StdSort) (cfg : SyncConfig) (market : Market) (s : Orchestrator)
    (startOpen : Int) (candles : Nat) : Orchestrator :=
  if candles = 0 then s
  else if !s.running || s.backfilling then s
  else if s.pagingBackfill then s
  else
    let intervalMs := clampIntervalMs cfg
    if intervalMs ≤ 0 then s
    else
      let safeStart := max 0 startOpen
      let span := intervalMs * (max candles 1 : Nat)
      let span := if span ≤ 0 then intervalMs else span
      let range : TimeRange := ⟨safeStart, safeStart + span - 1⟩
      let fetched := market range candles
      if fetched.isEmpty then s
      else (appendPage cfg market s (sort.run fetched)).2

def handleLiveCandle (s : Orchestrator) (live : LiveCandle) : Orchestrator :=
  if !s.running then s
  else
    -- A `Gap` is only logged.
    let (_, repo) := s.repo.appendOrReplace live.candle
    { s with repo := repo }

end TCV.App
