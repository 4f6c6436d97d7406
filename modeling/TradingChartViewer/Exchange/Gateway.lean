import TradingChartViewer.Domain.Labels
import TradingChartViewer.Lib.Loop
import TradingChartViewer.Lib.TimeMap
import Mathlib.Data.List.Infix

/-!
# The exchange gateway

`ExchangeGateway::fetchRange` and the REST page under it. The endpoint is a
parameter: what it answers to the n-th request of a call. A decimal in a reply
is the number `std::stod` reads from it; the waits between pages and retries,
and the log lines, change nothing and are left out.

* `decodeEntry`, `fetchRestPage`: one reply as candles;
* `fetchAttempts`: the retries;
* `fetchRangeBody`, `fetchRange`: the paging loop.
-/

namespace TCV.Exchange

open TCV.Domain

structure ExchangeGatewayConfig where
  restHost : List Char := "api.binance.com".toList
  restMaxLimit : Nat := 1000
  maxRetries : Int := 6
  deriving DecidableEq, Repr

/-! ## The endpoint -/

/-- What the gateway tells apart in a JSON value. A string comes with the number
`std::stod` reads from it, if it does not throw. -/
inductive JsonValue
  | int64 (n : Int)
  | string (number : Option Rat)
  | array (values : List JsonValue)
  | other

/-- The request's target. -/
structure RestQuery where
  host : List Char
  path : List Char
  symbol : List Char
  interval : List Char
  startTime : Option Int
  endTime : Option Int
  limit : Nat
  deriving DecidableEq, Repr

inductive RestReply
  /-- Connecting, writing or reading threw. -/
  | failed
  /-- A response, with its body unless parsing it throws. -/
  | response (status : Nat) (body : Option JsonValue)

/-- What the endpoint answers to the n-th request. -/
abbrev RestServer := Nat → RestQuery → RestReply

/-! ## One page -/

def kPriceEpsilon : Rat := 1 / 1000000000

def validateCandle (candle : Candle) : Bool :=
  let minPrice := min candle.open_ candle.close
  let maxPrice := max candle.open_ candle.close
  if kPriceEpsilon < candle.low - minPrice then false
  else if kPriceEpsilon < maxPrice - candle.high then false
  else if kPriceEpsilon < candle.low - candle.high then false
  else true

/-- `as_int64`, which throws on other values. -/
def JsonValue.asInt64 : JsonValue → Option Int
  | .int64 n => some n
  | _ => none

def parseDecimal : JsonValue → Option Rat
  | .string number => number
  | _ => none

/-- `static_cast<TradeCount>`, a 32-bit integer. -/
def toTradeCount (n : Int) : Int := (n + 2 ^ 31) % 2 ^ 32 - 2 ^ 31

/-- The loop body over the entries of a page: `none` if it throws, else the
candle unless the entry is skipped. -/
def decodeEntry (intervalMs : Int) : JsonValue → Option (Option Candle)
  | .array arr =>
    if arr.length < 12 then some none
    else do
      let rawOpen ← (arr.getD 0 .other).asInt64
      let openTime := alignDownMs rawOpen intervalMs
      if openTime ≤ 0 then return none
      let open_ ← parseDecimal (arr.getD 1 .other)
      let high ← parseDecimal (arr.getD 2 .other)
      let low ← parseDecimal (arr.getD 3 .other)
      let close ← parseDecimal (arr.getD 4 .other)
      let baseVolume ← parseDecimal (arr.getD 5 .other)
      let quoteVolume ← parseDecimal (arr.getD 7 .other)
      let trades ← (arr.getD 8 .other).asInt64
      let candle : Candle :=
        { openTime := openTime, closeTime := openTime + intervalMs - 1, open_ := open_
          high := high, low := low, close := close, baseVolume := baseVolume
          quoteVolume := quoteVolume, trades := toTradeCount (max trades 0), isClosed := true }
      if !validateCandle candle then return none
      return some candle
  | _ => some none

/-- The path for the kind of host. -/
def restPath (restHost : List Char) : List Char :=
  if "fapi".toList <:+: restHost then "/fapi/v1/klines".toList
  else if "dapi".toList <:+: restHost then "/dapi/v1/klines".toList
  else "/api/v3/klines".toList

/-- A page of the n-th request, unless it is not ok. -/
def fetchRestPage (cfg : ExchangeGatewayConfig) (server : RestServer) (n : Nat)
    (symbol interval : List Char) (startTime : Int) (endTime : Option Int) (limit : Nat)
    (intervalMs : Int) : Option (List Candle) :=
  let limit := if limit = 0 ∨ cfg.restMaxLimit < limit then cfg.restMaxLimit else limit
  let query : RestQuery :=
    { host := cfg.restHost
      path := restPath cfg.restHost
      symbol := symbol
      interval := interval
      startTime := if 0 < startTime then some startTime else none
      endTime := endTime.filter (0 < ·)
      limit := limit }
  match server n query with
  | .failed => none
  | .response status body =>
    if status ≠ 200 then none
    else
      match body with
      | some (.array entries) => (entries.mapM (decodeEntry intervalMs)).map fun page => page.filterMap id
      | _ => none

/-! ## The paging loop -/

/-- The requests for one page, up to the first that is ok: the page, if there is
one, and the number of the next request. -/
def fetchAttempts (fetch : Nat → Option (List Candle)) : Nat → Nat → Option (List Candle) × Nat
  | 0, n => (fetch n, n + 1)
  | attempts + 1, n =>
    match fetch n with
    | some page => (some page, n + 1)
    | none => fetchAttempts fetch attempts (n + 1)

/-- The variables of the loop, and the number of the next request. -/
structure FetchState where
  cursor : Int
  ordered : Std.ExtTreeMap Int Candle := ∅
  requests : Nat := 0

def effectiveLimit (cfg : ExchangeGatewayConfig) (limit : Nat) : Nat :=
  if limit = 0 then cfg.restMaxLimit else min limit cfg.restMaxLimit

/-- One iteration of the loop of `fetchRange`. -/
def fetchRangeBody (cfg : ExchangeGatewayConfig) (server : RestServer) (symbol intervalLabel : List Char)
    (intervalMs : Int) (range : TimeRange) (limit : Nat) (s : FetchState) :
    FetchState ⊕ Std.ExtTreeMap Int Candle :=
  let effectiveLimit := effectiveLimit cfg limit
  if range.end_ < s.cursor then .inr s.ordered
  else
    let endTime : Option Int :=
      if 0 < intervalMs ∧ 0 < effectiveLimit then
        some (min range.end_ (s.cursor + intervalMs * effectiveLimit - 1))
      else none
    let (page, requests) := fetchAttempts
      (fun n => fetchRestPage cfg server n symbol intervalLabel s.cursor endTime effectiveLimit intervalMs)
      (max cfg.maxRetries 0).toNat s.requests
    match page with
    | none => .inr s.ordered
    | some data =>
      match data.getLast? with
      | none => .inr s.ordered
      | some last =>
        let inRange := data.filter fun candle =>
          !(candle.openTime < range.start || range.end_ < candle.openTime)
        let ordered := Lib.TimeMap.insertAll Candle.openTime s.ordered inRange
        let lastFetched := last.openTime
        let cursor :=
          if lastFetched ≤ s.cursor then s.cursor + intervalMs else lastFetched + intervalMs
        if data.length < effectiveLimit then .inr ordered
        else .inl { cursor := cursor, ordered := ordered, requests := requests }

/-- The interval's name in a request. -/
def requestLabel (interval : Interval) : List Char :=
  if (intervalLabel interval).isEmpty then "1m".toList else intervalLabel interval

/-- Enough iterations for every range: `fetchRange_ends`. -/
def fetchFuel (range : TimeRange) : Nat := (range.end_ - range.start + 2).toNat

def fetchRange (cfg : ExchangeGatewayConfig) (server : RestServer) (symbol : List Char)
    (interval : Interval) (range : TimeRange) (limit : Nat) : List Candle :=
  if range.empty then []
  else if !interval.valid then []
  else
    let body := fetchRangeBody cfg server symbol (requestLabel interval) interval.ms range limit
    let ordered := (Lib.Loop.runFor body (fetchFuel range) { cursor := range.start }).getD ∅
    Lib.TimeMap.values ordered

end TCV.Exchange
