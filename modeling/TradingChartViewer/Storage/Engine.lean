import TradingChartViewer.Lib.TimeMap
import TradingChartViewer.Storage.PriceDataManager
import Mathlib.Order.WithBot

/-!
# The database engine

`DatabaseEngine`: the data file, the ring of the newest records (`cache`) and
the map of all records by minute (`historicalData`).

* `MinuteRecord`: a record that passed `normalizeRecord` and `isValidRecord`;
* `ingestRecords`, `rebuildCacheFromHistorical`, `updateCache` and
  `updateWithNewData`; `DatabaseEngine.opened`: the constructor;
* `ingestRecords_of_ascending`, `rebuildCacheFromHistorical_cases` and
  `updateCache_cases`: what these leave.
-/

namespace TCV.Storage

open TCV.Domain Lib.TimeMap

variable [TimeUtils]

/-! ## Records of a minute -/

/-- A valid record that `normalizeRecord` leaves alone. -/
structure MinuteRecord extends PriceData where
  valid : isValidRecord toPriceData = true
  normal : normalizeRecord toPriceData = toPriceData
  deriving DecidableEq

theorem MinuteRecord.ext' {a b : MinuteRecord} (h : a.toPriceData = b.toPriceData) : a = b := by
  cases a
  cases b
  cases h
  rfl

/-- `normalizeRecord`, then `isValidRecord`. -/
def normalizedRecord? (record : PriceData) : Option MinuteRecord :=
  if h : isValidRecord (normalizeRecord record) = true then
    some ⟨normalizeRecord record, h, normalizeRecord_idem h⟩
  else none

theorem normalizedRecord?_toPriceData (r : MinuteRecord) :
    normalizedRecord? r.toPriceData = some r := by
  have h : isValidRecord (normalizeRecord r.toPriceData) = true := by
    rw [r.normal]
    exact r.valid
  rw [normalizedRecord?, dif_pos h]
  exact congrArg some (MinuteRecord.ext' r.normal)

theorem openTime_of_normalizedRecord? {r : PriceData} {m : MinuteRecord}
    (h : normalizedRecord? r = some m) : m.openTime = floorToMinuteMs r.openTime := by
  unfold normalizedRecord? at h
  split at h
  · rename_i hv
    cases h
    exact normalizeRecord_openTime hv
  · cases h

/-- `historicalData_`. -/
abbrev Historical := Std.ExtTreeMap Int MinuteRecord

/-- `DatabaseEngine::normalizeRecords`: of the records of a minute the last one
stays. -/
def normalizeRecords (records : List PriceData) : List MinuteRecord :=
  values (insertAll (fun r : MinuteRecord => r.openTime) ∅ (records.filterMap normalizedRecord?))

theorem normalizeRecords_pairwise (records : List PriceData) :
    (normalizeRecords records).Pairwise fun a b => a.openTime < b.openTime :=
  values_pairwise (keyed_empty.insertAll _)

theorem filterMap_toPriceData (records : List MinuteRecord) :
    (records.map fun r => r.toPriceData).filterMap normalizedRecord? = records := by
  rw [List.filterMap_map]
  exact (List.filterMap_congr fun r _ => normalizedRecord?_toPriceData r).trans List.filterMap_some

theorem normalizeRecords_of_ascending {records : List MinuteRecord}
    (h : records.Pairwise fun a b => a.openTime < b.openTime) :
    normalizeRecords (records.map fun r => r.toPriceData) = records := by
  rw [normalizeRecords, filterMap_toPriceData]
  exact values_insertAll h

/-! ## The engine -/

/-- `WARMUP_CANDLES`. -/
def WARMUP_CANDLES : Nat := 200

/-- `cacheSize`. -/
def cacheSize : Nat := 20

/-- The state of `DatabaseEngine` besides its observers. The front of `cache`
is its first element; `⊥` and `⊤` are the lowest and the greatest `double`. -/
structure DatabaseEngine where
  file : DataFile
  cache : List MinuteRecord := []
  historicalData : Historical := ∅
  previousTimestamp : Int := 0
  currentMaxPrice : WithBot Price := ⊥
  currentMinPrice : WithTop Price := ⊤
  dataReady : Bool := false
  readinessAnchor : Int := 0
  readinessAnnounced : Bool := false
  minOpenTime : Int := 0
  maxOpenTime : Int := 0
  keyed : Keyed (fun r : MinuteRecord => r.openTime) historicalData

/-- The loop of `hasConsecutiveCandlesLocked`, with `required - count` left. -/
def consecutiveFrom (expected : Int) : Nat → List Int → Bool
  | 0, _ => true
  | _ + 1, [] => false
  | left + 1, key :: keys => key = expected && consecutiveFrom (expected - kMillisPerMinute) left keys

/-- `hasConsecutiveCandlesLocked`, with the value it leaves in `lastTimestamp`
(0 before the call). -/
def hasConsecutiveCandlesLocked (historicalData : Historical) (required : Nat) : Bool × Int :=
  if required = 0 then (true, 0)
  else
    let keys := historicalData.keys.reverse
    match keys with
    | [] => (false, 0)
    | newest :: _ => (consecutiveFrom (floorToMinuteMs newest) required keys, newest)

/-- The locked section of `ingestRecords`. -/
def ingest (e : DatabaseEngine) (normalized : List MinuteRecord) : DatabaseEngine :=
  let historicalData := insertAll (fun r : MinuteRecord => r.openTime) e.historicalData normalized
  let (hasWindow, anchorTimestamp) := hasConsecutiveCandlesLocked historicalData WARMUP_CANDLES
  let becameReady := !e.dataReady && hasWindow
  { e with
    historicalData := historicalData
    keyed := e.keyed.insertAll normalized
    minOpenTime := historicalData.minKey?.getD e.minOpenTime
    maxOpenTime := historicalData.maxKey?.getD e.maxOpenTime
    dataReady := hasWindow
    readinessAnchor := if hasWindow then anchorTimestamp else 0
    readinessAnnounced := hasWindow && (e.readinessAnnounced || becameReady) }

/-- `ingestRecords`. -/
def ingestRecords (e : DatabaseEngine) (records : List PriceData) : DatabaseEngine :=
  let normalized := normalizeRecords records
  if normalized.isEmpty then e else ingest e normalized

/-- `ingestRecord`. -/
def ingestRecord (e : DatabaseEngine) (record : PriceData) : DatabaseEngine :=
  ingestRecords e [record]

/-- `rebuildCacheFromHistorical`: the ring is filled with the newest records. -/
def rebuildCacheFromHistorical (e : DatabaseEngine) : DatabaseEngine :=
  let latest := (values e.historicalData).reverse.take cacheSize
  let maxPrice := latest.foldl (fun maxPrice record => max maxPrice (record.highPrice : WithBot Price)) ⊥
  let minPrice := latest.foldl (fun minPrice record => min minPrice (record.lowPrice : WithTop Price)) ⊤
  match latest with
  | [] => { e with cache := [] }
  | front :: _ => { e with
      cache := latest
      previousTimestamp := front.openTime
      currentMaxPrice := maxPrice
      currentMinPrice := minPrice }

/-- The prices of a record that is put at the front of a ring with records. -/
def updatePrices (e : DatabaseEngine) (record : MinuteRecord) : DatabaseEngine :=
  { e with
    currentMaxPrice := max e.currentMaxPrice record.highPrice
    currentMinPrice := min e.currentMinPrice record.lowPrice }

/-- The locked section of `updateWithNewData`: the new state with
`closedCandle`, unless the record is stale. -/
def updateCache (e : DatabaseEngine) (normalized : MinuteRecord) :
    Option (DatabaseEngine × Option MinuteRecord) :=
  match e.cache with
  | front :: rest =>
    if front.openTime < normalized.openTime then
      some ({ updatePrices e normalized with
        cache := (normalized :: front :: rest).take cacheSize
        previousTimestamp := normalized.openTime }, some front)
    else if normalized.openTime = front.openTime then
      some ({ updatePrices e normalized with cache := normalized :: rest }, none)
    else none
  | [] => some ({ e with
      cache := [normalized]
      previousTimestamp := normalized.openTime
      currentMaxPrice := normalized.highPrice
      currentMinPrice := normalized.lowPrice }, none)

/-- `manager.saveRecord`. -/
def DatabaseEngine.saveRecord (e : DatabaseEngine) (record : MinuteRecord) : DatabaseEngine :=
  { e with file := Storage.saveRecord e.file record.toPriceData }

/-- `manager.saveRecords`. -/
def DatabaseEngine.saveRecords (e : DatabaseEngine) (records : List MinuteRecord) : DatabaseEngine :=
  { e with file := Storage.saveRecords e.file (records.map fun r => r.toPriceData) }

/-- `updateWithNewData`, with no other thread in between. -/
def updateWithNewData (e : DatabaseEngine) (data : PriceData) : DatabaseEngine :=
  match normalizedRecord? data with
  | none => e
  | some normalized =>
    match updateCache e normalized with
    | none => e
    | some (e, some closedCandle) =>
      ingestRecord (e.saveRecord closedCandle) normalized.toPriceData
    | some (e, none) => ingestRecord e normalized.toPriceData

/-- The constructor of `DatabaseEngine` on a data file. `PriceData()` leaves
`openTime` as it finds it, so that of the last record of an empty file is a
parameter. -/
def DatabaseEngine.opened (file : DataFile) (uninitialised : Int) : DatabaseEngine :=
  let e := rebuildCacheFromHistorical
    (ingestRecords { file := file, keyed := keyed_empty } (readAllRecords file))
  let e := { e with previousTimestamp := e.maxOpenTime }
  { e with
    previousTimestamp := floorToMinuteMs ((file.records.getLast?.map (·.openTime)).getD uninitialised) }

/-! ## What the operations leave -/

section Operations

variable (e : DatabaseEngine) (l : List MinuteRecord)

theorem ingest_historicalData : (ingest e l).historicalData =
    insertAll (fun r : MinuteRecord => r.openTime) e.historicalData l := rfl

/-- Records that are stored again take the normalisation once more. -/
theorem ingestRecords_of_ascending (hl : l ≠ [])
    (h : l.Pairwise fun a b => a.openTime < b.openTime) :
    ingestRecords e (l.map fun r => r.toPriceData) = ingest e l := by
  rw [ingestRecords, normalizeRecords_of_ascending h]
  exact if_neg (by simpa using hl)

theorem ingestRecord_eq (r : MinuteRecord) : ingestRecord e r.toPriceData = ingest e [r] :=
  ingestRecords_of_ascending e [r] (List.cons_ne_nil r []) (List.pairwise_singleton _ r)

theorem getElem?_ingest_singleton (r : MinuteRecord) (t : Int) :
    (ingest e [r]).historicalData[t]? = if r.openTime = t then some r else e.historicalData[t]? :=
  getElem?_insert_self_or _ _ _ _

@[simp] theorem rebuildCacheFromHistorical_file :
    (rebuildCacheFromHistorical e).file = e.file := by
  unfold rebuildCacheFromHistorical
  dsimp only
  split <;> rfl

@[simp] theorem rebuildCacheFromHistorical_historicalData :
    (rebuildCacheFromHistorical e).historicalData = e.historicalData := by
  unfold rebuildCacheFromHistorical
  dsimp only
  split <;> rfl

@[simp] theorem ingestRecords_file (records : List PriceData) :
    (ingestRecords e records).file = e.file := by
  unfold ingestRecords
  dsimp only
  split <;> rfl

@[simp] theorem opened_file (file : DataFile) (uninitialised : Int) :
    (DatabaseEngine.opened file uninitialised).file = file := by
  simp [DatabaseEngine.opened]

/-- A rebuild empties the ring of an empty store. Else the newest record comes
to the front, and the cursor goes there. -/
theorem rebuildCacheFromHistorical_cases :
    ((∀ t : Int, e.historicalData[t]? = none) ∧ (rebuildCacheFromHistorical e).cache = [] ∧
      (rebuildCacheFromHistorical e).previousTimestamp = e.previousTimestamp) ∨
    ∃ front, (rebuildCacheFromHistorical e).cache.head? = some front ∧
      (rebuildCacheFromHistorical e).previousTimestamp = front.openTime ∧
      e.historicalData[front.openTime]? = some front ∧
      ∀ (t : Int) r, e.historicalData[t]? = some r → t ≤ front.openTime := by
  unfold rebuildCacheFromHistorical
  dsimp only
  cases hl : (values e.historicalData).reverse.take cacheSize with
  | nil =>
    refine Or.inl ⟨fun t => ?_, rfl, rfl⟩
    have hnil : values e.historicalData = [] := by simpa [cacheSize] using hl
    cases ht : e.historicalData[t]? with
    | none => rfl
    | some r =>
      have hr := e.keyed t r ht
      subst hr
      have hmem := (mem_values_iff e.keyed).mpr ht
      rw [hnil] at hmem
      cases hmem
  | cons front rest =>
    have hlast : (values e.historicalData).getLast? = some front := by
      rw [← List.head?_reverse]
      cases hv : (values e.historicalData).reverse with
      | nil =>
        rw [hv] at hl
        cases hl
      | cons r rs =>
        rw [hv, cacheSize, List.take_succ_cons] at hl
        rw [List.head?_cons, (List.cons.inj hl).1]
    exact Or.inr ⟨front, rfl, rfl, (mem_values_iff e.keyed).mp (List.mem_of_getLast? hlast),
      fun t r ht => le_of_getLast?_values e.keyed hlast ht⟩

theorem stored_of_front {front : MinuteRecord}
    (h : (rebuildCacheFromHistorical e).cache.head? = some front) :
    e.historicalData[front.openTime]? = some front := by
  rcases rebuildCacheFromHistorical_cases e with ⟨-, hcache, -⟩ | ⟨front', hcache, -, hfront, -⟩
  · rw [hcache] at h
    cases h
  · rw [hcache] at h
    obtain rfl := Option.some.inj h
    exact hfront

end Operations

/-- What an accepted record does to the ring: it becomes the new front after
the old one, which is closed, or takes the place of the front of its minute. -/
theorem updateCache_cases {e e' : DatabaseEngine} {r : MinuteRecord} {closed : Option MinuteRecord}
    (h : updateCache e r = some (e', closed)) :
    e'.historicalData = e.historicalData ∧ e'.file = e.file ∧ e'.cache.head? = some r ∧
      ((closed = e.cache.head? ∧ (∀ front ∈ e.cache.head?, front.openTime < r.openTime) ∧
          e'.previousTimestamp = r.openTime) ∨
        ∃ front, e.cache.head? = some front ∧ front.openTime = r.openTime ∧ closed = none ∧
          e'.previousTimestamp = e.previousTimestamp) := by
  unfold updateCache at h
  split at h
  · rename_i front rest hcache
    rw [hcache]
    split at h
    · rename_i hlt
      cases h
      exact ⟨rfl, rfl, rfl, Or.inl ⟨rfl, fun f hf => Option.some.inj hf ▸ hlt, rfl⟩⟩
    · split at h
      · rename_i heq
        cases h
        exact ⟨rfl, rfl, rfl, Or.inr ⟨front, rfl, heq.symm, rfl, rfl⟩⟩
      · cases h
  · rename_i hcache
    rw [hcache]
    cases h
    exact ⟨rfl, rfl, rfl, Or.inl ⟨rfl, (fun f hf => by cases hf), rfl⟩⟩

end TCV.Storage
