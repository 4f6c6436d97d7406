import TradingChartViewer.Storage.Saving

/-!
# Ingesting records

What `ingestRecords` makes of lists of records, and what the constructor of `DatabaseEngine`
makes of its file.

* `Ingested`: the store and the state that is derived from it;
* `ingestRecords_ingested`: all of it, by the valid records of a list;
* `ingestRecords_pages`: a list in two parts is ingested like the whole, and once like twice;
* `newestMinute`: the minute of the newest valid record; `cursor_iff`: when the backfill starts
  there.
-/

namespace TCV.Storage

open TCV.Domain Lib.TimeMap

section

variable [TimeUtils]

/-! ## Pages -/

/-- The store, and what `ingestRecords` derives from it. -/
structure Ingested where
  historicalData : Historical
  minOpenTime : Int
  maxOpenTime : Int
  dataReady : Bool
  readinessAnchor : Int

def DatabaseEngine.ingested (e : DatabaseEngine) : Ingested :=
  ⟨e.historicalData, e.minOpenTime, e.maxOpenTime, e.dataReady, e.readinessAnchor⟩

/-- What is derived from a store with records. -/
def Ingested.ofStore (m : Historical) : Ingested :=
  let window := hasConsecutiveCandlesLocked m WARMUP_CANDLES
  { historicalData := m
    minOpenTime := m.minKey?.getD 0
    maxOpenTime := m.maxKey?.getD 0
    dataReady := window.1
    readinessAnchor := if window.1 then window.2 else 0 }

variable (e : DatabaseEngine)

theorem ingest_ingested {l : List MinuteRecord} (hl : l ≠ []) :
    (ingest e l).ingested =
      .ofStore (insertAll (fun r : MinuteRecord => r.openTime) e.historicalData l) := by
  have hne : insertAll (fun r : MinuteRecord => r.openTime) e.historicalData l ≠ ∅ :=
    fun h => hl (insertAll_eq_empty_iff.mp h).2
  unfold DatabaseEngine.ingested ingest Ingested.ofStore
  dsimp only
  rw [Std.ExtTreeMap.minKey?_eq_some_minKey hne, Std.ExtTreeMap.maxKey?_eq_some_maxKey hne,
    Option.getD_some, Option.getD_some, Option.getD_some, Option.getD_some]

theorem normalizeRecords_eq_nil_iff {records : List PriceData} :
    normalizeRecords records = [] ↔ records.filterMap normalizedRecord? = [] := by
  unfold normalizeRecords
  generalize records.filterMap normalizedRecord? = l
  have hk : Keyed (fun r : MinuteRecord => r.openTime) (insertAll (fun r => r.openTime) ∅ l) :=
    keyed_empty.insertAll l
  constructor
  · intro h
    have hm := insertAll_values hk
    rw [h] at hm
    exact (insertAll_eq_empty_iff.mp hm.symm).2
  · rintro rfl
    rfl

/-- A list without a valid record changes nothing; else its valid records go into the store. -/
theorem ingestRecords_ingested (records : List PriceData) :
    (ingestRecords e records).ingested =
      if records.filterMap normalizedRecord? = [] then e.ingested
      else .ofStore (insertAll (fun r : MinuteRecord => r.openTime) e.historicalData
        (records.filterMap normalizedRecord?)) := by
  unfold ingestRecords
  dsimp only
  by_cases h : normalizeRecords records = []
  · rw [if_pos (normalizeRecords_eq_nil_iff.mp h), if_pos (List.isEmpty_iff.mpr h)]
  · rw [if_neg (mt normalizeRecords_eq_nil_iff.mpr h), if_neg (mt List.isEmpty_iff.mp h),
      ingest_ingested e h, normalizeRecords, insertAll_values_insertAll]

theorem ingestRecords_historicalData (records : List PriceData) :
    (ingestRecords e records).historicalData =
      insertAll (fun r : MinuteRecord => r.openTime) e.historicalData
        (records.filterMap normalizedRecord?) := by
  apply (congrArg Ingested.historicalData (ingestRecords_ingested e records)).trans
  split
  · rename_i h
    rw [h]
    rfl
  · rfl

/-- Where a list is cut does not matter, and a list that is ingested again changes nothing. -/
theorem ingestRecords_pages (xs ys : List PriceData) :
    (ingestRecords e (xs ++ ys)).ingested = (ingestRecords (ingestRecords e xs) ys).ingested ∧
    (ingestRecords (ingestRecords e xs) xs).ingested = (ingestRecords e xs).ingested := by
  constructor
  · rw [ingestRecords_ingested _ ys, ingestRecords_historicalData, ingestRecords_ingested e xs,
      ingestRecords_ingested, List.filterMap_append, ← insertAll_append]
    by_cases hy : ys.filterMap normalizedRecord? = []
    · rw [hy, List.append_nil, if_pos rfl]
    · rw [if_neg hy, if_neg (List.append_ne_nil_of_right_ne_nil _ hy)]
  · rw [ingestRecords_ingested _ xs, ingestRecords_historicalData, insertAll_insertAll_self,
      ingestRecords_ingested]
    split <;> rfl

/-! ## The start of the backfill -/

/-- The minute of the newest valid record, 0 where there is none. -/
def newestMinute (records : List PriceData) : Int :=
  ((records.filterMap normalizedRecord?).map fun r => r.openTime).max?.getD 0

/-- A time whose minute is the newest one of a file. -/
def IsNewest (records : List PriceData) (t : Int) : Prop :=
  (∀ r ∈ records.filterMap normalizedRecord?, r.openTime ≤ floorToMinuteMs t) ∧
    ((∃ r ∈ records.filterMap normalizedRecord?, r.openTime = floorToMinuteMs t) ∨
      records.filterMap normalizedRecord? = [] ∧ floorToMinuteMs t = 0)

theorem isNewest_iff (records : List PriceData) (t : Int) :
    IsNewest records t ↔ floorToMinuteMs t = newestMinute records := by
  unfold IsNewest newestMinute
  generalize records.filterMap normalizedRecord? = l
  cases hm : (l.map fun r : MinuteRecord => r.openTime).max? with
  | none =>
    obtain rfl := List.map_eq_nil_iff.mp (List.max?_eq_none_iff.mp hm)
    simp
  | some newest =>
    obtain ⟨hmem, hle⟩ := List.max?_eq_some_iff.mp hm
    obtain ⟨r, hr, rfl⟩ := List.mem_map.mp hmem
    have hle : ∀ q ∈ l, q.openTime ≤ r.openTime := fun q hq => hle _ (List.mem_map_of_mem hq)
    rw [Option.getD_some]
    constructor
    · rintro ⟨hall, ⟨q, hq, e⟩ | ⟨hnil, -⟩⟩
      · have h₁ := hall r hr
        have h₂ := hle q hq
        omega
      · rw [hnil] at hr
        cases hr
    · intro e
      exact ⟨fun q hq => e ▸ hle q hq, .inl ⟨r, hr, e.symm⟩⟩

/-- The backfill of a new engine starts at the newest minute of its file exactly if the last record
on file, valid or not, is of that minute, and for an empty file if what memory held is of the first
minute of all. -/
theorem cursor_iff (file : DataFile) (uninitialised : Int) :
    (DatabaseEngine.opened file uninitialised).previousTimestamp = newestMinute file.records ↔
      (∀ last, file.records.getLast? = some last → IsNewest file.records last.openTime) ∧
      (file.records = [] → floorToMinuteMs uninitialised = 0) := by
  show floorToMinuteMs _ = _ ↔ _
  cases hl : file.records.getLast? with
  | none =>
    rw [List.getLast?_eq_none_iff] at hl
    rw [hl]
    simp [newestMinute]
  | some last =>
    have hne : file.records ≠ [] := fun h => by rw [h] at hl; cases hl
    rw [Option.map_some, Option.getD_some, ← isNewest_iff]
    simp [hne]

end

/-- The newest minute on file comes first, and the backfill starts two minutes before it; and that
of an empty file starts where memory was. -/
theorem cursor_elsewhere :
    ¬ (∀ (file : DataFile) (uninitialised : Int),
        (DatabaseEngine.opened file uninitialised).previousTimestamp = newestMinute file.records) ∧
      (DatabaseEngine.opened { records := [flatRecord 180000 1, flatRecord 60000 1] } 0).previousTimestamp =
        60000 ∧
      newestMinute [flatRecord 180000 1, flatRecord 60000 1] = 180000 ∧
      (DatabaseEngine.opened {} 123456).previousTimestamp = 120000 ∧ newestMinute [] = 0 := by
  refine ⟨fun h => ?_, by decide +kernel⟩
  have : (DatabaseEngine.opened {} 123456).previousTimestamp = newestMinute [] := h {} 123456
  revert this
  decide +kernel

end TCV.Storage
