import TradingChartViewer.Domain.Types
import Mathlib.Data.List.TakeWhile

/-!
# The record file

`PriceData` and `PriceDataManager`: a file is the list of its whole records,
with the outcomes of the next attempts to open it in a save. A `char[n]` field
is the C string it holds (at most `n - 1` characters).

* `DataFile.openForUpdates`: the three opens of `saveRecords`, of which the
  second empties the file;
* `saveRecords`: the loop that decides, record by record, between overwriting
  the last record of the file, appending and dropping (`saveStep`);
* `saveRecords_singleton_of_open`: what saving one record does.
-/

namespace TCV.Storage

open TCV.Domain

structure PriceData where
  openTime : Int
  openPrice : Price
  highPrice : Price
  lowPrice : Price
  closePrice : Price
  volume : Price
  closeTime : Int
  baseAssetVolume : Price
  numberOfTrades : Int
  takerBuyVolume : Price
  takerBuyBaseAssetVolume : Price
  symbol : List Char
  interval : List Char
  deriving DecidableEq, Repr

/-- A record of one minute whose price stays at `price`. -/
def flatRecord (openTime : Int) (price : Price) : PriceData :=
  ⟨openTime, price, price, price, price, 0, openTime + kMillisPerMinute - 1, 0, 0, 0, 0, ['B'], ['1', 'm']⟩

/-- `std::strncpy(dst, src.c_str(), n - 1)` into a zeroed `char[n]`. -/
def strncpy (n : Nat) (src : List Char) : List Char :=
  (src.takeWhile (· ≠ Char.ofNat 0)).take (n - 1)

theorem strncpy_of_short {n : Nat} {src : List Char} (h : src.length < n)
    (h0 : ∀ c ∈ src, c ≠ Char.ofNat 0) : strncpy n src = src := by
  have e : src.takeWhile (· ≠ Char.ofNat 0) = src :=
    List.takeWhile_eq_self_iff.mpr fun c hc => decide_eq_true (h0 c hc)
  rw [strncpy, e, List.take_of_length_le (by omega)]

/-- `PriceDataManager::isValidRecord`. -/
def isValidRecord (record : PriceData) : Bool :=
  0 < record.openTime && 0 < record.closeTime && record.symbol ≠ [] && record.interval ≠ []

theorem isValidRecord_iff {r : PriceData} :
    isValidRecord r = true ↔ 0 < r.openTime ∧ 0 < r.closeTime ∧ r.symbol ≠ [] ∧ r.interval ≠ [] := by
  simp [isValidRecord, and_assoc]

variable [TimeUtils]

/-- `normalizeRecord` of `PriceDataManager.cpp`. -/
def normalizeRecord (record : PriceData) : PriceData :=
  let alignedOpen := floorToMinuteMs record.openTime
  if alignedOpen ≤ 0 then { record with openTime := 0, closeTime := 0 }
  else { record with openTime := alignedOpen, closeTime := alignedOpen + kMillisPerMinute - 1 }

/-- A valid normalised record falls on a positive minute. -/
theorem normalizeRecord_of_valid {r : PriceData} (h : isValidRecord (normalizeRecord r) = true) :
    normalizeRecord r = { r with
      openTime := floorToMinuteMs r.openTime,
      closeTime := floorToMinuteMs r.openTime + kMillisPerMinute - 1 } ∧
    0 < floorToMinuteMs r.openTime := by
  unfold normalizeRecord at h ⊢
  by_cases hp : floorToMinuteMs r.openTime ≤ 0
  · rw [if_pos hp] at h
    simp [isValidRecord] at h
  · rw [if_neg hp]
    exact ⟨rfl, by omega⟩

theorem normalizeRecord_openTime {r : PriceData} (h : isValidRecord (normalizeRecord r) = true) :
    (normalizeRecord r).openTime = floorToMinuteMs r.openTime := by
  rw [(normalizeRecord_of_valid h).1]

/-- A valid record keeps its place when normalised again. -/
theorem normalizeRecord_idem {r : PriceData} (h : isValidRecord (normalizeRecord r) = true) :
    normalizeRecord (normalizeRecord r) = normalizeRecord r := by
  obtain ⟨e, hp⟩ := normalizeRecord_of_valid h
  have hf := floorToMinuteMs_of_dvd (dvd_floorToMinuteMs r.openTime)
  rw [e]
  unfold normalizeRecord
  simp only [hf]
  rw [if_neg (by omega)]

/-! ## Files -/

/-- The record file. `opens` holds the outcomes of the next attempts of
`saveRecord` and `saveRecords` to open it, for writing or for reading; once it
is used up they succeed. -/
structure DataFile where
  records : List PriceData := []
  opens : List Bool := []
  deriving DecidableEq, Repr

/-- An attempt to open the file. -/
def DataFile.tryOpen (f : DataFile) : Bool × DataFile :=
  match f.opens with
  | [] => (true, f)
  | ok :: rest => (ok, { f with opens := rest })

/-- `std::ios::in | std::ios::out`; where that fails, `std::ios::out`, and the
first again. -/
def DataFile.openForUpdates (f : DataFile) : Bool × DataFile :=
  let (opened, f) := f.tryOpen
  if opened then (true, f)
  else
    let (created, f) := f.tryOpen
    -- `std::ios::out` alone truncates
    let f := if created then { f with records := [] } else f
    f.tryOpen

/-- The record `PriceDataManager` starts from when the file holds none: its
constructor clears the two strings, so that it is not valid. -/
def PriceData.blank : PriceData :=
  ⟨0, 0, 0, 0, 0, 0, 0, 0, 0, 0, 0, [], []⟩

/-- The last record, as `saveRecords` reads it. -/
def DataFile.readLast (f : DataFile) : PriceData × DataFile :=
  let (opened, f) := f.tryOpen
  (if opened then f.records.getLast?.getD PriceData.blank else PriceData.blank, f)

/-- `PriceDataManager::saveRecord`: a blind append. -/
def saveRecord (file : DataFile) (data : PriceData) : DataFile :=
  if !isValidRecord data then file
  else
    let (opened, file) := file.tryOpen
    if !opened then file
    else
      let normalized := normalizeRecord data
      if !isValidRecord normalized then file
      else { file with records := file.records ++ [normalized] }

/-- The variables of the loop of `saveRecords`. -/
structure SaveState where
  overwrite : Option PriceData
  toAppend : List PriceData
  lastPersisted : PriceData
  hasLast : Bool

/-- One iteration of the loop of `saveRecords`. -/
def saveStep (s : SaveState) (record : PriceData) : SaveState :=
  let normalized := normalizeRecord record
  if !isValidRecord normalized then s
  else if s.hasLast && normalized.openTime = s.lastPersisted.openTime then
    { s with overwrite := some normalized, lastPersisted := normalized }
  else if !s.hasLast || s.lastPersisted.openTime < normalized.openTime then
    { s with
      toAppend := s.toAppend ++ [normalized], lastPersisted := normalized, hasLast := true }
  else s

/-- The writes at the end of `saveRecords`: the last whole record is
overwritten if there is one, then the new records follow. -/
def writeBack (records : List PriceData) (overwrite : Option PriceData)
    (toAppend : List PriceData) : List PriceData :=
  (match overwrite with
    | some record => if records.isEmpty then records else records.dropLast ++ [record]
    | none => records) ++ toAppend

/-- `PriceDataManager::saveRecords`. -/
def saveRecords (file : DataFile) (records : List PriceData) : DataFile :=
  if records.isEmpty then file
  else
    let (opened, file) := file.openForUpdates
    if !opened then file
    else
      let (lastRecord, file) := file.readLast
      let s := records.foldl saveStep ⟨none, [], lastRecord, isValidRecord lastRecord⟩
      { file with records := writeBack file.records s.overwrite s.toAppend }

/-- `PriceDataManager::readAllRecords`. -/
def readAllRecords (file : DataFile) : List PriceData := file.records

/-! ## Files that open -/

section Opens

variable {f : DataFile}

omit [TimeUtils] in
@[simp] theorem tryOpen_records (f : DataFile) : f.tryOpen.2.records = f.records := by
  unfold DataFile.tryOpen
  split <;> rfl

omit [TimeUtils] in
@[simp] theorem readLast_records (f : DataFile) : f.readLast.2.records = f.records :=
  tryOpen_records f

omit [TimeUtils] in
theorem tryOpen_of_opens_nil (h : f.opens = []) : f.tryOpen = (true, f) := by
  rw [DataFile.tryOpen, h]

omit [TimeUtils] in
theorem openForUpdates_of_opens_nil (h : f.opens = []) : f.openForUpdates = (true, f) := by
  rw [DataFile.openForUpdates, tryOpen_of_opens_nil h]
  rfl

omit [TimeUtils] in
theorem readLast_of_opens_nil (h : f.opens = []) :
    f.readLast = (f.records.getLast?.getD PriceData.blank, f) := by
  rw [DataFile.readLast, tryOpen_of_opens_nil h]
  rfl

theorem saveRecords_of_opens_nil (h : f.opens = []) {rs : List PriceData} (hrs : rs ≠ []) :
    saveRecords f rs =
      let lastRecord := f.records.getLast?.getD PriceData.blank
      let s := rs.foldl saveStep ⟨none, [], lastRecord, isValidRecord lastRecord⟩
      { f with records := writeBack f.records s.overwrite s.toAppend } := by
  unfold saveRecords
  rw [if_neg (by rwa [List.isEmpty_iff]), openForUpdates_of_opens_nil h]
  dsimp only
  rw [if_neg (by decide), readLast_of_opens_nil h]

/-- A file whose writes all succeed keeps that property. -/
theorem saveRecords_opens (h : f.opens = []) (rs : List PriceData) :
    (saveRecords f rs).opens = [] := by
  by_cases hrs : rs = []
  · rw [hrs]
    exact h
  · rw [saveRecords_of_opens_nil h hrs]
    exact h

theorem saveRecord_opens (h : f.opens = []) (r : PriceData) : (saveRecord f r).opens = [] := by
  unfold saveRecord
  rw [tryOpen_of_opens_nil h]
  dsimp only
  split_ifs <;> exact h

end Opens

/-! ## Saving one record -/

/-- What `saveRecords` makes of the records of the file, with one record to save
that stays valid, from the last record that it reads. -/
def saveOne (records : List PriceData) (last record : PriceData) : List PriceData :=
  if isValidRecord last && record.openTime = last.openTime then
    if records.isEmpty then records else records.dropLast ++ [record]
  else if !isValidRecord last || last.openTime < record.openTime then records ++ [record]
  else records

theorem saveRecords_singleton (f : DataFile) {r : PriceData}
    (hr : isValidRecord (normalizeRecord r) = true) :
    (saveRecords f [r]).records =
      if f.openForUpdates.1 = true then
        saveOne f.openForUpdates.2.records f.openForUpdates.2.readLast.1 (normalizeRecord r)
      else f.openForUpdates.2.records := by
  unfold saveRecords
  simp only [List.isEmpty_cons, Bool.false_eq_true, if_false]
  cases f.openForUpdates.1 with
  | false => rfl
  | true =>
    simp only [Bool.not_true, Bool.false_eq_true, if_false, if_true, readLast_records,
      List.foldl_cons, List.foldl_nil, saveStep, hr, saveOne]
    split_ifs <;> simp [writeBack, *]

/-- Saving one record that stays valid: it overwrites a valid last record of
the same minute, follows an earlier or an invalid one, and is dropped before a
later one. -/
theorem saveRecords_singleton_of_open {f : DataFile} (h : f.opens = []) {r : PriceData}
    (hr : isValidRecord (normalizeRecord r) = true) :
    (saveRecords f [r]).records =
      match f.records.getLast? with
      | none => [normalizeRecord r]
      | some last =>
        if isValidRecord last && (normalizeRecord r).openTime = last.openTime then
          f.records.dropLast ++ [normalizeRecord r]
        else if !isValidRecord last || last.openTime < (normalizeRecord r).openTime then
          f.records ++ [normalizeRecord r]
        else f.records := by
  have hblank : isValidRecord PriceData.blank = false := rfl
  rw [saveRecords_singleton f hr, openForUpdates_of_opens_nil h, if_pos rfl,
    readLast_of_opens_nil h]
  cases hl : f.records.getLast? with
  | none => simp [saveOne, hblank, List.getLast?_eq_none_iff.mp hl]
  | some last =>
    have hne : f.records ≠ [] := List.ne_nil_of_mem (List.mem_of_getLast? hl)
    simp only [saveOne, Option.getD_some, List.isEmpty_eq_false_iff.mpr hne, Bool.false_eq_true,
      if_false]

end TCV.Storage
