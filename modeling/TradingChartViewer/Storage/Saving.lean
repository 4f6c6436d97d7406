import TradingChartViewer.Storage.Engine

/-!
# What saving leaves in the file

`saveRecord` and `saveRecords` on records of a minute.

* `lastOfMinute`: what a file holds for a minute;
* `writeBack_later`, `writeBack_same`: a page after the last record of the
  file, and one that starts at its minute;
* `lastOfMinute_saveRecords`: what a page does to a minute;
* `storedHistory`: the map a file stands for; `storedHistory_saveRecords`:
  saving is inserting, if nothing is dropped.
-/

namespace TCV.Storage

open TCV.Domain Lib.TimeMap

/-- The last record of a minute in a file. -/
def lastOfMinute (records : List PriceData) (minute : Int) : Option PriceData :=
  records.reverse.find? fun r => r.openTime = minute

section LastOfMinute

variable {minute : Int}

theorem lastOfMinute_append (as bs : List PriceData) :
    lastOfMinute (as ++ bs) minute = (lastOfMinute bs minute).or (lastOfMinute as minute) := by
  rw [lastOfMinute, List.reverse_append, List.find?_append]
  rfl

theorem lastOfMinute_concat (as : List PriceData) (r : PriceData) :
    lastOfMinute (as ++ [r]) minute =
      if r.openTime = minute then some r else lastOfMinute as minute := by
  rw [lastOfMinute_append, lastOfMinute, List.reverse_singleton, List.find?_singleton]
  by_cases h : r.openTime = minute
  · rw [if_pos h, if_pos (decide_eq_true h)]
    rfl
  · rw [if_neg h, if_neg (by simpa using h)]
    rfl

theorem mem_of_lastOfMinute {records : List PriceData} {r : PriceData}
    (h : lastOfMinute records minute = some r) : r ∈ records ∧ r.openTime = minute :=
  ⟨List.mem_reverse.mp (List.mem_of_find?_eq_some h), by simpa using List.find?_some h⟩

/-- A closed candle is appended, whatever the file holds. -/
theorem saveRecord_records [TimeUtils] {f : DataFile} (h : f.opens = []) (r : MinuteRecord) :
    (saveRecord f r.toPriceData).records = f.records ++ [r.toPriceData] := by
  unfold saveRecord
  rw [tryOpen_of_opens_nil h]
  simp [r.valid, r.normal]

/-- The record comes before the last one of the file. -/
def DataFile.Drops (f : DataFile) (minute : Int) : Prop :=
  ∃ last ∈ f.records.getLast?, isValidRecord last = true ∧ minute < last.openTime

instance (f : DataFile) (minute : Int) : Decidable (f.Drops minute) :=
  inferInstanceAs (Decidable (∃ last ∈ f.records.getLast?, _))

/-- The loop body of `saveRecords` on a record of a minute. -/
theorem saveStep_minuteRecord [TimeUtils] (s : SaveState) (r : MinuteRecord) :
    saveStep s r.toPriceData =
      if s.hasLast && r.openTime = s.lastPersisted.openTime then
        { s with overwrite := some r.toPriceData, lastPersisted := r.toPriceData }
      else if !s.hasLast || s.lastPersisted.openTime < r.openTime then
        { s with
          toAppend := s.toAppend ++ [r.toPriceData], lastPersisted := r.toPriceData, hasLast := true }
      else s := by
  unfold saveStep
  dsimp only
  rw [r.normal, r.valid]
  rfl

/-- Ascending records after the last one are all appended. -/
theorem foldl_saveStep_later [TimeUtils] {p : List MinuteRecord}
    (hp : p.Pairwise fun a b => a.openTime < b.openTime) (s : SaveState)
    (h : ∀ r ∈ p, s.hasLast = true → s.lastPersisted.openTime < r.openTime) :
    ((p.map fun r => r.toPriceData).foldl saveStep s).overwrite = s.overwrite ∧
      ((p.map fun r => r.toPriceData).foldl saveStep s).toAppend =
        s.toAppend ++ p.map fun r => r.toPriceData := by
  induction p generalizing s with
  | nil => exact ⟨rfl, (List.append_nil _).symm⟩
  | cons r rest ih =>
    obtain ⟨hr, hrest⟩ := List.pairwise_cons.mp hp
    have hstep : saveStep s r.toPriceData = { s with
        toAppend := s.toAppend ++ [r.toPriceData], lastPersisted := r.toPriceData, hasLast := true } := by
      rw [saveStep_minuteRecord]
      cases hl : s.hasLast with
      | false => simp
      | true =>
        have := h r List.mem_cons_self hl
        simp [this, this.ne']
    rw [List.map_cons, List.foldl_cons, hstep]
    obtain ⟨hover, happend⟩ := ih hrest ⟨s.overwrite, s.toAppend ++ [r.toPriceData],
      r.toPriceData, true⟩ fun q hq _ => hr q hq
    refine ⟨hover, ?_⟩
    rw [happend, List.append_assoc]
    rfl

theorem lastOfMinute_append_page [TimeUtils] (records : List PriceData) (p : List MinuteRecord) :
    lastOfMinute (records ++ p.map fun r => r.toPriceData) minute = lastOfMinute records minute ∨
      ∃ q ∈ p, q.openTime = minute ∧
        lastOfMinute (records ++ p.map fun r => r.toPriceData) minute = some q.toPriceData := by
  rw [lastOfMinute_append]
  cases hl : lastOfMinute (p.map fun r => r.toPriceData) minute with
  | none => exact Or.inl rfl
  | some r =>
    obtain ⟨hr, ht⟩ := mem_of_lastOfMinute hl
    obtain ⟨q, hq, rfl⟩ := List.mem_map.mp hr
    exact Or.inr ⟨q, hq, ht, rfl⟩

/-- Records after the last one of the file are all appended. -/
theorem writeBack_later [TimeUtils] (records : List PriceData) {p : List MinuteRecord}
    (hp : p.Pairwise fun a b => a.openTime < b.openTime) {last : PriceData} {valid : Bool}
    (h : ∀ q ∈ p, valid = true → last.openTime < q.openTime) {s : SaveState}
    (hs : (p.map fun r => r.toPriceData).foldl saveStep ⟨none, [], last, valid⟩ = s) :
    writeBack records s.overwrite s.toAppend = records ++ p.map fun r => r.toPriceData := by
  obtain ⟨hover, happend⟩ := foldl_saveStep_later hp ⟨none, [], last, valid⟩ h
  rw [hs, List.nil_append] at happend
  rw [hs] at hover
  rw [hover, happend]
  rfl

/-- A first record of the minute of the last one overwrites it. -/
theorem writeBack_same [TimeUtils] (init : List PriceData) {r : MinuteRecord}
    {rest : List MinuteRecord} (hp : (r :: rest).Pairwise fun a b => a.openTime < b.openTime)
    {last : PriceData} (h : r.openTime = last.openTime) {s : SaveState}
    (hs : ((r :: rest).map fun r => r.toPriceData).foldl saveStep ⟨none, [], last, true⟩ = s) :
    writeBack (init ++ [last]) s.overwrite s.toAppend =
      (init ++ [r.toPriceData]) ++ rest.map fun r => r.toPriceData := by
  obtain ⟨hr, hrest⟩ := List.pairwise_cons.mp hp
  have hstep : saveStep ⟨none, [], last, true⟩ r.toPriceData =
      ⟨some r.toPriceData, [], r.toPriceData, true⟩ := by
    rw [saveStep_minuteRecord]
    simp [h]
  rw [List.map_cons, List.foldl_cons, hstep] at hs
  obtain ⟨hover, happend⟩ := foldl_saveStep_later hrest
    ⟨some r.toPriceData, [], r.toPriceData, true⟩ fun q hq _ => hr q hq
  rw [hs, List.nil_append] at happend
  rw [hs] at hover
  rw [hover, happend]
  simp [writeBack]

theorem not_drops {f : DataFile} {last : PriceData}
    (hlast : f.records.getLast?.getD PriceData.blank = last)
    (h : isValidRecord last = true → last.openTime ≤ minute) : ¬ f.Drops minute := by
  rintro ⟨l, hl, hv, hlt⟩
  rw [hl, Option.getD_some] at hlast
  subst hlast
  have := h hv
  omega

/-- The loop of `saveRecords` on ascending records, by where they start. -/
theorem lastOfMinute_writeBack [TimeUtils] (f : DataFile) {p : List MinuteRecord}
    (hp : p.Pairwise fun a b => a.openTime < b.openTime) {last : PriceData}
    (hlast : f.records.getLast?.getD PriceData.blank = last) {s : SaveState}
    (hs : (p.map fun r => r.toPriceData).foldl saveStep ⟨none, [], last, isValidRecord last⟩ = s) :
    lastOfMinute (writeBack f.records s.overwrite s.toAppend) minute =
        lastOfMinute f.records minute ∨
      ∃ q ∈ p, q.openTime = minute ∧ ¬ f.Drops minute ∧
        lastOfMinute (writeBack f.records s.overwrite s.toAppend) minute = some q.toPriceData := by
  induction p with
  | nil =>
    rw [← hs]
    left
    show lastOfMinute (f.records ++ []) minute = _
    rw [List.append_nil]
  | cons r rest ih =>
    obtain ⟨hr, hrest⟩ := List.pairwise_cons.mp hp
    by_cases hlater : isValidRecord last = true → last.openTime < r.openTime
    · -- All records come after the last one of the file.
      have hall : ∀ q ∈ r :: rest, isValidRecord last = true → last.openTime < q.openTime := by
        intro q hq hv
        have := hlater hv
        rcases List.mem_cons.mp hq with rfl | hq
        · exact this
        · exact this.trans (hr q hq)
      rw [writeBack_later f.records hp hall hs]
      apply (lastOfMinute_append_page f.records (r :: rest)).imp_right
      rintro ⟨q, hq, ht, he⟩
      exact ⟨q, hq, ht, not_drops hlast fun hv => ht ▸ (hall q hq hv).le, he⟩
    · obtain ⟨hv, hle⟩ := Classical.not_imp.mp hlater
      obtain ⟨init, hinit⟩ : ∃ init, f.records = init ++ [last] := by
        cases hg : f.records.getLast? with
        | none =>
          rw [hg, Option.getD_none] at hlast
          rw [← hlast] at hv
          cases hv
        | some l =>
          rw [hg, Option.getD_some] at hlast
          exact List.getLast?_eq_some_iff.mp (hlast ▸ hg)
      rw [hv] at hs
      by_cases hsame : r.openTime = last.openTime
      · -- The first record overwrites the last one of the file.
        rw [hinit, writeBack_same init hp hsame hs]
        rcases lastOfMinute_append_page (init ++ [r.toPriceData]) rest with he | ⟨q, hq, ht, he⟩
        · rw [he, lastOfMinute_concat, lastOfMinute_concat]
          by_cases ht : r.openTime = minute
          · rw [if_pos ht]
            exact Or.inr ⟨r, List.mem_cons_self, ht, not_drops hlast fun _ => by omega, rfl⟩
          · rw [if_neg ht, if_neg (by omega)]
            exact Or.inl rfl
        · have := hr q hq
          exact Or.inr ⟨q, List.mem_cons_of_mem r hq, ht, not_drops hlast fun _ => by omega, he⟩
      · -- The first record is dropped.
        have hstep : saveStep ⟨none, [], last, true⟩ r.toPriceData = ⟨none, [], last, true⟩ := by
          rw [saveStep_minuteRecord]
          simp [hsame]
          omega
        rw [List.map_cons, List.foldl_cons, hstep, ← hv] at hs
        apply (ih hrest hs).imp_right
        rintro ⟨q, hq, h⟩
        exact ⟨q, List.mem_cons_of_mem r hq, h⟩

/-- Saving a page either leaves the last record of a minute as it was or puts
the record of the page there, if that is not dropped. -/
theorem lastOfMinute_saveRecords [TimeUtils] {f : DataFile} (h : f.opens = [])
    {p : List MinuteRecord} (hp : p.Pairwise fun a b => a.openTime < b.openTime) (minute : Int) :
    lastOfMinute (saveRecords f (p.map fun r => r.toPriceData)).records minute =
        lastOfMinute f.records minute ∨
      ∃ q ∈ p, q.openTime = minute ∧ ¬ f.Drops minute ∧
        lastOfMinute (saveRecords f (p.map fun r => r.toPriceData)).records minute =
          some q.toPriceData := by
  by_cases hrs : p.map (fun r => r.toPriceData) = []
  · rw [hrs]
    exact Or.inl rfl
  · rw [saveRecords_of_opens_nil h hrs]
    exact lastOfMinute_writeBack f hp rfl rfl

end LastOfMinute

/-! ## The map of a file -/

section StoredHistory

variable [TimeUtils]

/-- The records of a file by minute, of each minute the last one. -/
def storedHistory (records : List PriceData) : Historical :=
  insertAll (fun r : MinuteRecord => r.openTime) ∅ (records.filterMap normalizedRecord?)

theorem storedHistory_append (as : List PriceData) (bs : List MinuteRecord) :
    storedHistory (as ++ bs.map fun r => r.toPriceData) =
      insertAll (fun r : MinuteRecord => r.openTime) (storedHistory as) bs := by
  rw [storedHistory, List.filterMap_append, insertAll_append, filterMap_toPriceData, storedHistory]

theorem getElem?_storedHistory_concat (as : List PriceData) (r : MinuteRecord) (t : Int) :
    (storedHistory (as ++ [r.toPriceData]))[t]? =
      if r.openTime = t then some r else (storedHistory as)[t]? := by
  have e := storedHistory_append as [r]
  rw [List.map_cons, List.map_nil] at e
  rw [e]
  exact getElem?_insert_self_or _ _ _ _

/-- A constructor loads the map of its file. -/
theorem historicalData_opened (file : DataFile) (uninitialised : Int) :
    (DatabaseEngine.opened file uninitialised).historicalData = storedHistory file.records := by
  show (rebuildCacheFromHistorical _).historicalData = _
  rw [rebuildCacheFromHistorical_historicalData]
  have h : insertAll (fun r : MinuteRecord => r.openTime) ∅ (normalizeRecords file.records) =
      storedHistory file.records := insertAll_values (keyed_empty.insertAll _)
  unfold ingestRecords readAllRecords
  dsimp only
  split
  · rename_i hnil
    rw [← h, List.isEmpty_iff.mp hnil]
    rfl
  · exact h

/-- The file after a page that starts no earlier than its last record. -/
theorem records_saveRecords {f : DataFile} (h : f.opens = []) {p : List MinuteRecord}
    (hp : p.Pairwise fun a b => a.openTime < b.openTime)
    (hle : ∀ last ∈ f.records.getLast?, ∀ q ∈ p, last.openTime ≤ q.openTime) :
    (saveRecords f (p.map fun r => r.toPriceData)).records =
        f.records ++ p.map (fun r => r.toPriceData) ∨
      ∃ init last r rest, f.records = init ++ [last] ∧ p = r :: rest ∧ r.openTime = last.openTime ∧
        (saveRecords f (p.map fun r => r.toPriceData)).records =
          (init ++ [r.toPriceData]) ++ rest.map fun r => r.toPriceData := by
  cases p with
  | nil => exact Or.inl (List.append_nil _).symm
  | cons r rest =>
    rw [saveRecords_of_opens_nil h (by simp)]
    dsimp only
    have hr := (List.pairwise_cons.mp hp).1
    cases hl : f.records.getLast? with
    | none =>
      have hlater : ∀ q ∈ r :: rest, false = true → PriceData.blank.openTime < q.openTime := by simp
      exact Or.inl (writeBack_later f.records hp hlater rfl)
    | some last =>
      obtain ⟨init, hinit⟩ := List.getLast?_eq_some_iff.mp hl
      have hfirst : last.openTime ≤ r.openTime := hle last hl r List.mem_cons_self
      rw [Option.getD_some]
      by_cases hsame : isValidRecord last = true ∧ r.openTime = last.openTime
      · refine Or.inr ⟨init, last, r, rest, hinit, rfl, hsame.2, ?_⟩
        rw [hsame.1, hinit]
        exact writeBack_same init hp hsame.2 rfl
      · refine Or.inl (writeBack_later f.records hp ?_ rfl)
        intro q hq hv
        have hlt : last.openTime < r.openTime :=
          lt_of_le_of_ne hfirst fun e => hsame ⟨hv, e.symm⟩
        rcases List.mem_cons.mp hq with rfl | hq
        · exact hlt
        · exact hlt.trans (hr q hq)

theorem isSome_storedHistory_iff (ms : List MinuteRecord) (t : Int) :
    (storedHistory (ms.map fun r => r.toPriceData))[t]?.isSome = true ↔ ∃ m ∈ ms, m.openTime = t := by
  rw [storedHistory, filterMap_toPriceData, isSome_insertAll_iff, Std.ExtTreeMap.getElem?_empty]
  simp

/-- Saving such a page is inserting its records. -/
theorem storedHistory_saveRecords {f : DataFile} (h : f.opens = []) {ms : List MinuteRecord}
    (hms : f.records = ms.map fun r => r.toPriceData) {p : List MinuteRecord}
    (hp : p.Pairwise fun a b => a.openTime < b.openTime) (hne : p ≠ [])
    (hle : ∀ last ∈ f.records.getLast?, ∀ q ∈ p, last.openTime ≤ q.openTime) :
    ∃ ms' : List MinuteRecord,
      (saveRecords f (p.map fun r => r.toPriceData)).records = ms'.map (fun r => r.toPriceData) ∧
      ms'.getLast? = p.getLast? ∧
      storedHistory (ms'.map fun r => r.toPriceData) =
        insertAll (fun r : MinuteRecord => r.openTime) (storedHistory f.records) p := by
  rcases records_saveRecords h hp hle with he | ⟨init, last, r, rest, hinit, rfl, ht, he⟩
  · refine ⟨ms ++ p, ?_, List.getLast?_append_of_ne_nil ms hne, ?_⟩
    · rw [he, hms, List.map_append]
    · rw [List.map_append, ← hms, storedHistory_append]
  · rw [hms] at hinit
    obtain ⟨ms₀, ms₁, rfl, rfl, hlast⟩ := List.map_eq_append_iff.mp hinit
    obtain ⟨m, rfl, rfl⟩ := List.map_eq_singleton_iff.mp hlast
    refine ⟨ms₀ ++ r :: rest, ?_, List.getLast?_append_of_ne_nil ms₀ hne, ?_⟩
    · rw [he, List.map_append, List.map_cons, List.append_assoc, List.singleton_append]
    · -- The overwritten record and the new one are of the same minute.
      rw [hms, List.map_append, List.map_append, storedHistory_append, storedHistory_append]
      show insertAll _ (_ : Historical) rest = insertAll _ (_ : Historical) rest
      refine congrArg (fun m => insertAll _ m rest) (Std.ExtTreeMap.ext_getElem? fun {t} => ?_)
      have ht : r.openTime = m.openTime := ht
      show (Std.ExtTreeMap.insert _ r.openTime r)[t]? =
        ((Std.ExtTreeMap.insert _ m.openTime m).insert r.openTime r)[t]?
      rw [getElem?_insert_self_or, getElem?_insert_self_or, getElem?_insert_self_or, ht]
      split <;> rfl

end StoredHistory

end TCV.Storage
