import TradingChartViewer.Storage.Ring
import TradingChartViewer.Storage.Saving

/-!
# What a new engine finds

The data file against the store in memory, over runs of whole operations with
restarts in between.

* `DatabaseEngine.Stored`: the invariant. The file holds what the store holds
  of every minute before the newest one, and ends with its own newest record;
* `DatabaseEngine.ClosesFront`: a page that goes on after the newest record
  brings that minute along, unless its record is on file;
* `restart_keeps`: if so, a new engine on the file loses at most the newest
  record.
-/

namespace TCV.Storage

open TCV.Domain Lib.Grid Lib.TimeMap Lib.Run

section

variable [TimeUtils]

/-! ## The condition -/

/-- The page has no record after the front of the ring, or it has a record of its
minute, or the front is the last record on file. -/
def DatabaseEngine.ClosesFront (e : DatabaseEngine) (page : List MinuteRecord) : Prop :=
  ∀ front ∈ e.cache.head?, (∃ r ∈ page, front.openTime < r.openTime) →
    (∃ r ∈ page, r.openTime = front.openTime) ∨
      e.file.records.getLast? = some front.toPriceData

instance (e : DatabaseEngine) (page : List MinuteRecord) : Decidable (e.ClosesFront page) :=
  inferInstanceAs (Decidable (∀ front ∈ e.cache.head?, (∃ r ∈ page, front.openTime < r.openTime) →
    (∃ r ∈ page, r.openTime = front.openTime) ∨ _))

/-- Every page of a run of `actualize` does. -/
def DatabaseEngine.ClosesFronts (fetcher : Int → Int → List PriceData) (e : DatabaseEngine) :
    EngineCall → Prop
  | .actualize nows => Along (requestStep fetcher)
      (fun e now => e.ClosesFront (normalizeRecords (fetcher now e.previousTimestamp))) e nows
  | _ => True

instance (fetcher : Int → Int → List PriceData) (e : DatabaseEngine) :
    (c : EngineCall) → Decidable (e.ClosesFronts fetcher c)
  | .actualize _ => inferInstanceAs (Decidable (Along _ _ _ _))
  | .construct _ | .updateWithNewData _ => .isTrue trivial

/-! ## The invariant -/

structure DatabaseEngine.Stored (e : DatabaseEngine) : Prop extends e.Ring where
  writable : e.file.opens = []
  normal : ∃ records : List MinuteRecord, e.file.records = records.map fun r => r.toPriceData
  newest : ∀ last ∈ e.file.records.getLast?, ∀ t : Int,
    (storedHistory e.file.records)[t]?.isSome = true → t ≤ last.openTime
  cursor : ∀ front ∈ e.cache.head?, e.previousTimestamp = front.openTime
  agree : ∀ front ∈ e.cache.head?, ∀ t < front.openTime,
    (storedHistory e.file.records)[t]? = e.historicalData[t]?
  known : ∀ t : Int, (storedHistory e.file.records)[t]?.isSome = true →
    e.historicalData[t]?.isSome = true

section Invariant

variable {e : DatabaseEngine}

/-- The front of the ring is the newest record of the store. -/
theorem DatabaseEngine.Ring.head?_cache (h : e.Ring) :
    e.cache.head? = (values e.historicalData).getLast? := by
  rw [h.cache, cacheSize, List.head?_take, if_neg (by decide), List.head?_reverse]

theorem DatabaseEngine.Ring.front (h : e.Ring) {front : MinuteRecord}
    (hf : e.cache.head? = some front) :
    e.historicalData[front.openTime]? = some front ∧
      ∀ (t : Int) r, e.historicalData[t]? = some r → t ≤ front.openTime := by
  rw [h.head?_cache] at hf
  exact ⟨(mem_values_iff e.keyed).mp (List.mem_of_getLast? hf),
    fun t r hr => le_of_getLast?_values e.keyed hf hr⟩

theorem DatabaseEngine.Ring.none_after (h : e.Ring) {front : MinuteRecord}
    (hf : e.cache.head? = some front) {t : Int} (ht : front.openTime < t) :
    e.historicalData[t]? = none := by
  cases hr : e.historicalData[t]? with
  | none => rfl
  | some r =>
    have := (h.front hf).2 t r hr
    omega

/-- An empty ring is that of an empty store. -/
theorem DatabaseEngine.Ring.empty (h : e.Ring) (hf : e.cache.head? = none) (t : Int) :
    e.historicalData[t]? = none := by
  rw [h.head?_cache, List.getLast?_eq_none_iff] at hf
  cases ht : e.historicalData[t]? with
  | none => rfl
  | some r =>
    obtain rfl := e.keyed t r ht
    have := (mem_values_iff e.keyed).mpr ht
    rw [hf] at this
    cases this

theorem DatabaseEngine.Stored.stored_none (h : e.Stored) {t : Int}
    (ht : e.historicalData[t]? = none) : (storedHistory e.file.records)[t]? = none := by
  have := h.known t
  rw [ht] at this
  simpa using this

/-- No record on file is later than the front. -/
theorem DatabaseEngine.Stored.le_front (h : e.Stored) {front : MinuteRecord}
    (hf : e.cache.head? = some front) {t : Int}
    (ht : (storedHistory e.file.records)[t]?.isSome = true) : t ≤ front.openTime := by
  obtain ⟨r, hr⟩ := Option.isSome_iff_exists.mp (h.known t ht)
  exact (h.toRing.front hf).2 t r hr

theorem DatabaseEngine.Stored.exists_front (h : e.Stored) {t : Int}
    (ht : (storedHistory e.file.records)[t]?.isSome = true) :
    ∃ front, e.cache.head? = some front := by
  cases hf : e.cache.head? with
  | some front => exact ⟨front, rfl⟩
  | none =>
    have := h.known t ht
    rw [h.toRing.empty hf] at this
    cases this

theorem isSome_storedHistory_getLast {ms : List MinuteRecord} {last : MinuteRecord}
    (h : ms.getLast? = some last) :
    (storedHistory (ms.map fun r => r.toPriceData))[last.openTime]?.isSome = true :=
  (isSome_storedHistory_iff ms _).mpr ⟨last, List.mem_of_getLast? h, rfl⟩

/-- A new engine has what its file has. -/
theorem stored_construct {file : DataFile} (hopens : file.opens = [])
    {ms : List MinuteRecord} (hms : file.records = ms.map fun r => r.toPriceData)
    (hnewest : ∀ last ∈ file.records.getLast?, ∀ t : Int,
      (storedHistory file.records)[t]?.isSome = true → t ≤ last.openTime) (uninitialised : Int) :
    (DatabaseEngine.opened file uninitialised).Stored := by
  have hring := ring_opened file uninitialised
  have hfile := opened_file file uninitialised
  have hdata := historicalData_opened file uninitialised
  refine ⟨hring, hfile.symm ▸ hopens, ⟨ms, hfile.symm ▸ hms⟩, hfile.symm ▸ hnewest, ?_, ?_, ?_⟩
  · intro front hf
    -- The last record on file is the newest one.
    obtain ⟨hstored, hmax⟩ := hring.front hf
    rw [hdata] at hstored hmax
    have hsome : (storedHistory file.records)[front.openTime]?.isSome = true := by
      rw [hstored]
      rfl
    obtain ⟨m, hm, -⟩ := (isSome_storedHistory_iff ms front.openTime).mp (hms ▸ hsome)
    cases hl : ms.getLast? with
    | none => rw [List.getLast?_eq_none_iff.mp hl] at hm; cases hm
    | some last =>
      have hlast : file.records.getLast? = some last.toPriceData := by
        rw [hms, List.getLast?_map, hl]
        rfl
      obtain ⟨r, hr⟩ := Option.isSome_iff_exists.mp (isSome_storedHistory_getLast hl)
      have hle := hmax _ r (hms ▸ hr)
      have hge := hnewest _ hlast _ hsome
      show floorToMinuteMs ((file.records.getLast?.map PriceData.openTime).getD uninitialised) = _
      rw [hlast, Option.map_some, Option.getD_some, floorToMinuteMs_of_dvd last.dvd_openTime]
      exact le_antisymm hle hge
  · intro front _ t _
    rw [hfile, hdata]
  · intro t ht
    rwa [hfile, ← hdata] at ht

theorem DatabaseEngine.Stored.construct (h : e.Stored) (uninitialised : Int) :
    (DatabaseEngine.opened e.file uninitialised).Stored := by
  obtain ⟨ms, hms⟩ := h.normal
  exact stored_construct h.writable hms h.newest uninitialised

theorem cursor_rebuild (e : DatabaseEngine) : ∀ front ∈ (rebuildCacheFromHistorical e).cache.head?,
    (rebuildCacheFromHistorical e).previousTimestamp = front.openTime := by
  intro front hf
  rcases rebuildCacheFromHistorical_cases e with ⟨-, hnil, -⟩ | ⟨front', hf', hcursor, -⟩
  · rw [hnil] at hf
    cases hf
  · rw [hf'] at hf
    rw [hcursor, Option.some.inj hf]

/-- A rebuild changes nothing where the ring is in step. -/
theorem DatabaseEngine.Stored.rebuild (h : e.Stored) : (rebuildCacheFromHistorical e).Stored := by
  have hring := h.toBounds.rebuild
  have hfile := rebuildCacheFromHistorical_file e
  have hdata := rebuildCacheFromHistorical_historicalData e
  refine ⟨hring, hfile.symm ▸ h.writable, hfile.symm ▸ h.normal, hfile.symm ▸ h.newest,
    cursor_rebuild e, ?_, ?_⟩
  · intro front hf
    rw [hring.head?_cache, hdata, ← h.toRing.head?_cache] at hf
    rw [hfile, hdata]
    exact h.agree front hf
  · rw [hfile, hdata]
    exact h.known

/-- The records of an answer are no earlier than the request. -/
theorem le_of_mem_normalizeRecords {records : List PriceData} {start : Int}
    (hstart : kMillisPerMinute ∣ start) (hpos : 0 < start) (h : ∀ r ∈ records, start ≤ r.openTime)
    {m : MinuteRecord} (hm : m ∈ normalizeRecords records) : start ≤ m.openTime := by
  unfold normalizeRecords at hm
  have hk : Keyed (fun r : MinuteRecord => r.openTime)
      (insertAll (fun r : MinuteRecord => r.openTime) ∅ (records.filterMap normalizedRecord?)) :=
    keyed_empty.insertAll _
  have hm := (mem_values_iff hk).mp hm
  rw [getElem?_insertAll, Std.ExtTreeMap.getElem?_empty, Option.or_none] at hm
  obtain ⟨r, hr, hn⟩ := List.mem_filterMap.mp (List.mem_of_mem_filter (List.mem_of_getLast? hm))
  have hle := h r hr
  rw [openTime_of_normalizedRecord? hn]
  exact le_of_lt_add hstart (dvd_floorToMinuteMs _)
    (lt_of_le_of_lt hle (lt_floorToMinuteMs_add (by omega)))

/-- Besides the minutes of the page nothing is missing on file before the new
front. -/
theorem DatabaseEngine.Stored.agree_of_not_mem (h : e.Stored) {page : List MinuteRecord} {t : Int}
    (hne : ∀ q ∈ page, q.openTime ≠ t) (hcloses : e.ClosesFront page)
    (ht : (∃ q ∈ page, t < q.openTime) ∨
      ∃ r : MinuteRecord, e.historicalData[r.openTime]? = some r ∧ t < r.openTime) :
    (storedHistory e.file.records)[t]? = e.historicalData[t]? := by
  cases hf : e.cache.head? with
  | none =>
    have hnone := h.toRing.empty hf t
    rw [hnone, h.stored_none hnone]
  | some front =>
    obtain ⟨hfront, hmax⟩ := h.toRing.front hf
    rcases lt_trichotomy t front.openTime with hlt | rfl | hgt
    · exact h.agree front hf t hlt
    · have hlater : ∃ q ∈ page, front.openTime < q.openTime := by
        apply ht.resolve_right
        rintro ⟨r, hr, hlt⟩
        have := hmax _ r hr
        omega
      rcases hcloses front hf hlater with ⟨q, hq, hqt⟩ | hlast
      · exact absurd hqt (hne q hq)
      · obtain ⟨init, hinit⟩ := List.getLast?_eq_some_iff.mp hlast
        rw [hinit, getElem?_storedHistory_concat, if_pos rfl, hfront]
    · have hnone := h.toRing.none_after hf hgt
      rw [hnone, h.stored_none hnone]

/-- No record of a page from the front on is earlier than the last one on file. -/
theorem DatabaseEngine.Stored.le_page (h : e.Stored) {page : FetchedPage}
    (hstart : ∀ front ∈ e.cache.head?, ∀ q ∈ page.records, front.openTime ≤ q.openTime) :
    ∀ last ∈ e.file.records.getLast?, ∀ q ∈ page.records, last.openTime ≤ q.openTime := by
  obtain ⟨ms, hms⟩ := h.normal
  intro last hl q hq
  rw [hms, List.getLast?_map] at hl
  obtain ⟨m, hm, rfl⟩ := Option.mem_map.mp hl
  have hsome := hms ▸ isSome_storedHistory_getLast hm
  obtain ⟨front, hf⟩ := h.exists_front hsome
  exact (h.le_front hf hsome).trans (hstart front hf q hq)

theorem DatabaseEngine.Stored.takePage (h : e.Stored) {page : FetchedPage}
    (hcloses : e.ClosesFront page.records)
    (hstart : ∀ front ∈ e.cache.head?, ∀ q ∈ page.records, front.openTime ≤ q.openTime) :
    (takePage e page).Stored := by
  obtain ⟨ms, hms⟩ := h.normal
  obtain ⟨ms', hms', hlast, hstored⟩ := storedHistory_saveRecords h.writable hms page.ascending
    page.ne_nil (h.le_page hstart)
  have hring := h.toRing.takePage page
  have hfile := takePage_file e page
  have hdata := takePage_historicalData e page
  refine ⟨hring, ?_, ⟨ms', ?_⟩, ?_, ?_, ?_, ?_⟩
  · rw [hfile]
    exact saveRecords_opens h.writable _
  · rw [hfile, hms']
  · intro last hl t ht
    rw [hfile, hms', List.getLast?_map, hlast] at hl
    rw [hfile, hms', hstored, isSome_insertAll_iff] at ht
    obtain ⟨m, hm, rfl⟩ := Option.mem_map.mp hl
    rcases ht with ht | ⟨q, hq, rfl⟩
    · obtain ⟨front, hf⟩ := h.exists_front ht
      exact (h.le_front hf ht).trans (hstart front hf m (List.mem_of_getLast? hm))
    · exact le_of_getLast? page.ascending hm hq
  · rw [takePage_eq]
    exact cursor_rebuild _
  · intro front' hf' t ht
    rw [hfile, hms', hstored, hdata]
    by_cases hq : ∃ q ∈ page.records, q.openTime = t
    · obtain ⟨q, hq, rfl⟩ := hq
      rw [getElem?_insertAll_of_mem page.ascending hq, getElem?_insertAll_of_mem page.ascending hq]
    · have hne : ∀ q ∈ page.records, q.openTime ≠ t := fun q hm hqt => hq ⟨q, hm, hqt⟩
      rw [getElem?_insertAll_of_ne hne, getElem?_insertAll_of_ne hne]
      apply h.agree_of_not_mem hne hcloses
      -- The new front is in the page, or it is the old one.
      obtain ⟨hin, -⟩ := hring.front hf'
      rw [hdata] at hin
      by_cases hp : ∃ q ∈ page.records, q.openTime = front'.openTime
      · obtain ⟨q, hq, hqt⟩ := hp
        exact Or.inl ⟨q, hq, hqt ▸ ht⟩
      · rw [getElem?_insertAll_of_ne fun q hm hqt => hp ⟨q, hm, hqt⟩] at hin
        exact Or.inr ⟨front', hin, ht⟩
  · intro t ht
    rw [hfile, hms', hstored, isSome_insertAll_iff] at ht
    rw [hdata, isSome_insertAll_iff]
    exact ht.imp_left (h.known t)

/-- A record that comes to the front, with a file that has what the store had
before it. -/
theorem stored_after_front {e₁ : DatabaseEngine} {r : MinuteRecord} (hring : e₁.Ring)
    (hdata : e₁.historicalData = e.historicalData.insert r.openTime r)
    (hhead : e₁.cache.head? = some r) (hcursor : e₁.previousTimestamp = r.openTime)
    (hopens : e₁.file.opens = [])
    (hnormal : ∃ ms : List MinuteRecord, e₁.file.records = ms.map fun r => r.toPriceData)
    (hnewest : ∀ last ∈ e₁.file.records.getLast?, ∀ t : Int,
      (storedHistory e₁.file.records)[t]?.isSome = true → t ≤ last.openTime)
    (hagree : ∀ t < r.openTime, (storedHistory e₁.file.records)[t]? = e.historicalData[t]?)
    (hknown : ∀ t : Int, (storedHistory e₁.file.records)[t]?.isSome = true →
      e.historicalData[t]?.isSome = true) : e₁.Stored := by
  refine ⟨hring, hopens, hnormal, hnewest, ?_, ?_, ?_⟩
  · intro front hf
    rw [hhead] at hf
    rw [hcursor, Option.some.inj hf]
  · intro front hf t ht
    rw [hhead] at hf
    obtain rfl := Option.some.inj hf
    rw [hdata, getElem?_insert_self_or, if_neg (by omega), hagree t ht]
  · intro t ht
    rw [hdata, getElem?_insert_self_or]
    split
    · rfl
    · exact hknown t ht

/-- The closed candle on file. -/
theorem DatabaseEngine.Stored.saveRecord (h : e.Stored) {front : MinuteRecord}
    (hf : e.cache.head? = some front) :
    let records := (Storage.saveRecord e.file front.toPriceData).records
    (∃ ms : List MinuteRecord, records = ms.map fun r => r.toPriceData) ∧
    (∀ last ∈ records.getLast?, ∀ t : Int,
      (storedHistory records)[t]?.isSome = true → t ≤ last.openTime) ∧
    (∀ t : Int, (storedHistory records)[t]? = e.historicalData[t]?) := by
  intro records
  obtain ⟨ms, hms⟩ := h.normal
  obtain ⟨hfront, hmax⟩ := h.toRing.front hf
  have hrecords : records = e.file.records ++ [front.toPriceData] := saveRecord_records h.writable front
  have hstored : ∀ t : Int, (storedHistory records)[t]? = e.historicalData[t]? := by
    intro t
    rw [hrecords, getElem?_storedHistory_concat]
    rcases lt_trichotomy t front.openTime with hlt | rfl | hgt
    · rw [if_neg (by omega), h.agree front hf t hlt]
    · rw [if_pos rfl, hfront]
    · have hnone := h.toRing.none_after hf hgt
      rw [if_neg (by omega), hnone, h.stored_none hnone]
  refine ⟨⟨ms ++ [front], by rw [hrecords, hms, List.map_append]; rfl⟩, ?_, hstored⟩
  intro last hl t ht
  rw [hrecords, List.getLast?_concat] at hl
  rw [hstored] at ht
  obtain ⟨r, hr⟩ := Option.isSome_iff_exists.mp ht
  exact Option.some.inj hl ▸ hmax t r hr

theorem DatabaseEngine.Stored.updateWithNewData (h : e.Stored) (data : PriceData) :
    (updateWithNewData e data).Stored := by
  have hring := h.toRing.updateWithNewData data
  rcases updateWithNewData_cases e data with he | ⟨r, e', closed, -, hc, he⟩
  · rwa [he]
  · obtain ⟨hdata, hfile, hhead, hcases⟩ := updateCache_cases hc
    have hdata' : (ingest (closed.elim e' fun c => e'.saveRecord c) [r]).historicalData =
        e.historicalData.insert r.openTime r := by
      rw [← hdata]
      cases closed <;> rfl
    have hhead' : (ingest (closed.elim e' fun c => e'.saveRecord c) [r]).cache.head? = some r := by
      rw [← hhead]
      cases closed <;> rfl
    have hcursor : (ingest (closed.elim e' fun c => e'.saveRecord c) [r]).previousTimestamp =
        e'.previousTimestamp := by
      cases closed <;> rfl
    rw [he] at hring ⊢
    rcases hcases with ⟨rfl, -, hprev⟩ | ⟨front, hfront, ht, rfl, hprev⟩
    · cases hf : e.cache.head? with
      | none =>
        rw [hf] at hring hdata' hhead' hcursor
        have hnone := h.toRing.empty hf
        refine stored_after_front hring hdata' hhead' (hcursor.trans hprev) (hfile ▸ h.writable)
          (hfile ▸ h.normal) (hfile ▸ h.newest) (fun t _ => ?_) (hfile ▸ h.known)
        show (storedHistory e'.file.records)[t]? = _
        rw [hfile, hnone, h.stored_none (hnone t)]
      | some front =>
        rw [hf] at hring hdata' hhead' hcursor
        obtain ⟨hnormal, hnewest, hstored⟩ := h.saveRecord hf
        have hfile' : (ingest ((some front).elim e' fun c => e'.saveRecord c) [r]).file =
            Storage.saveRecord e.file front.toPriceData := by
          rw [← hfile]
          rfl
        refine stored_after_front hring hdata' hhead' (hcursor.trans hprev)
          (hfile' ▸ saveRecord_opens h.writable _) (hfile' ▸ hnormal) (hfile' ▸ hnewest)
          (fun t _ => hfile' ▸ hstored t) (fun t ht => ?_)
        rwa [hfile', hstored] at ht
    · have hprev := hprev.trans (h.cursor front hfront)
      refine stored_after_front hring hdata' hhead' (hcursor.trans (hprev.trans ht)) (hfile ▸ h.writable)
        (hfile ▸ h.normal) (hfile ▸ h.newest) (fun t hlt => ?_) (hfile ▸ h.known)
      exact hfile ▸ h.agree front hfront t (ht ▸ hlt)

/-- Every operation keeps the file in step, if `actualize` closes what it goes
past. -/
theorem DatabaseEngine.Stored.call (h : e.Stored) {fetcher : Int → Int → List PriceData}
    (hfetcher : ∀ now start, ∀ r ∈ fetcher now start, start ≤ r.openTime) {c : EngineCall}
    (hcloses : e.ClosesFronts fetcher c) {e' : DatabaseEngine}
    (hc : e.call fetcher c = some e') : e'.Stored := by
  cases c with
  | construct uninitialised =>
    obtain rfl := Option.some.inj hc
    exact h.construct uninitialised
  | updateWithNewData data =>
    obtain rfl := Option.some.inj hc
    exact h.updateWithNewData data
  | actualize nows =>
    refine actualize_inv (P := fun e page => e.ClosesFront page) (fun e h => h.rebuild)
      (fun e now page h hp hn => h.takePage hp fun front hf q hq => ?_) h hcloses hc
    have hpos : 0 < front.openTime := (isValidRecord_iff.mp front.valid).1
    rw [h.cursor front hf] at hn
    exact le_of_mem_normalizeRecords front.dvd_openTime hpos (hfetcher now _) (hn ▸ hq)

end Invariant

/-! ## Restarts -/

/-- After every operation of a run from an empty data file the file holds what
the store holds of every minute but the newest, and no other minute; and this is
what a new engine on the file starts with. -/
theorem restart_keeps (fetcher : Int → Int → List PriceData)
    (hfetcher : ∀ now start, ∀ r ∈ fetcher now start, start ≤ r.openTime) (file : DataFile)
    (hrecords : file.records = []) (hopens : file.opens = []) (uninitialised : Int)
    (calls : List EngineCall)
    (hcloses : Along (DatabaseEngine.call fetcher) (DatabaseEngine.ClosesFronts fetcher)
      (.opened file uninitialised) calls)
    (e : DatabaseEngine)
    (hrun : run (DatabaseEngine.call fetcher) (.opened file uninitialised) calls = some e) :
    (∀ minute newer : Int, minute < newer → e.historicalData[newer]?.isSome = true →
      (storedHistory e.file.records)[minute]? = e.historicalData[minute]?) ∧
    (∀ minute : Int, (storedHistory e.file.records)[minute]?.isSome = true →
      e.historicalData[minute]?.isSome = true) ∧
    (∀ uninitialised', (DatabaseEngine.opened e.file uninitialised').historicalData =
      storedHistory e.file.records) := by
  have hstart : (DatabaseEngine.opened file uninitialised).Stored := by
    have hms : file.records = ([] : List MinuteRecord).map fun r => r.toPriceData := hrecords
    refine stored_construct hopens hms (fun last hl => ?_) uninitialised
    rw [hrecords] at hl
    cases hl
  have h : e.Stored := inv_of_along (fun _ _ _ h hk hc => h.call hfetcher hk hc) hstart hcloses hrun
  refine ⟨fun minute newer hlt hnewer => ?_, h.known, historicalData_opened e.file⟩
  obtain ⟨r, hr⟩ := Option.isSome_iff_exists.mp hnewer
  cases hf : e.cache.head? with
  | none =>
    rw [h.toRing.empty hf] at hr
    cases hr
  | some front =>
    have := (h.toRing.front hf).2 newer r hr
    exact h.agree front hf minute (by omega)

end

/-- An exchange that never had the first minute. -/
def laterMinuteFetcher (_now startTime : Int) : List PriceData :=
  [flatRecord 120000 1].filter fun r => startTime ≤ r.openTime

theorem laterMinuteFetcher_honours (now start : Int) :
    ∀ r ∈ laterMinuteFetcher now start, start ≤ r.openTime :=
  fun _ hr => of_decide_eq_true (List.mem_filter.mp hr).2

def skippedCalls : List EngineCall := [.updateWithNewData (flatRecord 60000 1), .actualize [0]]

/-- The live record of the first minute never gets to the file. -/
theorem restart_loses_minute :
    (∀ now start, ∀ r ∈ laterMinuteFetcher now start, start ≤ r.openTime) ∧
    ∃ e, run (DatabaseEngine.call laterMinuteFetcher) (.opened {} 0) skippedCalls = some e ∧
      e.historicalData[(120000 : Int)]?.isSome = true ∧
      (storedHistory e.file.records)[(60000 : Int)]? ≠ e.historicalData[(60000 : Int)]? := by
  refine ⟨laterMinuteFetcher_honours, ?_⟩
  have hrun : (run (DatabaseEngine.call laterMinuteFetcher) (.opened {} 0) skippedCalls).map (fun e =>
      decide (e.historicalData[(120000 : Int)]?.isSome = true ∧
        (storedHistory e.file.records)[(60000 : Int)]? ≠ e.historicalData[(60000 : Int)]?)) =
      some true := by decide +kernel
  obtain ⟨e, he, hlost⟩ := Option.map_eq_some_iff.mp hrun
  exact ⟨e, he, of_decide_eq_true hlost⟩

/-- The live stream closes the first minute before the page comes; then a
restart and one more live record. -/
def closedCalls : List EngineCall :=
  [.updateWithNewData (flatRecord 60000 1), .updateWithNewData (flatRecord 120000 2), .actualize [0],
    .construct 7, .updateWithNewData (flatRecord 180000 3)]

theorem restart_keeps_closed :
    ∃ e, run (DatabaseEngine.call laterMinuteFetcher) (.opened {} 0) closedCalls = some e ∧
      e.historicalData.keys = [60000, 120000, 180000] ∧
      (∀ minute newer : Int, minute < newer → e.historicalData[newer]?.isSome = true →
        (storedHistory e.file.records)[minute]? = e.historicalData[minute]?) := by
  have hrun : (run (DatabaseEngine.call laterMinuteFetcher) (.opened {} 0) closedCalls).map
      (fun e => e.historicalData.keys) = some [60000, 120000, 180000] := by decide +kernel
  have hcloses : Along (DatabaseEngine.call laterMinuteFetcher)
      (DatabaseEngine.ClosesFronts laterMinuteFetcher) (.opened {} 0) closedCalls := by decide +kernel
  obtain ⟨e, he, hkeys⟩ := Option.map_eq_some_iff.mp hrun
  exact ⟨e, he, hkeys, (restart_keeps laterMinuteFetcher laterMinuteFetcher_honours {} rfl rfl 0
    closedCalls hcloses e he).1⟩

end TCV.Storage
