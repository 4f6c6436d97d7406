import TradingChartViewer.Storage.EngineRestart

/-!
# What observers see of the engine

The range of stored times, and the calls of `notifyObservers` and
`notifyFullDataObservers`. An observer with an index gets the record at that
place of the ring.

* `DatabaseEngine.notifiesObservers`: the updates after which the ring is handed out;
* `DatabaseEngine.Ring.range`: the range of a store with records;
* `keys_update`: the minutes that are stored change with no other update.
-/

namespace TCV.Storage

open TCV.Domain Lib.TimeMap

variable [TimeUtils]

/-! ## The range of times -/

def DatabaseEngine.getOpenTimeRange (e : DatabaseEngine) : Option (Int × Int) :=
  if e.minOpenTime ≤ 0 || e.maxOpenTime ≤ 0 || e.maxOpenTime < e.minOpenTime then none
  else some (e.minOpenTime, e.maxOpenTime)

def DatabaseEngine.isTimestampWithinRange (e : DatabaseEngine) (timestamp : Int) : Bool :=
  if e.minOpenTime ≤ 0 || e.maxOpenTime ≤ 0 || e.maxOpenTime < e.minOpenTime then false
  else
    let aligned := floorToMinuteMs timestamp
    e.minOpenTime ≤ aligned && aligned ≤ e.maxOpenTime

/-- An empty file leaves `openTime` of its last record as it finds it. -/
def DatabaseEngine.getLastEventTimestamp (e : DatabaseEngine) (uninitialised : Int) : Option Int :=
  if 0 < e.maxOpenTime then some e.maxOpenTime
  else
    match e.cache with
    | front :: _ => some front.openTime
    | [] =>
      let lastRecord := (e.file.records.getLast?.map (·.openTime)).getD uninitialised
      if 0 < lastRecord then some lastRecord else none

/-! ## Notifications -/

/-- The calls of `notifyObservers`, in their order. -/
def DatabaseEngine.notifications {α : Type*} (e : DatabaseEngine) (subscriptions : List (α × Nat)) :
    List (α × MinuteRecord) :=
  subscriptions.filterMap fun s => (e.cache[s.2]?).map (s.1, ·)

/-- The calls of `notifyFullDataObservers`. -/
def DatabaseEngine.fullDataNotifications {α : Type*} (e : DatabaseEngine) (observers : List α) :
    List (α × MinuteRecord) :=
  match e.cache.head? with
  | none => []
  | some recentData => observers.map (·, recentData)

/-- `notifyCache` of `updateWithNewData`. -/
def DatabaseEngine.notifiesObservers (e : DatabaseEngine) (data : PriceData) : Bool :=
  match normalizedRecord? data with
  | none => false
  | some normalized =>
    match e.cache with
    | front :: _ => front.openTime < normalized.openTime
    | [] => true

/-- `notifyFull` of `updateWithNewData`. -/
def DatabaseEngine.notifiesFullDataObservers (e : DatabaseEngine) (data : PriceData) : Bool :=
  match normalizedRecord? data with
  | none => false
  | some normalized => (updateCache e normalized).isSome

section Range

variable {e : DatabaseEngine}

theorem MinuteRecord.openTime_pos (r : MinuteRecord) : 0 < r.openTime :=
  (isValidRecord_iff.mp r.valid).1

/-- The ends of the range are minutes, and the newest one is at the front of the ring. -/
theorem DatabaseEngine.Ring.range (h : e.Ring) {front : MinuteRecord}
    (hf : e.cache.head? = some front) :
    0 < e.minOpenTime ∧ e.minOpenTime ≤ e.maxOpenTime ∧ kMillisPerMinute ∣ e.minOpenTime ∧
      front.openTime = e.maxOpenTime := by
  have hlast := hf
  rw [h.head?_cache] at hlast
  have hmax : e.maxOpenTime = front.openTime := by
    rw [h.maxOpenTime, keys_eq_map_values e.keyed, List.getLast?_map, hlast]
    rfl
  obtain ⟨first, hfirst⟩ : ∃ first, (values e.historicalData).head? = some first := by
    cases hv : values e.historicalData with
    | nil => rw [hv] at hlast; cases hlast
    | cons first rest => exact ⟨first, rfl⟩
  have hmin : e.minOpenTime = first.openTime := by
    rw [h.minOpenTime, keys_eq_map_values e.keyed, List.head?_map, hfirst]
    rfl
  rw [hmin, hmax]
  exact ⟨first.openTime_pos, le_of_getLast?_values e.keyed hlast
    ((mem_values_iff e.keyed).mp (List.mem_of_head? hfirst)), first.dvd_openTime, rfl⟩

/-- An empty ring is that of an engine without a range. -/
theorem DatabaseEngine.Ring.range_none (h : e.Ring) (hf : e.cache.head? = none) :
    e.getOpenTimeRange = none := by
  have hnil : e.historicalData.keys = [] := by
    rw [h.head?_cache, List.getLast?_eq_none_iff] at hf
    rw [keys_eq_map_values e.keyed, hf]
    rfl
  have hmin := h.minOpenTime
  rw [hnil] at hmin
  rw [DatabaseEngine.getOpenTimeRange, if_pos]
  simp [hmin]

theorem DatabaseEngine.Ring.range_some (h : e.Ring) {front : MinuteRecord}
    (hf : e.cache.head? = some front) :
    e.getOpenTimeRange = some (e.minOpenTime, e.maxOpenTime) := by
  obtain ⟨hpos, hle, -, -⟩ := h.range hf
  rw [DatabaseEngine.getOpenTimeRange, if_neg]
  simp only [Bool.or_eq_true, decide_eq_true_eq]
  omega

theorem DatabaseEngine.Ring.within_iff (h : e.Ring) {front : MinuteRecord}
    (hf : e.cache.head? = some front) {t : Int} (ht : kMillisPerMinute ∣ t) :
    e.isTimestampWithinRange t = true ↔ e.minOpenTime ≤ t ∧ t ≤ e.maxOpenTime := by
  obtain ⟨hpos, hle, -, -⟩ := h.range hf
  rw [DatabaseEngine.isTimestampWithinRange, if_neg, floorToMinuteMs_of_dvd ht]
  · simp
  · simp only [Bool.or_eq_true, decide_eq_true_eq]
    omega

/-- The minutes that are stored change with no update but those that hand out the ring. -/
theorem keys_update (h : e.Ring) {data : PriceData} (hn : e.notifiesObservers data = false) :
    (updateWithNewData e data).historicalData.keys = e.historicalData.keys := by
  rcases updateWithNewData_cases e data with he | ⟨r, e', closed, hr, hc, he⟩
  · rw [he]
  · obtain ⟨hdata, -, -, hcases⟩ := updateCache_cases hc
    have hfront : ∃ front, e.cache.head? = some front ∧ front.openTime = r.openTime := by
      rcases hcases with ⟨-, hlt, -⟩ | ⟨front, hf, heq, -⟩
      · rw [DatabaseEngine.notifiesObservers, hr] at hn
        cases hcache : e.cache with
        | nil => rw [hcache] at hn; cases hn
        | cons front rest =>
          rw [hcache] at hn hlt
          exact absurd (hlt front rfl) (by simpa using hn)
      · exact ⟨front, hf, heq⟩
    obtain ⟨front, hf, heq⟩ := hfront
    rw [h.head?_cache] at hf
    obtain ⟨init, hinit⟩ := List.getLast?_eq_some_iff.mp hf
    have hinsert : (updateWithNewData e data).historicalData =
        e.historicalData.insert r.openTime r := by
      rw [he]
      cases closed <;> exact congrArg (fun m : Historical => m.insert r.openTime r) hdata
    have hkeyed : Keyed (fun r : MinuteRecord => r.openTime) (e.historicalData.insert r.openTime r) :=
      e.keyed.insert r
    rw [hinsert, keys_eq_map_values hkeyed, values_insert_last e.keyed hinit heq.symm,
      keys_eq_map_values e.keyed, hinit]
    simp [heq]

/-- Without a call of the full-data observers nothing has happened. -/
theorem update_eq_self {data : PriceData} (hn : e.notifiesFullDataObservers data = false) :
    updateWithNewData e data = e := by
  rcases updateWithNewData_cases e data with he | ⟨r, e', closed, hr, hc, -⟩
  · exact he
  · rw [DatabaseEngine.notifiesFullDataObservers, hr] at hn
    dsimp only at hn
    rw [hc] at hn
    cases hn

/-- An update that does not hand out the ring changes its front at most. -/
theorem tail_cache_update {data : PriceData} (hn : e.notifiesObservers data = false) :
    (updateWithNewData e data).cache.tail = e.cache.tail := by
  rcases updateWithNewData_cases e data with he | ⟨r, e', closed, hr, hc, he⟩
  · rw [he]
  · have hcache : (updateWithNewData e data).cache = e'.cache := by
      rw [he]
      cases closed <;> rfl
    rw [DatabaseEngine.notifiesObservers, hr] at hn
    rw [hcache]
    unfold updateCache at hc
    split at hc
    · rename_i front rest hfront
      rw [hfront] at hn ⊢
      rw [if_neg (by simpa using hn)] at hc
      split at hc <;> cases hc
      rfl
    · rename_i hnil
      rw [hnil] at hn
      cases hn

/-- An engine that has all the minutes of another, and perhaps more. -/
def DatabaseEngine.Grows (e e' : DatabaseEngine) : Prop :=
  ∀ t : Int, e.historicalData[t]?.isSome = true → e'.historicalData[t]?.isSome = true

theorem grows_update (e : DatabaseEngine) (data : PriceData) :
    e.Grows (updateWithNewData e data) := fun t ht => by
  rcases updateWithNewData_cases e data with he | ⟨r, e', closed, -, hc, he⟩
  · rwa [he]
  · obtain ⟨hdata, -⟩ := updateCache_cases hc
    have hclosed : (closed.elim e' fun c => e'.saveRecord c).historicalData = e.historicalData := by
      cases closed <;> exact hdata
    rw [he, isSome_ingest_iff, hclosed]
    exact .inl ht

theorem grows_actualize {fetcher : Int → Int → List PriceData} {nows : List Int}
    {e' : DatabaseEngine} (h : e.Ring) (he : actualize fetcher e nows = some e') :
    e'.Ring ∧ e.Grows e' := by
  refine actualize_inv (P := fun _ _ => True)
    (fun u (hu : u.Ring ∧ e.Grows u) => ⟨hu.1.toBounds.rebuild, fun t ht => ?_⟩)
    (fun u now page (hu : u.Ring ∧ e.Grows u) _ _ => ⟨hu.1.takePage page, fun t ht => ?_⟩) ⟨h, fun t ht => ht⟩
    (Lib.Run.along_of_forall fun _ _ => trivial) he
  · rw [rebuildCacheFromHistorical_historicalData]
    exact hu.2 t ht
  · rw [takePage_historicalData, isSome_insertAll_iff]
    exact .inl (hu.2 t ht)

theorem DatabaseEngine.Grows.length_le {e' : DatabaseEngine} (hg : e.Grows e') :
    (values e.historicalData).length ≤ (values e'.historicalData).length := by
  have hlength (u : DatabaseEngine) :
      (values u.historicalData).length = u.historicalData.keys.length := by
    rw [keys_eq_map_values u.keyed, List.length_map]
  have hnodup : e.historicalData.keys.Nodup := by
    rw [keys_eq_map_values e.keyed]
    exact (List.pairwise_map.mpr (values_pairwise e.keyed)).imp fun hlt => hlt.ne
  rw [hlength e, hlength e']
  refine (List.subperm_of_subset hnodup fun t ht => ?_).length_le
  rw [Std.ExtTreeMap.mem_keys, Std.ExtTreeMap.mem_iff_isSome_getElem?] at ht ⊢
  exact hg t ht

/-- The newest minute of an engine that grows does not go back. -/
theorem DatabaseEngine.Grows.front {e' : DatabaseEngine} (hg : e.Grows e') (h : e.Ring)
    (h' : e'.Ring) {front : MinuteRecord} (hf : e.cache.head? = some front) :
    ∃ front', e'.cache.head? = some front' ∧ e.maxOpenTime ≤ e'.maxOpenTime := by
  obtain ⟨hstored, -⟩ := h.front hf
  obtain ⟨r, hr⟩ := Option.isSome_iff_exists.mp (hg front.openTime (by rw [hstored]; rfl))
  cases hf' : e'.cache.head? with
  | none =>
    rw [h'.empty hf'] at hr
    cases hr
  | some front' =>
    refine ⟨front', rfl, ?_⟩
    rw [← (h.range hf).2.2.2, ← (h'.range hf').2.2.2]
    exact (h'.front hf').2 _ _ hr

/-- Engines with the same minutes have the same range. -/
theorem range_congr {e' : DatabaseEngine} (h : e.Ring) (h' : e'.Ring)
    (hkeys : e'.historicalData.keys = e.historicalData.keys) :
    e'.minOpenTime = e.minOpenTime ∧ e'.maxOpenTime = e.maxOpenTime ∧
      e'.cache.head?.map (·.openTime) = e.cache.head?.map (·.openTime) := by
  rw [h.minOpenTime, h'.minOpenTime, h.maxOpenTime, h'.maxOpenTime, hkeys, h.head?_cache,
    h'.head?_cache, ← List.getLast?_map, ← List.getLast?_map, ← keys_eq_map_values e.keyed,
    ← keys_eq_map_values e'.keyed, hkeys]
  exact ⟨rfl, rfl, rfl⟩

end Range

end TCV.Storage
