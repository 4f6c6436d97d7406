import TradingChartViewer.Storage.Sequential

/-!
# The state derived from the store

Besides the store itself `DatabaseEngine` keeps the ring of the newest records,
the first and the last minute and whether the warm-up window is complete, each
updated on its own by every operation.

* `tryGetLatestSpan`: the readers' view of the newest minutes;
* `DatabaseEngine.Bounds`, `DatabaseEngine.Ring`: the invariants;
* `consecutiveFrom_iff`, `spanFrom_eq`: the two loops over the newest minutes;
* `call_ring`: every run of whole operations keeps all of it in step.
-/

namespace TCV.Storage

open TCV.Domain Lib.TimeMap Lib.Run

/-! ## Reading -/

structure OHLC where
  openTimeMs : Int
  open_ : Price
  high : Price
  low : Price
  close : Price
  deriving DecidableEq, Repr

def makeOHLC (data : PriceData) : OHLC :=
  ⟨data.openTime, data.openPrice, data.highPrice, data.lowPrice, data.closePrice⟩

section Reading

variable [TimeUtils]

def DatabaseEngine.isReady (e : DatabaseEngine) : Bool := e.dataReady

/-- The loop of `tryGetLatestSpan` with `count - i` left, over the map from its
end: whether it gets through, and what it pushes. -/
def spanFrom (expected : Int) : Nat → List (Int × MinuteRecord) → Bool × List OHLC
  | 0, _ => (true, [])
  | _ + 1, [] => (false, [])
  | left + 1, it :: rest =>
    if it.1 ≠ expected then (false, [])
    else
      let (ok, out) := spanFrom (expected - kMillisPerMinute) left rest
      (ok, makeOHLC it.2.toPriceData :: out)

/-- `tryGetLatestSpan`, with what it leaves in `out`. -/
def DatabaseEngine.tryGetLatestSpan (e : DatabaseEngine) (count : Int) : Bool × List OHLC :=
  if count ≤ 0 then (false, [])
  else
    match e.historicalData.toList.reverse with
    | [] => (false, [])
    | newest :: rest =>
      let (ok, out) := spanFrom (floorToMinuteMs newest.1) count.toNat (newest :: rest)
      if ok then (true, out.reverse) else (false, out)

end Reading

/-! ## The loops over the newest minutes -/

/-- The keys from the newest on go down minute by minute, `n` of them. -/
def Consecutive (n : Nat) (keys : List Int) : Prop :=
  (keys.take n).length = n ∧ (keys.take n).IsChain fun s t => s = t + kMillisPerMinute

instance (n : Nat) (keys : List Int) : Decidable (Consecutive n keys) :=
  inferInstanceAs (Decidable (_ ∧ _))

theorem Consecutive.mono {m n : Nat} (hm : m ≤ n) {keys : List Int} (h : Consecutive n keys) :
    Consecutive m keys := by
  obtain ⟨hlen, hchain⟩ := h
  have htake : keys.take m = (keys.take n).take m := by rw [List.take_take, Nat.min_eq_left hm]
  refine ⟨?_, htake ▸ hchain.take m⟩
  rw [htake, List.length_take, hlen, Nat.min_eq_left hm]

theorem consecutiveFrom_iff {expected : Int} {n : Nat} {keys : List Int} :
    consecutiveFrom expected n keys = true ↔
      Consecutive n keys ∧ ∀ key ∈ (keys.take n).head?, key = expected := by
  induction n generalizing expected keys with
  | zero => simp [consecutiveFrom, Consecutive]
  | succ n ih =>
    cases keys with
    | nil => simp [consecutiveFrom, Consecutive]
    | cons key keys =>
      rw [consecutiveFrom, Bool.and_eq_true, decide_eq_true_eq, ih, Consecutive, Consecutive,
        List.take_succ_cons, List.length_cons, List.isChain_cons]
      simp only [List.head?_cons, Option.mem_some_iff, forall_eq']
      constructor
      · rintro ⟨rfl, ⟨hlen, hchain⟩, hhead⟩
        refine ⟨⟨by omega, fun t ht => ?_, hchain⟩, rfl⟩
        have := hhead t ht
        omega
      · rintro ⟨⟨hlen, hhead, hchain⟩, rfl⟩
        refine ⟨rfl, ⟨by omega, hchain⟩, fun t ht => ?_⟩
        have := hhead t ht
        omega

/-- The loop of `tryGetLatestSpan` gets through consecutive minutes. -/
theorem spanFrom_eq [TimeUtils] {expected : Int} {n : Nat} {its : List (Int × MinuteRecord)}
    (h : consecutiveFrom expected n (its.map Prod.fst) = true) :
    spanFrom expected n its = (true, (its.take n).map fun it => makeOHLC it.2.toPriceData) := by
  induction n generalizing expected its with
  | zero => rfl
  | succ n ih =>
    cases its with
    | nil => cases h
    | cons it its =>
      rw [List.map_cons, consecutiveFrom, Bool.and_eq_true, decide_eq_true_eq] at h
      rw [spanFrom, if_neg (not_not.mpr h.1), ih h.2]
      rfl

/-! ## The invariants -/

section Invariants

variable [TimeUtils] {e : DatabaseEngine}

theorem MinuteRecord.dvd_openTime (r : MinuteRecord) : kMillisPerMinute ∣ r.openTime := by
  have hv : isValidRecord (normalizeRecord r.toPriceData) = true := by
    rw [r.normal]
    exact r.valid
  rw [← congrArg PriceData.openTime r.normal, normalizeRecord_openTime hv]
  exact dvd_floorToMinuteMs _

theorem dvd_of_mem_keys (e : DatabaseEngine) {key : Int} (h : key ∈ e.historicalData.keys) :
    kMillisPerMinute ∣ key := by
  rw [keys_eq_map_values e.keyed] at h
  obtain ⟨r, -, rfl⟩ := List.mem_map.mp h
  exact r.dvd_openTime

theorem hasConsecutiveCandlesLocked_iff (e : DatabaseEngine) {n : Nat} (hn : 0 < n) :
    (hasConsecutiveCandlesLocked e.historicalData n).1 = true ↔
      Consecutive n e.historicalData.keys.reverse := by
  unfold hasConsecutiveCandlesLocked
  rw [if_neg (by omega)]
  dsimp only
  have hdvd : ∀ key ∈ e.historicalData.keys.reverse, kMillisPerMinute ∣ key :=
    fun key hkey => dvd_of_mem_keys e (List.mem_reverse.mp hkey)
  cases hk : e.historicalData.keys.reverse with
  | nil =>
    dsimp only
    simp [Consecutive]
    omega
  | cons newest keys =>
    rw [hk] at hdvd
    dsimp only
    rw [consecutiveFrom_iff, floorToMinuteMs_of_dvd (hdvd newest List.mem_cons_self)]
    apply and_iff_left
    intro key hkey
    obtain ⟨m, rfl⟩ : ∃ m, n = m + 1 := ⟨n - 1, by omega⟩
    rw [List.take_succ_cons, List.head?_cons] at hkey
    exact (Option.some.inj hkey).symm

/-- The first and the last minute, and the readiness. -/
structure DatabaseEngine.Bounds (e : DatabaseEngine) : Prop where
  minOpenTime : e.minOpenTime = e.historicalData.keys.head?.getD 0
  maxOpenTime : e.maxOpenTime = e.historicalData.keys.getLast?.getD 0
  dataReady : e.dataReady = (hasConsecutiveCandlesLocked e.historicalData WARMUP_CANDLES).1

/-- The ring holds the newest records of the store, the newest one first. -/
structure DatabaseEngine.Ring (e : DatabaseEngine) : Prop extends e.Bounds where
  cache : e.cache = (values e.historicalData).reverse.take cacheSize

theorem keys_ingest_of_nil {l : List MinuteRecord}
    (h : (ingest e l).historicalData.keys = []) : e.historicalData.keys = [] := by
  rw [Std.ExtTreeMap.keys_eq_nil_iff] at h ⊢
  apply Std.ExtTreeMap.ext_getElem?
  intro t
  have ht : ¬ (ingest e l).historicalData[t]?.isSome = true := by
    rw [h]
    simp
  rw [isSome_ingest_iff] at ht
  simpa using fun hs => ht (Or.inl hs)

theorem DatabaseEngine.Bounds.ingest (h : e.Bounds) (l : List MinuteRecord) :
    (ingest e l).Bounds := by
  have hnil := keys_ingest_of_nil (e := e) (l := l)
  refine ⟨?_, ?_, rfl⟩
  · show (Storage.ingest e l).historicalData.minKey?.getD e.minOpenTime = _
    rw [Std.ExtTreeMap.minKey?_eq_head?_keys, h.minOpenTime]
    cases hk : (Storage.ingest e l).historicalData.keys with
    | nil => rw [hnil hk]; rfl
    | cons key keys => rfl
  · show (Storage.ingest e l).historicalData.maxKey?.getD e.maxOpenTime = _
    rw [Std.ExtTreeMap.maxKey?_eq_getLast?_keys, h.maxOpenTime]
    cases hk : (Storage.ingest e l).historicalData.keys.getLast? with
    | none => rw [hnil (List.getLast?_eq_none_iff.mp hk)]; rfl
    | some key => rfl

theorem DatabaseEngine.Bounds.ingestRecords (h : e.Bounds) (records : List PriceData) :
    (ingestRecords e records).Bounds := by
  unfold Storage.ingestRecords
  dsimp only
  split
  · exact h
  · exact h.ingest _

/-- A rebuild brings the ring into step, whatever it held. -/
theorem DatabaseEngine.Bounds.rebuild (h : e.Bounds) : (rebuildCacheFromHistorical e).Ring := by
  unfold rebuildCacheFromHistorical
  dsimp only
  split
  · rename_i hl
    exact ⟨⟨h.minOpenTime, h.maxOpenTime, h.dataReady⟩, hl.symm⟩
  · exact ⟨⟨h.minOpenTime, h.maxOpenTime, h.dataReady⟩, rfl⟩

/-- The cursor is no part of the ring. -/
theorem DatabaseEngine.Ring.cursor (h : e.Ring) (t : Int) :
    ({ e with previousTimestamp := t } : DatabaseEngine).Ring :=
  ⟨⟨h.minOpenTime, h.maxOpenTime, h.dataReady⟩, h.cache⟩

theorem ring_opened (file : DataFile) (uninitialised : Int) :
    (DatabaseEngine.opened file uninitialised).Ring := by
  have h : DatabaseEngine.Bounds { file := file, keyed := keyed_empty } := ⟨rfl, rfl, rfl⟩
  unfold DatabaseEngine.opened
  exact ((h.ingestRecords (readAllRecords file)).rebuild.cursor _).cursor _

theorem DatabaseEngine.Ring.takePage (h : e.Ring) (page : FetchedPage) : (takePage e page).Ring := by
  rw [takePage_eq]
  refine DatabaseEngine.Bounds.rebuild (DatabaseEngine.Bounds.ingest ?_ _)
  exact ⟨h.minOpenTime, h.maxOpenTime, h.dataReady⟩

/-- The ring after an accepted record is that of the store with the record. -/
theorem cache_updateCache (h : e.Ring) {e' : DatabaseEngine} {r : MinuteRecord}
    {closed : Option MinuteRecord} (hc : updateCache e r = some (e', closed)) :
    e'.cache = (values (ingest e [r]).historicalData).reverse.take cacheSize := by
  have hdata : (ingest e [r]).historicalData = e.historicalData.insert r.openTime r := rfl
  have hcache := h.cache
  rw [hdata]
  unfold updateCache at hc
  split at hc
  · rename_i front rest hfront
    -- The front is the last value of the store.
    obtain ⟨init, hinit⟩ : ∃ init, values e.historicalData = init ++ [front] := by
      rw [hfront] at hcache
      refine List.getLast?_eq_some_iff.mp ?_
      rw [← List.head?_reverse]
      cases hv : (values e.historicalData).reverse with
      | nil =>
        rw [hv] at hcache
        cases hcache
      | cons newest others =>
        rw [hv, cacheSize, List.take_succ_cons] at hcache
        rw [List.head?_cons, (List.cons.inj hcache).1]
    have hlast : (values e.historicalData).getLast? = some front := by
      rw [hinit, List.getLast?_concat]
    split at hc
    · rename_i hlt
      have hall : ∀ b ∈ values e.historicalData, b.openTime < r.openTime := fun b hb =>
        lt_of_le_of_lt (le_of_getLast?_values e.keyed hlast ((mem_values_iff e.keyed).mp hb)) hlt
      cases hc
      rw [values_insert_newest e.keyed hall, List.reverse_concat]
      dsimp only
      rw [← hfront, hcache]
      simp only [cacheSize, List.take_succ_cons, List.take_take]
      rfl
    · split at hc
      · rename_i heq
        cases hc
        rw [values_insert_last e.keyed hinit heq, List.reverse_concat]
        rw [hfront, hinit, List.reverse_concat, cacheSize, List.take_succ_cons] at hcache
        rw [cacheSize, List.take_succ_cons, (List.cons.inj hcache).2]
      · cases hc
  · rename_i hnil
    cases hc
    have hempty : values e.historicalData = [] := by
      rw [hnil] at hcache
      simpa [cacheSize] using hcache.symm
    rw [values_insert_newest e.keyed (by simp [hempty]), hempty]
    rfl

/-- What else an accepted record leaves as it was. -/
theorem bounds_updateCache (h : e.Bounds) {e' : DatabaseEngine} {r : MinuteRecord}
    {closed : Option MinuteRecord} (hc : updateCache e r = some (e', closed)) :
    (closed.elim e' fun c => e'.saveRecord c).Bounds := by
  have hdata : e'.historicalData = e.historicalData ∧ e'.minOpenTime = e.minOpenTime ∧
      e'.maxOpenTime = e.maxOpenTime ∧ e'.dataReady = e.dataReady := by
    unfold updateCache at hc
    split at hc
    · split at hc
      · cases hc
        exact ⟨rfl, rfl, rfl, rfl⟩
      · split at hc
        · cases hc
          exact ⟨rfl, rfl, rfl, rfl⟩
        · cases hc
    · cases hc
      exact ⟨rfl, rfl, rfl, rfl⟩
  obtain ⟨hdata, hmin, hmax, hready⟩ := hdata
  have he' : e'.Bounds := by
    refine ⟨?_, ?_, ?_⟩
    · rw [hmin, hdata, h.minOpenTime]
    · rw [hmax, hdata, h.maxOpenTime]
    · rw [hready, hdata, h.dataReady]
  cases closed with
  | none => exact he'
  | some c => exact ⟨he'.minOpenTime, he'.maxOpenTime, he'.dataReady⟩

theorem DatabaseEngine.Ring.updateWithNewData (h : e.Ring) (data : PriceData) :
    (updateWithNewData e data).Ring := by
  rcases updateWithNewData_cases e data with he | ⟨r, e', closed, -, hc, he⟩
  · rwa [he]
  · rw [he]
    refine ⟨(bounds_updateCache h.toBounds hc).ingest [r], ?_⟩
    have hcache := cache_updateCache h hc
    have hdata := (updateCache_cases hc).1
    cases closed with
    | none =>
      show e'.cache = _
      rw [hcache, ingest_historicalData, ingest_historicalData, ← hdata]
      rfl
    | some c =>
      show e'.cache = _
      rw [hcache, ingest_historicalData, ingest_historicalData, ← hdata]
      rfl

/-- Every operation keeps the derived state in step. -/
theorem DatabaseEngine.Ring.call (h : e.Ring) {fetcher : Int → Int → List PriceData}
    {c : EngineCall} {e' : DatabaseEngine} (hc : e.call fetcher c = some e') : e'.Ring := by
  cases c with
  | construct uninitialised =>
    obtain rfl := Option.some.inj hc
    exact ring_opened e.file uninitialised
  | updateWithNewData data =>
    obtain rfl := Option.some.inj hc
    exact h.updateWithNewData data
  | actualize nows =>
    refine actualize_inv (P := fun _ _ => True) (fun e h => h.toBounds.rebuild)
      (fun e _ page h _ _ => h.takePage page) h ?_ hc
    exact along_of_forall fun _ _ => trivial

end Invariants

/-! ## The newest minutes -/

section Newest

variable [TimeUtils] {e : DatabaseEngine}

theorem DatabaseEngine.Ring.isReady_iff (h : e.Ring) :
    e.isReady = true ↔ Consecutive WARMUP_CANDLES e.historicalData.keys.reverse := by
  rw [DatabaseEngine.isReady, h.dataReady, hasConsecutiveCandlesLocked_iff e (by decide)]

/-- A span that is there is what `tryGetLatestSpan` returns. -/
theorem tryGetLatestSpan_eq (e : DatabaseEngine) {k : Nat} (hk : 0 < k)
    (h : Consecutive k e.historicalData.keys.reverse) :
    e.tryGetLatestSpan k = (true,
      (((values e.historicalData).reverse.take k).map fun r => makeOHLC r.toPriceData).reverse) := by
  have hfst : e.historicalData.toList.reverse.map Prod.fst = e.historicalData.keys.reverse := by
    rw [List.map_reverse, Std.ExtTreeMap.map_fst_toList_eq_keys]
  have hsnd : (values e.historicalData).reverse = e.historicalData.toList.reverse.map Prod.snd := by
    rw [values, List.map_reverse]
  have hfrom := (hasConsecutiveCandlesLocked_iff e hk).mpr h
  unfold hasConsecutiveCandlesLocked at hfrom
  rw [if_neg (by omega), ← hfst] at hfrom
  unfold DatabaseEngine.tryGetLatestSpan
  rw [if_neg (by omega), hsnd]
  cases hl : e.historicalData.toList.reverse with
  | nil =>
    rw [hl] at hfrom
    cases hfrom
  | cons newest rest =>
    rw [hl] at hfrom
    dsimp only at hfrom ⊢
    rw [Int.toNat_natCast, spanFrom_eq hfrom, if_pos rfl, List.map_take, List.map_take, List.map_map]
    rfl

/-- What `tryGetLatestSpan` returns: consecutive minutes up to the last one. -/
theorem DatabaseEngine.Ring.span (h : e.Ring) {k : Nat} (hk : 0 < k)
    (hc : Consecutive k e.historicalData.keys.reverse) :
    ∃ out, e.tryGetLatestSpan k = (true, out) ∧ out.length = k ∧
      out = ((values e.historicalData).reverse.take k).reverse.map
        (fun r => makeOHLC r.toPriceData) ∧
      (out.map OHLC.openTimeMs).IsChain (fun s t => t = s + kMillisPerMinute) ∧
      (out.map OHLC.openTimeMs).getLast? = some e.maxOpenTime := by
  have hkeys : e.historicalData.keys.reverse.take k =
      ((values e.historicalData).reverse.take k).map fun r => r.openTime := by
    rw [keys_eq_map_values e.keyed, ← List.map_reverse, List.map_take]
  have htimes : ((((values e.historicalData).reverse.take k).reverse.map
      fun r => makeOHLC r.toPriceData).map OHLC.openTimeMs) =
        (e.historicalData.keys.reverse.take k).reverse := by
    rw [hkeys, List.map_map, ← List.map_reverse]
    rfl
  obtain ⟨hlen, hchain⟩ := hc
  refine ⟨_, tryGetLatestSpan_eq e hk ⟨hlen, hchain⟩, ?_, List.map_reverse.symm, ?_, ?_⟩
  · rw [hkeys, List.length_map] at hlen
    rw [List.length_reverse, List.length_map, hlen]
  · rw [← List.map_reverse, htimes]
    exact List.isChain_reverse.mpr hchain
  · rw [← List.map_reverse, htimes, List.getLast?_reverse, h.maxOpenTime]
    cases hl : e.historicalData.keys.getLast? with
    | none =>
      rw [List.getLast?_eq_none_iff] at hl
      rw [hl] at hlen
      simp at hlen
      omega
    | some last =>
      rw [List.head?_take, if_neg (by omega), List.head?_reverse, hl]
      rfl

end Newest

/-- After every run of whole operations on any data file, the ring holds the
newest records of the store, the bounds are its first and last minute, and the
engine is ready exactly if the newest 200 minutes are consecutive; then every
span of up to 200 minutes can be read. -/
theorem call_ring [TimeUtils] (fetcher : Int → Int → List PriceData) (file : DataFile)
    (uninitialised : Int) (calls : List EngineCall) (e : DatabaseEngine)
    (hrun : run (DatabaseEngine.call fetcher) (.opened file uninitialised) calls = some e) :
    e.cache = (values e.historicalData).reverse.take (min 20 (values e.historicalData).length) ∧
    e.minOpenTime = e.historicalData.keys.head?.getD 0 ∧
    e.maxOpenTime = e.historicalData.keys.getLast?.getD 0 ∧
    (e.dataReady = true ↔ (e.historicalData.keys.reverse.take 200).length = 200 ∧
      (e.historicalData.keys.reverse.take 200).IsChain fun s t => s = t + kMillisPerMinute) ∧
    (e.isReady = true → ∀ k : Int, 1 ≤ k → k ≤ 200 →
      ∃ out, e.tryGetLatestSpan k = (true, out) ∧ (out.length : Int) = k ∧
        out = ((values e.historicalData).reverse.take k.toNat).reverse.map
          (fun r => makeOHLC r.toPriceData) ∧
        (out.map OHLC.openTimeMs).IsChain (fun s t => t = s + kMillisPerMinute) ∧
        (out.map OHLC.openTimeMs).getLast? = some e.maxOpenTime) := by
  have h : e.Ring := inv_of_along (P := fun _ _ => True) (fun _ _ _ h _ hc => h.call hc)
    (ring_opened file uninitialised) (along_of_forall fun _ _ => trivial) hrun
  refine ⟨?_, h.minOpenTime, h.maxOpenTime, h.isReady_iff, fun hready k h1 h200 => ?_⟩
  · rw [h.cache, cacheSize, ← List.length_reverse, ← List.take_take, List.take_length]
  · obtain ⟨n, rfl⟩ := Int.eq_ofNat_of_zero_le (by omega : 0 ≤ k)
    obtain ⟨out, hout, hlen, he, hchain, hlast⟩ :=
      h.span (by omega) ((h.isReady_iff.mp hready).mono (show n ≤ 200 by omega))
    exact ⟨out, hout, by rw [hlen], he, hchain, hlast⟩

/-- A file with an invalid record and its minutes in no order, a page and three
live records, the last one stale. -/
def ringFile : DataFile := { records := [flatRecord 180000 1, flatRecord 0 1, flatRecord 60000 1] }

def ringPage (_now startTime : Int) : List PriceData :=
  [flatRecord 240000 2, flatRecord startTime 2]

def ringCalls : List EngineCall :=
  [.updateWithNewData (flatRecord 180001 3), .actualize [0], .updateWithNewData (flatRecord 300000 3),
    .updateWithNewData (flatRecord 60000 3)]

theorem call_ring_stale :
    ∃ e, run (DatabaseEngine.call ringPage) (.opened ringFile 0) ringCalls = some e ∧
      e.historicalData.keys = [60000, 180000, 240000, 300000] ∧
      e.cache = (values e.historicalData).reverse.take (min 20 (values e.historicalData).length) ∧
      e.minOpenTime = e.historicalData.keys.head?.getD 0 ∧
      e.maxOpenTime = e.historicalData.keys.getLast?.getD 0 := by
  have hrun : (run (DatabaseEngine.call ringPage) (.opened ringFile 0) ringCalls).map
      (fun e => e.historicalData.keys) = some [60000, 180000, 240000, 300000] := by decide +kernel
  obtain ⟨e, he, hkeys⟩ := Option.map_eq_some_iff.mp hrun
  obtain ⟨hcache, hmin, hmax, -, -⟩ := call_ring ringPage ringFile 0 ringCalls e he
  exact ⟨e, he, hkeys, hcache, hmin, hmax⟩

end TCV.Storage
