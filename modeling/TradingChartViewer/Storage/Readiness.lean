import TradingChartViewer.Storage.Actualize
import TradingChartViewer.Storage.EngineRestart

/-!
# Readiness for an interval

Whether the engine is ready, and what the readers get, after `actualize` has taken in a history
of any interval. Readiness and both spans count in minutes, whatever the interval is.

* `tryGetOHLCSpan`: the readers' view of the minutes from a given one on;
* `DatabaseEngine.Serves`: ready, with every span of the newest candles;
* `DatabaseEngine.HasIngested`: the newest records of the store are 200 candles of the history
  without a gap; `DatabaseEngine.Follows.hasIngested`: so they are in every run of `actualize`;
* `readiness_iff`: the engine serves a history of one-minute candles, and no other.
-/

namespace TCV.Storage

open TCV.Domain Lib.TimeMap Lib.Page Lib.Run

section

variable [TimeUtils]

/-! ## Reading from a minute on -/

/-- The loop of `tryGetOHLCSpan` with `count - i` left, over the map from `iter` on. -/
def spanUp (expected : Int) : Nat → List (Int × MinuteRecord) → Option (List OHLC)
  | 0, _ => some []
  | _ + 1, [] => none
  | left + 1, iter :: rest =>
    if iter.1 ≠ expected then none
    else (spanUp (expected + kMillisPerMinute) left rest).map (makeOHLC iter.2.toPriceData :: ·)

/-- `tryGetOHLCSpan`, with what it leaves in `out`. -/
def DatabaseEngine.tryGetOHLCSpan (e : DatabaseEngine) (startMs count : Int) : Bool × List OHLC :=
  if count ≤ 0 then (false, [])
  else
    let alignedStart := floorToMinuteMs startMs
    match e.historicalData.toList.dropWhile fun it => it.1 ≠ alignedStart with
    | [] => (false, [])
    | it :: rest =>
      match spanUp alignedStart count.toNat (it :: rest) with
      | none => (false, [])
      | some out => (true, out)

variable {e : DatabaseEngine}

/-- The loop gets through consecutive minutes. -/
theorem spanUp_eq (rest : List MinuteRecord) {expected : Int} {l : List MinuteRecord}
    (hchain : l.IsChain fun a b => b.openTime = a.openTime + kMillisPerMinute)
    (hhead : ∀ first ∈ l.head?, first.openTime = expected) :
    spanUp expected l.length ((l ++ rest).map fun r => (r.openTime, r)) =
      some (l.map fun r => makeOHLC r.toPriceData) := by
  induction l generalizing expected with
  | nil => rfl
  | cons r l ih =>
    obtain rfl := hhead r rfl
    obtain ⟨hnext, hchain⟩ := List.isChain_cons.mp hchain
    simp only [List.length_cons, List.cons_append, List.map_cons, spanUp]
    rw [if_neg (by simp), ih hchain hnext, Option.map_some]

/-- What `tryGetOHLCSpan` returns from a stored minute on. -/
theorem tryGetOHLCSpan_eq {pre l rest : List MinuteRecord} {first : MinuteRecord}
    (hl : values e.historicalData = pre ++ (first :: l ++ rest))
    (hchain : (first :: l).IsChain fun a b => b.openTime = a.openTime + kMillisPerMinute) :
    e.tryGetOHLCSpan first.openTime ((l.length + 1 : Nat) : Int) =
      (true, (first :: l).map fun r => makeOHLC r.toPriceData) := by
  have hpre : ∀ r ∈ pre, r.openTime < first.openTime := by
    have hp := values_pairwise e.keyed
    rw [hl] at hp
    exact fun r hr => (List.pairwise_append.mp hp).2.2 r hr first List.mem_cons_self
  have hdrop : (e.historicalData.toList.dropWhile fun it => it.1 ≠ first.openTime) =
      (first :: l ++ rest).map fun r => (r.openTime, r) := by
    rw [toList_eq_map_values e.keyed, hl, List.map_append, List.dropWhile_append_of_pos]
    · simp
    · intro it hit
      obtain ⟨r, hr, rfl⟩ := List.mem_map.mp hit
      simpa using (hpre r hr).ne
  have hhead : ∀ r ∈ (first :: l).head?, r.openTime = first.openTime := by simp
  have hspan := spanUp_eq rest hchain hhead
  unfold DatabaseEngine.tryGetOHLCSpan
  rw [if_neg (by omega), floorToMinuteMs_of_dvd first.dvd_openTime]
  dsimp only
  rw [hdrop, Int.toNat_natCast]
  simp only [List.cons_append, List.map_cons] at hspan ⊢
  rw [← List.length_cons, hspan]

/-! ## What the readers are promised -/

/-- The `n` newest candles, the oldest first. -/
def DatabaseEngine.newest (e : DatabaseEngine) (n : Nat) : List MinuteRecord :=
  ((values e.historicalData).reverse.take n).reverse

/-- The engine is ready, and both spans return the newest candles. -/
def DatabaseEngine.Serves (e : DatabaseEngine) : Prop :=
  e.isReady = true ∧ ∀ n : Nat, 1 ≤ n → n ≤ 200 →
    (e.newest n).length = n ∧
    ((e.newest n).Pairwise fun a b => a.openTime < b.openTime) ∧
    e.tryGetLatestSpan n = (true, (e.newest n).map fun r => makeOHLC r.toPriceData) ∧
    ∀ first ∈ (e.newest n).head?,
      e.tryGetOHLCSpan first.openTime n = (true, (e.newest n).map fun r => makeOHLC r.toPriceData)

/-- The newest records of the store are at least 200 candles of the history, one after the other. -/
def DatabaseEngine.HasIngested (e : DatabaseEngine) (history : List PriceData) : Prop :=
  ∃ block, block <:+: history.filterMap normalizedRecord? ∧ WARMUP_CANDLES ≤ block.length ∧
    block <:+ values e.historicalData

theorem newest_suffix (e : DatabaseEngine) (n : Nat) : e.newest n <:+ values e.historicalData := by
  rw [DatabaseEngine.newest, ← List.reverse_prefix, List.reverse_reverse]
  exact List.take_prefix n _

theorem keys_reverse_take (e : DatabaseEngine) (n : Nat) :
    e.historicalData.keys.reverse.take n = ((e.newest n).map fun r => r.openTime).reverse := by
  rw [DatabaseEngine.newest, keys_eq_map_values e.keyed, ← List.map_reverse, ← List.map_reverse,
    List.reverse_reverse, List.map_take]

/-- The newest candles are consecutive minutes. -/
theorem consecutive_iff (e : DatabaseEngine) (n : Nat) :
    Consecutive n e.historicalData.keys.reverse ↔ (e.newest n).length = n ∧
      (e.newest n).IsChain fun a b => b.openTime = a.openTime + kMillisPerMinute := by
  rw [Consecutive, keys_reverse_take, List.length_reverse, List.length_map, List.isChain_reverse,
    List.isChain_map]

/-- A ready engine serves its readers. -/
theorem DatabaseEngine.Ring.serves_iff (h : e.Ring) :
    e.Serves ↔ Consecutive WARMUP_CANDLES e.historicalData.keys.reverse := by
  rw [← h.isReady_iff]
  refine ⟨And.left, fun hready => ⟨hready, fun n hn hle => ?_⟩⟩
  have hc := (h.isReady_iff.mp hready).mono (show n ≤ 200 from hle)
  obtain ⟨hlen, hchain⟩ := (consecutive_iff e n).mp hc
  obtain ⟨pre, hpre⟩ := newest_suffix e n
  refine ⟨hlen, (values_pairwise e.keyed).sublist (newest_suffix e n).sublist, ?_, ?_⟩
  · rw [tryGetLatestSpan_eq e hn hc, ← List.map_reverse]
    rfl
  · intro first hfirst
    cases hnew : e.newest n with
    | nil =>
      rw [hnew] at hfirst
      cases hfirst
    | cons r l =>
      rw [hnew] at hfirst hlen hchain hpre
      obtain rfl := Option.some.inj hfirst
      have hvalues : values e.historicalData = pre ++ (r :: l ++ []) := by
        rw [hpre.symm]
        simp
      have hspan := tryGetOHLCSpan_eq hvalues hchain
      rwa [← hlen]

/-- Candles of `k` minutes are consecutive minutes only if `k` is one. -/
theorem DatabaseEngine.Ring.serves_iff_of_hasIngested (h : e.Ring) {history : List PriceData}
    (hh : MinuteHistory history) {k : Int}
    (hgap : history.IsChain fun a b => b.openTime = a.openTime + k * kMillisPerMinute)
    (hi : e.HasIngested history) : e.Serves ↔ k = 1 := by
  obtain ⟨block, hinfix, hlen, hsuffix⟩ := hi
  have hchain : block.IsChain fun a b => b.openTime = a.openTime + k * kMillisPerMinute := by
    have hall : (history.map PriceData.openTime).IsChain fun s t => t = s + k * kMillisPerMinute :=
      (List.isChain_map _).mpr hgap
    rw [← times_filterMap hh, List.isChain_map] at hall
    exact hall.infix hinfix
  -- The newest 200 candles are the last ones of the block.
  have hnewest : e.newest WARMUP_CANDLES <:+ block :=
    List.suffix_of_suffix_length_le (newest_suffix e _) hsuffix
      (by simpa [DatabaseEngine.newest] using Or.inl hlen)
  have hcount : (e.newest WARMUP_CANDLES).length = WARMUP_CANDLES := by
    have := hsuffix.length_le
    simp [DatabaseEngine.newest]
    omega
  have hchain := hchain.infix hnewest.isInfix
  rw [h.serves_iff, consecutive_iff]
  constructor
  · rintro ⟨-, hminutes⟩
    match hn : e.newest WARMUP_CANDLES, hcount with
    | a :: b :: rest, _ =>
      rw [hn, List.isChain_cons_cons] at hchain hminutes
      have h₁ := hchain.1
      have h₂ := hminutes.1
      simp only [kMillisPerMinute] at h₁ h₂
      omega
  · rintro rfl
    exact ⟨hcount, by simpa only [Int.one_mul] using hchain⟩

/-! ## What `actualize` takes in -/

/-- The file holds what the store holds, and that is a window of the history. -/
structure DatabaseEngine.Follows (history : List PriceData) (e : DatabaseEngine) : Prop
    extends e.Stored where
  same : storedHistory e.file.records = e.historicalData
  window : ∀ last ∈ (values e.historicalData).getLast?, ∃ lo ≤ last.openTime,
    values e.historicalData = between (fun r : MinuteRecord => r.openTime)
      (history.filterMap normalizedRecord?) lo last.openTime

variable {history : List PriceData}

/-- A page of the history has everything from the cursor to its own last record. -/
theorem page_eq_between (hh : MinuteHistory history) {now start : Int} {page : FetchedPage}
    (hn : normalizeRecords (historyFetcher history now start) = page.records) {last : MinuteRecord}
    (hlast : page.records.getLast? = some last) :
    page.records = between (fun r : MinuteRecord => r.openTime)
      (history.filterMap normalizedRecord?) start last.openTime := by
  have hpage : page.records = (historyFetcher history now start).filterMap normalizedRecord? :=
    hn ▸ (hh.sublist page_sublist).normalizeRecords_eq
  have htime : ∀ {q : PriceData} {m : MinuteRecord}, q ∈ history → normalizedRecord? q = some m →
      q.openTime = m.openTime := by
    intro q m hq hm
    rw [openTime_of_normalizedRecord? hm, floorToMinuteMs_of_dvd (hh.aligned q hq)]
  have : Std.Irrefl fun a b : MinuteRecord => a.openTime < b.openTime := ⟨fun a => lt_irrefl a.openTime⟩
  apply page.ascending.eq_of_mem_iff (hh.filterMap_ascending.sublist List.filter_sublist)
  intro m
  constructor
  · intro hm
    have hle := le_of_getLast? page.ascending hlast hm
    rw [hpage, List.mem_filterMap] at hm
    obtain ⟨q, hq, hqm⟩ := hm
    obtain ⟨hqh, hstart, -⟩ := mem_of_mem_page hq
    rw [htime hqh hqm] at hstart
    exact mem_between.mpr ⟨List.mem_filterMap.mpr ⟨q, hqh, hqm⟩, hstart, hle⟩
  · intro hm
    obtain ⟨hm, hstart, hle⟩ := mem_between.mp hm
    obtain ⟨q, hq, hqm⟩ := List.mem_filterMap.mp hm
    have hl := List.mem_of_getLast? hlast
    rw [hpage, List.mem_filterMap] at hl
    obtain ⟨p, hp, hpl⟩ := hl
    have hph := (mem_of_mem_page hp).1
    rw [hpage, List.mem_filterMap]
    rw [← htime hq hqm, ← htime hph hpl] at hle
    rcases lt_or_eq_of_le hle with hlt | heq
    · rw [← htime hq hqm] at hstart
      exact ⟨q, mem_page_of_lt hh.times_ascending hq hstart hp hlt, hqm⟩
    · obtain rfl : q = p :=
        List.inj_on_of_nodup_map (List.pairwise_map.mpr (hh.ascending.imp ne_of_lt)) hq hph heq
      exact ⟨q, hp, hqm⟩

section Page

variable {page : FetchedPage} {newest : MinuteRecord}

/-- Such a page begins with the front of the ring. -/
theorem DatabaseEngine.Follows.closesFront (h : e.Follows history)
    (hnewest : page.records.getLast? = some newest)
    (hpage : page.records = between (fun r : MinuteRecord => r.openTime)
      (history.filterMap normalizedRecord?) e.previousTimestamp newest.openTime) :
    e.ClosesFront page.records := by
  rintro front hf ⟨r, hr, hlt⟩
  have hl := h.toRing.head?_cache ▸ hf
  have hmem := List.mem_of_getLast? hl
  obtain ⟨lo, -, hw⟩ := h.window front hl
  rw [hw] at hmem
  have hle := le_of_getLast? page.ascending hnewest hr
  refine .inl ⟨front, ?_, rfl⟩
  rw [hpage]
  exact mem_between.mpr ⟨(mem_between.mp hmem).1, (h.cursor front hf).le, by omega⟩

/-- The store with the page is a window of the history up to the last record of the page. -/
theorem DatabaseEngine.Follows.window_takePage (hh : MinuteHistory history) (h : e.Follows history)
    (hnewest : page.records.getLast? = some newest)
    (hpage : page.records = between (fun r : MinuteRecord => r.openTime)
      (history.filterMap normalizedRecord?) e.previousTimestamp newest.openTime) :
    ∃ lo ≤ newest.openTime, values (takePage e page).historicalData =
      between (fun r : MinuteRecord => r.openTime) (history.filterMap normalizedRecord?) lo
        newest.openTime := by
  have hle : e.previousTimestamp ≤ newest.openTime := by
    have hmem := List.mem_of_getLast? hnewest
    rw [hpage] at hmem
    exact (mem_between.mp hmem).2.1
  rw [takePage_historicalData]
  cases hf : e.cache.head? with
  | none =>
    have hempty : e.historicalData = ∅ := by
      apply Std.ExtTreeMap.ext_getElem?
      intro t
      rw [h.toRing.empty hf t, Std.ExtTreeMap.getElem?_empty]
    refine ⟨e.previousTimestamp, hle, ?_⟩
    rw [hempty, values_insertAll page.ascending]
    exact hpage
  | some front =>
    obtain ⟨lo, hlo, hw⟩ := h.window front (h.toRing.head?_cache ▸ hf)
    rw [h.cursor front hf] at hpage hle
    refine ⟨lo, hlo.trans hle, ?_⟩
    rw [hpage]
    exact values_insertAll_between e.keyed hh.filterMap_ascending hlo hle hw

theorem DatabaseEngine.Follows.takePage (hh : MinuteHistory history) (h : e.Follows history)
    {now : Int}
    (hn : normalizeRecords (historyFetcher history now e.previousTimestamp) = page.records) :
    (takePage e page).Follows history := by
  obtain ⟨newest, hnewest⟩ : ∃ r, page.records.getLast? = some r :=
    ⟨_, List.getLast?_eq_some_getLast page.ne_nil⟩
  have hpage := page_eq_between hh hn hnewest
  have hstart : ∀ front ∈ e.cache.head?, ∀ q ∈ page.records, front.openTime ≤ q.openTime := by
    intro front hf q hq
    rw [hpage] at hq
    exact h.cursor front hf ▸ (mem_between.mp hq).2.1
  refine ⟨h.toStored.takePage (h.closesFront hnewest hpage) hstart, ?_, ?_⟩
  · obtain ⟨ms, hms⟩ := h.normal
    obtain ⟨ms', hms', -, hstored⟩ := storedHistory_saveRecords h.writable hms page.ascending
      page.ne_nil (h.toStored.le_page hstart)
    rw [takePage_file, hms', hstored, h.same, takePage_historicalData]
  · obtain ⟨lo, hlo, hw⟩ := h.window_takePage hh hnewest hpage
    intro last hl
    have hlast : newest = last := by
      have hmem : newest ∈ page.records := List.mem_of_getLast? hnewest
      rw [hpage] at hmem
      have hin : newest ∈ values (Storage.takePage e page).historicalData := by
        rw [hw]
        exact mem_between.mpr ⟨(mem_between.mp hmem).1, hlo, le_rfl⟩
      have hle := le_of_getLast? (values_pairwise (Storage.takePage e page).keyed) hl hin
      have hl := List.mem_of_getLast? hl
      rw [hw] at hl
      obtain ⟨hl, -, hge⟩ := mem_between.mp hl
      exact List.inj_on_of_nodup_map (List.pairwise_map.mpr (hh.filterMap_ascending.imp ne_of_lt))
        (mem_between.mp hmem).1 hl (le_antisymm hle hge)
    exact hlast ▸ ⟨lo, hlo, hw⟩

end Page

/-- The operations without a live record. -/
def EngineCall.backfills : EngineCall → Bool
  | .construct _ | .actualize _ => true
  | .updateWithNewData _ => false

theorem follows_opened (history : List PriceData) (uninitialised : Int) :
    (DatabaseEngine.opened {} uninitialised).Follows history := by
  have hdata : (DatabaseEngine.opened {} uninitialised).historicalData = storedHistory [] :=
    historicalData_opened {} uninitialised
  have hempty : ({} : DataFile).records = ([] : List MinuteRecord).map fun r => r.toPriceData := rfl
  refine ⟨stored_construct rfl hempty (fun last hl => ?_) uninitialised, ?_, ?_⟩
  · cases hl
  · rw [opened_file, hdata]
  · intro last hl
    rw [hdata] at hl
    cases hl

theorem DatabaseEngine.Follows.call (hh : MinuteHistory history) (h : e.Follows history)
    {c : EngineCall} (hc : c.backfills = true) {e' : DatabaseEngine}
    (he : e.call (historyFetcher history) c = some e') : e'.Follows history := by
  cases c with
  | updateWithNewData data => cases hc
  | construct uninitialised =>
    obtain rfl := Option.some.inj he
    have hdata : (DatabaseEngine.opened e.file uninitialised).historicalData = e.historicalData :=
      (historicalData_opened e.file uninitialised).trans h.same
    refine ⟨h.toStored.construct uninitialised, ?_, ?_⟩
    · rw [opened_file, hdata, h.same]
    · rw [hdata]
      exact h.window
  | actualize nows =>
    refine actualize_inv (P := fun _ _ => True)
      (fun e (h : e.Follows history) => ⟨h.toStored.rebuild, ?_, ?_⟩)
      (fun e now page h _ hn => h.takePage hh hn) h (along_of_forall fun _ _ => trivial) he
    · rw [rebuildCacheFromHistorical_file, rebuildCacheFromHistorical_historicalData, h.same]
    · rw [rebuildCacheFromHistorical_historicalData]
      exact h.window

/-- The store of such a run is a piece of the history. -/
theorem DatabaseEngine.Follows.hasIngested (hh : MinuteHistory history) (h : e.Follows history)
    (hlen : WARMUP_CANDLES ≤ (values e.historicalData).length) : e.HasIngested history := by
  refine ⟨values e.historicalData, ?_, hlen, List.suffix_rfl⟩
  cases hl : (values e.historicalData).getLast? with
  | none =>
    rw [List.getLast?_eq_none_iff.mp hl]
    exact List.nil_infix
  | some last =>
    obtain ⟨lo, -, hw⟩ := h.window last hl
    rw [hw]
    exact between_isInfix (hh.filterMap_ascending.imp le_of_lt) lo _

/-- A gap-free history of candles of `k` minutes. In any run, once the newest records of the store
are 200 candles of the history or more, the engine serves them exactly if `k` is one; and in a run
of `actualize` and restarts from an empty file they are as soon as the store has as many. -/
theorem readiness_iff (hh : MinuteHistory history) {k : Int}
    (hgap : history.IsChain fun a b => b.openTime = a.openTime + k * kMillisPerMinute) :
    (∀ fetcher file uninitialised calls e,
      run (DatabaseEngine.call fetcher) (.opened file uninitialised) calls = some e →
      e.HasIngested history → (e.Serves ↔ k = 1)) ∧
    (∀ uninitialised calls e, (∀ c ∈ calls, EngineCall.backfills c = true) →
      run (DatabaseEngine.call (historyFetcher history)) (.opened {} uninitialised) calls = some e →
      WARMUP_CANDLES ≤ (values e.historicalData).length → e.HasIngested history) := by
  constructor
  · intro fetcher file uninitialised calls e hrun hi
    have h : e.Ring := inv_of_along (P := fun _ _ => True) (fun _ _ _ h _ hc => h.call hc)
      (ring_opened file uninitialised) (along_of_forall fun _ _ => trivial) hrun
    exact h.serves_iff_of_hasIngested hh hgap hi
  · intro uninitialised calls e hcalls hrun hlen
    have h : e.Follows history := inv_of_along (P := fun _ c => EngineCall.backfills c = true)
      (fun _ _ _ h hc he => h.call hh hc he) (follows_opened history uninitialised)
      (along_of_mem fun c hc _ => hcalls c hc) hrun
    exact h.hasIngested hh hlen

end

/-! ## Candles of one and of five minutes -/

/-- 200 candles of `k` minutes. -/
def flatHistory (k : Int) : List PriceData :=
  (List.range 200).map fun i : Nat => flatRecord (((i : Int) + 1) * k * kMillisPerMinute) 1

theorem minuteHistory_flatHistory {k : Int} (hk : 1 ≤ k) : MinuteHistory (flatHistory k) := by
  have hdvd : ∀ i : Nat, kMillisPerMinute ∣ ((i : Int) + 1) * k * kMillisPerMinute := fun i =>
    Int.dvd_mul_left _ _
  refine ⟨?_, ?_, ?_⟩
  · intro r hr
    obtain ⟨i, -, rfl⟩ := List.mem_map.mp hr
    have hpos : 0 < ((i : Int) + 1) * k * kMillisPerMinute := by
      apply Int.mul_pos (Int.mul_pos (by omega) (by omega)) (by decide)
    rw [isValidRecord_iff, normalizeRecord]
    simp only [flatRecord, floorToMinuteMs_of_dvd (hdvd i), if_neg (Int.not_le.mpr hpos)]
    refine ⟨hpos, ?_, List.cons_ne_nil _ _, List.cons_ne_nil _ _⟩
    simp only [kMillisPerMinute] at hpos ⊢
    omega
  · intro r hr
    obtain ⟨i, -, rfl⟩ := List.mem_map.mp hr
    exact hdvd i
  · rw [flatHistory, List.pairwise_map]
    apply List.pairwise_lt_range.imp
    intro i j hij
    apply Int.mul_lt_mul_of_pos_right _ (by decide)
    exact Int.mul_lt_mul_of_pos_right (by omega) (by omega)

theorem gapFree_flatHistory (k : Int) :
    (flatHistory k).IsChain fun a b => b.openTime = a.openTime + k * kMillisPerMinute := by
  rw [flatHistory, List.isChain_map, List.range_eq_range']
  apply (List.isChain_range' 0 200 1).imp
  rintro i j rfl
  simp only [flatRecord, Nat.cast_add, Nat.cast_one, Int.add_mul, Int.one_mul]

/-- After 200 candles of five minutes the engine is not ready. -/
theorem not_ready_fiveMinutes :
    MinuteHistory (flatHistory 5) ∧
    ((flatHistory 5).IsChain fun a b => b.openTime = a.openTime + 5 * kMillisPerMinute) ∧
    ∃ e, run (DatabaseEngine.call (historyFetcher (flatHistory 5))) (.opened {} 0)
        [.actualize [60000000]] = some e ∧
      e.HasIngested (flatHistory 5) ∧ ¬ e.Serves := by
  have hh := minuteHistory_flatHistory (k := 5) (by decide)
  refine ⟨hh, gapFree_flatHistory 5, ?_⟩
  have hrun : (run (DatabaseEngine.call (historyFetcher (flatHistory 5))) (.opened {} 0)
      [.actualize [60000000]]).map (fun e => decide ((values e.historicalData).length = 200 ∧
        e.isReady = false)) = some true := by decide +kernel
  obtain ⟨e, he, hbad⟩ := Option.map_eq_some_iff.mp hrun
  obtain ⟨hlen, hready⟩ := of_decide_eq_true hbad
  have h : e.Follows (flatHistory 5) := inv_of_along (P := fun _ c => EngineCall.backfills c = true)
    (fun _ _ _ h hc he => h.call hh hc he) (follows_opened _ 0)
    (along_of_mem fun _ hc _ => List.mem_singleton.mp hc ▸ rfl) he
  refine ⟨e, he, h.hasIngested hh (show 200 ≤ _ by omega), fun hs => ?_⟩
  rw [hs.1] at hready
  cases hready

/-- After 200 candles of one minute it serves every span. -/
theorem serves_oneMinute :
    ∃ e, run (DatabaseEngine.call (historyFetcher (flatHistory 1))) (.opened {} 0)
      [.actualize [12000000]] = some e ∧ e.Serves := by
  have hh := minuteHistory_flatHistory (k := 1) (by decide)
  have hrun : (run (DatabaseEngine.call (historyFetcher (flatHistory 1))) (.opened {} 0)
      [.actualize [12000000]]).map (fun e => (values e.historicalData).length) = some 200 := by
    decide +kernel
  obtain ⟨e, he, hlen⟩ := Option.map_eq_some_iff.mp hrun
  obtain ⟨hserves, hingested⟩ := readiness_iff hh (gapFree_flatHistory 1)
  have hi := hingested 0 _ e (by decide) he (show 200 ≤ _ by omega)
  exact ⟨e, he, (hserves _ {} 0 _ e he hi).mpr rfl⟩

end TCV.Storage
