import TradingChartViewer.Domain.LabelRoundTrip
import TradingChartViewer.Storage.Restart

/-!
# Storing and reloading two candles

Two candles at consecutive times of an interval, saved into an empty file and
loaded again. The record file rounds open times to minutes, and the interval
travels as a label of at most 7 characters.

* `saveRecords_singleton_cases`: saving one record appends it or adds nothing;
* `loadRecord_intervalMs`, `loadRecord_openTimes`: what one valid record adds to the repository;
* `dvd_of_reloaded`: candles that come back stand on whole minutes;
* `codec_iff`: the round trip succeeds exactly for intervals of whole minutes
  with a label of at most 7 characters.
-/

namespace TCV.Storage

open TCV.Domain

/-! ## The round trip -/

/-- A closed candle of an interval, as the repository normalises it. -/
structure ClosedOn (I : Int) (c : Candle) : Prop where
  pos : 0 < c.openTime
  dvd : I ∣ c.openTime
  closeTime : c.closeTime = c.openTime + I - 1
  trades : 0 ≤ c.trades
  isClosed : c.isClosed = true

section

variable [TimeUtils]

/-- The repository that has saved two candles into an empty file. -/
def persistTwo (sort : StdSort) (symbol : List Char) (interval : Interval) (c₁ c₂ : Candle) :
    Repository :=
  (((Repository.construct sort {} symbol interval).persistClosed c₁).2.persistClosed c₂).2

/-- A new repository on that file holds just the two candles, and its interval. -/
def RoundTrips (sort : StdSort) (symbol : List Char) (interval : Interval) (c₁ c₂ : Candle) :
    Prop :=
  let r := Repository.construct sort (persistTwo sort symbol interval c₁ c₂).file symbol interval
  r.candles = [c₁, c₂] ∧ r.getIntervalMs = interval.ms

/-! ## The file -/

/-- Saving one record appends it, normalised, or does not make the file longer. -/
theorem saveRecords_singleton_cases {f : DataFile} (h : f.opens = []) (r : PriceData) :
    (isValidRecord (normalizeRecord r) = true ∧
        (saveRecords f [r]).records = f.records ++ [normalizeRecord r]) ∨
      (saveRecords f [r]).records.length ≤ f.records.length := by
  cases hr : isValidRecord (normalizeRecord r) with
  | false =>
    right
    rw [saveRecords_of_opens_nil h (List.cons_ne_nil _ _)]
    simp [saveStep, hr, writeBack]
  | true =>
    rw [saveRecords_singleton_of_open h hr]
    cases hl : f.records.getLast? with
    | none => exact .inl ⟨rfl, by simp [List.getLast?_eq_none_iff.mp hl]⟩
    | some last =>
      have hne : f.records ≠ [] := List.ne_nil_of_mem (List.mem_of_getLast? hl)
      have hlen := List.length_pos_iff.mpr hne
      dsimp only
      split_ifs
      · right
        rw [List.length_append, List.length_dropLast, List.length_singleton]
        omega
      · exact .inl ⟨rfl, rfl⟩
      · exact .inr le_rfl

end

/-! ## Loading -/

/-- The interval a repository of interval `I` goes on with after a record of a
label. -/
def intervalAfter (I : Int) (label : List Char) : Int :=
  if 0 < parseIntervalMs label then parseIntervalMs label else I

theorem intervalAfter_idem (I : Int) (label : List Char) :
    intervalAfter (intervalAfter I label) label = intervalAfter I label := by
  unfold intervalAfter
  split_ifs <;> rfl

theorem loadRecord_intervalMs {r : Repository} {record : PriceData}
    (h : isValidRecord record = true) :
    (r.loadRecord record).intervalMs = intervalAfter r.intervalMs record.interval := by
  have hne := (isValidRecord_iff.mp h).2.2.2
  simp only [Repository.loadRecord, h, Bool.not_true, Bool.false_eq_true, if_false, hne, ne_eq,
    not_false_eq_true, decide_true, Bool.true_and, decide_eq_true_eq, intervalAfter]
  split_ifs <;> rfl

/-- A valid record adds a candle aligned to the interval of its own label. -/
theorem loadRecord_openTimes {r : Repository} {record : PriceData}
    (h : isValidRecord record = true) :
    (r.loadRecord record).candles.map Candle.openTime = r.candles.map Candle.openTime ++
      [alignDownMs record.openTime (intervalAfter r.intervalMs record.interval)] := by
  have hne := (isValidRecord_iff.mp h).2.2.2
  simp only [Repository.loadRecord, h, Bool.not_true, Bool.false_eq_true, if_false, hne, ne_eq,
    not_false_eq_true, decide_true, Bool.true_and, decide_eq_true_eq, intervalAfter]
  split_ifs <;> simp [Repository.toCandle]

theorem length_loadRecord_le (r : Repository) (record : PriceData) :
    (r.loadRecord record).candles.length ≤ r.candles.length + 1 := by
  unfold Repository.loadRecord
  split
  · omega
  · dsimp only
    split_ifs <;> simp

theorem length_loadRecords_le (records : List PriceData) (r : Repository) :
    (records.foldl Repository.loadRecord r).candles.length ≤ r.candles.length + records.length := by
  induction records generalizing r with
  | nil => simp
  | cons record records ih =>
    have h₁ := ih (r.loadRecord record)
    have h₂ := length_loadRecord_le r record
    rw [List.foldl_cons, List.length_cons]
    omega

/-- What the constructor loads. -/
theorem exists_loaded (sort : StdSort) (file : DataFile) (symbol : List Char) (interval : Interval)
    (hI : 0 < interval.ms) :
    ∃ r₀ : Repository, r₀.intervalMs = interval.ms ∧ r₀.candles = [] ∧
      (Repository.construct sort file symbol interval).candles =
        sort.run (file.records.foldl Repository.loadRecord r₀).candles ∧
      (Repository.construct sort file symbol interval).intervalMs =
        (file.records.foldl Repository.loadRecord r₀).intervalMs := by
  have hv : interval.valid = true := decide_eq_true hI
  refine ⟨⟨file, symbol, interval, interval.ms, Domain.intervalLabel interval, [], {}, false⟩,
    rfl, rfl, ?_⟩
  have hl : (Domain.intervalLabel interval).isEmpty = false :=
    List.isEmpty_eq_false_iff.mpr (intervalLabel_ne_nil hI)
  simp only [Repository.construct, Repository.loadHistoricalLocked, readAllRecords, hv, hl, hI,
    clampIntervalMs, Bool.not_true, Bool.false_eq_true, if_false, decide_true, Bool.and_self,
    if_true]
  generalize hr : List.foldl Repository.loadRecord _ _ = r
  obtain ⟨hI, -⟩ : 0 < r.intervalMs ∧ ∀ c ∈ r.candles, c.isClosed = true := by
    rw [← hr]
    exact loadRecords_inv _ ⟨hI, fun c h => absurd h List.not_mem_nil⟩
  rw [if_pos hI]
  exact ⟨rfl, rfl⟩

/-! ## Which intervals come back -/

theorem persistable_construct (sort : StdSort) {symbol : List Char} {I : Int} (hs : symbol ≠ [])
    (hn : ∀ c ∈ symbol, c ≠ Char.ofNat 0) (hI : 0 < I) :
    (Repository.construct sort {} symbol ⟨I⟩).persistable = true := by
  -- The first character survives.
  have key : ∀ {n : Nat} {s : List Char}, 1 < n → s ≠ [] → (∀ c ∈ s, c ≠ Char.ofNat 0) →
      strncpy n s ≠ [] := by
    intro n s hn hs h0
    obtain ⟨c, cs, rfl⟩ := List.exists_cons_of_ne_nil hs
    obtain ⟨k, hk⟩ : ∃ k, n - 1 = k + 1 := ⟨n - 2, by omega⟩
    have hc := h0 c List.mem_cons_self
    simp [strncpy, hk, hc]
  rw [construct_of_records_nil sort rfl symbol hI]
  simp only [Repository.persistable, Bool.and_eq_true, decide_eq_true_eq]
  exact ⟨key (by decide) hs hn,
    key (by decide) (intervalLabel_ne_nil hI) fun _ hc => ne_zero_of_mem_intervalLabel hc⟩

/-- Two records that come back as candles at `t` and `t + I` were not rounded. -/
theorem eq_of_aligned {I t f₁ f₂ : Int} (hI : 0 < I) (h₁ : 0 < f₁ ∧ f₁ ≤ t)
    (h₂ : 0 < f₂ ∧ f₂ ≤ t + I)
    (hp : [alignDownMs f₁ I, alignDownMs f₂ I].Perm [t, t + I]) : f₁ = t ∧ f₂ = t + I := by
  have a₁ : alignDownMs f₁ I ≤ f₁ := by
    rw [alignDownMs_eq hI]
    exact Lib.Grid.floorTo_le h₁.1.le
  have a₂ : alignDownMs f₂ I ≤ f₂ := by
    rw [alignDownMs_eq hI]
    exact Lib.Grid.floorTo_le h₂.1.le
  have ht₁ := hp.mem_iff.mpr (List.mem_cons_self (a := t))
  have ht₂ := hp.mem_iff.mpr (List.mem_cons_of_mem t (List.mem_singleton_self (t + I)))
  simp only [List.mem_cons, List.not_mem_nil, or_false] at ht₁ ht₂
  omega

section

variable [TimeUtils] {sort : StdSort} {symbol : List Char} {I : Int} {c₁ c₂ : Candle}

theorem persistClosed_file {r : Repository} {c : Candle} (hs : r.persistable = true)
    (hI : 0 < r.intervalMs) (h : ClosedOn r.intervalMs c) :
    (r.persistClosed c).2 = { r with file := saveRecords r.file [r.toPriceData c] } := by
  rw [persistClosed_of_closed h.isClosed ((isValidRecord_toPriceData hI h.dvd).mpr ⟨h.pos, hs⟩)]

/-- A candle's record is stored at its minute. -/
theorem stored_of_valid {r : Repository} {c : Candle} (h : ClosedOn r.intervalMs c)
    (hv : isValidRecord (r.stored c) = true) :
    (r.stored c).openTime = floorToMinuteMs c.openTime ∧
      (r.stored c).interval = strncpy 8 r.intervalLabel ∧ 0 < floorToMinuteMs c.openTime := by
  obtain ⟨e, hp⟩ := normalizeRecord_of_valid hv
  have hopen : (r.toPriceData c).openTime = c.openTime := alignDownMs_of_dvd h.dvd
  rw [hopen] at hp
  refine ⟨?_, ?_, hp⟩
  · rw [Repository.stored, e]
    exact congrArg _ hopen
  · rw [Repository.stored, e]
    rfl

/-- Both candles are on file when two come back. -/
theorem records_of_length_two {r : Repository} {f : DataFile} (hf : f.opens = [])
    (hrec : f.records = [])
    (hlen : 2 ≤ (saveRecords (saveRecords f [r.toPriceData c₁]) [r.toPriceData c₂]).records.length) :
    isValidRecord (r.stored c₁) = true ∧ isValidRecord (r.stored c₂) = true ∧
      (saveRecords (saveRecords f [r.toPriceData c₁]) [r.toPriceData c₂]).records =
        [r.stored c₁, r.stored c₂] := by
  rcases saveRecords_singleton_cases hf (r.toPriceData c₁) with ⟨hv₁, h₁⟩ | h₁
  · rcases saveRecords_singleton_cases (saveRecords_opens hf [r.toPriceData c₁])
      (r.toPriceData c₂) with ⟨hv₂, h₂⟩ | h₂
    · exact ⟨hv₁, hv₂, by rw [h₂, h₁, hrec]; rfl⟩
    · rw [h₁, hrec] at h₂
      simp only [List.nil_append, List.length_singleton] at h₂
      omega
  · rcases saveRecords_singleton_cases (saveRecords_opens hf [r.toPriceData c₁])
      (r.toPriceData c₂) with ⟨-, h₂⟩ | h₂
    · rw [h₂, List.length_append, List.length_singleton] at hlen
      rw [hrec] at h₁
      simp only [List.length_nil] at h₁
      omega
    · rw [hrec] at h₁
      simp only [List.length_nil] at h₁
      omega

variable (hs : symbol ≠ []) (hn : ∀ c ∈ symbol, c ≠ Char.ofNat 0) (hI : 0 < I)
  (h₁ : ClosedOn I c₁) (h₂ : ClosedOn I c₂) (ht : c₂.openTime = c₁.openTime + I)

include hs hn hI h₁ h₂

variable (sort) in
/-- The file the two candles leave. -/
theorem persistTwo_file :
    (persistTwo sort symbol ⟨I⟩ c₁ c₂).file =
      let r := Repository.construct sort {} symbol ⟨I⟩
      saveRecords (saveRecords {} [r.toPriceData c₁]) [r.toPriceData c₂] := by
  have hp := persistable_construct sort hs hn hI
  rw [construct_of_records_nil sort rfl symbol hI] at hp ⊢
  rw [persistTwo, construct_of_records_nil sort rfl symbol hI, persistClosed_file hp hI h₁,
    persistClosed_file (by exact hp) hI h₂]
  rfl

include ht

/-- Candles that come back with their interval stand on whole minutes, and the
interval was read from the label, cut to 7 characters. -/
theorem dvd_of_reloaded (h : RoundTrips sort symbol ⟨I⟩ c₁ c₂) :
    kMillisPerMinute ∣ I ∧ intervalAfter I (strncpy 8 (intervalLabel ⟨I⟩)) = I := by
  obtain ⟨hc, hms⟩ := h
  obtain ⟨r₀, hr₀, hnil, hcandles, hinterval⟩ :=
    exists_loaded sort (persistTwo sort symbol ⟨I⟩ c₁ c₂).file symbol ⟨I⟩ hI
  rw [hc] at hcandles
  have hfile := persistTwo_file sort hs hn hI h₁ h₂
  generalize hr : Repository.construct sort {} symbol ⟨I⟩ = r at hfile
  have hrI : r.intervalMs = I := by rw [← hr, construct_of_records_nil sort rfl symbol hI]
  have hrl : r.intervalLabel = intervalLabel ⟨I⟩ := by
    rw [← hr, construct_of_records_nil sort rfl symbol hI]
  dsimp only at hfile
  -- Two candles come from two records.
  have hlen : 2 ≤ (persistTwo sort symbol ⟨I⟩ c₁ c₂).file.records.length := by
    have hle := length_loadRecords_le (persistTwo sort symbol ⟨I⟩ c₁ c₂).file.records r₀
    have hperm := (sort.perm ((persistTwo sort symbol ⟨I⟩ c₁ c₂).file.records.foldl
      Repository.loadRecord r₀).candles).length_eq
    rw [← hcandles] at hperm
    rw [hnil] at hle
    simp only [List.length_cons, List.length_nil] at hle hperm
    omega
  rw [hfile] at hlen
  obtain ⟨v₁, v₂, hrec⟩ := records_of_length_two rfl rfl hlen
  obtain ⟨o₁, l₁, p₁⟩ := stored_of_valid (hrI ▸ h₁) v₁
  obtain ⟨o₂, l₂, p₂⟩ := stored_of_valid (hrI ▸ h₂) v₂
  rw [hrl] at l₁ l₂
  rw [← hfile] at hrec
  rw [hrec, List.foldl_cons, List.foldl_cons, List.foldl_nil] at hcandles hinterval
  -- Both records carry the same label.
  have hafter : ((r₀.loadRecord (r.stored c₁)).loadRecord (r.stored c₂)).intervalMs =
      intervalAfter I (strncpy 8 (intervalLabel ⟨I⟩)) := by
    rw [loadRecord_intervalMs v₂, loadRecord_intervalMs v₁, l₁, l₂, hr₀, intervalAfter_idem]
  rw [hafter] at hinterval
  have hsound := (construct_sound sort (persistTwo sort symbol ⟨I⟩ c₁ c₂).file symbol
    ⟨I⟩).interval_pos
  have heff : intervalAfter I (strncpy 8 (intervalLabel ⟨I⟩)) = I := by
    rw [Repository.getIntervalMs, if_pos hsound, hinterval] at hms
    exact hms
  refine ⟨?_, heff⟩
  have htimes := (sort.perm ((r₀.loadRecord (r.stored c₁)).loadRecord (r.stored c₂)).candles).map
    Candle.openTime
  rw [← hcandles, loadRecord_openTimes v₂, loadRecord_openTimes v₁, loadRecord_intervalMs v₁, l₁,
    l₂, hr₀, intervalAfter_idem, heff, hnil, o₁, o₂] at htimes
  have := eq_of_aligned hI ⟨p₁, floorToMinuteMs_le h₁.pos.le⟩
    ⟨p₂, ht ▸ floorToMinuteMs_le h₂.pos.le⟩ (by simpa [ht] using htimes.symm)
  have d₁ := dvd_floorToMinuteMs c₁.openTime
  have d₂ := dvd_floorToMinuteMs c₂.openTime
  rw [this.1] at d₁
  rw [this.2] at d₂
  exact (Int.dvd_add_right d₁).mp d₂

/-- Whole minutes with a short label. -/
theorem roundTrips_of_dvd (hM : kMillisPerMinute ∣ I) (hlabel : (intervalLabel ⟨I⟩).length ≤ 7) :
    RoundTrips sort symbol ⟨I⟩ c₁ c₂ := by
  have hsync : (Repository.construct sort {} symbol ⟨I⟩).Synced symbol ⟨I⟩ :=
    construct_synced sort rfl rfl symbol hI
  have hp := persistable_construct sort hs hn hI
  have hfile := persistTwo_file sort hs hn hI h₁ h₂
  generalize hr : Repository.construct sort {} symbol ⟨I⟩ = r at hsync hp hfile
  have hrI : r.intervalMs = I := hsync.intervalMs_eq
  have hclosed : ∀ c ∈ [c₁, c₂], ClosedOn r.intervalMs c := by
    intro c hc
    simp only [List.mem_cons, List.not_mem_nil, or_false] at hc
    rw [hrI]
    rcases hc with rfl | rfl
    · exact h₁
    · exact h₂
  have hgrid : ∀ c ∈ [c₁, c₂], r.OnGrid c := fun c hc => ⟨(hclosed c hc).pos, (hclosed c hc).dvd⟩
  have hnone : ∀ d ∈ ([] : List Candle), r.OnGrid d := fun d hd => absurd hd List.not_mem_nil
  have hf : (r.saveAll {} [c₁, c₂]).records = ([c₁, c₂].foldl store []).map r.stored ∧ _ :=
    saveAll_stored (hrI ▸ hM) hp hgrid rfl hnone rfl
  have hstore : [c₁, c₂].foldl store [] = [c₁, c₂] := by
    show store [c₁] c₂ = [c₁] ++ [c₂]
    apply store_later
    intro d hd
    rw [List.mem_singleton.mp hd]
    omega
  have hrec : (persistTwo sort symbol ⟨I⟩ c₁ c₂).file.records = [c₁, c₂].map r.stored := by
    rw [hfile, ← hstore]
    exact hf.1
  have hasc : ([c₁, c₂].map Candle.openTime).Pairwise (· < ·) := by
    simp only [List.map_cons, List.map_nil, List.pairwise_cons, List.mem_singleton]
    exact ⟨fun t e => by omega, by simp⟩
  have hload := construct_of_stored sort (hsync.writes hM hlabel) hsync.format (fun _ => hp)
    (fun c hc => ⟨hgrid c hc, (hclosed c hc).closeTime, (hclosed c hc).trades,
      (hclosed c hc).isClosed⟩) hasc hrec
  rw [RoundTrips, hload]
  exact ⟨rfl, if_pos hI⟩

/-- Two closed candles come back from the file exactly when their interval is of
whole minutes with a label of at most 7 characters. -/
theorem codec_iff :
    RoundTrips sort symbol ⟨I⟩ c₁ c₂ ↔
      kMillisPerMinute ∣ I ∧ (intervalLabel ⟨I⟩).length ≤ 7 := by
  refine ⟨fun h => ?_, fun ⟨hM, hlabel⟩ => roundTrips_of_dvd hs hn hI h₁ h₂ ht hM hlabel⟩
  obtain ⟨hM, heff⟩ := dvd_of_reloaded hs hn hI h₁ h₂ ht h
  refine ⟨hM, ?_⟩
  by_contra hlong
  -- A longer label is cut and names another interval.
  have hcut : strncpy 8 (intervalLabel ⟨I⟩) = (intervalLabel ⟨I⟩).take 7 := by
    rw [strncpy, List.takeWhile_eq_self_iff.mpr]
    exact fun c hc => decide_eq_true (ne_zero_of_mem_intervalLabel hc)
  obtain ⟨hpos, hlt⟩ := parseIntervalMs_take (i := ⟨I⟩) hI hM (by omega)
  rw [hcut, intervalAfter, if_pos hpos] at heff
  exact absurd heff (ne_of_lt hlt)

end

/-- Two candles of a quarter hour. -/
theorem codec_quarter :
    RoundTrips .insertion ['B'] ⟨900000⟩ { flatCandle 900000 true with closeTime := 1799999 }
        { flatCandle 1800000 true with closeTime := 2699999 } ↔
      kMillisPerMinute ∣ 900000 ∧ (intervalLabel ⟨900000⟩).length ≤ 7 :=
  codec_iff (by decide) (by simp) (by decide)
    ⟨by decide, by decide, by decide, by decide, rfl⟩
    ⟨by decide, by decide, by decide, by decide, rfl⟩ (by decide)

/-- Candles of half a second: the label `500ms` reads back as 500 minutes. -/
theorem codec_halfSecond :
    ¬ (∀ I : Int, 0 < I → ∀ c₁ c₂ : Candle, ClosedOn I c₁ → ClosedOn I c₂ →
        c₂.openTime = c₁.openTime + I → RoundTrips .insertion ['B'] ⟨I⟩ c₁ c₂) ∧
      (Repository.construct .insertion (persistTwo .insertion ['B'] ⟨500⟩
        { flatCandle 60000 true with closeTime := 60499 }
        { flatCandle 60500 true with closeTime := 60999 }).file ['B'] ⟨500⟩).getIntervalMs =
          30000000 := by
  refine ⟨fun h => ?_, by decide +kernel⟩
  have := h 500 (by decide) { flatCandle 60000 true with closeTime := 60499 }
    { flatCandle 60500 true with closeTime := 60999 }
    ⟨by decide, by decide, by decide, by decide, rfl⟩
    ⟨by decide, by decide, by decide, by decide, rfl⟩ (by decide)
  have hms := this.2
  revert hms
  decide +kernel

end TCV.Storage
