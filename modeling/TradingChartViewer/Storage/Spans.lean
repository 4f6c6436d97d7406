import TradingChartViewer.Storage.Readiness

/-!
# Spans and single candles

The engine is asked for one minute, for a span from a minute on, or for the newest span.

* `tryGetOHLC`: the look-up of one minute;
* `spanUp_eq_walk`, `spanFrom_eq_walk`: both loops are walks over the store, one on and one back;
* `SpansAgree`: what the spans have to do with the single minutes;
* `spansAgree_iff`: it holds up to what a newest span that fails leaves behind.
-/

namespace TCV.Storage

open TCV.Domain Lib.Grid Lib.TimeMap

/-- The prices of a bar. -/
def OHLC.prices (b : OHLC) : Price × Price × Price × Price := (b.open_, b.high, b.low, b.close)

section

variable [TimeUtils]

/-- `tryGetOHLC`: the prices it sets, if it succeeds. -/
def DatabaseEngine.tryGetOHLC (e : DatabaseEngine) (openTimeMs : Int) :
    Option (Price × Price × Price × Price) :=
  let aligned := floorToMinuteMs openTimeMs
  if e.historicalData.isEmpty then none
  else
    match e.historicalData[aligned]? with
    | none => none
    | some it => some (it.openPrice, it.highPrice, it.lowPrice, it.closePrice)

/-- The minutes of a span. -/
def minutes (startMs count : Int) : List Int :=
  ticks (floorToMinuteMs startMs) kMillisPerMinute count.toNat

/-- The first minute of the span of `count` minutes that ends with `maxKey`. -/
def latestStart (maxKey count : Int) : Int := maxKey - (count - 1) * kMillisPerMinute

/-- The spans return the single candles, and nothing where they fail. -/
structure SpansAgree (e : DatabaseEngine) (startMs count : Int) : Prop where
  succeeds : 0 < count → ((e.tryGetOHLCSpan startMs count).1 = true ↔
    ∀ t ∈ minutes startMs count, (e.tryGetOHLC t).isSome = true)
  values : (e.tryGetOHLCSpan startMs count).1 = true →
    (e.tryGetOHLCSpan startMs count).2.map (fun b => (b.openTimeMs, some b.prices)) =
      (minutes startMs count).map fun t => (t, e.tryGetOHLC t)
  latest : 0 < count → ((e.tryGetLatestSpan count).1 = true ↔
    ∃ maxKey ∈ e.historicalData.keys.getLast?,
      (e.tryGetOHLCSpan (latestStart maxKey count) count).1 = true)
  latestValues : ∀ maxKey ∈ e.historicalData.keys.getLast?, (e.tryGetLatestSpan count).1 = true →
    (e.tryGetLatestSpan count).2 = (e.tryGetOHLCSpan (latestStart maxKey count) count).2
  nothing : (count ≤ 0 ∨ (e.tryGetOHLCSpan startMs count).1 = false) →
    (e.tryGetOHLCSpan startMs count).1 = false ∧ (e.tryGetOHLCSpan startMs count).2 = []
  latestNothing : (count ≤ 0 ∨ (e.tryGetLatestSpan count).1 = false) →
    (e.tryGetLatestSpan count).1 = false ∧ (e.tryGetLatestSpan count).2 = []

/-! ## The loops -/

/-- The store has these records at these minutes. -/
def DatabaseEngine.Reads (e : DatabaseEngine) (times : List Int) (records : List MinuteRecord) :
    Prop :=
  times.map (fun t => e.historicalData[t]?) = records.map some

theorem DatabaseEngine.Reads.unique {e : DatabaseEngine} {times : List Int}
    {records records' : List MinuteRecord} (h : e.Reads times records)
    (h' : e.Reads times records') : records = records' :=
  List.map_injective_iff.mpr (Option.some_injective _) (h.symm.trans h')

section Loops

variable {e : DatabaseEngine} {startMs count : Int}

theorem spanUp_eq_walk (expected : Int) (n : Nat) (its : List (Int × MinuteRecord)) :
    spanUp expected n its = (walk kMillisPerMinute expected n its).map fun l =>
      l.map fun r => makeOHLC r.toPriceData := by
  induction n generalizing expected its with
  | zero => rfl
  | succ n ih =>
    cases its with
    | nil => rfl
    | cons it its =>
      rw [spanUp, walk]
      split
      · rfl
      · rw [ih, Option.map_map, Option.map_map]
        rfl

theorem spanFrom_eq_walk (expected : Int) (n : Nat) (its : List (Int × MinuteRecord)) :
    (if (spanFrom expected n its).1 then some (spanFrom expected n its).2 else none) =
      (walk (-kMillisPerMinute) expected n its).map fun l =>
        l.map fun r => makeOHLC r.toPriceData := by
  induction n generalizing expected its with
  | zero => rfl
  | succ n ih =>
    cases its with
    | nil => rfl
    | cons it its =>
      rw [spanFrom, walk]
      split
      · rfl
      · have hrest := ih (expected - kMillisPerMinute) its
        rw [Int.sub_eq_add_neg] at hrest ⊢
        generalize spanFrom (expected + -kMillisPerMinute) n its = res at hrest ⊢
        obtain ⟨ok, out⟩ := res
        rw [Option.map_map]
        cases ok with
        | false =>
          rw [Option.map_eq_none_iff.mp hrest.symm]
          rfl
        | true =>
          obtain ⟨l, hl, rfl⟩ := Option.map_eq_some_iff.mp hrest.symm
          rw [hl]
          rfl

/-- The entries of the store come minute by minute, with holes. -/
theorem toList_steps (e : DatabaseEngine) : e.historicalData.toList.Pairwise fun a b =>
    ∃ j : Nat, b.1 = a.1 + (j + 1) * kMillisPerMinute := by
  have hdvd : ∀ it ∈ e.historicalData.toList, kMillisPerMinute ∣ it.1 := fun it hit => by
    apply dvd_of_mem_keys e
    rw [← Std.ExtTreeMap.map_fst_toList_eq_keys]
    exact List.mem_map_of_mem hit
  apply Std.ExtTreeMap.ordered_keys_toList.imp_of_mem
  intro a b ha hb hlt
  exact exists_steps (hdvd a ha) (hdvd b hb) (by decide) (Std.compare_eq_lt.mp hlt)

/-- Where a loop over the store begins that looks for a minute that is not there. -/
theorem dropWhile_toList_of_none {t : Int} (h : e.historicalData[t]? = none) :
    (e.historicalData.toList.dropWhile fun it => it.1 ≠ t) = [] := by
  apply List.dropWhile_eq_nil_iff.mpr
  rintro ⟨s, r⟩ hs
  rw [Std.ExtTreeMap.mem_toList_iff_getElem?_eq_some] at hs
  simp only [ne_eq, decide_not, Bool.not_eq_true', decide_eq_false_iff_not]
  rintro rfl
  rw [h] at hs
  cases hs

/-- Where it begins for one that is there. -/
theorem dropWhile_toList_of_some {t : Int} {r : MinuteRecord} (h : e.historicalData[t]? = some r) :
    ∃ pre post, e.historicalData.toList = pre ++ (t, r) :: post ∧ (∀ it ∈ pre, it.1 < t) ∧
      (e.historicalData.toList.dropWhile fun it => it.1 ≠ t) = (t, r) :: post := by
  obtain ⟨pre, post, hl⟩ :=
    List.append_of_mem (Std.ExtTreeMap.mem_toList_iff_getElem?_eq_some.mpr h)
  have hsteps := toList_steps e
  rw [hl] at hsteps
  have hbefore : ∀ it ∈ pre, it.1 < t := fun it hit => by
    obtain ⟨j, hj⟩ := (List.pairwise_append.mp hsteps).2.2 it hit (t, r) List.mem_cons_self
    simp only [kMillisPerMinute] at hj
    omega
  refine ⟨pre, post, hl, hbefore, ?_⟩
  rw [hl, List.dropWhile_append_of_pos]
  · simp
  · exact fun it hit => by simpa using (hbefore it hit).ne

/-- The walk on from a minute. -/
theorem walk_on {t : Int} {pre post : List (Int × MinuteRecord)} {r : MinuteRecord}
    (hl : e.historicalData.toList = pre ++ (t, r) :: post) (hbefore : ∀ it ∈ pre, it.1 < t) (n : Nat)
    (records : List MinuteRecord) :
    walk kMillisPerMinute t n ((t, r) :: post) = some records ↔
      e.Reads (ticks t kMillisPerMinute n) records := by
  have hsteps := toList_steps e
  rw [hl] at hsteps
  obtain ⟨-, hsteps, -⟩ := List.pairwise_append.mp hsteps
  have hlook (k : Nat) (a : MinuteRecord) :
      e.historicalData[t + k * kMillisPerMinute]? = some a ↔
        (t + k * kMillisPerMinute, a) ∈ (t, r) :: post := by
    rw [← Std.ExtTreeMap.mem_toList_iff_getElem?_eq_some, hl, List.mem_append, or_iff_right]
    intro hmem
    have := hbefore _ hmem
    simp only [kMillisPerMinute] at this
    omega
  exact walk_eq_some_iff (fun t => e.historicalData[t]?) (by decide) hsteps
    (steps_from_head hsteps) hlook

/-- A span is what the look-ups of its minutes find. -/
theorem tryGetOHLCSpan_eq_true_iff (hc : 0 < count) {out : List OHLC} :
    e.tryGetOHLCSpan startMs count = (true, out) ↔ ∃ records,
      e.Reads (minutes startMs count) records ∧
        records.map (fun r => makeOHLC r.toPriceData) = out := by
  obtain ⟨n, hn⟩ : ∃ n, count.toNat = n + 1 := ⟨count.toNat - 1, by omega⟩
  unfold DatabaseEngine.tryGetOHLCSpan minutes
  rw [if_neg (by omega), hn]
  dsimp only
  generalize floorToMinuteMs startMs = t
  cases hr : e.historicalData[t]? with
  | none =>
    rw [dropWhile_toList_of_none hr]
    refine iff_of_false nofun ?_
    rintro ⟨records, h, -⟩
    rw [DatabaseEngine.Reads, ticks_succ, List.map_cons, hr] at h
    cases records <;> cases h
  | some r =>
    obtain ⟨pre, post, hl, hbefore, hdrop⟩ := dropWhile_toList_of_some hr
    have hwalk := walk_on hl hbefore (n + 1)
    rw [hdrop]
    dsimp only
    rw [spanUp_eq_walk]
    simp only [← hwalk]
    cases walk kMillisPerMinute t (n + 1) ((t, r) :: post) <;> simp

/-- The last entry of the store. -/
theorem reverse_toList {maxKey : Int} (hmax : e.historicalData.keys.getLast? = some maxKey) :
    ∃ r rest, e.historicalData.toList.reverse = (maxKey, r) :: rest ∧
      floorToMinuteMs maxKey = maxKey := by
  rw [← Std.ExtTreeMap.map_fst_toList_eq_keys, List.getLast?_map, Option.map_eq_some_iff] at hmax
  obtain ⟨⟨t, r⟩, hl, rfl⟩ := hmax
  obtain ⟨init, hinit⟩ := List.getLast?_eq_some_iff.mp hl
  refine ⟨r, init.reverse, by rw [hinit, List.reverse_append]; rfl, floorToMinuteMs_of_dvd ?_⟩
  apply dvd_of_mem_keys e
  rw [← Std.ExtTreeMap.map_fst_toList_eq_keys]
  exact List.mem_map_of_mem (List.mem_of_getLast? hl)

/-- The walk back from the last minute. -/
theorem walk_back {maxKey : Int} (hmax : e.historicalData.keys.getLast? = some maxKey) (n : Nat)
    (records : List MinuteRecord) :
    walk (-kMillisPerMinute) maxKey n e.historicalData.toList.reverse = some records ↔
      e.Reads (ticks (maxKey - (n - 1) * kMillisPerMinute) kMillisPerMinute n) records.reverse := by
  obtain ⟨r, rest, hl, -⟩ := reverse_toList hmax
  have hsteps : e.historicalData.toList.reverse.Pairwise fun a b =>
      ∃ j : Nat, b.1 = a.1 + (j + 1) * -kMillisPerMinute := by
    rw [List.pairwise_reverse]
    apply (toList_steps e).imp
    rintro a b ⟨j, hj⟩
    exact ⟨j, by rw [hj]; ring⟩
  have hfrom : ∀ it ∈ e.historicalData.toList.reverse, ∃ k : Nat,
      it.1 = maxKey + k * -kMillisPerMinute := by
    rw [hl] at hsteps ⊢
    exact steps_from_head hsteps
  have hlook (k : Nat) (a : MinuteRecord) :
      e.historicalData[maxKey + k * -kMillisPerMinute]? = some a ↔
        (maxKey + k * -kMillisPerMinute, a) ∈ e.historicalData.toList.reverse := by
    rw [List.mem_reverse, Std.ExtTreeMap.mem_toList_iff_getElem?_eq_some]
  rw [walk_eq_some_iff (fun t => e.historicalData[t]?) (by decide) hsteps hfrom hlook,
    ticks_neg, DatabaseEngine.Reads, List.map_reverse, List.map_reverse, List.reverse_eq_iff]

/-- The newest span is what the look-ups of its minutes find. -/
theorem tryGetLatestSpan_eq_true_iff (hc : 0 < count) {maxKey : Int}
    (hmax : e.historicalData.keys.getLast? = some maxKey) {out : List OHLC} :
    e.tryGetLatestSpan count = (true, out) ↔ ∃ records,
      e.Reads (ticks (latestStart maxKey count) kMillisPerMinute count.toNat) records ∧
        records.map (fun r => makeOHLC r.toPriceData) = out := by
  obtain ⟨r, rest, hl, hfloor⟩ := reverse_toList hmax
  have hback := walk_back hmax count.toNat
  rw [Int.toNat_of_nonneg hc.le] at hback
  have hloop := spanFrom_eq_walk maxKey count.toNat e.historicalData.toList.reverse
  unfold DatabaseEngine.tryGetLatestSpan
  rw [if_neg (by omega)]
  rw [hl] at hback hloop ⊢
  dsimp only
  rw [hfloor]
  generalize spanFrom maxKey count.toNat ((maxKey, r) :: rest) = res at hloop ⊢
  obtain ⟨ok, pushed⟩ := res
  cases ok with
  | false =>
    refine iff_of_false nofun ?_
    rintro ⟨records, h, -⟩
    rw [← records.reverse_reverse] at h
    have := (hback _).mpr h
    rw [Option.map_eq_none_iff.mp hloop.symm] at this
    cases this
  | true =>
    obtain ⟨records, hwalk, rfl⟩ := Option.map_eq_some_iff.mp hloop.symm
    have hreads := (hback _).mp hwalk
    constructor
    · intro h
      refine ⟨_, hreads, ?_⟩
      rw [List.map_reverse]
      exact (Prod.mk.inj h).2
    · rintro ⟨records', h, rfl⟩
      rw [h.unique hreads, List.map_reverse]
      rfl

/-- A newest span that fails has taken the newest candle already. -/
theorem tryGetLatestSpan_ne_nil (hc : 0 < count) {maxKey : Int}
    (hmax : e.historicalData.keys.getLast? = some maxKey) : (e.tryGetLatestSpan count).2 ≠ [] := by
  obtain ⟨r, rest, hl, hfloor⟩ := reverse_toList hmax
  obtain ⟨n, hn⟩ : ∃ n, count.toNat = n + 1 := ⟨count.toNat - 1, by omega⟩
  unfold DatabaseEngine.tryGetLatestSpan
  rw [if_neg (by omega), hl, hn]
  simp only [spanFrom, hfloor, ne_eq, not_true_eq_false, if_false]
  split <;> simp

end Loops

/-! ## Where they agree -/

section Agreement

variable {e : DatabaseEngine} {startMs count : Int}

theorem tryGetOHLC_of_dvd {t : Int} (ht : kMillisPerMinute ∣ t) : e.tryGetOHLC t =
    e.historicalData[t]?.map fun r => (makeOHLC r.toPriceData).prices := by
  unfold DatabaseEngine.tryGetOHLC
  rw [floorToMinuteMs_of_dvd ht]
  dsimp only
  split
  · rename_i h
    rw [Std.ExtTreeMap.isEmpty_iff.mp h, Std.ExtTreeMap.getElem?_empty]
    rfl
  · cases e.historicalData[t]? <;> rfl

theorem dvd_of_mem_minutes {t : Int} (ht : t ∈ minutes startMs count) : kMillisPerMinute ∣ t := by
  obtain ⟨k, -, rfl⟩ := mem_ticks.mp ht
  exact Int.dvd_add (dvd_floorToMinuteMs _) (Int.dvd_mul_left _ _)

/-- What a span returns, minute by minute. -/
theorem map_tryGetOHLC {ts : List Int} (hts : ∀ t ∈ ts, kMillisPerMinute ∣ t)
    {records : List MinuteRecord} (h : e.Reads ts records) :
    (records.map fun r => makeOHLC r.toPriceData).map (fun b => (b.openTimeMs, some b.prices)) =
      ts.map fun t => (t, e.tryGetOHLC t) := by
  induction ts generalizing records with
  | nil =>
    cases records <;> cases h
    rfl
  | cons t ts ih =>
    cases records with
    | nil => cases h
    | cons r records =>
      obtain ⟨hr, h⟩ := List.cons.inj h
      rw [List.map_cons, List.map_cons, List.map_cons,
        ih (fun t ht => hts t (List.mem_cons_of_mem _ ht)) h,
        tryGetOHLC_of_dvd (hts t List.mem_cons_self), show e.historicalData[t]? = some r from hr,
        ← e.keyed t r hr]
      rfl

theorem tryGetOHLCSpan_of_not_pos (hc : count ≤ 0) :
    e.tryGetOHLCSpan startMs count = (false, []) :=
  if_pos hc

theorem tryGetLatestSpan_of_not_pos (hc : count ≤ 0) : e.tryGetLatestSpan count = (false, []) :=
  if_pos hc

theorem tryGetLatestSpan_of_empty (hmax : e.historicalData.keys.getLast? = none) :
    e.tryGetLatestSpan count = (false, []) := by
  rw [List.getLast?_eq_none_iff, ← Std.ExtTreeMap.map_fst_toList_eq_keys, List.map_eq_nil_iff] at hmax
  unfold DatabaseEngine.tryGetLatestSpan
  rw [hmax, List.reverse_nil, ite_self]

theorem span_succeeds (hc : 0 < count) : (e.tryGetOHLCSpan startMs count).1 = true ↔
    ∀ t ∈ minutes startMs count, (e.tryGetOHLC t).isSome = true := by
  have hsame : (∀ t ∈ minutes startMs count, (e.tryGetOHLC t).isSome = true) ↔
      ∀ t ∈ minutes startMs count, e.historicalData[t]?.isSome = true := by
    refine forall₂_congr fun t ht => ?_
    rw [tryGetOHLC_of_dvd (dvd_of_mem_minutes ht), Option.isSome_map]
  rw [hsame, ← exists_map_eq_some_iff]
  constructor
  · intro h
    obtain ⟨records, hreads, -⟩ := (tryGetOHLCSpan_eq_true_iff hc).mp (Prod.ext h rfl)
    exact ⟨records, hreads⟩
  · rintro ⟨records, hreads⟩
    rw [(tryGetOHLCSpan_eq_true_iff hc).mpr ⟨records, hreads, rfl⟩]

theorem span_values (hok : (e.tryGetOHLCSpan startMs count).1 = true) :
    (e.tryGetOHLCSpan startMs count).2.map (fun b => (b.openTimeMs, some b.prices)) =
      (minutes startMs count).map fun t => (t, e.tryGetOHLC t) := by
  have hc : 0 < count := by
    by_contra hc
    rw [tryGetOHLCSpan_of_not_pos (Int.not_lt.mp hc)] at hok
    cases hok
  have hspan : e.tryGetOHLCSpan startMs count = (true, (e.tryGetOHLCSpan startMs count).2) :=
    Prod.ext hok rfl
  obtain ⟨records, hreads, hout⟩ := (tryGetOHLCSpan_eq_true_iff hc).mp hspan
  rw [← hout]
  exact map_tryGetOHLC (fun t ht => dvd_of_mem_minutes ht) hreads

/-- A span that fails leaves nothing. -/
theorem span_nothing (h : (e.tryGetOHLCSpan startMs count).1 = false) :
    (e.tryGetOHLCSpan startMs count).2 = [] := by
  unfold DatabaseEngine.tryGetOHLCSpan at h ⊢
  split
  · rfl
  · rename_i hc
    rw [if_neg hc] at h
    dsimp only at h ⊢
    split
    · rfl
    · rename_i hdrop
      rw [hdrop] at h
      dsimp only at h
      split
      · rfl
      · rename_i hup
        rw [hup] at h
        cases h

section Latest

variable {maxKey : Int}

/-- The newest span is the span that begins as much earlier. -/
theorem latest_eq_iff (hc : 0 < count) (hmax : e.historicalData.keys.getLast? = some maxKey)
    (out : List OHLC) : e.tryGetLatestSpan count = (true, out) ↔
      e.tryGetOHLCSpan (latestStart maxKey count) count = (true, out) := by
  have hdvd : kMillisPerMinute ∣ latestStart maxKey count :=
    Int.dvd_sub (dvd_of_mem_keys e (List.mem_of_getLast? hmax)) (Int.dvd_mul_left _ _)
  rw [tryGetLatestSpan_eq_true_iff hc hmax, tryGetOHLCSpan_eq_true_iff hc, minutes,
    floorToMinuteMs_of_dvd hdvd]

theorem latest_succeeds (hc : 0 < count) (hmax : e.historicalData.keys.getLast? = some maxKey) :
    (e.tryGetLatestSpan count).1 = true ↔
      (e.tryGetOHLCSpan (latestStart maxKey count) count).1 = true := by
  have h := latest_eq_iff hc hmax
  constructor
  · intro hok
    rw [(h _).mp (Prod.ext hok rfl)]
  · intro hok
    rw [(h _).mpr (Prod.ext hok rfl)]

theorem latest_values (hmax : e.historicalData.keys.getLast? = some maxKey)
    (hok : (e.tryGetLatestSpan count).1 = true) :
    (e.tryGetLatestSpan count).2 = (e.tryGetOHLCSpan (latestStart maxKey count) count).2 := by
  have hc : 0 < count := by
    by_contra hc
    rw [tryGetLatestSpan_of_not_pos (Int.not_lt.mp hc)] at hok
    cases hok
  rw [(latest_eq_iff hc hmax _).mp (Prod.ext hok rfl)]

/-- The newest span succeeds if its minutes are there. -/
theorem latest_succeeds_iff (hc : 0 < count)
    (hmax : e.historicalData.keys.getLast? = some maxKey) :
    (e.tryGetLatestSpan count).1 = true ↔
      ∀ t ∈ ticks (latestStart maxKey count) kMillisPerMinute count.toNat,
        e.historicalData[t]?.isSome = true := by
  rw [← exists_map_eq_some_iff]
  constructor
  · intro h
    obtain ⟨records, hreads, -⟩ := (tryGetLatestSpan_eq_true_iff hc hmax).mp (Prod.ext h rfl)
    exact ⟨records, hreads⟩
  · rintro ⟨records, hreads⟩
    rw [(tryGetLatestSpan_eq_true_iff hc hmax).mpr ⟨records, hreads, rfl⟩]

end Latest

/-- The spans agree with the single candles if and only if the minutes of the newest span are all
there, or the store is empty. -/
theorem spansAgree_iff (e : DatabaseEngine) (startMs count : Int) :
    SpansAgree e startMs count ↔ ∀ maxKey ∈ e.historicalData.keys.getLast?,
      ∀ t ∈ ticks (latestStart maxKey count) kMillisPerMinute count.toNat,
        e.historicalData[t]?.isSome = true := by
  constructor
  · intro h maxKey hmax
    rcases lt_or_ge 0 count with hc | hc
    · -- A newest span that fails would leave its first candle.
      rw [← latest_succeeds_iff hc hmax, ← Bool.not_eq_false]
      exact fun hf => tryGetLatestSpan_ne_nil hc hmax (h.latestNothing (.inr hf)).2
    · rw [Int.toNat_of_nonpos hc]
      nofun
  · intro h
    refine ⟨span_succeeds, span_values, fun hc => ?_, fun _ => latest_values, fun hf => ?_,
      fun hf => ?_⟩
    · cases hmax : e.historicalData.keys.getLast? with
      | none => simp [tryGetLatestSpan_of_empty hmax]
      | some maxKey => simp [latest_succeeds hc hmax]
    · have hfails : (e.tryGetOHLCSpan startMs count).1 = false := by
        rcases hf with hc | hf
        · rw [tryGetOHLCSpan_of_not_pos hc]
        · exact hf
      exact ⟨hfails, span_nothing hfails⟩
    · rcases lt_or_ge 0 count with hc | hc
      · cases hmax : e.historicalData.keys.getLast? with
        | none =>
          rw [tryGetLatestSpan_of_empty hmax]
          exact ⟨rfl, rfl⟩
        | some maxKey =>
          have hf := hf.resolve_left (by omega)
          rw [(latest_succeeds_iff hc hmax).mpr (h maxKey hmax)] at hf
          cases hf
      · rw [tryGetLatestSpan_of_not_pos hc]
        exact ⟨rfl, rfl⟩

end Agreement

end

/-- One candle, and a newest span of two: it fails, and leaves the candle. -/
theorem spansAgree_fails : ∃ e : DatabaseEngine,
    e.tryGetLatestSpan 2 = (false, [⟨60000, 1, 1, 1, 1⟩]) ∧ ¬ SpansAgree e 60000 2 := by
  refine ⟨ingestRecords (.opened {} 0) [flatRecord 60000 1], by decide +kernel, fun h => ?_⟩
  have := (h.latestNothing (.inr (by decide +kernel))).2
  revert this
  decide +kernel

end TCV.Storage
