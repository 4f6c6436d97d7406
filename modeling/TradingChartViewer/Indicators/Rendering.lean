import TradingChartViewer.Indicators.IndicatorCoordinator

/-!
# Averages over a growing repository

The renderer takes series from a repository that is written to, reads the version of
the repository, and asks the coordinator for averages.

* `Rendering`, `Rendering.step`: the composition;
* `prepareSeriesWithWarmup_of_grows`: the warm-up of a series stays as it is;
* `ema_congr`: an average reads the first time and the closes of its candles;
* `returned_fresh`: what `getEMA` returns is the average of the candles it is given,
  where no series is found that was made for others.
-/

namespace TCV.Indicators

open TCV.Domain TCV.Storage Lib.Run

/-- What `getEMA` computes where it finds nothing. -/
def ema (repo : Repository) (candles : CandleSeries) (params : EmaParams) : IndicatorSeries :=
  let prepared := prepareSeriesWithWarmup repo candles params
  trimWarmup (computeEMA prepared.view params) prepared.warmup candles.data.length

/-! ## The composition -/

/-- `version` is what was last read of the repository, as the `RepoView` holds it. -/
structure Rendering where
  repo : Repository
  snapshots : List CandleSeries := []
  version : SeriesVersion := {}
  coordinator : Coordinator := {}

inductive RenderingEvent
  | call (c : Call)
  | getLatest (count : Nat)
  | getRange (range : TimeRange)
  | metadata
  | lastClosedOpenTime
  | getEMA (seriesId : String) (snapshot : Nat) (params : EmaParams) (allowAsyncRecompute : Bool)
  | finish (n : Nat)
  | invalidate (seriesId : String)

/-- The version may be read before or after the series that it is passed with. -/
def Rendering.step [TimeUtils] (sort : StdSort) (s : Rendering) : RenderingEvent → Option Rendering
  | .call c => some { s with repo := s.repo.call sort c }
  | .getLatest count => some { s with snapshots := s.snapshots ++ [s.repo.getLatest count] }
  | .getRange range => some { s with snapshots := s.snapshots ++ [s.repo.getRange range] }
  | .metadata => some { s with
      version := { s.version with candleCount := s.repo.metadata.count } }
  | .lastClosedOpenTime => some { s with
      version := { s.version with lastClosedOpenTimeMs := s.repo.lastClosedOpenTime } }
  | .getEMA seriesId snapshot params allowAsyncRecompute =>
    s.snapshots[snapshot]?.map fun candles => { s with
      coordinator :=
        s.coordinator.getEMA s.repo seriesId candles s.version params allowAsyncRecompute }
  | .finish n => (s.coordinator.finish n).map fun coordinator => { s with coordinator := coordinator }
  | .invalidate seriesId => some { s with coordinator := s.coordinator.invalidate seriesId }

/-- The candles start at the same time and have the same closes. -/
def SameCloses (as bs : CandleSeries) : Prop :=
  as.firstOpen = bs.firstOpen ∧ as.data.map Candle.close = bs.data.map Candle.close

instance (as bs : CandleSeries) : Decidable (SameCloses as bs) := inferInstanceAs (Decidable (_ ∧ _))

/-- A series that a call finds in its slot for its version and size was made for
the same candles. -/
def Rendering.FindsOwn (s : Rendering) (e : RenderingEvent) : Prop :=
  ∀ seriesId n params async candles series m c, e = .getEMA seriesId n params async →
    s.snapshots[n]? = some candles →
    s.coordinator.cached ⟨seriesId, params⟩ s.version candles.data.length = some (series, m) →
    s.coordinator.computations[m]? = some c → SameCloses c.candles candles

instance (s : Rendering) (e : RenderingEvent) : Decidable (s.FindsOwn e) :=
  match e with
  | .getEMA seriesId n params _ =>
    decidable_of_iff (∀ candles ∈ s.snapshots[n]?, ∀ found ∈ s.coordinator.cached
        ⟨seriesId, params⟩ s.version candles.data.length,
        ∀ c ∈ s.coordinator.computations[found.2]?, SameCloses c.candles candles)
      ⟨fun h _ _ _ _ candles series m c he hc hf hm => by
          cases he
          exact h candles hc (series, m) hf c hm,
        fun h candles hc found hf c hm => h _ _ _ _ candles found.1 found.2 c rfl hc hf hm⟩
  | .call _ | .getLatest _ | .getRange _ | .metadata | .lastClosedOpenTime | .finish _
  | .invalidate _ => .isTrue fun _ _ _ _ _ _ _ _ he => RenderingEvent.noConfusion he

/-! ## The warm-up -/

/-- The series starts at a candle of the repository. -/
structure Taken (r : Repository) (candles : CandleSeries) : Prop where
  first : candles.firstOpen ∈ r.times
  interval : candles.interval = r.interval

section

variable {r r' : Repository} {candles : CandleSeries} {params : EmaParams}

theorem Taken.grows (h : Taken r candles) (g : Grows r r') : Taken r' candles :=
  ⟨g.times.subset h.first, h.interval.trans (congrArg (·.2.1) g.format).symm⟩

theorem older_eq_of_grows (h : r.Contiguous) (h' : r'.Contiguous) (g : Grows r r')
    (ht : Taken r candles) : r'.older candles.firstOpen = r.older candles.firstOpen :=
  (older_of_grows h' g ht.first).trans (older_of_grows h (.refl r) ht.first).symm

theorem warmupTimes_end {range : TimeRange} (h : warmupTimes r candles params = some range) :
    range.end_ < candles.firstOpen := by
  unfold warmupTimes at h
  rw [Option.ite_none_left_eq_some] at h
  simp only [Option.ite_none_left_eq_some, Option.some.injEq] at h
  obtain ⟨-, hinterval, -, -, -, -, -, rfl⟩ := h
  exact Int.sub_lt_self _ (not_le.mp hinterval)

/-- Where candles stand before one of the repository, the first of them is the oldest
closed one. -/
theorem metadata_of_older (h : r.Contiguous) (ht : Taken r candles)
    (ho : r.older candles.firstOpen ≠ []) :
    r.metadata.count ≠ 0 ∧
      r.metadata.minOpen = ((r.older candles.firstOpen).head?.map Candle.openTime).getD 0 := by
  have hdrop := older_of_grows h (.refl r) ht.first
  have hasc := h.times_ascend.1
  have hcl := h.closed
  rw [h.metadata, metadataOf_eq]
  obtain ⟨d, hd⟩ := List.exists_mem_of_ne_nil _ ho
  have hd' := hd
  rw [hdrop] at hd'
  unfold Repository.older at hd ⊢
  unfold Repository.times at hasc
  cases hc : r.candles with
  | nil =>
    rw [hc] at hd
    cases hd
  | cons c cs =>
    rw [hc] at hd hd' hasc hcl
    cases cs with
    | nil => cases hd'
    | cons e es =>
      have hclosed : c.isClosed = true := hcl c List.mem_cons_self
      have hlt : c.openTime < candles.firstOpen := by
        obtain ⟨hm, hdt⟩ := List.mem_filter.mp hd
        have hdt := of_decide_eq_true hdt
        rcases List.mem_cons.mp hm with rfl | hm
        · exact hdt
        · exact ((List.pairwise_cons.mp hasc).1 _ (List.mem_map_of_mem hm)).trans hdt
      simp [closedOf, hclosed, hlt]

theorem getIntervalMs_of_grows (g : Grows r r') : r'.getIntervalMs = r.getIntervalMs := by
  have hf := g.format
  simp only [Repository.format, Prod.mk.injEq] at hf
  unfold Repository.getIntervalMs
  rw [hf.2.1, hf.2.2.1]

/-- No warm-up comes from a repository without older candles. -/
theorem prepareSeriesWithWarmup_of_older_nil (h : r.Contiguous)
    (ho : r.older candles.firstOpen = []) :
    prepareSeriesWithWarmup r candles params = { view := candles } := by
  unfold prepareSeriesWithWarmup
  split
  · rfl
  · rename_i range hr
    dsimp only
    rw [getRange_data h (warmupTimes_end hr), ho]
    simp

theorem prepareSeriesWithWarmup_of_grows (h : r.Contiguous) (h' : r'.Contiguous) (g : Grows r r')
    (ht : Taken r candles) (params : EmaParams) :
    prepareSeriesWithWarmup r' candles params = prepareSeriesWithWarmup r candles params := by
  have hold := older_eq_of_grows h h' g ht
  have hint := getIntervalMs_of_grows g
  by_cases ho : r.older candles.firstOpen = []
  · rw [prepareSeriesWithWarmup_of_older_nil h ho,
      prepareSeriesWithWarmup_of_older_nil h' (hold.trans ho)]
  · obtain ⟨hcount, hmin⟩ := metadata_of_older h ht ho
    obtain ⟨hcount', hmin'⟩ := metadata_of_older h' (ht.grows g) (hold ▸ ho)
    have htimes : warmupTimes r' candles params = warmupTimes r candles params := by
      unfold warmupTimes
      simp only [hint, hmin, hmin', hold, hcount, hcount']
    unfold prepareSeriesWithWarmup
    rw [htimes]
    split
    · rfl
    · rename_i range hr
      dsimp only
      rw [getRange_data h (warmupTimes_end hr), getRange_data h' (warmupTimes_end hr), hold, hint]

theorem ema_of_grows (h : r.Contiguous) (h' : r'.Contiguous) (g : Grows r r')
    (ht : Taken r candles) (params : EmaParams) : ema r' candles params = ema r candles params := by
  unfold ema
  rw [prepareSeriesWithWarmup_of_grows h h' g ht]

theorem prepareSeriesWithWarmup_congr {as bs : CandleSeries} (hi : as.interval = bs.interval)
    (hs : SameCloses as bs) (params : EmaParams) :
    (prepareSeriesWithWarmup r as params).warmup = (prepareSeriesWithWarmup r bs params).warmup ∧
    (prepareSeriesWithWarmup r as params).view.data.map Candle.close =
      (prepareSeriesWithWarmup r bs params).view.data.map Candle.close := by
  obtain ⟨hf, hc⟩ := hs
  have hempty : as.data.isEmpty = bs.data.isEmpty := by
    rw [← List.isEmpty_map (f := Candle.close), hc, List.isEmpty_map]
  have htimes : warmupTimes r as params = warmupTimes r bs params := by
    unfold warmupTimes
    rw [hf, hi, hempty]
  unfold prepareSeriesWithWarmup
  rw [htimes]
  split
  · exact ⟨rfl, hc⟩
  · dsimp only
    split
    · exact ⟨rfl, hc⟩
    · exact ⟨rfl, by rw [List.map_append, List.map_append, hc]⟩

/-- An average reads the first time and the closes of its candles. -/
theorem ema_congr {as bs : CandleSeries} (ha : Taken r as) (hb : Taken r bs)
    (hs : SameCloses as bs) (params : EmaParams) : ema r as params = ema r bs params := by
  obtain ⟨hwarmup, hcloses⟩ :=
    prepareSeriesWithWarmup_congr (r := r) (ha.interval.trans hb.interval.symm) hs params
  have hlen := congrArg List.length hs.2
  rw [List.length_map, List.length_map] at hlen
  unfold ema
  dsimp only
  rw [computeEMA_congr hcloses, hwarmup, hlen]

/-! ## Snapshots -/

theorem taken_getLatest (count : Nat) (hne : (r.getLatest count).data ≠ []) :
    Taken r (r.getLatest count) := by
  have hne' : latestTimes r.times count ≠ [] := by
    rwa [← latestTimes_eq, ne_eq, List.map_eq_nil_iff]
  obtain ⟨t, rest, ht⟩ := List.exists_cons_of_ne_nil hne'
  rw [getLatest_eq, ht]
  exact ⟨List.drop_subset _ _ (ht ▸ List.mem_cons_self), rfl⟩

theorem taken_getRange (h : r.Contiguous) {range : TimeRange}
    (hne : (r.getRange range).data ≠ []) : Taken r (r.getRange range) := by
  unfold Repository.getRange at hne ⊢
  split at hne
  · exact absurd rfl hne
  · rename_i hr
    rw [if_neg hr]
    simp only [Bool.or_eq_true, not_or, Bool.not_eq_true] at hr
    dsimp only at hne ⊢
    rw [rangeLoop_eq h.times_ascend.1 range hr.1] at hne ⊢
    obtain ⟨c, rest, hc⟩ := List.exists_cons_of_ne_nil hne
    refine ⟨?_, rfl⟩
    rw [hc]
    exact List.mem_map_of_mem (List.mem_of_mem_filter (hc ▸ List.mem_cons_self))

end

/-! ## The invariant -/

/-- What is kept of the candles of a call is their average. -/
structure Averages (r : Repository) (candles : CandleSeries) (params : EmaParams)
    (series : IndicatorSeries) : Prop where
  taken : Taken r candles
  series_eq : series = ema r candles params

theorem Averages.grows {r r' : Repository} {candles : CandleSeries} {params : EmaParams}
    {series : IndicatorSeries} (h : Averages r candles params series) (hr : r.Contiguous)
    (hr' : r'.Contiguous) (g : Grows r r') : Averages r' candles params series :=
  ⟨h.taken.grows g, h.series_eq.trans (ema_of_grows hr hr' g h.taken params).symm⟩

structure Rendering.Ok (s : Rendering) : Prop where
  contiguous : s.repo.Contiguous
  snapshots : ∀ p ∈ s.snapshots, p.data ≠ [] → Taken s.repo p
  computations : ∀ c ∈ s.coordinator.computations,
    Averages s.repo c.candles c.key.params c.result
  stored : ∀ key series n, s.coordinator.stored key = some (series, n) →
    ∃ c, s.coordinator.computations[n]? = some c ∧ c.key = key ∧ c.result = series
  returned : ∀ a ∈ s.coordinator.returned, Averages s.repo a.candles a.params a.series

section

variable {s t : Rendering}

/-- What a call finds in its slot is the average of its candles. -/
theorem Rendering.Ok.cached (h : s.Ok) {seriesId : String} {snapshot : Nat} {params : EmaParams}
    {async : Bool} (hown : s.FindsOwn (.getEMA seriesId snapshot params async))
    {candles : CandleSeries} (hc : s.snapshots[snapshot]? = some candles) (hne : candles.data ≠ [])
    {series : IndicatorSeries} {n : Nat}
    (hf : s.coordinator.cached ⟨seriesId, params⟩ s.version candles.data.length = some (series, n)) :
    Averages s.repo candles params series := by
  obtain ⟨c, hn, hkey, rfl⟩ := h.stored _ _ _ (stored_of_cached hf)
  obtain ⟨htaken, e⟩ := h.computations c (List.mem_of_getElem? hn)
  have hsnap := h.snapshots candles (List.mem_of_getElem? hc) hne
  refine ⟨hsnap, e.trans ?_⟩
  rw [hkey]
  exact ema_congr htaken hsnap (hown _ _ _ _ _ _ _ _ rfl hc hf hn) params

theorem getEMA_ok (h : s.Ok) {seriesId : String} {snapshot : Nat} {params : EmaParams}
    {async : Bool} (hown : s.FindsOwn (.getEMA seriesId snapshot params async))
    {candles : CandleSeries} (hc : s.snapshots[snapshot]? = some candles) :
    Rendering.Ok { s with
      coordinator := s.coordinator.getEMA s.repo seriesId candles s.version params async } := by
  let key : CacheKey := { seriesId := seriesId, params := params }
  rcases getEMA_cases s.coordinator s.repo seriesId candles s.version params async with
    e | ⟨series, n, hne, hf, e⟩ | ⟨pending, e | ⟨hne, e⟩⟩ <;> rw [e]
  · exact h
  · refine ⟨h.contiguous, h.snapshots, h.computations, h.stored, fun a ha => ?_⟩
    rcases List.mem_append.mp ha with ha | ha
    · exact h.returned a ha
    · rw [List.mem_singleton.mp ha]
      exact h.cached hown hc hne hf
  · refine ⟨h.contiguous, h.snapshots, h.computations, fun k => ?_, h.returned⟩
    dsimp only
    rw [stored_put_pending]
    exact h.stored k
  · refine ⟨h.contiguous, h.snapshots, fun c hc' => ?_, fun k series n hs => ?_, h.returned⟩
    · rcases List.mem_append.mp hc' with hc' | hc'
      · exact h.computations c hc'
      · rw [List.mem_singleton.mp hc']
        exact ⟨h.snapshots candles (List.mem_of_getElem? hc) hne, rfl⟩
    · have hs : (s.coordinator.put key _).stored k = some (series, n) := hs
      rw [stored_put_pending] at hs
      obtain ⟨c, hn, hc'⟩ := h.stored k series n hs
      exact ⟨c, (List.getElem?_append_left (List.getElem?_eq_some_iff.mp hn).1).trans hn, hc'⟩

theorem finish_ok (h : s.Ok) {n : Nat} {coordinator : Coordinator}
    (hf : s.coordinator.finish n = some coordinator) :
    Rendering.Ok { s with coordinator := coordinator } := by
  obtain ⟨c, hc, hstored, hcomp, hret⟩ := finish_eq hf
  have hcok := h.computations c (List.mem_of_getElem? hc)
  have hself := List.getElem?_set_self (a := { c with finished := true })
    (List.getElem?_eq_some_iff.mp hc).1
  refine ⟨h.contiguous, h.snapshots, fun d hd => ?_, fun k series m hs => ?_, fun a ha => ?_⟩
  · rw [hcomp] at hd
    rcases List.mem_or_eq_of_mem_set hd with hd | rfl
    · exact h.computations d hd
    · exact hcok
  · dsimp only at hs ⊢
    rw [hcomp]
    rw [hstored, Function.update_apply] at hs
    split at hs
    · rename_i hk
      obtain ⟨rfl, rfl⟩ := Prod.mk.inj (Option.some.inj hs)
      exact ⟨_, hself, hk.symm, rfl⟩
    · obtain ⟨d, hd, hdk⟩ := h.stored k series m hs
      by_cases hm : n = m
      · subst hm
        obtain rfl := Option.some.inj (hc.symm.trans hd)
        exact ⟨_, hself, hdk⟩
      · exact ⟨d, by rw [List.getElem?_set_ne hm, hd], hdk⟩
  · rw [hret] at ha
    split at ha
    · exact h.returned a ha
    · rcases List.mem_append.mp ha with ha | ha
      · exact h.returned a ha
      · rw [List.mem_singleton.mp ha]
        exact hcok

theorem invalidate_ok (h : s.Ok) (seriesId : String) :
    Rendering.Ok { s with coordinator := s.coordinator.invalidate seriesId } := by
  refine ⟨h.contiguous, h.snapshots, fun c hc => ?_, fun k series n hs => ?_, h.returned⟩
  · obtain ⟨d, hd, rfl⟩ := List.mem_map.mp hc
    exact h.computations d hd
  · dsimp only at hs
    rw [stored_invalidate] at hs
    split at hs
    · cases hs
    · obtain ⟨c, hc, hck⟩ := h.stored k series n hs
      refine ⟨{ c with invalidated := c.invalidated || c.key.seriesId = seriesId }, ?_, hck⟩
      rw [Coordinator.invalidate, List.getElem?_map, hc]
      rfl

theorem snapshot_ok (h : s.Ok) {series : CandleSeries}
    (ht : series.data ≠ [] → Taken s.repo series) :
    Rendering.Ok { s with snapshots := s.snapshots ++ [series] } := by
  refine ⟨h.contiguous, fun p hp hne => ?_, h.computations, h.stored, h.returned⟩
  rcases List.mem_append.mp hp with hp | hp
  · exact h.snapshots p hp hne
  · rw [List.mem_singleton.mp hp] at hne ⊢
    exact ht hne

theorem rendering_ok [TimeUtils] {sort : StdSort} (h : s.Ok) {e : RenderingEvent}
    (hown : s.FindsOwn e) (hs : s.step sort e = some t) : t.Ok := by
  cases e with
  | call c =>
    obtain rfl := Option.some.inj hs
    obtain ⟨hr, g⟩ := call_grows h.contiguous sort c
    exact ⟨hr, fun p hp hne => (h.snapshots p hp hne).grows g,
      fun c hc => (h.computations c hc).grows h.contiguous hr g, h.stored,
      fun a ha => (h.returned a ha).grows h.contiguous hr g⟩
  | getLatest count =>
    obtain rfl := Option.some.inj hs
    exact snapshot_ok h (taken_getLatest count)
  | getRange range =>
    obtain rfl := Option.some.inj hs
    exact snapshot_ok h (taken_getRange h.contiguous)
  | metadata =>
    obtain rfl := Option.some.inj hs
    exact ⟨h.contiguous, h.snapshots, h.computations, h.stored, h.returned⟩
  | lastClosedOpenTime =>
    obtain rfl := Option.some.inj hs
    exact ⟨h.contiguous, h.snapshots, h.computations, h.stored, h.returned⟩
  | getEMA seriesId snapshot params async =>
    obtain ⟨candles, hc, rfl⟩ := Option.map_eq_some_iff.mp hs
    exact getEMA_ok h hown hc
  | finish n =>
    obtain ⟨coordinator, hf, rfl⟩ := Option.map_eq_some_iff.mp hs
    exact finish_ok h hf
  | invalidate seriesId =>
    obtain rfl := Option.some.inj hs
    exact invalidate_ok h seriesId

theorem init_rendering_ok {repo : Repository} (h : repo.Contiguous) : Rendering.Ok { repo := repo } :=
  ⟨h, fun _ hp => absurd hp List.not_mem_nil, fun _ hc => absurd hc List.not_mem_nil,
    fun _ _ _ hs => (nomatch (show none = some _ from hs)), fun _ ha => absurd ha List.not_mem_nil⟩

end

/-- In every run in which each series that a call finds in its slot was made for its
candles, what `getEMA` returns is the average of the candles it is given. -/
theorem returned_fresh [TimeUtils] (sort : StdSort) (repo : Repository) (hrepo : repo.Contiguous)
    (es : List RenderingEvent) (s : Rendering)
    (hrun : run (Rendering.step sort) { repo := repo } es = some s)
    (hown : Along (Rendering.step sort) Rendering.FindsOwn { repo := repo } es) :
    ∀ a ∈ s.coordinator.returned, a.series.values = (ema s.repo a.candles a.params).values := by
  intro a ha
  have hok : s.Ok := inv_of_along (fun _ _ _ h hown hs => rendering_ok h hown hs)
    (init_rendering_ok hrepo) hown hrun
  rw [(hok.returned a ha).series_eq]

/-- A closed candle and an open one, and the average of two of them. -/
def averageOfTwo : List RenderingEvent :=
  [.call (.appendOrReplace (flatCandle 60000 true)), .call (.appendOrReplace (flatCandle 120000 false)),
    .getLatest 2, .metadata, .lastClosedOpenTime, .getEMA "B" 0 ⟨2⟩ false, .finish 0]

def emptyRepository : Repository := Repository.construct .insertion {} ['B'] ⟨60000⟩

/-- The average is found again. -/
theorem returned_fresh_twice :
    ∃ s, run (Rendering.step .insertion) { repo := emptyRepository }
        (averageOfTwo ++ [.getLatest 2, .getEMA "B" 1 ⟨2⟩ true]) = some s ∧
      s.coordinator.returned.map (·.series.values) = [[none, some 1], [none, some 1]] ∧
      ∀ a ∈ s.coordinator.returned, a.series.values = (ema s.repo a.candles a.params).values := by
  have hmap : (run (Rendering.step .insertion) { repo := emptyRepository }
      (averageOfTwo ++ [.getLatest 2, .getEMA "B" 1 ⟨2⟩ true])).map
      (fun s => s.coordinator.returned.map (·.series.values)) =
        some [[none, some 1], [none, some 1]] := by decide +kernel
  obtain ⟨s, hrun, h⟩ := Option.map_eq_some_iff.mp hmap
  exact ⟨s, hrun, h, returned_fresh _ _ (construct_contiguous .insertion rfl ['B'] (by decide)) _ s
    hrun (by decide +kernel)⟩

/-- The open candle moves to 3 and the average found stays at 1, where it is 2. -/
theorem returned_stale :
    ∃ s, run (Rendering.step .insertion) { repo := emptyRepository }
        (averageOfTwo ++ [.call (.appendOrReplace { flatCandle 120000 false with close := 3 }),
          .getLatest 2, .metadata, .lastClosedOpenTime, .getEMA "B" 1 ⟨2⟩ true]) = some s ∧
      ∃ a ∈ s.coordinator.returned, a.series.values = [none, some 1] ∧
        (ema s.repo a.candles a.params).values = [none, some 2] := by
  have hmap : (run (Rendering.step .insertion) { repo := emptyRepository }
      (averageOfTwo ++ [.call (.appendOrReplace { flatCandle 120000 false with close := 3 }),
        .getLatest 2, .metadata, .lastClosedOpenTime, .getEMA "B" 1 ⟨2⟩ true])).map
      (fun s => decide (∃ a ∈ s.coordinator.returned, a.series.values = [none, some 1] ∧
        (ema s.repo a.candles a.params).values = [none, some 2])) = some true := by decide +kernel
  obtain ⟨s, hrun, h⟩ := Option.map_eq_some_iff.mp hmap
  exact ⟨s, hrun, of_decide_eq_true h⟩

end TCV.Indicators
