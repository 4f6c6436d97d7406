import TradingChartViewer.App.ChartController
import TradingChartViewer.App.Threads

/-!
# Paging requests

The chart controller over the orchestrator: a pan near the first candle of the
series asks the orchestrator for older candles, and the series it publishes come
back through `setSeries`. The owner of the orchestrator is the thread that runs
the chart. Series come from the cache only.

* `ChartController.PansToStart`: the pans that make a request;
  `panByCandles_inFlight`;
* `Ui`, `Ui.step`: the composition;
* `Ui.Ok`: the invariant: the series never move back, so nothing answers a
  request;
* `inFlight_iff`: when `backfillInFlight_` is clear.
-/

namespace TCV.App

open TCV.Domain TCV.Storage Lib.Run

/-! ## Requests -/

/-- The time of the first candle of the view, as `maybeRequestBackfill` takes it. -/
def ChartController.leftMost (c : ChartController) : Int :=
  c.view.rightmostOpenTime -
    if 1 < c.view.candlesVisible then spanMs c.view.candlesVisible c.intervalMs else 0

section

variable {c : ChartController} {series : CandleSeries}

theorem intervalMs_congr {c' : ChartController} (h : c'.series = c.series) :
    c'.intervalMs = c.intervalMs := by
  unfold ChartController.intervalMs
  rw [h]

/-- A request for older candles, where there may be some. -/
theorem maybeRequestBackfill_of_shown (hs : c.shown = some series) (hi : 0 < c.intervalMs)
    (hb : c.backfillRequest = true) (hf : 0 < series.firstOpen) :
    series.firstOpen + kPanBackfillMarginCandles * c.intervalMs < c.leftMost ∧
        c.maybeRequestBackfill = (c, none) ∨
    c.leftMost ≤ series.firstOpen + kPanBackfillMarginCandles * c.intervalMs ∧
      (c.backfillInFlight = true ∧ c.maybeRequestBackfill = (c, none) ∨
        ∃ start, start < series.firstOpen ∧ c.maybeRequestBackfill =
          ({ c with backfillInFlight := true, awaitedFirstOpen := start },
            some (start, kBackfillBatchCandles))) := by
  have hstart : max 0 (series.firstOpen - kBackfillBatchCandles * c.intervalMs) <
      series.firstOpen := by
    have : (0 : Int) < kBackfillBatchCandles * c.intervalMs := Int.mul_pos (by decide) hi
    omega
  have e : c.maybeRequestBackfill =
      if series.firstOpen + kPanBackfillMarginCandles * c.intervalMs < c.leftMost then (c, none)
      else if c.backfillInFlight && c.awaitedFirstOpen ≤ c.leftMost then (c, none)
      else
        ({ c with
            backfillInFlight := true
            awaitedFirstOpen :=
              max 0 (series.firstOpen - kBackfillBatchCandles * c.intervalMs) },
          some (max 0 (series.firstOpen - kBackfillBatchCandles * c.intervalMs),
            kBackfillBatchCandles)) := by
    unfold ChartController.maybeRequestBackfill
    rw [hs]
    dsimp only
    rw [if_neg (by simp [hb, hi]), if_neg (not_le.mpr hstart)]
    rfl
  rw [e]
  split_ifs with h₁ h₂
  · exact .inl ⟨h₁, rfl⟩
  · rw [Bool.and_eq_true] at h₂
    exact .inr ⟨not_lt.mp h₁, .inl ⟨h₂.1, rfl⟩⟩
  · exact .inr ⟨not_lt.mp h₁, .inr ⟨_, hstart, rfl⟩⟩

variable [ViewportMaths]

/-- The view after `panByCandles` has moved it. -/
def ChartController.panned (c : ChartController) (candles : Int) : ChartController :=
  (c.moved c.view.candlesVisible
    (c.view.rightmostOpenTime - candles * c.intervalMs)).clampToSeries

/-- The pan leaves the left edge of the view within the margin of the first candle
of the series. -/
def ChartController.PansToStart (c : ChartController) (candles : Int) : Prop :=
  candles ≠ 0 ∧ 0 < c.intervalMs ∧ ∃ series, c.shown = some series ∧
    (c.panned candles).leftMost ≤ series.firstOpen + kPanBackfillMarginCandles * c.intervalMs

/-- Panning touches nothing but the view, and where it goes near the first candle it
leaves a request in flight. -/
theorem panByCandles_inFlight (hb : c.backfillRequest = true)
    (hf : ∀ s, c.shown = some s → 0 < s.firstOpen) (candles : Int) :
    ∃ view flag awaited request, c.panByCandles candles =
      ({ c with view := view, backfillInFlight := flag, awaitedFirstOpen := awaited }, request) ∧
    (flag = false ↔ c.backfillInFlight = false ∧ ¬ c.PansToStart candles) ∧
    (flag = c.backfillInFlight ∧ awaited = c.awaitedFirstOpen ∨
      ∃ series, c.shown = some series ∧ awaited < series.firstOpen) := by
  obtain ⟨hno, e⟩ | ⟨⟨hc, hs, hi⟩, e⟩ := panByCandles_cases c candles
  · refine ⟨c.view, c.backfillInFlight, c.awaitedFirstOpen, none, e, ?_, .inl ⟨rfl, rfl⟩⟩
    rw [iff_self_and]
    rintro - ⟨hc, hi, series, hs, -⟩
    rcases hno with h | h | h
    · exact hc h
    · rw [hs] at h
      cases h
    · omega
  · obtain ⟨series, hs⟩ := Option.ne_none_iff_exists'.mp hs
    obtain ⟨view, ev⟩ := clampToSeries_eq (c.moved c.view.candlesVisible
      (c.view.rightmostOpenTime - candles * c.intervalMs))
    have hser : (c.panned candles).series = c.series := by rw [ChartController.panned, ev]; rfl
    have hb' : (c.panned candles).backfillRequest = true := by
      rw [ChartController.panned, ev]
      exact hb
    have hs' : (c.panned candles).shown = some series := (shown_congr hser).trans hs
    have hi' := intervalMs_congr hser
    have near : c.PansToStart candles ↔ (c.panned candles).leftMost ≤
        series.firstOpen + kPanBackfillMarginCandles * c.intervalMs := by
      constructor
      · rintro ⟨-, -, s, hs₁, hle⟩
        rwa [Option.some.inj (hs.symm.trans hs₁)]
      · exact fun hle => ⟨hc, hi, series, hs, hle⟩
    have ep : c.panned candles = { c with view := view } := ev
    have hpan : c.panByCandles candles = (c.panned candles).maybeRequestBackfill := e
    rw [near, hpan]
    rw [← hi'] at hi ⊢
    rcases maybeRequestBackfill_of_shown hs' hi hb' (hf series hs) with
      ⟨hfar, e'⟩ | ⟨hnear, ⟨hflag, e'⟩ | ⟨start, hstart, e'⟩⟩ <;> rw [e']
    · refine ⟨view, c.backfillInFlight, c.awaitedFirstOpen, none, by rw [ep], ?_, .inl ⟨rfl, rfl⟩⟩
      rw [iff_self_and]
      exact fun _ => not_le.mpr hfar
    · have hflag : c.backfillInFlight = true := by rw [ep] at hflag; exact hflag
      refine ⟨view, c.backfillInFlight, c.awaitedFirstOpen, none, by rw [ep], ?_, .inl ⟨rfl, rfl⟩⟩
      simp [hflag]
    · refine ⟨view, true, start, _, by rw [ep], ?_, .inr ⟨series, hs, hstart⟩⟩
      simp [hnear]

/-- Zooming touches nothing but the view. -/
theorem onZoomWheel_view (c : ChartController) (wheelDelta : Int) (mouseX : Rat) (canvasX : Nat) :
    ∃ view, c.onZoomWheel wheelDelta mouseX canvasX = { c with view := view } := by
  obtain e | ⟨_, newCandles, rightmost, -, -, -, e⟩ :=
    onZoomWheel_cases c wheelDelta mouseX canvasX
  · exact ⟨c.view, e⟩
  · obtain ⟨view, e'⟩ := clampToSeries_eq (c.moved newCandles rightmost)
    exact ⟨view, e.trans e'⟩

theorem setVisibleLimits_view (c : ChartController) (minBars maxBars : Nat) :
    ∃ view least most, c.setVisibleLimits minBars maxBars =
      { c with view := view, minBars := least, maxBars := most } :=
  have ⟨view, e⟩ := clampToSeries_eq _
  ⟨view, _, _, e⟩

/-- A series that starts no earlier than the one known answers no request. -/
theorem setSeries_keeps (hne : series.data ≠ []) (h : c.backfillInFlight = true →
    0 < c.lastKnownFirstOpen ∧ c.lastKnownFirstOpen ≤ series.firstOpen ∧
      c.awaitedFirstOpen < c.lastKnownFirstOpen) :
    ∃ view awaited, c.setSeries (some series) =
      { c with
        series := some series, view := view, initialized := true
        lastSeriesLastOpen := series.lastOpen, awaitedFirstOpen := awaited
        lastKnownFirstOpen := series.firstOpen } ∧
      (c.backfillInFlight = true → awaited < series.firstOpen) := by
  obtain ⟨_, awaited, e, -, -, hawaited⟩ := setSeries_eq (c := c) hne
  obtain ⟨view, e'⟩ := clampToSeries_eq _
  refine ⟨view, awaited, ?_, fun hf => ?_⟩
  · -- None of the three conditions under which `setSeries` clears the flag holds.
    have hflag : (c.backfillInFlight && !(c.lastKnownFirstOpen = 0 ||
        series.firstOpen < c.lastKnownFirstOpen) && !(series.firstOpen ≤ c.awaitedFirstOpen)) =
        c.backfillInFlight := by
      cases hf : c.backfillInFlight with
      | false => rfl
      | true =>
        have := h hf
        simp only [Bool.true_and, Bool.and_eq_true, Bool.not_eq_true', Bool.or_eq_false_iff,
          decide_eq_false_iff_not]
        omega
    rw [e, e', hflag]
  · have := h hf
    rw [hawaited (by omega)]
    omega

/-! ## The composition -/

structure Ui where
  chart : ChartController
  threads : Threads

/-- A step of the orchestrator, a call of the user, or the delivery of the series in
the cache. -/
inductive UiEvent
  | threads (e : ThreadEvent)
  | panByCandles (candles : Int)
  | onZoomWheel (wheelDelta : Int) (mouseX : Rat) (canvasX : Nat)
  | setVisibleLimits (minBars maxBars : Nat)
  | deliver
  deriving DecidableEq, Repr

/-- The chart runs in the owner's thread. -/
def Ui.step [TimeUtils] (sort : StdSort) (cfg : ThreadsConfig) (s : Ui) : UiEvent → Option Ui
  | .threads e => (s.threads.step sort cfg e).map fun threads => { s with threads := threads }
  | .panByCandles candles =>
    if s.threads.owner ≠ .idle then none
    else
      let (chart, request) := s.chart.panByCandles candles
      match request with
      | none => some { s with chart := chart }
      | some (startOpen, candles) =>
        (s.threads.step sort cfg (.requestBackfillOlder startOpen candles)).map fun threads =>
          { chart := chart, threads := threads }
  | .onZoomWheel wheelDelta mouseX canvasX =>
    if s.threads.owner ≠ .idle then none
    else some { s with chart := s.chart.onZoomWheel wheelDelta mouseX canvasX }
  | .setVisibleLimits minBars maxBars =>
    if s.threads.owner ≠ .idle then none
    else some { s with chart := s.chart.setVisibleLimits minBars maxBars }
  | .deliver =>
    if s.threads.owner ≠ .idle then none
    else some { s with chart := s.chart.setSeries s.threads.pub.published.getLast? }

/-- A new chart over an orchestrator that was not started yet. -/
def Ui.init (view : Viewport) (repo : Repository) : Ui :=
  { chart := .construct view, threads := .init repo }

/-- The event is no pan to the start of the series. -/
def Ui.StaysInside (s : Ui) (e : UiEvent) : Prop :=
  ∀ candles, e = .panByCandles candles → ¬ s.chart.PansToStart candles

/-! ## The invariant -/

/-- The chart holds a published series, and what it awaits lies before it. -/
structure Ui.Ok (cfg : ThreadsConfig) [TimeUtils] (repo : Repository) (s : Ui) : Prop where
  reaches : PubReaches cfg { repo := repo } s.threads.pub
  callback : s.chart.backfillRequest = true
  held : ∀ series, s.chart.series = some series → series ∈ s.threads.pub.published ∧
    (series.data ≠ [] → s.chart.lastKnownFirstOpen = series.firstOpen)
  inFlight : s.chart.backfillInFlight = true → ∃ series, s.chart.shown = some series ∧
    s.chart.awaitedFirstOpen < series.firstOpen

variable [TimeUtils] {cfg : ThreadsConfig} {repo : Repository} {s s' : Ui}

omit [ViewportMaths] in
theorem PubReaches.published_prefix {pub pub' : Publishing ThreadId} (h : PubReaches cfg pub pub') :
    pub.published <+: pub'.published := by
  obtain ⟨es, hr⟩ := h
  refine run_induction (P := fun _ p => pub.published <+: p.published) List.prefix_rfl ?_ hr
  exact fun _ _ _ _ _ hp hs => hp.trans (step_published hs)

omit [ViewportMaths] in
/-- The published series never move back, and start after time 0. -/
theorem PubReaches.published (hrepo : repo.Contiguous) {pub : Publishing ThreadId}
    (h : PubReaches cfg { repo := repo } pub) :
    pub.published.Pairwise Advances ∧ ∀ p ∈ pub.published, p.data ≠ [] → 0 < p.firstOpen := by
  obtain ⟨es, hr⟩ := h
  have hinit : Publishing.Initial ({ repo := repo } : Publishing ThreadId) :=
    ⟨hrepo, rfl, fun _ => rfl, rfl⟩
  refine ⟨(run_ok hinit hr).ordered, fun p hp hne => ?_⟩
  obtain ⟨i, hi⟩ := List.mem_iff_getElem?.mp hp
  obtain ⟨-, ⟨es₁, -, r, -, -, hrun, -, -, -, -, rfl⟩, -⟩ := (run_readAt hinit hr).published i p hi
  exact getLatest_firstOpen_pos (run_ok hinit hrun).contiguous hne

omit [ViewportMaths] [TimeUtils] in
theorem advances_getLast {l : List CandleSeries} (h : l.Pairwise Advances) {series old : CandleSeries}
    (hlast : l.getLast? = some series) (hold : old ∈ l) : Advances old series := by
  rw [← List.dropLast_append_getLast? series hlast] at h hold
  rcases List.mem_append.mp hold with hold | hold
  · exact (List.pairwise_append.mp h).2.2 old hold series (List.mem_singleton_self _)
  · rw [List.mem_singleton.mp hold]
    exact .refl _

omit [ViewportMaths] in
/-- Another view, or more published, changes nothing. -/
theorem Ui.Ok.of_view (h : s.Ok cfg repo) {chart : ChartController} {threads : Threads}
    (hr : PubReaches cfg s.threads.pub threads.pub) (hseries : chart.series = s.chart.series)
    (hcallback : chart.backfillRequest = s.chart.backfillRequest)
    (hlast : chart.lastKnownFirstOpen = s.chart.lastKnownFirstOpen)
    (hflight : chart.backfillInFlight = true → ∃ series, chart.shown = some series ∧
      chart.awaitedFirstOpen < series.firstOpen) :
    Ui.Ok cfg repo { chart := chart, threads := threads } := by
  refine ⟨h.reaches.trans hr, hcallback.trans h.callback, fun series hs => ?_, hflight⟩
  obtain ⟨hm, hk⟩ := h.held series (hseries ▸ hs)
  exact ⟨hr.published_prefix.subset hm, fun hne => hlast.trans (hk hne)⟩

theorem pan_ok {sort : StdSort} (hrepo : repo.Contiguous) (h : s.Ok cfg repo) {candles : Int}
    (hs : s.step sort cfg (.panByCandles candles) = some s') :
    s'.Ok cfg repo ∧ (s'.chart.backfillInFlight = false ↔
      s.chart.backfillInFlight = false ∧ ¬ s.chart.PansToStart candles) := by
  have hpos : ∀ series, s.chart.shown = some series → 0 < series.firstOpen := by
    intro series hshown
    obtain ⟨hser, hne⟩ := Option.filter_eq_some_iff.mp hshown
    exact (h.reaches.published hrepo).2 series (h.held series hser).1 (by simpa using hne)
  obtain ⟨view, flag, awaited, request, e, hflag, hcases⟩ :=
    panByCandles_inFlight h.callback hpos candles
  have hflight : flag = true → ∃ series,
      { s.chart with view := view, backfillInFlight := flag, awaitedFirstOpen := awaited }.shown =
        some series ∧ awaited < series.firstOpen := by
    intro hf
    rcases hcases with ⟨rfl, rfl⟩ | hrequest
    · exact h.inFlight hf
    · exact hrequest
  rw [Ui.step] at hs
  split_ifs at hs
  rw [e] at hs
  dsimp only at hs
  split at hs
  · obtain rfl := Option.some.inj hs
    exact ⟨h.of_view (.refl _) rfl rfl rfl hflight, hflag⟩
  · obtain ⟨threads, ht, rfl⟩ := Option.map_eq_some_iff.mp hs
    exact ⟨h.of_view (step_publishing ht) rfl rfl rfl hflight, hflag⟩

/-- The series in the cache is not older than the one the chart holds, so it answers
no request. -/
theorem deliver_ok {sort : StdSort} (hrepo : repo.Contiguous) (h : s.Ok cfg repo)
    (hs : s.step sort cfg .deliver = some s') :
    s'.Ok cfg repo ∧ s'.chart.backfillInFlight = s.chart.backfillInFlight := by
  obtain ⟨hordered, hpos⟩ := h.reaches.published hrepo
  rw [Ui.step] at hs
  split_ifs at hs
  obtain rfl := Option.some.inj hs
  -- What a request in flight says of the series the chart holds.
  have hold : s.chart.backfillInFlight = true → ∃ old ∈ s.threads.pub.published, old.data ≠ [] ∧
      s.chart.lastKnownFirstOpen = old.firstOpen ∧ s.chart.awaitedFirstOpen < old.firstOpen := by
    intro hf
    obtain ⟨old, hshown, hlt⟩ := h.inFlight hf
    obtain ⟨hser, hne⟩ := Option.filter_eq_some_iff.mp hshown
    have hne : old.data ≠ [] := by simpa using hne
    exact ⟨old, (h.held old hser).1, hne, (h.held old hser).2 hne, hlt⟩
  cases hlast : s.threads.pub.published.getLast? with
  | none =>
    have hnil := List.getLast?_eq_none_iff.mp hlast
    have hf : s.chart.backfillInFlight = false := by
      by_contra hf
      obtain ⟨old, hm, -⟩ := hold (Bool.not_eq_false _ ▸ hf)
      rw [hnil] at hm
      cases hm
    exact ⟨⟨h.reaches, h.callback, nofun, nofun⟩, hf.symm⟩
  | some series =>
    have hmem : series ∈ s.threads.pub.published := List.mem_of_getLast? hlast
    have hadv : ∀ old ∈ s.threads.pub.published, Advances old series :=
      fun _ => advances_getLast hordered hlast
    by_cases hne : series.data = []
    · have hf : s.chart.backfillInFlight = false := by
        by_contra hf
        obtain ⟨old, hm, hold, -⟩ := hold (Bool.not_eq_false _ ▸ hf)
        exact ((hadv old hm).firstOpen hold).1 hne
      rw [setSeries_empty hne, hf]
      refine ⟨⟨h.reaches, h.callback, fun p hp => ?_, nofun⟩, rfl⟩
      obtain rfl := Option.some.inj hp
      exact ⟨hmem, fun hp => absurd hne hp⟩
    · have hkeep : s.chart.backfillInFlight = true → 0 < s.chart.lastKnownFirstOpen ∧
          s.chart.lastKnownFirstOpen ≤ series.firstOpen ∧
          s.chart.awaitedFirstOpen < s.chart.lastKnownFirstOpen := by
        intro hf
        obtain ⟨old, hm, hold, hlast, hlt⟩ := hold hf
        rw [hlast]
        exact ⟨hpos old hm hold, ((hadv old hm).firstOpen hold).2, hlt⟩
      obtain ⟨view, awaited, e, hawaited⟩ := setSeries_keeps hne hkeep
      rw [e]
      refine ⟨⟨h.reaches, h.callback, fun p hp => ?_, fun hf => ⟨series, ?_, hawaited hf⟩⟩, rfl⟩
      · obtain rfl := Option.some.inj hp
        exact ⟨hmem, fun _ => rfl⟩
      · rw [ChartController.shown, Option.filter_some, if_pos]
        simpa using hne

/-- A step leaves the flag clear if it was clear and the step is no pan to the start. -/
theorem ui_ok {sort : StdSort} (hrepo : repo.Contiguous) (h : s.Ok cfg repo) {e : UiEvent}
    (hs : s.step sort cfg e = some s') :
    s'.Ok cfg repo ∧ (s'.chart.backfillInFlight = false ↔
      s.chart.backfillInFlight = false ∧ s.StaysInside e) := by
  cases e with
  | threads e =>
    obtain ⟨threads, ht, rfl⟩ := Option.map_eq_some_iff.mp hs
    refine ⟨h.of_view (step_publishing ht) rfl rfl rfl h.inFlight, ?_⟩
    exact ⟨fun hf => ⟨hf, nofun⟩, And.left⟩
  | panByCandles candles =>
    obtain ⟨hok, hf⟩ := pan_ok hrepo h hs
    refine ⟨hok, hf.trans (and_congr_right fun _ => ?_)⟩
    exact ⟨fun hn m hm => UiEvent.panByCandles.inj hm ▸ hn, fun hn => hn candles rfl⟩
  | onZoomWheel wheelDelta mouseX canvasX =>
    rw [Ui.step] at hs
    split_ifs at hs
    obtain rfl := Option.some.inj hs
    obtain ⟨view, e'⟩ := onZoomWheel_view s.chart wheelDelta mouseX canvasX
    rw [e']
    exact ⟨h.of_view (.refl _) rfl rfl rfl h.inFlight, fun hf => ⟨hf, nofun⟩, And.left⟩
  | setVisibleLimits minBars maxBars =>
    rw [Ui.step] at hs
    split_ifs at hs
    obtain rfl := Option.some.inj hs
    obtain ⟨view, least, most, e'⟩ := setVisibleLimits_view s.chart minBars maxBars
    rw [e']
    exact ⟨h.of_view (.refl _) rfl rfl rfl h.inFlight, fun hf => ⟨hf, nofun⟩, And.left⟩
  | deliver =>
    obtain ⟨hok, hf⟩ := deliver_ok hrepo h hs
    exact ⟨hok, by rw [hf]; exact ⟨fun hf => ⟨hf, nofun⟩, And.left⟩⟩

omit [ViewportMaths] in
theorem ui_init_ok (view : Viewport) (repo : Repository) :
    (Ui.init view repo).Ok cfg repo :=
  ⟨.refl _, rfl, nofun, nofun⟩

end

/-- In every state of every run the flag is clear exactly when no pan so far went to
the start of the series: a request is never answered. -/
theorem inFlight_iff [ViewportMaths] [TimeUtils] (sort : StdSort) (cfg : ThreadsConfig)
    (view : Viewport) (repo : Repository) (hrepo : repo.Contiguous) (es : List UiEvent) (s : Ui)
    (hrun : run (Ui.step sort cfg) (Ui.init view repo) es = some s) :
    s.chart.backfillInFlight = false ↔
      Along (Ui.step sort cfg) Ui.StaysInside (Ui.init view repo) es := by
  have hok : s.Ok cfg repo ∧ (s.chart.backfillInFlight = false ↔
      Along (Ui.step sort cfg) Ui.StaysInside (Ui.init view repo) es) := by
    refine run_induction (P := fun es s => s.Ok cfg repo ∧ (s.chart.backfillInFlight = false ↔
      Along (Ui.step sort cfg) Ui.StaysInside (Ui.init view repo) es)) ?_ ?_ hrun
    · exact ⟨ui_init_ok view repo, fun _ => trivial, fun _ => rfl⟩
    · intro es e t u hrun ⟨hok, hf⟩ hs
      obtain ⟨hok', hf'⟩ := ui_ok hrepo hok hs
      exact ⟨hok', by rw [along_concat hrun, ← hf, hf']⟩
  exact hok.2

def oneCandle : Repository :=
  ((Repository.construct .insertion {} ['B'] ⟨60000⟩).appendOrReplace (flatCandle 600000 true)).2

/-- The worker finds nothing to fetch, publishes the candle and goes live. -/
def liveSteps : List UiEvent :=
  [.threads .start, .threads .owner] ++ List.replicate 13 (.threads (.worker [] 660000 false))

theorem oneCandle_contiguous : oneCandle.Contiguous :=
  (construct_contiguous .insertion rfl ['B'] (by decide)).appendOrReplace _

theorem inFlight_iff_pan :
    ∃ s, run (Ui.step .insertion {}) (Ui.init ⟨0, 0, 0, 0⟩ oneCandle)
        (liveSteps ++ [.deliver, .panByCandles 0]) = some s ∧
      s.chart.backfillInFlight = false ∧
      Along (Ui.step .insertion {}) Ui.StaysInside (Ui.init ⟨0, 0, 0, 0⟩ oneCandle)
        (liveSteps ++ [.deliver, .panByCandles 0]) := by
  have hmap : (run (Ui.step .insertion {}) (Ui.init ⟨0, 0, 0, 0⟩ oneCandle)
      (liveSteps ++ [.deliver, .panByCandles 0])).map (·.chart.backfillInFlight) = some false := by
    decide +kernel
  obtain ⟨s, hrun, hf⟩ := Option.map_eq_some_iff.mp hmap
  exact ⟨s, hrun, hf, (inFlight_iff _ _ _ _ oneCandle_contiguous _ s hrun).mp hf⟩

/-- The request is ignored, as `backfilling_` is set through the live phase. No thread
pages, the chart holds the last published series, and its next request waits for the
ignored one. -/
theorem inFlight_wedged :
    ∃ s, run (Ui.step .insertion {}) (Ui.init ⟨0, 0, 0, 0⟩ oneCandle)
        (liveSteps ++ [.deliver, .panByCandles 1, .threads .owner, .threads .owner]) = some s ∧
      s.threads.paging = [] ∧ s.threads.pagingBackfill = false ∧ s.threads.owner = .idle ∧
      s.chart.series = s.threads.pub.published.getLast? ∧ s.chart.backfillInFlight = true ∧
      (s.chart.panByCandles 1).2 = none := by
  have hmap : (run (Ui.step .insertion {}) (Ui.init ⟨0, 0, 0, 0⟩ oneCandle)
      (liveSteps ++ [.deliver, .panByCandles 1, .threads .owner, .threads .owner])).map
      (fun s => decide (s.threads.paging = [] ∧ s.threads.pagingBackfill = false ∧
        s.threads.owner = .idle ∧ s.chart.series = s.threads.pub.published.getLast? ∧
        s.chart.backfillInFlight = true ∧ (s.chart.panByCandles 1).2 = none)) = some true := by
    decide +kernel
  obtain ⟨s, hrun, h⟩ := Option.map_eq_some_iff.mp hmap
  exact ⟨s, hrun, of_decide_eq_true h⟩

end TCV.App
