import TradingChartViewer.App.Dragging
import TradingChartViewer.Lib.Run
import TradingChartViewer.Lib.Versioned

/-!
# Frames

`Application::enqueueCandleRender` in the thread of the window, while other
threads update the series cache and announce it. A frame reads the version of
the cache, then its series, then the flag that an update was announced, and
falls back on the repository while there is no series.

`core/SeriesCache.h` is not among the sources: of the cache the model has that
every update gives it a greater version.

* `Frames.step`: one access of a thread to what the threads share;
* `Frames.Shows`, `Frames.Fresh`: the invariants; `step_shows`, `step_fresh`;
* `frames_fit`: every frame gets the view of the series that it draws;
* `frames_current`: no update is lost, and no frame goes back.
-/

namespace TCV.App

open TCV.Domain Lib.Grid Lib.Run Lib.Versioned

def kMaxFetchCandles : Nat := 2000

/-- A series with candles. -/
def filled (series : Option CandleSeries) : Option CandleSeries :=
  series.filter fun s => !s.data.isEmpty

/-- What a frame was built from: the version of the cache and its content when
the frame began, the series that the frame took from the cache, the one it
draws, and the controller with the view. -/
structure Frame where
  version : Nat
  held : Option CandleSeries
  cacheSeries : Option CandleSeries
  series : Option CandleSeries
  chart : ChartController

/-- What `enqueueCandleRender` does next: read the version, the series, the flag,
or the repository. -/
inductive FramePc
  | version
  | snapshot (version : Nat) (held : Option CandleSeries)
  | select (version : Nat) (held cacheSeries : Option CandleSeries)
  | draw (version : Nat) (held cacheSeries : Option CandleSeries)

structure Frames where
  seriesCache : Cell (Option CandleSeries)
  input : ChartInput
  pendingSeriesUpdate : Bool := false
  lastSeries : Option CandleSeries := none
  lastSeriesVersion : Nat := 0
  pc : FramePc := .version
  frames : List Frame := []

/-- A thread updates the cache, or the event bus announces an update; the user
does something; the window's thread goes on with a frame. The repository has
`repoCount` candles, and answers with `latest`, unless it fails. -/
inductive FrameEvent
  | update (version : Nat) (series : Option CandleSeries)
  | seriesUpdated
  | user (a : InputCall)
  | frame
  | draw (repoCount : Nat) (latest : Nat → Option CandleSeries)

/-- The calls that events of the window make. -/
def InputCall.byUser : InputCall → Bool
  | .setSeries _ => false
  | .setVisibleLimits _ _ => false
  | .attachWindow _ => false
  | _ => true

/-- The series of the repository, for a frame without one. -/
def fallbackSeries (repoCount : Nat) (latest : Nat → Option CandleSeries) : Option CandleSeries :=
  if 0 < repoCount then filled (latest (min repoCount kMaxFetchCandles)) else none

section

variable [ViewportMaths]

/-- The constructor of `Application`. -/
def Frames.start (seriesCache : Cell (Option CandleSeries)) (view : Viewport)
    (size : Nat × Nat) : Frames where
  seriesCache := seriesCache
  input := ((ChartInput.construct view).run
    [.attachWindow (some size), .setVisibleLimits 30 5000]).1

/-- The controller and the frames get a series. -/
def Frames.setSeries (s : Frames) (series : Option CandleSeries) (version : Nat) : Frames :=
  { s with
    input := (s.input.setSeries series).1, lastSeries := series, lastSeriesVersion := version }

def Frames.select (s : Frames) (version : Nat) (cacheSeries : Option CandleSeries) : Frames :=
  let eventTriggered := s.pendingSeriesUpdate
  let s := { s with pendingSeriesUpdate := false }
  let cacheChanged := (filled cacheSeries).isSome && version ≠ s.lastSeriesVersion
  if (filled cacheSeries).isSome && (cacheChanged || eventTriggered || s.lastSeries.isNone) then
    s.setSeries cacheSeries version
  else if (filled cacheSeries).isNone && eventTriggered then s.setSeries none 0
  else s

def Frames.draw (s : Frames) (version : Nat) (held cacheSeries : Option CandleSeries)
    (repoCount : Nat) (latest : Nat → Option CandleSeries) : Frames :=
  let renderSeries :=
    if (filled s.lastSeries).isNone && (filled cacheSeries).isSome then cacheSeries
    else s.lastSeries
  let fallback := if (filled renderSeries).isNone then fallbackSeries repoCount latest else none
  let renderSeries := fallback.or renderSeries
  let s := if fallback.isSome then s.setSeries fallback version else s
  { s with frames := ⟨version, held, cacheSeries, filled renderSeries, s.input.chart⟩ :: s.frames }

def Frames.step (s : Frames) : FrameEvent → Option Frames
  | .update version series =>
    if h : s.seriesCache.version < version then
      some { s with seriesCache := s.seriesCache.update version series h }
    else none
  | .seriesUpdated => some { s with pendingSeriesUpdate := true }
  | .user a =>
    match s.pc with
    | .version => if a.byUser then some { s with input := (s.input.handle a).1 } else none
    | _ => none
  | .frame =>
    match s.pc with
    | .version =>
      some { s with pc := .snapshot s.seriesCache.version s.seriesCache.content }
    | .snapshot version held =>
      some { s with pc := .select version held s.seriesCache.content }
    | .select version held cacheSeries =>
      some { s.select version cacheSeries with pc := .draw version held cacheSeries }
    | .draw .. => none
  | .draw repoCount latest =>
    match s.pc with
    | .draw version held cacheSeries =>
      some { s.draw version held cacheSeries repoCount latest with pc := .version }
    | _ => none

end

/-! ## Series and views -/

section Shows

variable {I : Int}

@[simp] theorem filled_filled (series : Option CandleSeries) :
    filled (filled series) = filled series := by
  rw [filled, filled, Option.filter_filter]
  simp

theorem filled_eq_some {series : Option CandleSeries} (h : (filled series).isSome = true) :
    filled series = series := by
  cases series with
  | none => cases h
  | some series =>
    rw [filled, Option.filter_some] at h ⊢
    split at h
    · rw [if_pos ‹_›]
    · cases h

theorem fallbackSeries_filled (repoCount : Nat) (latest : Nat → Option CandleSeries) :
    filled (fallbackSeries repoCount latest) = fallbackSeries repoCount latest := by
  unfold fallbackSeries
  split
  · exact filled_filled _
  · rfl

/-- A series of the grid, or none. -/
def SeriesOnGrid (I : Int) (series : Option CandleSeries) : Prop :=
  (InputCall.setSeries series).OnGrid I

theorem SeriesOnGrid.filled {series : Option CandleSeries} (h : SeriesOnGrid I series) :
    SeriesOnGrid I (filled series) := by
  cases hs : (App.filled series).isSome with
  | true => rwa [filled_eq_some hs]
  | false =>
    rw [Option.isSome_eq_false_iff, Option.isNone_iff_eq_none] at hs
    rw [hs]
    trivial

theorem ChartController.Placed.fits {c : ChartController} {series : CandleSeries}
    (h : c.Placed I) (hs : c.shown = some series) : c.Holds I series ∧ c.Fits I series := by
  obtain ⟨hnone, -⟩ | ⟨series', h, hf⟩ := h
  · rw [hnone] at hs
    cases hs
  · rw [shown_of_contiguous h.shows h.contiguous] at hs
    cases hs
    exact ⟨h, hf⟩

variable [ViewportMaths] {s t : Frames}

theorem setSeries_series (c : ChartController) (series : Option CandleSeries) :
    (c.setSeries series).series = series := by
  cases series with
  | none => rfl
  | some series =>
    by_cases hd : series.data = []
    · rw [setSeries_empty hd]
    · obtain ⟨_, _, e, -⟩ := setSeries_eq (c := c) hd
      rw [e, clampToSeries_series]

/-- The input keeps the series. -/
theorem setSeries_shown (s : ChartInput) (series : Option CandleSeries) :
    (s.setSeries series).1.chart.shown = filled series := by
  have e : (s.setSeries series).1.chart = s.chart.setSeries series := by
    unfold ChartInput.setSeries
    dsimp only
    split <;> rfl
  rw [e, ChartController.shown, setSeries_series]
  rfl

theorem onMouseMoved_series (s : ChartInput) (x : Rat) :
    (s.onMouseMoved x).1.chart.series = s.chart.series := by
  unfold ChartInput.onMouseMoved
  split
  · rfl
  · rename_i size _
    dsimp only
    split
    · rfl
    · split
      · obtain ⟨-, e⟩ | ⟨total, -, e⟩ := onPanPixels_cases s (clamp x 0 (size.1 : Rat) - s.lastPanX)
        · rw [e]
        · rw [e]
          exact panByCandles_series s.chart _
      · rfl

theorem onKeyPressed_series (s : ChartInput) (key : Key) (fast : Bool) :
    (s.onKeyPressed key fast).1.chart.series = s.chart.series := by
  unfold ChartInput.onKeyPressed
  split
  · rfl
  · cases key with
    | left => exact panByCandles_series s.chart _
    | right => exact panByCandles_series s.chart _
    | add | subtract =>
      dsimp only
      split
      · rfl
      · exact onZoomWheel_series ..
    | other => rfl

/-- What the user does keeps the series. -/
theorem handle_series (s : ChartInput) {a : InputCall} (ha : a.byUser = true) :
    (s.handle a).1.chart.series = s.chart.series := by
  cases a with
  | setSeries series => cases ha
  | setVisibleLimits minBars maxBars => cases ha
  | attachWindow size => cases ha
  | mouseWheelScrolled vertical delta x y =>
    dsimp only [ChartInput.handle]
    split
    · rfl
    · split
      · exact onZoomWheel_series ..
      · rfl
  | mouseButtonPressed button x y =>
    dsimp only [ChartInput.handle, ChartInput.onMouseButtonPressed]
    split
    · rfl
    · split <;> rfl
  | mouseButtonReleased button =>
    dsimp only [ChartInput.handle, ChartInput.onMouseButtonReleased]
    split <;> rfl
  | mouseMoved x y => exact onMouseMoved_series s x
  | keyPressed key fast => exact onKeyPressed_series s key fast
  | resized size => rfl

def FrameEvent.OnGrid (I : Int) : FrameEvent → Prop
  | .update _ series => SeriesOnGrid I series
  | .draw _ latest => ∀ n, SeriesOnGrid I (latest n)
  | _ => True

/-- What the frame has taken from the cache is drawn, unless there are no
candles in it. -/
def FramePc.Taken (I : Int) (lastSeries : Option CandleSeries) : FramePc → Prop
  | .select _ _ cacheSeries => SeriesOnGrid I cacheSeries
  | .draw _ _ cacheSeries => (filled cacheSeries).isSome = true → lastSeries.isSome = true
  | _ => True

/-- The controller shows the series of the frames. -/
structure Frames.Shows (I : Int) (s : Frames) : Prop where
  steady : s.input.Steady I
  shown : s.input.chart.shown = s.lastSeries
  cache : SeriesOnGrid I s.seriesCache.content
  taken : s.pc.Taken I s.lastSeries
  drawn : ∀ f ∈ s.frames, f.chart.shown = f.series ∧ f.chart.Placed I

/-- The frame gets a series of the grid. -/
theorem Frames.setSeries_shows (hI : 0 < I) (h : s.input.Steady I) {series : Option CandleSeries}
    (hs : SeriesOnGrid I series) (hfilled : filled series = series) (version : Nat) :
    (s.setSeries series version).input.Steady I ∧
      (s.setSeries series version).input.chart.shown = (s.setSeries series version).lastSeries :=
  ⟨handle_steady hI h (a := .setSeries series) hs,
    (setSeries_shown s.input series).trans hfilled⟩

theorem select_shows (hI : 0 < I) (h : s.Shows I) (version : Nat) {cacheSeries}
    (hcache : SeriesOnGrid I cacheSeries) :
    (s.select version cacheSeries).input.Steady I ∧
      (s.select version cacheSeries).input.chart.shown =
        (s.select version cacheSeries).lastSeries ∧
      ((filled cacheSeries).isSome = true →
        (s.select version cacheSeries).lastSeries.isSome = true) ∧
      (s.select version cacheSeries).seriesCache = s.seriesCache ∧
      (s.select version cacheSeries).frames = s.frames := by
  unfold Frames.select
  dsimp only
  split
  · rename_i hc
    rw [Bool.and_eq_true] at hc
    have hfilled := filled_eq_some hc.1
    obtain ⟨hsteady, hshown⟩ := Frames.setSeries_shows
      (s := { s with pendingSeriesUpdate := false }) hI h.steady hcache hfilled version
    refine ⟨hsteady, hshown, fun _ => ?_, rfl, rfl⟩
    rw [← hfilled]
    exact hc.1
  · rename_i hc
    split
    · rename_i he
      rw [Bool.and_eq_true, Option.isNone_iff_eq_none] at he
      have hnone : SeriesOnGrid I none := trivial
      obtain ⟨hsteady, hshown⟩ := Frames.setSeries_shows
        (s := { s with pendingSeriesUpdate := false }) hI h.steady hnone rfl 0
      refine ⟨hsteady, hshown, fun hsome => ?_, rfl, rfl⟩
      rw [he.1] at hsome
      cases hsome
    · refine ⟨h.steady, h.shown, fun hsome => ?_, rfl, rfl⟩
      rw [hsome, Bool.true_and, Bool.or_eq_true, not_or] at hc
      exact Option.isSome_iff_ne_none.mpr (by simpa using hc.2)

/-- The frame draws the series of the controller, or the repository's if there
is none. -/
theorem draw_cases (hlast : filled s.lastSeries = s.lastSeries)
    {cacheSeries : Option CandleSeries}
    (hcache : (filled cacheSeries).isSome = true → s.lastSeries.isSome = true) (version : Nat)
    (held : Option CandleSeries) (repoCount : Nat) (latest : Nat → Option CandleSeries) :
    s.draw version held cacheSeries repoCount latest =
      { s with frames := ⟨version, held, cacheSeries, s.lastSeries, s.input.chart⟩ :: s.frames } ∨
    s.lastSeries = none ∧ ∃ series, fallbackSeries repoCount latest = some series ∧
      s.draw version held cacheSeries repoCount latest =
        { s.setSeries (some series) version with
          frames := ⟨version, held, cacheSeries, some series,
            (s.input.setSeries (some series)).1.chart⟩ :: s.frames } := by
  have hrender : (if s.lastSeries.isNone && (filled cacheSeries).isSome then cacheSeries
      else s.lastSeries) = s.lastSeries := by
    rw [if_neg]
    rw [Bool.and_eq_true, Option.isNone_iff_eq_none]
    rintro ⟨hnone, hsome⟩
    have := hcache hsome
    rw [hnone] at this
    cases this
  have hfilled := fallbackSeries_filled repoCount latest
  unfold Frames.draw
  rw [hlast, hrender]
  dsimp only
  rw [hlast]
  cases hnone : s.lastSeries with
  | some series =>
    left
    rw [hnone] at hlast
    simp only [Option.isNone_some, Bool.false_eq_true, if_false, Option.isSome_none,
      Option.none_or, hlast, hnone]
  | none =>
    simp only [Option.isNone_none, if_true]
    cases hsome : fallbackSeries repoCount latest with
    | none =>
      left
      simp only [Option.isSome_none, Bool.false_eq_true, if_false, hnone]
      rfl
    | some series =>
      rw [hsome] at hfilled
      refine .inr ⟨trivial, series, rfl, ?_⟩
      simp only [Option.isSome_some, if_true, Option.some_or, hfilled]
      rfl

theorem draw_shows (hI : 0 < I) (h : s.Shows I) (version : Nat)
    (held : Option CandleSeries) {cacheSeries : Option CandleSeries}
    (hcache : (filled cacheSeries).isSome = true → s.lastSeries.isSome = true) {repoCount : Nat}
    {latest : Nat → Option CandleSeries} (hlatest : ∀ n, SeriesOnGrid I (latest n)) :
    { s.draw version held cacheSeries repoCount latest with pc := .version }.Shows I := by
  have hlast : filled s.lastSeries = s.lastSeries := by
    rw [← h.shown]
    exact filled_filled _
  obtain e | ⟨-, series, hseries, e⟩ :=
    draw_cases hlast hcache version held repoCount latest
  · rw [e]
    exact ⟨h.steady, h.shown, h.cache, trivial, List.forall_mem_cons.mpr
      ⟨⟨h.shown, h.steady.placed⟩, h.drawn⟩⟩
  · have hgrid : SeriesOnGrid I (fallbackSeries repoCount latest) := by
      unfold fallbackSeries
      split
      · exact (hlatest _).filled
      · trivial
    have hfilled := fallbackSeries_filled repoCount latest
    rw [hseries] at hgrid hfilled
    obtain ⟨hsteady, hshown⟩ := Frames.setSeries_shows hI h.steady hgrid hfilled version
    rw [e]
    exact ⟨hsteady, hshown, h.cache, trivial, List.forall_mem_cons.mpr
      ⟨⟨hshown, hsteady.placed⟩, h.drawn⟩⟩

theorem step_shows (hI : 0 < I) (h : s.Shows I) {e : FrameEvent} (he : e.OnGrid I)
    (hs : s.step e = some t) : t.Shows I := by
  cases e with
  | update version series =>
    dsimp only [Frames.step] at hs
    split at hs
    · cases hs
      exact ⟨h.steady, h.shown, he, h.taken, h.drawn⟩
    · cases hs
  | seriesUpdated =>
    cases hs
    exact ⟨h.steady, h.shown, h.cache, h.taken, h.drawn⟩
  | user a =>
    dsimp only [Frames.step] at hs
    split at hs
    · split at hs
      · rename_i ha
        cases hs
        refine ⟨handle_steady hI h.steady ?_, ?_, h.cache, h.taken, h.drawn⟩
        · cases a <;> trivial
        · exact (shown_congr (handle_series s.input ha)).trans h.shown
      · cases hs
    · cases hs
  | frame =>
    dsimp only [Frames.step] at hs
    split at hs
    · cases hs
      exact ⟨h.steady, h.shown, h.cache, trivial, h.drawn⟩
    · cases hs
      exact ⟨h.steady, h.shown, h.cache, h.cache, h.drawn⟩
    · rename_i version held cacheSeries hpc
      cases hs
      have htaken := h.taken
      rw [hpc] at htaken
      obtain ⟨hsteady, hshown, hkept, hcache, hframes⟩ := select_shows hI h version htaken
      refine ⟨hsteady, hshown, ?_, hkept, ?_⟩
      · show SeriesOnGrid I (s.select version cacheSeries).seriesCache.content
        rw [hcache]
        exact h.cache
      · show ∀ f ∈ (s.select version cacheSeries).frames, _
        rw [hframes]
        exact h.drawn
    · cases hs
  | draw repoCount latest =>
    dsimp only [Frames.step] at hs
    split at hs
    · rename_i version held cacheSeries hpc
      cases hs
      have htaken := h.taken
      rw [hpc] at htaken
      exact draw_shows hI h version held htaken he
    · cases hs

end Shows

/-! ## Updates and frames -/

/-- The cache had candles when the frame began and when it took the series. -/
def Frame.FromCache (f : Frame) : Prop :=
  (filled f.held).isSome = true ∧ (filled f.cacheSeries).isSome = true

/-- The last version that a series which the frames hold can have. -/
def Frames.heldUpTo (s : Frames) : Nat :=
  match s.pc with
  | .snapshot version _ => version
  | .select version _ _ => version
  | _ => s.seriesCache.version

/-- The last version that a series in an earlier frame can have. -/
def Frames.drawnUpTo (s : Frames) : Nat :=
  match s.pc with
  | .version => s.seriesCache.version
  | .snapshot version _ => version
  | .select version _ _ => version
  | .draw version _ _ => version

/-- What a frame under way knows of the cache. -/
def Frames.Reads (s : Frames) : Prop :=
  match s.pc with
  | .version => True
  | .snapshot version held =>
    version ≤ s.seriesCache.version ∧ s.seriesCache.Within version version held
  | .select version held cacheSeries =>
    version ≤ s.seriesCache.version ∧ s.seriesCache.Within version version held ∧
      s.seriesCache.Since version cacheSeries
  | .draw version held cacheSeries =>
    version ≤ s.seriesCache.version ∧ s.seriesCache.Since version cacheSeries ∧
      ((filled cacheSeries).isSome = true → s.lastSeries.isSome = true ∧
        ((filled held).isSome = true → s.seriesCache.Since version s.lastSeries))

/-- Which versions of the cache the frames have drawn. The series that they hold is
of the version they remember or a later one; one of the repository was taken
while the cache was empty. -/
structure Frames.Fresh (s : Frames) : Prop where
  filled : filled s.lastSeries = s.lastSeries
  last : s.lastSeries.isSome = true →
    s.seriesCache.Within s.lastSeriesVersion s.heldUpTo s.lastSeries ∨
    ∃ series, (App.filled series).isSome = false ∧
      s.seriesCache.Within s.lastSeriesVersion s.heldUpTo series
  reads : s.Reads
  drawn : ∀ f ∈ s.frames, f.FromCache → s.seriesCache.Within f.version s.drawnUpTo f.series
  order : s.frames.Pairwise fun g f =>
    f.FromCache → s.seriesCache.Within f.version g.version f.series

section Fresh

variable {s t : Frames}

theorem drawnUpTo_le (h : s.Reads) : s.drawnUpTo ≤ s.seriesCache.version := by
  unfold Frames.Reads at h
  unfold Frames.drawnUpTo
  split at h
  · exact le_rfl
  · exact h.1
  · exact h.1
  · exact h.1

theorem step_fresh_update (h : s.Fresh) {version : Nat} (series : Option CandleSeries)
    (hv : s.seriesCache.version < version) :
    { s with seriesCache := s.seriesCache.update version series hv }.Fresh := by
  have hheld : s.heldUpTo ≤ Frames.heldUpTo
      { s with seriesCache := s.seriesCache.update version series hv } := by
    unfold Frames.heldUpTo
    dsimp only
    split
    · exact le_rfl
    · exact le_rfl
    · exact hv.le
  have hdrawn : s.drawnUpTo ≤ Frames.drawnUpTo
      { s with seriesCache := s.seriesCache.update version series hv } := by
    unfold Frames.drawnUpTo
    dsimp only
    split
    · exact hv.le
    · exact le_rfl
    · exact le_rfl
    · exact le_rfl
  refine ⟨h.filled, fun hsome => ?_, ?_, fun f hf hc => ?_, ?_⟩
  · exact (h.last hsome).imp (fun hw => (hw.update hv).mono le_rfl hheld) fun ⟨e, he, hw⟩ =>
      ⟨e, he, (hw.update hv).mono le_rfl hheld⟩
  · have hreads := h.reads
    unfold Frames.Reads at hreads ⊢
    dsimp only
    split at hreads
    · trivial
    · exact ⟨hreads.1.trans hv.le, hreads.2.update hv⟩
    · exact ⟨hreads.1.trans hv.le, hreads.2.1.update hv, hreads.2.2.update hv⟩
    · exact ⟨hreads.1.trans hv.le, hreads.2.1.update hv, fun hc =>
        ⟨(hreads.2.2 hc).1, fun hh => ((hreads.2.2 hc).2 hh).update hv⟩⟩
  · exact ((h.drawn f hf hc).update hv).mono le_rfl hdrawn
  · exact h.order.imp fun hw hc => (hw hc).update hv

variable [ViewportMaths]

theorem select_fresh (h : s.Fresh) {version : Nat} {held cacheSeries : Option CandleSeries}
    (hpc : s.pc = .select version held cacheSeries) :
    { s.select version cacheSeries with pc := .draw version held cacheSeries }.Fresh := by
  have hreads := h.reads
  have hlast := h.last
  have hdrawn := h.drawn
  unfold Frames.Reads at hreads
  unfold Frames.heldUpTo at hlast
  unfold Frames.drawnUpTo at hdrawn
  rw [hpc] at hreads hlast hdrawn
  obtain ⟨hv, hheld, htaken⟩ := hreads
  unfold Frames.select
  dsimp only
  split
  · rename_i hc
    rw [Bool.and_eq_true] at hc
    have hfilled := filled_eq_some hc.1
    exact ⟨hfilled, fun _ => .inl htaken, ⟨hv, htaken, fun _ => ⟨hfilled ▸ hc.1, fun _ => htaken⟩⟩,
      hdrawn, h.order⟩
  · rename_i hc
    split
    · rename_i he
      rw [Bool.and_eq_true, Option.isNone_iff_eq_none] at he
      refine ⟨rfl, (fun hsome => nomatch hsome), ⟨hv, htaken, fun hsome => ?_⟩, hdrawn, h.order⟩
      rw [he.1] at hsome
      cases hsome
    · refine ⟨h.filled, fun hsome => ?_, ⟨hv, htaken, fun hsome => ?_⟩, hdrawn, h.order⟩
      · exact (hlast hsome).imp (fun hw => hw.mono le_rfl hv) fun ⟨e, he, hw⟩ =>
          ⟨e, he, hw.mono le_rfl hv⟩
      -- Nothing has changed: the version is the one that is remembered.
      · rw [hsome, Bool.true_and, Bool.true_and, Bool.or_eq_true, Bool.or_eq_true, not_or,
          not_or] at hc
        obtain ⟨⟨hversion, -⟩, hnone⟩ := hc
        have hsome' : s.lastSeries.isSome = true :=
          Option.isSome_iff_ne_none.mpr (by simpa using hnone)
        have hversion : version = s.lastSeriesVersion := by simpa using hversion
        refine ⟨hsome', fun hfilled => ?_⟩
        rw [← hversion] at hlast
        obtain hw | ⟨e, he, hw⟩ := hlast hsome'
        · exact hw.mono le_rfl hv
        · rw [hw.unique hheld, hfilled] at he
          cases he

theorem draw_fresh (h : s.Fresh) {version : Nat} {held cacheSeries : Option CandleSeries}
    (hpc : s.pc = .draw version held cacheSeries) (repoCount : Nat)
    (latest : Nat → Option CandleSeries) :
    { s.draw version held cacheSeries repoCount latest with pc := .version }.Fresh := by
  have hreads := h.reads
  have hlast := h.last
  have hdrawn := h.drawn
  unfold Frames.Reads at hreads
  unfold Frames.heldUpTo at hlast
  unfold Frames.drawnUpTo at hdrawn
  rw [hpc] at hreads hlast hdrawn
  obtain ⟨hv, htaken, hcache⟩ := hreads
  have holder : ∀ f ∈ s.frames, f.FromCache → s.seriesCache.Since f.version f.series :=
    fun f hf hc => (hdrawn f hf hc).mono le_rfl hv
  obtain e | ⟨hnone, series, hseries, e⟩ :=
    draw_cases h.filled (fun hc => (hcache hc).1) version held repoCount latest
  · rw [e]
    exact ⟨h.filled, hlast, trivial,
      List.forall_mem_cons.mpr ⟨fun hc => (hcache hc.2).2 hc.1, holder⟩,
      List.pairwise_cons.mpr ⟨hdrawn, h.order⟩⟩
  · have hfilled := fallbackSeries_filled repoCount latest
    rw [hseries] at hfilled
    have hempty : (filled cacheSeries).isSome ≠ true := fun hc => by
      have := (hcache hc).1
      rw [hnone] at this
      cases this
    rw [e]
    exact ⟨hfilled, fun _ => .inr ⟨cacheSeries, Bool.eq_false_of_not_eq_true hempty, htaken⟩,
      trivial, List.forall_mem_cons.mpr ⟨fun hc => absurd hc.2 hempty, holder⟩,
      List.pairwise_cons.mpr ⟨hdrawn, h.order⟩⟩

theorem step_fresh (h : s.Fresh) {e : FrameEvent} (hs : s.step e = some t) : t.Fresh := by
  cases e with
  | update version series =>
    dsimp only [Frames.step] at hs
    split at hs
    · cases hs
      exact step_fresh_update h series _
    · cases hs
  | seriesUpdated =>
    cases hs
    exact ⟨h.filled, h.last, h.reads, h.drawn, h.order⟩
  | user a =>
    dsimp only [Frames.step] at hs
    split at hs
    · split at hs
      · cases hs
        exact ⟨h.filled, h.last, h.reads, h.drawn, h.order⟩
      · cases hs
    · cases hs
  | frame =>
    have hreads := h.reads
    have hlast := h.last
    have hdrawn := h.drawn
    unfold Frames.Reads at hreads
    unfold Frames.heldUpTo at hlast
    unfold Frames.drawnUpTo at hdrawn
    dsimp only [Frames.step] at hs
    split at hs <;> rename_i hpc <;> cases hs <;> rw [hpc] at hreads hlast hdrawn
    · exact ⟨h.filled, hlast, ⟨le_rfl, Cell.since_content le_rfl⟩, hdrawn, h.order⟩
    · exact ⟨h.filled, hlast, ⟨hreads.1, hreads.2, Cell.since_content hreads.1⟩, hdrawn, h.order⟩
    · exact select_fresh h hpc
  | draw repoCount latest =>
    dsimp only [Frames.step] at hs
    split at hs
    · cases hs
      exact draw_fresh h ‹_› repoCount latest
    · cases hs

end Fresh

/-! ## Every run -/

section Runs

variable [ViewportMaths] {I : Int} {seriesCache : Cell (Option CandleSeries)} {view : Viewport}
  {size : Nat × Nat} {es : List FrameEvent} {s : Frames}

theorem start_shows (hI : 0 < I) (hcache : SeriesOnGrid I seriesCache.content) (view : Viewport)
    (size : Nat × Nat) : (Frames.start seriesCache view size).Shows I := by
  refine ⟨run_keeps_steady hI (construct_steady view) fun a ha => ?_, ?_, hcache, trivial,
    fun _ hf => nomatch hf⟩
  · simp only [List.mem_cons, List.not_mem_nil, or_false] at ha
    rcases ha with rfl | rfl <;> trivial
  · exact shown_congr (c := .construct view) (clampToSeries_series _)

theorem start_fresh (seriesCache : Cell (Option CandleSeries)) (view : Viewport)
    (size : Nat × Nat) : (Frames.start seriesCache view size).Fresh :=
  ⟨rfl, (fun h => nomatch h), trivial, (fun _ hf => nomatch hf), .nil⟩

theorem run_shows (hI : 0 < I) (hcache : SeriesOnGrid I seriesCache.content)
    (hes : ∀ e ∈ es, e.OnGrid I) (hr : run Frames.step (.start seriesCache view size) es = some s) :
    s.Shows I :=
  inv_of_along (P := fun _ e => e.OnGrid I) (fun _ _ _ h he hs => step_shows hI h he hs)
    (start_shows hI hcache view size) (along_of_mem fun e he _ => hes e he) hr

end Runs

/-- A small series, and the next one. -/
def twoMinutes : CandleSeries :=
  ⟨⟨60000⟩, [flatCandle 60000 true, flatCandle 120000 true], 60000, 120000⟩

def threeMinutes : CandleSeries :=
  ⟨⟨60000⟩, [flatCandle 60000 true, flatCandle 120000 true, flatCandle 180000 true], 60000, 180000⟩

/-- A frame reads the version of one update and the series of the next. -/
def overtaken : List FrameEvent :=
  [.update 1 (some twoMinutes), .seriesUpdated, .frame, .update 2 (some threeMinutes), .frame,
    .frame, .draw 0 fun _ => none]

theorem overtaken_onGrid : ∀ e ∈ overtaken, e.OnGrid 60000 := by
  intro e he
  simp only [overtaken, List.mem_cons, List.not_mem_nil, or_false] at he
  rcases he with rfl | rfl | rfl | rfl | rfl | rfl | rfl
  · exact fun _ => ⟨⟨fun _ => rfl, by unfold Spaced; decide, rfl, rfl⟩, by decide⟩
  · trivial
  · trivial
  · exact fun _ => ⟨⟨fun _ => rfl, by unfold Spaced; decide, rfl, rfl⟩, by decide⟩
  · trivial
  · trivial
  · exact fun _ => trivial

theorem exists_overtaken : ∃ s,
    run Frames.step (.start (.fresh 0 none) ⟨0, 0, 0, 0⟩ (400, 300)) overtaken = some s ∧
    s.frames.map (fun f => (f.version, f.series)) = [(1, some threeMinutes)] :=
  Option.map_eq_some_iff.mp (by decide +kernel)

/-- In every run, each frame is drawn with the view of the controller on that very
series: from a candle of it to a candle of it, within the limits. -/
theorem frames_fit [ViewportMaths] (I : Int) (hI : 0 < I) (seriesCache : Cell (Option CandleSeries))
    (view : Viewport) (size : Nat × Nat) (hcache : SeriesOnGrid I seriesCache.content)
    (es : List FrameEvent) (hes : ∀ e ∈ es, e.OnGrid I) (s : Frames)
    (hrun : run Frames.step (.start seriesCache view size) es = some s) :
    ∀ f ∈ s.frames, f.chart.shown = f.series ∧
      ∀ series, f.series = some series → f.chart.Fits I series := by
  intro f hf
  obtain ⟨hshown, hplaced⟩ := (run_shows hI hcache hes hrun).drawn f hf
  exact ⟨hshown, fun series hs => (hplaced.fits (hshown.trans hs)).2⟩

theorem frames_fit_overtaken : ∃ s,
    run Frames.step (.start (.fresh 0 none) ⟨0, 0, 0, 0⟩ (400, 300)) overtaken = some s ∧
    s.frames.map (fun f => (f.version, f.series)) = [(1, some threeMinutes)] ∧
    ∀ f ∈ s.frames, f.chart.shown = f.series ∧
      ∀ series, f.series = some series → f.chart.Fits 60000 series := by
  obtain ⟨s, hs, hframes⟩ := exists_overtaken
  exact ⟨s, hs, hframes, frames_fit 60000 (by decide) (.fresh 0 none) ⟨0, 0, 0, 0⟩
    (400, 300) trivial overtaken overtaken_onGrid s hs⟩

/-- In every run, a frame for which the cache had candles draws a series that the
cache held when the frame began or later, and not one that is newer than what the
next frame begins with. So no update is lost: where nothing has been written
since a frame began, it draws what the cache holds. -/
theorem frames_current [ViewportMaths] (seriesCache : Cell (Option CandleSeries)) (view : Viewport)
    (size : Nat × Nat) (es : List FrameEvent) (s : Frames)
    (hrun : run Frames.step (.start seriesCache view size) es = some s) :
    (∀ f ∈ s.frames, f.FromCache → s.seriesCache.Since f.version f.series ∧
      (f.version = s.seriesCache.version → f.series = s.seriesCache.content)) ∧
    s.frames.Pairwise fun g f =>
      f.FromCache → s.seriesCache.Within f.version g.version f.series := by
  have h : s.Fresh := inv_of_along (P := fun _ _ => True)
    (fun _ _ _ h _ hs => step_fresh h hs) (start_fresh seriesCache view size)
    (along_of_forall fun _ _ => trivial) hrun
  refine ⟨fun f hf hc => ?_, h.order⟩
  have hsince : s.seriesCache.Since f.version f.series :=
    (h.drawn f hf hc).mono le_rfl (drawnUpTo_le h.reads)
  refine ⟨hsince, fun hv => ?_⟩
  rw [hv] at hsince
  exact Cell.eq_content_of_since hsince

/-- The frame that was overtaken, and the next one, which draws the same. -/
theorem frames_current_overtaken : ∃ s,
    run Frames.step (.start (.fresh 0 none) ⟨0, 0, 0, 0⟩ (400, 300))
      (overtaken ++ [.frame, .frame, .frame, .draw 0 fun _ => none]) = some s ∧
    s.frames.map (fun f => (f.version, f.series)) =
      [(2, some threeMinutes), (1, some threeMinutes)] ∧
    s.frames.Pairwise fun g f =>
      f.FromCache → s.seriesCache.Within f.version g.version f.series := by
  obtain ⟨s, hs, hframes⟩ : ∃ s, run Frames.step (.start (.fresh 0 none) ⟨0, 0, 0, 0⟩ (400, 300))
      (overtaken ++ [.frame, .frame, .frame, .draw 0 fun _ => none]) = some s ∧
      s.frames.map (fun f => (f.version, f.series)) =
        [(2, some threeMinutes), (1, some threeMinutes)] :=
    Option.map_eq_some_iff.mp (by decide +kernel)
  exact ⟨s, hs, hframes,
    (frames_current (.fresh 0 none) ⟨0, 0, 0, 0⟩ (400, 300) _ s hs).2⟩

end TCV.App
