import TradingChartViewer.App.Frames
import TradingChartViewer.App.RenderSnapshotBuilder

/-!
# The state of the interface

The banner over a frame: the state and the message that `computeUiState` and
`applyUiState` give a snapshot, and the mark that `build` adds to the message of
a live chart whose view reaches past its series.

`core::UiState` is not among the sources; its four values are those that the
builder and the HUD use.

* `isPartial_of_fits`: a view that lies on its series does not reach past it;
* `live_iff`: what a live chart has;
* `banner_of_frames`: so the banner of a frame is that of the repository and the
  connection alone, in every run.
-/

namespace TCV.App

open TCV.Domain Lib.Run Lib.Versioned

/-- `core::UiState`. -/
inductive UiState
  | noData
  | loading
  | live
  | desync
  deriving DecidableEq, Repr

/-- What the builder is told about the repository. -/
structure RepoView where
  candleCount : Nat := 0
  hasGap : Bool := false
  intervalMs : Int := 0

structure ConnectivityView where
  wsConnected : Bool := false
  backfilling : Bool := false
  lastTickMs : Int := 0

structure StateInputs where
  repo : RepoView
  net : ConnectivityView

def RepoView.interval (repo : RepoView) : Int :=
  if 0 < repo.intervalMs then repo.intervalMs else kMillisPerMinute

/-- The last kline closed more than three intervals ago. -/
def stale (nowMs lastTick interval : Int) : Bool :=
  0 < lastTick && 0 < interval && lastTick < nowMs && 3 * interval < nowMs - lastTick

/-- The state and the message, with the clock at `nowMs`. -/
def computeUiState (nowMs : Int) (repo : RepoView) (net : ConnectivityView) : UiState × String :=
  let haveData := 0 < repo.candleCount
  if ¬haveData then
    if net.backfilling then (.loading, "Cargando histórico…")
    else if !net.wsConnected then (.loading, "Conectando…")
    else if net.lastTickMs ≤ 0 then (.loading, "Esperando datos en vivo…")
    else (.noData, "Sin datos disponibles.")
  else if !net.wsConnected then
    (.loading, if net.backfilling then "Cargando histórico…" else "Conectando flujo en vivo…")
  else if repo.hasGap || stale nowMs net.lastTickMs repo.interval then
    (.desync,
      if repo.hasGap then "Desincronizado: faltan tramos (gap)."
      else "Desincronizado: flujo detenido.")
  else (.live, "En vivo")

/-- The state and the message of a snapshot that is valid or not and has the
message `stateMessage`. -/
def applyUiState (nowMs : Int) (valid : Bool) (stateMessage : String) :
    Option StateInputs → UiState × String
  | some inputs => computeUiState nowMs inputs.repo inputs.net
  | none =>
    (if valid then .live else .noData,
      if stateMessage.isEmpty then if valid then "En vivo" else "Sin datos" else stateMessage)

/-- `partial` of `build`: the view reaches past the series. -/
def isPartial (series : CandleSeries) (view : Viewport) : Bool :=
  let interval := inferIntervalMs series
  let requestedCount := max 1 view.candlesVisible
  let requestedSpan := ((requestedCount - 1 : Nat) : Int) * interval
  let intendedLeft := view.rightmostOpenTime - requestedSpan
  0 < interval && (intendedLeft < series.firstOpen || series.lastOpen < view.rightmostOpenTime)

/-- The state and the message that `build` gives the snapshot of a series. -/
def RenderSnapshotBuilder.banner (b : RenderSnapshotBuilder) (series : CandleSeries)
    (view : Viewport) (canvasWidth canvasHeight : Nat) (nowMs : Int)
    (stateInputs : Option StateInputs) : UiState × String :=
  let valid := (b.build series view canvasWidth canvasHeight).valid
  let (state, stateMessage) := applyUiState nowMs valid "" stateInputs
  if valid && isPartial series view && state = .live then
    (state, if stateMessage.isEmpty then "Parcial" else stateMessage ++ " (parcial)")
  else (state, stateMessage)

-- The second candle from the right is not in the series.
example : isPartial ⟨⟨60000⟩, [flatCandle 60000 true], 60000, 60000⟩ ⟨2, 60000, 1, 2⟩ = true := by
  decide

section

variable {I : Int} {c : ChartController} {series : CandleSeries}

theorem isPartial_of_fits (hI : 0 < I) (h : series.Contiguous I) (hf : c.Fits I series) :
    isPartial series c.view = false := by
  have hcount : 1 ≤ c.view.candlesVisible := hf.least.trans hf.visible.1
  have hspan : ((max 1 c.view.candlesVisible - 1 : Nat) : Int) = c.view.candlesVisible - 1 := by
    omega
  unfold isPartial
  rcases inferIntervalMs_of_contiguous hI h with hi | ⟨hi, -⟩
  · have hleft := hf.right.1
    have hright := hf.right.2
    dsimp only
    rw [hi, hspan, Bool.and_eq_false_iff, Bool.or_eq_false_iff]
    exact .inr ⟨decide_eq_false (by omega), decide_eq_false (by omega)⟩
  · dsimp only
    rw [hi]
    rfl

theorem banner_of_whole (b : RenderSnapshotBuilder) {view : Viewport}
    (h : isPartial series view = false) (canvasWidth canvasHeight : Nat) (nowMs : Int)
    (repo : RepoView) (net : ConnectivityView) :
    b.banner series view canvasWidth canvasHeight nowMs (some ⟨repo, net⟩) =
      computeUiState nowMs repo net := by
  unfold RenderSnapshotBuilder.banner
  rw [h]
  simp only [Bool.and_false, Bool.false_and, Bool.false_eq_true, ↓reduceIte]
  rfl

end

theorem stale_eq_false {interval : Int} (hi : 0 < interval) (nowMs lastTick : Int) :
    stale nowMs lastTick interval = false ↔ (0 < lastTick → nowMs ≤ lastTick + 3 * interval) := by
  rw [Bool.eq_false_iff]
  simp only [stale, ne_eq, Bool.and_eq_true, decide_eq_true_eq]
  omega

theorem RepoView.interval_pos (repo : RepoView) : 0 < repo.interval := by
  unfold RepoView.interval
  split
  · assumption
  · decide

/-- A chart is live while there are candles without a gap, and a connection
without a pause of three intervals. -/
theorem live_iff (nowMs : Int) (repo : RepoView) (net : ConnectivityView) :
    (computeUiState nowMs repo net).1 = .live ↔
      0 < repo.candleCount ∧ net.wsConnected = true ∧ repo.hasGap = false ∧
        (0 < net.lastTickMs → nowMs ≤ net.lastTickMs + 3 * repo.interval) := by
  rw [← stale_eq_false repo.interval_pos]
  unfold computeUiState
  by_cases hdata : 0 < repo.candleCount
  · cases net.wsConnected <;> cases repo.hasGap <;>
      cases stale nowMs net.lastTickMs repo.interval <;> simp [hdata]
  · simp only [hdata, not_false_eq_true, ↓reduceIte, false_and, iff_false]
    split_ifs <;> nofun

/-- In every run, the banner of a frame is what the repository and the connection give, at any
time and on any canvas: none is marked as partial. It is live exactly while there are candles
without a gap, and a connection without a pause of three intervals. -/
theorem banner_of_frames [ViewportMaths] (I : Int) (hI : 0 < I)
    (seriesCache : Cell (Option CandleSeries)) (view : Viewport) (size : Nat × Nat)
    (hcache : SeriesOnGrid I seriesCache.content) (es : List FrameEvent)
    (hes : ∀ e ∈ es, e.OnGrid I) (s : Frames)
    (hrun : run Frames.step (.start seriesCache view size) es = some s)
    (b : RenderSnapshotBuilder) (canvas : Nat × Nat) (nowMs : Int) (repo : RepoView)
    (net : ConnectivityView) :
    ∀ f ∈ s.frames, ∀ series, f.series = some series →
      b.banner series f.chart.view canvas.1 canvas.2 nowMs (some ⟨repo, net⟩) =
        computeUiState nowMs repo net ∧
      ((b.banner series f.chart.view canvas.1 canvas.2 nowMs (some ⟨repo, net⟩)).1 = .live ↔
        0 < repo.candleCount ∧ net.wsConnected = true ∧ repo.hasGap = false ∧
          (0 < net.lastTickMs → nowMs ≤ net.lastTickMs + 3 * repo.interval)) := by
  intro f hf series hs
  obtain ⟨hshown, hplaced⟩ := (run_shows hI hcache hes hrun).drawn f hf
  obtain ⟨hholds, hfits⟩ := hplaced.fits (hshown.trans hs)
  have hbanner := banner_of_whole b (isPartial_of_fits hI hholds.contiguous hfits)
    canvas.1 canvas.2 nowMs repo net
  refine ⟨hbanner, ?_⟩
  rw [hbanner]
  exact live_iff nowMs repo net

/-- The banner of the frame that was overtaken, three minutes after the last message. -/
theorem banner_of_frames_overtaken : ∃ s,
    run Frames.step (.start (.fresh 0 none) ⟨0, 0, 0, 0⟩ (400, 300)) overtaken = some s ∧
    s.frames.map (fun f => (f.version, f.series)) = [(1, some threeMinutes)] ∧
    ∀ f ∈ s.frames, ∀ series, f.series = some series →
      (RenderSnapshotBuilder.construct (3 / 4) (3 / 2)).banner series f.chart.view 400 300 360000
        (some ⟨{ candleCount := 3, intervalMs := 60000 },
          { wsConnected := true, lastTickMs := 180000 }⟩) = (.live, "En vivo") := by
  obtain ⟨s, hs, hframes⟩ := exists_overtaken
  refine ⟨s, hs, hframes, fun f hf series hseries => ?_⟩
  exact (banner_of_frames 60000 (by decide) (.fresh 0 none) ⟨0, 0, 0, 0⟩ (400, 300) trivial
    overtaken overtaken_onGrid s hs _ (400, 300) 360000 _ _ f hf series hseries).1

end TCV.App
