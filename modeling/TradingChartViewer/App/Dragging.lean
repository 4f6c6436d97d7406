import TradingChartViewer.App.Zoom
import TradingChartViewer.Lib.Carry
import Mathlib.Data.List.Infix

/-!
# The user's input

`ChartController` with the state of a drag: the handlers that it subscribes to
the events of the window, and its owner's calls. A call may ask for a snapshot
and for older history (`Request`).

A drag is reported as many moves of the mouse. Each of them pans by whole
candles, and the rest of a candle is carried over to the next. Both are reckoned
in exact arithmetic.

* `ChartInput.onPanPixels`, `ChartInput.handle`: the calls;
* `ChartInput.Steady`, `handle_steady`: the view stays on the series, and less than a candle is
  carried over, in a drag only;
* `view_drawn`: no change of the view without a request for a snapshot;
* `moves_pan`: what the moves of a drag pan; `drag_at_once`: a drag in one direction pans
  as one move of the mouse would.
-/

namespace TCV.App

open TCV.Domain Lib.Carry

def kKeyboardPanStep : Nat := 10
def kKeyboardFastPanStep : Nat := 60

/-- `sf::Mouse::Button`. -/
inductive MouseButton
  | left | right | middle | xButton1 | xButton2
  deriving DecidableEq, Repr

/-- The keys of `sf::Keyboard::Key` that the controller knows. -/
inductive Key
  | left | right | add | subtract | other
  deriving DecidableEq, Repr

/-- `ChartController`, with the size of its window, if it has one. -/
structure ChartInput where
  chart : ChartController
  window : Option (Nat × Nat) := none
  panning : Bool := false
  panButton : MouseButton := .left
  lastPanX : Rat := 0
  panAccumulator : Rat := 0
  deriving DecidableEq, Repr

def ChartInput.construct (view : Viewport) : ChartInput := { chart := .construct view }

/-- A call of `snapshotRequest` or `backfillRequest`. -/
inductive Request
  | snapshot
  | backfill (start : Int) (candles : Nat)
  deriving DecidableEq, Repr

/-- What the user does, what happens to the window, and the owner's calls. -/
inductive InputCall
  | setSeries (series : Option CandleSeries)
  | setVisibleLimits (minBars maxBars : Nat)
  | attachWindow (size : Option (Nat × Nat))
  | mouseWheelScrolled (vertical : Bool) (delta : Rat) (x y : Int)
  | mouseButtonPressed (button : MouseButton) (x y : Int)
  | mouseButtonReleased (button : MouseButton)
  | mouseMoved (x y : Int)
  | keyPressed (key : Key) (fast : Bool)
  | resized (size : Nat × Nat)
  deriving DecidableEq, Repr

section

variable [ViewportMaths]

def ChartInput.setSeries (s : ChartInput) (series : Option CandleSeries) :
    ChartInput × List Request :=
  let chart := s.chart.setSeries series
  match chart.shown with
  | none => ({ s with chart := chart }, [])
  | some _ => ({ s with chart := chart, panAccumulator := 0 }, [.snapshot])

def ChartInput.setVisibleLimits (s : ChartInput) (minBars maxBars : Nat) :
    ChartInput × List Request :=
  ({ s with chart := s.chart.setVisibleLimits minBars maxBars }, [.snapshot])

/-- A request for a snapshot if the view has moved. -/
def snapshotIfMoved (before after : Viewport) : List Request :=
  if after.rightmostOpenTime ≠ before.rightmostOpenTime ||
    after.candlesVisible ≠ before.candlesVisible then [.snapshot] else []

def ChartInput.panByCandles (s : ChartInput) (candles : Int) : ChartInput × List Request :=
  let panned := s.chart.panByCandles candles
  ({ s with chart := panned.1 },
    panned.2.toList.map (fun r => .backfill r.1 r.2) ++ snapshotIfMoved s.chart.view panned.1.view)

/-- `pxPerCandle` is a `float` in the source, and the sum a `double`; here both are exact. -/
def ChartInput.onPanPixels (s : ChartInput) (dxPixels : Rat) : ChartInput × List Request :=
  let width := (s.window.map Prod.fst).getD 0
  if s.chart.shown.isNone || s.chart.intervalMs ≤ 0 || width = 0 then (s, [])
  else
    let pxPerCandle : Rat := width / (max s.chart.view.candlesVisible 1 : Nat)
    if pxPerCandle ≤ 0 then (s, [])
    else
      let total := s.panAccumulator + dxPixels / pxPerCandle
      if |total| < 1 then ({ s with panAccumulator := total }, [])
      else
        let shift := whole total
        let s := { s with panAccumulator := total - shift }
        if shift = 0 then (s, []) else s.panByCandles shift

/-- The wheel changes the number of candles: `onZoomWheel` gets past its
checks. -/
def ChartController.zooms (c : ChartController) (wheelDelta : Int) (canvasX : Nat) : Bool :=
  let pxPerCandle : Rat := canvasX / (max c.view.candlesVisible 1 : Nat)
  let factor := kZoomBase ^ wheelDelta
  let newCandles := ViewportMaths.clampCandles c.view (c.view.candlesVisible / factor)
  c.shown.isSome && wheelDelta ≠ 0 && 0 < c.intervalMs && canvasX ≠ 0 && 0 < pxPerCandle &&
    0 < factor && clamp newCandles 1 (max 1 c.maxBars) ≠ c.view.candlesVisible

def ChartInput.onZoomWheel (s : ChartInput) (wheelDelta : Int) (mouseX : Rat) (canvasX : Nat) :
    ChartInput × List Request :=
  let chart := s.chart.onZoomWheel wheelDelta mouseX canvasX
  ({ s with
      chart := chart
      panAccumulator := if s.chart.zooms wheelDelta canvasX then 0 else s.panAccumulator },
    snapshotIfMoved s.chart.view chart.view)

def ChartInput.onMouseButtonPressed (s : ChartInput) (button : MouseButton) (x y : Rat) :
    ChartInput :=
  match s.window with
  | none => s
  | some size =>
    if button ≠ .left && button ≠ .middle || size.1 = 0 || size.2 = 0 || x < 0 || y < 0 ||
      size.1 ≤ x || size.2 ≤ y then s
    else { s with panning := true, panButton := button, lastPanX := x }

def ChartInput.onMouseButtonReleased (s : ChartInput) (button : MouseButton) : ChartInput :=
  if s.panning && button = s.panButton then { s with panning := false, panAccumulator := 0 } else s

def ChartInput.onMouseMoved (s : ChartInput) (x : Rat) : ChartInput × List Request :=
  match s.window with
  | none => (s, [])
  | some size =>
    if !s.panning || size.1 = 0 || size.2 = 0 then (s, [])
    else
      let clampedX := clamp x 0 (size.1 : Rat)
      let delta := clampedX - s.lastPanX
      if 0 < |delta| then
        let panned := s.onPanPixels delta
        ({ panned.1 with lastPanX := clampedX }, panned.2)
      else (s, [])

/-- `fast`: a shift or a control key is pressed too. -/
def ChartInput.onKeyPressed (s : ChartInput) (key : Key) (fast : Bool) :
    ChartInput × List Request :=
  if s.chart.shown.isNone then (s, [])
  else
    let step : Nat := if fast then kKeyboardFastPanStep else kKeyboardPanStep
    let zoom (wheelDelta : Int) :=
      match s.window with
      | none => (s, [])
      | some size => s.onZoomWheel wheelDelta (size.1 * (1 / 2)) size.1
    match key with
    | .left => s.panByCandles step
    | .right => s.panByCandles (-step)
    | .add => zoom 1
    | .subtract => zoom (-1)
    | .other => (s, [])

/-- The handlers of `subscribeInput`, and the owner's calls. -/
def ChartInput.handle (s : ChartInput) : InputCall → ChartInput × List Request
  | .setSeries series => s.setSeries series
  | .setVisibleLimits minBars maxBars => s.setVisibleLimits minBars maxBars
  | .attachWindow size => ({ s with window := size }, [])
  | .mouseWheelScrolled vertical delta x _ =>
    match s.window with
    | none => (s, [])
    | some size => if vertical then s.onZoomWheel (whole delta) x size.1 else (s, [])
  | .mouseButtonPressed button x y => (s.onMouseButtonPressed button x y, [])
  | .mouseButtonReleased button => (s.onMouseButtonReleased button, [])
  | .mouseMoved x _ => s.onMouseMoved x
  | .keyPressed key fast => s.onKeyPressed key fast
  | .resized size => ({ s with window := s.window.map fun _ => size }, [.snapshot])

def ChartInput.run (s : ChartInput) : List InputCall → ChartInput × List Request
  | [] => (s, [])
  | a :: as =>
    let rest := (s.handle a).1.run as
    (rest.1, (s.handle a).2 ++ rest.2)

end

/-! ## The operations -/

section Operations

variable [ViewportMaths] (s : ChartInput)

@[simp] theorem panByCandles_zero : s.panByCandles 0 = (s, []) := by
  simp [ChartInput.panByCandles, ChartController.panByCandles, snapshotIfMoved]

/-- A drag pans by the whole candles of all that has come in, and carries over
the rest. -/
theorem onPanPixels_cases (dxPixels : Rat) :
    (s.chart.shown = none ∨ s.chart.intervalMs ≤ 0 ∨ (s.window.map Prod.fst).getD 0 = 0) ∧
      s.onPanPixels dxPixels = (s, []) ∨
    ∃ total, total = s.panAccumulator + dxPixels /
        (((s.window.map Prod.fst).getD 0 : Nat) / (max s.chart.view.candlesVisible 1 : Nat)) ∧
      s.onPanPixels dxPixels =
        { s with panAccumulator := total - whole total }.panByCandles (whole total) := by
  unfold ChartInput.onPanPixels
  dsimp only
  split_ifs with h₁ h₂ h₃ h₄
  · rw [Bool.or_eq_true, Bool.or_eq_true, Option.isNone_iff_eq_none, decide_eq_true_eq,
      decide_eq_true_eq, or_assoc] at h₁
    exact .inl ⟨h₁, rfl⟩
  · simp only [Bool.or_eq_true, decide_eq_true_eq, not_or] at h₁
    exact absurd h₂ (not_le.mpr (div_pos (Nat.cast_pos.mpr (Nat.pos_of_ne_zero h₁.2))
      (Nat.cast_pos.mpr (lt_max_of_lt_right one_pos))))
  · right
    refine ⟨_, rfl, ?_⟩
    rw [whole_eq_zero h₃, panByCandles_zero, Int.cast_zero, sub_zero]
  · right
    refine ⟨_, rfl, ?_⟩
    rw [h₄, panByCandles_zero]
  · exact .inr ⟨_, rfl, rfl⟩

end Operations

/-! ## The view stays on the series -/

/-- The controller shows nothing, or a view on a series of the grid. -/
def ChartController.Placed (I : Int) (c : ChartController) : Prop :=
  c.shown = none ∧ c.initialized = false ∧ 1 ≤ c.minBars ∨
    ∃ series, c.Holds I series ∧ c.Fits I series

/-- A series that is not empty lies on the grid. -/
def InputCall.OnGrid (I : Int) : InputCall → Prop
  | .setSeries (some series) => series.data ≠ [] → series.Contiguous I ∧ I ∣ series.firstOpen
  | _ => True

/-- The view is on the series, and less than a candle is carried over, in a drag
only. -/
structure ChartInput.Steady (I : Int) (s : ChartInput) : Prop where
  placed : s.chart.Placed I
  carried : |s.panAccumulator| < 1
  atRest : s.panning = false → s.panAccumulator = 0

section Placed

variable {I : Int} {c : ChartController}

theorem ChartController.Placed.minBars (h : c.Placed I) : 1 ≤ c.minBars := by
  obtain ⟨-, -, h⟩ | ⟨series, h, -⟩ := h
  · exact h
  · exact h.minBars

theorem ChartController.Placed.dvd (h : c.Placed I) (hi : c.initialized = true) :
    I ∣ c.view.rightmostOpenTime := by
  obtain ⟨-, h, -⟩ | ⟨series, h, hf⟩ := h
  · rw [h] at hi
    cases hi
  · exact hf.dvd h

variable [ViewportMaths]

theorem setSeries_placed (hI : 0 < I) (h : c.Placed I) {series : Option CandleSeries}
    (hs : (InputCall.setSeries series).OnGrid I) : (c.setSeries series).Placed I := by
  cases series with
  | none => exact .inl ⟨rfl, rfl, h.minBars⟩
  | some series =>
    by_cases hd : series.data = []
    · rw [setSeries_empty hd]
      refine .inl ⟨?_, rfl, h.minBars⟩
      rw [ChartController.shown, Option.filter_some, if_neg]
      simpa using hd
    · obtain ⟨hc, hg⟩ := hs hd
      exact .inr ⟨series, setSeries_fits hI h.minBars h.dvd hc hg⟩

theorem setVisibleLimits_placed (hI : 0 < I) (h : c.Placed I) (minBars maxBars : Nat) :
    (c.setVisibleLimits minBars maxBars).Placed I := by
  obtain ⟨hs, hi, -⟩ | ⟨series, h, hf⟩ := h
  · have hs' (view : Viewport) (lo hi : Nat) :
        { c with minBars := lo, maxBars := hi, view := view }.shown = none := hs
    left
    unfold ChartController.setVisibleLimits ChartController.clampToSeries
    dsimp only
    rw [hs']
    refine ⟨hs, hi, ?_⟩
    dsimp only
    split <;> omega
  · exact .inr ⟨series, setVisibleLimits_fits hI h hf minBars maxBars⟩

theorem panByCandles_placed (hI : 0 < I) (h : c.Placed I) (candles : Int) :
    (c.panByCandles candles).1.Placed I := by
  obtain ⟨hs, hi, hm⟩ | ⟨series, h, hf⟩ := h
  · obtain ⟨-, e⟩ | ⟨⟨-, hs', -⟩, -⟩ := panByCandles_cases c candles
    · rw [e]
      exact .inl ⟨hs, hi, hm⟩
    · exact absurd hs hs'
  · exact .inr ⟨series, panByCandles_fits hI h hf candles⟩

theorem onZoomWheel_placed (hI : 0 < I) (h : c.Placed I) (wheelDelta : Int) (mouseX : Rat)
    (canvasX : Nat) : (c.onZoomWheel wheelDelta mouseX canvasX).Placed I := by
  obtain ⟨hs, hi, hm⟩ | ⟨series, h, hf⟩ := h
  · obtain e | ⟨_, _, _, hs', -⟩ := onZoomWheel_cases c wheelDelta mouseX canvasX
    · rw [e]
      exact .inl ⟨hs, hi, hm⟩
    · rw [hs] at hs'
      cases hs'
  · exact .inr ⟨series, onZoomWheel_fits hI h hf wheelDelta mouseX canvasX⟩

end Placed

section Steady

variable {I : Int} {s : ChartInput}

theorem construct_steady (view : Viewport) : (ChartInput.construct view).Steady I := by
  refine ⟨.inl ⟨rfl, rfl, by show 1 ≤ 30; decide⟩, ?_, fun _ => rfl⟩
  show |(0 : Rat)| < 1
  rw [abs_zero]
  exact one_pos

variable [ViewportMaths]

theorem panByCandles_steady (hI : 0 < I) (h : s.Steady I) (candles : Int) :
    (s.panByCandles candles).1.Steady I :=
  ⟨panByCandles_placed hI h.placed candles, h.carried, h.atRest⟩

theorem onPanPixels_steady (hI : 0 < I) (h : s.Steady I) (hp : s.panning = true)
    (dxPixels : Rat) : (s.onPanPixels dxPixels).1.Steady I := by
  obtain ⟨-, e⟩ | ⟨total, -, e⟩ := onPanPixels_cases s dxPixels
  · rw [e]
    exact h
  · rw [e]
    refine panByCandles_steady (s := { s with panAccumulator := total - whole total }) hI
      ⟨h.placed, abs_sub_whole_lt_one total, fun hr => ?_⟩ _
    rw [hp] at hr
    cases hr

theorem onZoomWheel_steady (hI : 0 < I) (h : s.Steady I) (wheelDelta : Int) (mouseX : Rat)
    (canvasX : Nat) : (s.onZoomWheel wheelDelta mouseX canvasX).1.Steady I := by
  refine ⟨onZoomWheel_placed hI h.placed wheelDelta mouseX canvasX, ?_, fun hr => ?_⟩ <;>
    dsimp only [ChartInput.onZoomWheel] at * <;> split
  · rw [abs_zero]
    exact one_pos
  · exact h.carried
  · rfl
  · exact h.atRest hr

theorem onKeyPressed_steady (hI : 0 < I) (h : s.Steady I) (key : Key) (fast : Bool) :
    (s.onKeyPressed key fast).1.Steady I := by
  unfold ChartInput.onKeyPressed
  split
  · exact h
  · cases key with
    | left => exact panByCandles_steady hI h _
    | right => exact panByCandles_steady hI h _
    | add =>
      dsimp only
      split
      · exact h
      · exact onZoomWheel_steady hI h ..
    | subtract =>
      dsimp only
      split
      · exact h
      · exact onZoomWheel_steady hI h ..
    | other => exact h

theorem onMouseMoved_steady (hI : 0 < I) (h : s.Steady I) (x : Rat) :
    (s.onMouseMoved x).1.Steady I := by
  unfold ChartInput.onMouseMoved
  split
  · exact h
  · rename_i size _
    split
    · exact h
    · rename_i hc
      simp only [Bool.or_eq_true, Bool.not_eq_true', not_or, Bool.not_eq_false] at hc
      dsimp only
      split
      · have hpan := onPanPixels_steady hI h hc.1.1 (clamp x 0 (size.1 : Rat) - s.lastPanX)
        exact ⟨hpan.placed, hpan.carried, hpan.atRest⟩
      · exact h

theorem handle_steady (hI : 0 < I) (h : s.Steady I) {a : InputCall} (ha : a.OnGrid I) :
    (s.handle a).1.Steady I := by
  cases a with
  | setSeries series =>
    have hs := setSeries_placed hI h.placed ha
    dsimp only [ChartInput.handle, ChartInput.setSeries]
    split
    · exact ⟨hs, h.carried, h.atRest⟩
    · exact ⟨hs, by rw [abs_zero]; exact one_pos, fun _ => rfl⟩
  | setVisibleLimits minBars maxBars =>
    exact ⟨setVisibleLimits_placed hI h.placed minBars maxBars, h.carried, h.atRest⟩
  | attachWindow size => exact ⟨h.placed, h.carried, h.atRest⟩
  | mouseWheelScrolled vertical delta x y =>
    dsimp only [ChartInput.handle]
    split
    · exact h
    · split
      · exact onZoomWheel_steady hI h ..
      · exact h
  | mouseButtonPressed button x y =>
    dsimp only [ChartInput.handle, ChartInput.onMouseButtonPressed]
    split
    · exact h
    · split
      · exact h
      · exact ⟨h.placed, h.carried, fun hr => nomatch hr⟩
  | mouseButtonReleased button =>
    dsimp only [ChartInput.handle, ChartInput.onMouseButtonReleased]
    split
    · exact ⟨h.placed, by rw [abs_zero]; exact one_pos, fun _ => rfl⟩
    · exact h
  | mouseMoved x y => exact onMouseMoved_steady hI h x
  | keyPressed key fast => exact onKeyPressed_steady hI h key fast
  | resized size => exact ⟨h.placed, h.carried, h.atRest⟩

/-- The run lemma of `handle_steady`. -/
theorem run_keeps_steady (hI : 0 < I) (h : s.Steady I) {as : List InputCall}
    (has : ∀ a ∈ as, a.OnGrid I) : (s.run as).1.Steady I := by
  induction as generalizing s with
  | nil => exact h
  | cons a as ih =>
    exact ih (handle_steady hI h (has a List.mem_cons_self)) fun b hb =>
      has b (List.mem_cons_of_mem _ hb)

end Steady

/-! ## What is on the screen -/

/-- The range of the series that `c` shows is still shown, or nothing is. -/
structure ChartController.Drawn (c c' : ChartController) : Prop where
  shown : c'.shown = c.shown ∨ c'.shown = none
  right : c'.view.rightmostOpenTime = c.view.rightmostOpenTime
  visible : c'.view.candlesVisible = c.view.candlesVisible

section Drawn

variable {c c' : ChartController}

theorem ChartController.Drawn.refl (c : ChartController) : c.Drawn c := ⟨.inl rfl, rfl, rfl⟩

theorem ChartController.Drawn.trans {c'' : ChartController} (h : c.Drawn c')
    (h' : c'.Drawn c'') : c.Drawn c'' := by
  refine ⟨?_, h'.right.trans h.right, h'.visible.trans h.visible⟩
  rcases h'.shown with e | e
  · rw [e]
    exact h.shown
  · exact .inr e

theorem drawn_of_not_moved (hs : c'.series = c.series)
    (h : .snapshot ∉ snapshotIfMoved c.view c'.view) : c.Drawn c' := by
  unfold snapshotIfMoved at h
  split at h
  · exact absurd List.mem_cons_self h
  · rename_i he
    simp only [ne_eq, Bool.or_eq_true, decide_eq_true_eq, not_or, not_not] at he
    exact ⟨.inl (by rw [ChartController.shown, hs, ChartController.shown]), he.1, he.2⟩

/-- A call that asks for no snapshot leaves what is on the screen. -/
def Draws (c : ChartController) (r : ChartInput × List Request) : Prop :=
  .snapshot ∉ r.2 → c.Drawn r.1.chart

theorem draws_nothing (s : ChartInput) (rs : List Request) : Draws s.chart (s, rs) :=
  fun _ => .refl _

variable [ViewportMaths] {s : ChartInput}

theorem clampToSeries_series (c : ChartController) : c.clampToSeries.series = c.series := by
  obtain ⟨view, e⟩ := clampToSeries_eq c
  rw [e]

theorem panByCandles_series (c : ChartController) (candles : Int) :
    (c.panByCandles candles).1.series = c.series := by
  obtain ⟨-, e⟩ | ⟨-, e⟩ := panByCandles_cases c candles
  · rw [e]
  · obtain ⟨flag, awaited, e'⟩ := maybeRequestBackfill_eq (c.moved c.view.candlesVisible
      (c.view.rightmostOpenTime - candles * c.intervalMs)).clampToSeries
    rw [e, e']
    exact clampToSeries_series _

theorem onZoomWheel_series (c : ChartController) (wheelDelta : Int) (mouseX : Rat)
    (canvasX : Nat) : (c.onZoomWheel wheelDelta mouseX canvasX).series = c.series := by
  obtain e | ⟨_, _, _, -, -, -, e⟩ := onZoomWheel_cases c wheelDelta mouseX canvasX
  · rw [e]
  · rw [e]
    exact clampToSeries_series _

theorem panByCandles_drawn {candles : Int} (h : .snapshot ∉ (s.panByCandles candles).2) :
    s.chart.Drawn (s.panByCandles candles).1.chart := by
  dsimp only [ChartInput.panByCandles] at h
  rw [List.mem_append, not_or] at h
  exact drawn_of_not_moved (panByCandles_series s.chart candles) h.2

theorem onZoomWheel_drawn {wheelDelta : Int} {mouseX : Rat} {canvasX : Nat}
    (h : .snapshot ∉ (s.onZoomWheel wheelDelta mouseX canvasX).2) :
    s.chart.Drawn (s.onZoomWheel wheelDelta mouseX canvasX).1.chart :=
  drawn_of_not_moved (onZoomWheel_series s.chart wheelDelta mouseX canvasX) h

theorem onMouseMoved_draws (s : ChartInput) (x : Rat) : Draws s.chart (s.onMouseMoved x) := by
  unfold ChartInput.onMouseMoved
  split
  · exact draws_nothing s _
  · rename_i size _
    dsimp only
    split
    · exact draws_nothing s _
    · split
      · intro h
        obtain ⟨-, e⟩ | ⟨total, -, e⟩ := onPanPixels_cases s (clamp x 0 (size.1 : Rat) - s.lastPanX)
        · rw [e]
          exact .refl _
        · rw [e] at h ⊢
          exact panByCandles_drawn h
      · exact draws_nothing s _

theorem onKeyPressed_draws (s : ChartInput) (key : Key) (fast : Bool) :
    Draws s.chart (s.onKeyPressed key fast) := by
  have hzoom (wheelDelta : Int) : Draws s.chart (match s.window with
      | none => (s, [])
      | some size => s.onZoomWheel wheelDelta (size.1 * (1 / 2)) size.1) := by
    split
    · exact draws_nothing s _
    · exact onZoomWheel_drawn
  unfold ChartInput.onKeyPressed
  split
  · exact draws_nothing s _
  · cases key with
    | left => exact panByCandles_drawn
    | right => exact panByCandles_drawn
    | add => exact hzoom 1
    | subtract => exact hzoom (-1)
    | other => exact draws_nothing s _

theorem setSeries_draws (s : ChartInput) (series : Option CandleSeries) :
    Draws s.chart (s.setSeries series) := by
  unfold ChartInput.setSeries
  dsimp only
  split
  · rename_i hs
    intro _
    cases series with
    | none => exact ⟨.inr hs, rfl, rfl⟩
    | some series =>
      by_cases hd : series.data = []
      · refine ⟨.inr hs, ?_, ?_⟩ <;>
        · dsimp only
          rw [setSeries_empty hd]
      · obtain ⟨view, awaited, e, -⟩ := setSeries_eq (c := s.chart) hd
        rw [e, ChartController.shown, clampToSeries_series, Option.filter_some,
          if_pos (by simpa using hd)] at hs
        cases hs
  · exact fun h => absurd List.mem_cons_self h

theorem handle_draws (s : ChartInput) (a : InputCall) : Draws s.chart (s.handle a) := by
  cases a with
  | setSeries series => exact setSeries_draws s series
  | setVisibleLimits minBars maxBars => exact fun h => absurd List.mem_cons_self h
  | attachWindow size => exact fun _ => .refl _
  | mouseWheelScrolled vertical delta x y =>
    dsimp only [ChartInput.handle]
    split
    · exact draws_nothing s _
    · split
      · exact onZoomWheel_drawn
      · exact draws_nothing s _
  | mouseButtonPressed button x y =>
    dsimp only [ChartInput.handle, ChartInput.onMouseButtonPressed]
    split
    · exact draws_nothing s _
    · split <;> exact fun _ => .refl _
  | mouseButtonReleased button =>
    dsimp only [ChartInput.handle, ChartInput.onMouseButtonReleased]
    split <;> exact fun _ => .refl _
  | mouseMoved x y => exact onMouseMoved_draws s x
  | keyPressed key fast => exact onKeyPressed_draws s key fast
  | resized size => exact fun h => absurd List.mem_cons_self h

/-- The run lemma of `handle_draws`. -/
theorem run_draws (s : ChartInput) (as : List InputCall) : Draws s.chart (s.run as) := by
  induction as generalizing s with
  | nil => exact draws_nothing s _
  | cons a as ih =>
    intro h
    dsimp only [ChartInput.run] at h
    rw [List.mem_append, not_or] at h
    exact (handle_draws s a h.1).trans (ih _ h.2)

end Drawn

theorem ChartInput.run_append [ViewportMaths] (s : ChartInput) (as bs : List InputCall) :
    (s.run (as ++ bs)).1 = ((s.run as).1.run bs).1 := by
  induction as generalizing s with
  | nil => rfl
  | cons a as ih => exact ih _

/-- In every run the view stays on the series and less than a candle is carried
over, in a drag only. What is on the screen is what the last snapshot that was
asked for showed, unless the series has gone. -/
theorem run_steady [ViewportMaths] (I : Int) (hI : 0 < I) (view : Viewport)
    (as bs : List InputCall) (hcalls : ∀ a ∈ as ++ bs, a.OnGrid I) :
    let s := ((ChartInput.construct view).run as).1
    (s.run bs).1.Steady I ∧
      (.snapshot ∉ (s.run bs).2 → s.chart.Drawn (s.run bs).1.chart) := by
  intro s
  refine ⟨?_, run_draws s bs⟩
  rw [← ChartInput.run_append]
  exact run_keeps_steady hI (construct_steady view) hcalls

theorem sixtyMinutes_contiguous : sixtyMinutes.Contiguous 60000 :=
  (fortyShown_zoomsFreely 100 (by decide +kernel)).contiguous

/-- Sixty candles in a window of 400 pixels: three pixels are less than one of
them. -/
theorem run_steady_three_pixels :
    let s := ((ChartInput.construct ⟨0, 0, 0, 0⟩).run [.attachWindow (some (400, 300)),
      .setSeries (some sixtyMinutes), .mouseButtonPressed .left 100 50]).1
    (s.run [.mouseMoved 103 50]).1.panAccumulator = 9 / 20 ∧
      (s.run [.mouseMoved 103 50]).1.Steady 60000 ∧
      s.chart.Drawn (s.run [.mouseMoved 103 50]).1.chart := by
  intro s
  have h := run_steady 60000 (by decide) ⟨0, 0, 0, 0⟩ [.attachWindow (some (400, 300)),
    .setSeries (some sixtyMinutes), .mouseButtonPressed .left 100 50] [.mouseMoved 103 50]
    fun a ha => by
      simp only [List.cons_append, List.nil_append, List.mem_cons, List.not_mem_nil,
        or_false] at ha
      rcases ha with rfl | rfl | rfl | rfl
      · trivial
      · exact fun _ => ⟨sixtyMinutes_contiguous, by decide⟩
      · trivial
      · trivial
  exact ⟨by decide +kernel, h.1, h.2 (by decide +kernel)⟩

/-! ## Drags -/

/-- A drag in a window of the size `width` by `height`. -/
structure ChartInput.Dragged (I : Int) (s : ChartInput) (series : CandleSeries)
    (width height : Nat) : Prop where
  holds : s.chart.Holds I series
  fits : s.chart.Fits I series
  interval : s.chart.intervalMs = I
  window : s.window = some (width, height)
  size : 0 < width ∧ 0 < height
  panning : s.panning = true
  carried : |s.panAccumulator| < 1

/-- The right edges that `c` can have with the candles that it shows. -/
def ChartController.keepRight (c : ChartController) (I : Int) (series : CandleSeries) :
    Int → Int :=
  keep (series.firstOpen + (c.view.candlesVisible - 1) * I) series.lastOpen

def ChartInput.moves [ViewportMaths] (s : ChartInput) (xs : List Rat) : ChartInput :=
  xs.foldl (fun s x => (s.onMouseMoved x).1) s

/-- The moves of the mouse in candles. -/
def strides (width candles : Nat) (last : Rat) : List Rat → List Rat
  | [] => []
  | x :: xs =>
    (clamp x 0 (width : Rat) - last) * candles / width ::
      strides width candles (clamp x 0 (width : Rat)) xs

/-- Moves that go one way. -/
def OneWay {α : Type*} [LE α] (xs : List α) : Prop :=
  xs.IsChain (· ≤ ·) ∨ xs.IsChain (· ≥ ·)

/-- The moves add up to the way from the first place to the last. -/
theorem sum_strides (width candles : Nat) (last : Rat) (xs : List Rat) (x : Rat) :
    (strides width candles last (xs ++ [x])).sum =
      (clamp x 0 (width : Rat) - last) * candles / width := by
  induction xs generalizing last with
  | nil => simp [strides]
  | cons y ys ih =>
    rw [List.cons_append, strides, List.sum_cons, ih]
    ring

theorem clamp_mono {lo hi a b : Rat} (hle : lo ≤ hi) (h : a ≤ b) :
    clamp a lo hi ≤ clamp b lo hi := by
  unfold clamp
  split_ifs <;> linarith

theorem strides_nonneg {width candles : Nat} {a : Rat} {xs : List Rat}
    (h : (a :: xs).IsChain (· ≤ ·)) :
    ∀ d ∈ strides width candles (clamp a 0 (width : Rat)) xs, 0 ≤ d := by
  induction xs generalizing a with
  | nil => exact fun d hd => absurd hd List.not_mem_nil
  | cons x xs ih =>
    obtain ⟨hax, hxs⟩ := List.isChain_cons_cons.mp h
    exact List.forall_mem_cons.mpr ⟨div_nonneg (mul_nonneg
      (sub_nonneg.mpr (clamp_mono (Nat.cast_nonneg _) hax)) (Nat.cast_nonneg _))
      (Nat.cast_nonneg _), ih hxs⟩

theorem strides_nonpos {width candles : Nat} {a : Rat} {xs : List Rat}
    (h : (a :: xs).IsChain (· ≥ ·)) :
    ∀ d ∈ strides width candles (clamp a 0 (width : Rat)) xs, d ≤ 0 := by
  induction xs generalizing a with
  | nil => exact fun d hd => absurd hd List.not_mem_nil
  | cons x xs ih =>
    obtain ⟨hax, hxs⟩ := List.isChain_cons_cons.mp h
    exact List.forall_mem_cons.mpr ⟨div_nonpos_of_nonpos_of_nonneg (mul_nonpos_of_nonpos_of_nonneg
      (sub_nonpos.mpr (clamp_mono (Nat.cast_nonneg _) hax)) (Nat.cast_nonneg _))
      (Nat.cast_nonneg _), ih hxs⟩

section Drags

variable {I : Int} {c : ChartController} {series : CandleSeries}

theorem clamp_eq_keep {lo hi : Int} (h : lo ≤ hi) (v : Int) : clamp v lo hi = keep lo hi v := by
  unfold clamp
  split
  · rename_i hlo
    rw [keep, min_eq_right (hlo.le.trans h), max_eq_left hlo.le]
  · rename_i hlo
    split
    · rename_i hhi
      rw [keep, min_eq_left hhi.le, max_eq_right h]
    · rename_i hhi
      exact (keep_of_mem ⟨not_lt.mp hlo, not_lt.mp hhi⟩).symm

theorem sum_pans (I : Int) (ns : List Int) : (ns.map fun n => -(n * I)).sum = -(ns.sum * I) := by
  induction ns with
  | nil => simp
  | cons n ns ih =>
    rw [List.map_cons, List.sum_cons, ih, List.sum_cons]
    ring

theorem keepRight_mem (hf : c.Fits I series) : c.keepRight I series c.view.rightmostOpenTime =
    c.view.rightmostOpenTime := keep_of_mem hf.right

theorem Fits.visible_pos (hf : c.Fits I series) : 1 ≤ c.view.candlesVisible :=
  hf.least.trans hf.visible.1

variable [ViewportMaths]

/-- The number of candles is kept, and the right edge is moved back onto the series. -/
theorem clampToSeries_keepRight (hI : 0 < I) (hi : c.intervalMs = I) (h : c.Holds I series)
    (hv : min c.minBars series.data.length ≤ c.view.candlesVisible ∧
      c.view.candlesVisible ≤ min (max c.maxBars c.minBars) series.data.length) :
    c.clampToSeries =
      c.moved c.view.candlesVisible (c.keepRight I series c.view.rightmostOpenTime) := by
  have hmin := h.minBars
  have hlen := h.contiguous.length_pos
  have hpos : 1 ≤ c.view.candlesVisible := by omega
  have hbounds : min (max c.minBars 1) series.data.length ≤ c.view.candlesVisible ∧
      c.view.candlesVisible ≤
        min (max c.maxBars (min (max c.minBars 1) series.data.length)) series.data.length := by
    omega
  have hends : series.firstOpen + (c.view.candlesVisible - 1) * I ≤ series.lastOpen := by
    rw [h.contiguous.lastOpen_eq]
    exact Int.add_le_add_left (Int.mul_le_mul_of_nonneg_right (by omega) hI.le) _
  unfold ChartController.clampToSeries ChartController.ensureVisibleWithinSeries
  rw [shown_of_contiguous h.shows h.contiguous]
  dsimp only
  rw [hi, if_neg (not_le.mpr hI), if_neg (show ¬ min (max c.maxBars _) _ = 0 by omega),
    max_eq_right hpos, clamp_of_mem hbounds, spanMs_of_pos hpos, if_neg (not_lt.mpr hends),
    clamp_eq_keep hends]
  rfl

theorem clampToSeries_moved (hI : 0 < I) (hi : c.intervalMs = I) (h : c.Holds I series)
    (hf : c.Fits I series) (rightmost : Int) :
    (c.moved c.view.candlesVisible rightmost).clampToSeries =
      c.moved c.view.candlesVisible (c.keepRight I series rightmost) :=
  clampToSeries_keepRight (c := c.moved _ _) hI hi
    ⟨h.shows, h.contiguous, h.onGrid, h.minBars⟩ hf.visible

theorem panByCandles_keeps (hI : 0 < I) (hi : c.intervalMs = I) (h : c.Holds I series)
    (hf : c.Fits I series) (candles : Int) :
    (c.panByCandles candles).1.view = { c.view with
      rightmostOpenTime := c.keepRight I series (c.view.rightmostOpenTime + -(candles * I)) } := by
  obtain ⟨hnone, e⟩ | ⟨-, e⟩ := panByCandles_cases c candles
  · obtain rfl | hs | hle := hnone
    · rw [e, Int.zero_mul, Int.neg_zero, Int.add_zero, keepRight_mem hf]
    · rw [shown_of_contiguous h.shows h.contiguous] at hs
      cases hs
    · omega
  · rw [e, hi, clampToSeries_moved hI hi h hf]
    obtain ⟨flag, awaited, e'⟩ := maybeRequestBackfill_eq
      (c.moved c.view.candlesVisible (c.keepRight I series (c.view.rightmostOpenTime - candles * I)))
    rw [e']
    rfl

/-- What one move of the mouse pans. -/
theorem onMouseMoved_dragged {s : ChartInput} {width height : Nat} (hI : 0 < I)
    (h : s.Dragged I series width height) (x : Rat) :
    let total := s.panAccumulator +
      (clamp x 0 (width : Rat) - s.lastPanX) * s.chart.view.candlesVisible / width
    (s.onMouseMoved x).1.Dragged I series width height ∧
    (s.onMouseMoved x).1.lastPanX = clamp x 0 (width : Rat) ∧
    (s.onMouseMoved x).1.panButton = s.panButton ∧
    (s.onMouseMoved x).1.panAccumulator = total - whole total ∧
    (s.onMouseMoved x).1.chart.view = { s.chart.view with
      rightmostOpenTime := s.chart.keepRight I series
        (s.chart.view.rightmostOpenTime + -(whole total * I)) } := by
  intro total
  unfold ChartInput.onMouseMoved
  rw [h.window]
  dsimp only
  rw [if_neg (by simp [h.panning, h.size.1.ne', h.size.2.ne'])]
  split
  · obtain ⟨hnone, -⟩ | ⟨total', htotal, e⟩ :=
      onPanPixels_cases s (clamp x 0 (width : Rat) - s.lastPanX)
    · rw [shown_of_contiguous h.holds.shows h.holds.contiguous, h.window] at hnone
      have := h.interval
      obtain hs | hle | hw := hnone
      · cases hs
      · omega
      · exact absurd hw h.size.1.ne'
    · have htotal' : total' = total := by
        rw [htotal, h.window, max_eq_left (Fits.visible_pos h.fits), div_div_eq_mul_div]
        rfl
      have hfits := panByCandles_fits hI h.holds h.fits (whole total)
      have hseries := panByCandles_series s.chart (whole total)
      rw [e, htotal']
      refine ⟨⟨hfits.1, hfits.2, ?_, h.window, h.size, h.panning, abs_sub_whole_lt_one _⟩, rfl,
        rfl, rfl, panByCandles_keeps hI h.interval h.holds h.fits _⟩
      show (s.chart.panByCandles (whole total)).1.intervalMs = I
      rw [ChartController.intervalMs, hseries]
      exact h.interval
  · rename_i hstill
    have hx : clamp x 0 (width : Rat) - s.lastPanX = 0 := by
      by_contra hne
      exact hstill (abs_pos.mpr hne)
    have htotal : total = s.panAccumulator := by
      show s.panAccumulator + _ * _ / _ = _
      rw [hx, zero_mul, zero_div, add_zero]
    rw [htotal, whole_eq_zero h.carried, Int.zero_mul, Int.neg_zero, Int.add_zero,
      keepRight_mem h.fits, Int.cast_zero, sub_zero]
    exact ⟨h, (sub_eq_zero.mp hx).symm, rfl, rfl, rfl⟩

/-- What the moves of a drag pan: each of them pans what is paid for it. -/
theorem moves_pan {s : ChartInput} {width height : Nat} (hI : 0 < I)
    (h : s.Dragged I series width height) (xs : List Rat) :
    let paid := pay s.panAccumulator (strides width s.chart.view.candlesVisible s.lastPanX xs)
    (s.moves xs).Dragged I series width height ∧
    (s.moves xs).panButton = s.panButton ∧
    (s.moves xs).panAccumulator = paid.2 ∧
    (s.moves xs).chart.view = { s.chart.view with
      rightmostOpenTime := (paid.1.map fun n => -(n * I)).foldl
        (fun r d => s.chart.keepRight I series (r + d)) s.chart.view.rightmostOpenTime } := by
  induction xs generalizing s with
  | nil => exact ⟨h, rfl, rfl, rfl⟩
  | cons x xs ih =>
    obtain ⟨hd, hlast, hbutton, hacc, hview⟩ := onMouseMoved_dragged hI h x
    obtain ⟨hd', hbutton', hacc', hview'⟩ := ih hd
    have hvisible : (s.onMouseMoved x).1.chart.view.candlesVisible =
        s.chart.view.candlesVisible := by rw [hview]
    have hkeep : (s.onMouseMoved x).1.chart.keepRight I series = s.chart.keepRight I series := by
      rw [ChartController.keepRight, hvisible, ChartController.keepRight]
    rw [hlast, hacc, hvisible] at hacc' hview'
    refine ⟨hd', hbutton'.trans hbutton, hacc', hview'.trans ?_⟩
    rw [hkeep, hview]
    rfl

/-- Moves that go one way pan as one move would. -/
theorem moves_at_once {s : ChartInput} {width height : Nat} (hI : 0 < I)
    (h : s.Dragged I series width height) (hacc : s.panAccumulator = 0) {a x : Rat} {xs : List Rat}
    (hlast : s.lastPanX = clamp a 0 (width : Rat)) (hxs : OneWay (a :: (xs ++ [x]))) :
    (s.moves (xs ++ [x])).chart.view = { s.chart.view with
      rightmostOpenTime := s.chart.keepRight I series (s.chart.view.rightmostOpenTime -
        whole ((clamp x 0 (width : Rat) - clamp a 0 (width : Rat)) *
          s.chart.view.candlesVisible / width) * I) } := by
  obtain ⟨-, -, -, hview⟩ := moves_pan hI h (xs ++ [x])
  have hsigns : SameSign
      (strides width s.chart.view.candlesVisible (clamp a 0 (width : Rat)) (xs ++ [x])) :=
    hxs.imp strides_nonneg strides_nonpos
  obtain ⟨hpaid, hsum⟩ := sum_pay_of_same_sign hsigns
  rw [sum_strides] at hsum
  rw [hview, hacc, hlast]
  have hmoves : SameSign ((pay 0 (strides width s.chart.view.candlesVisible
      (clamp a 0 (width : Rat)) (xs ++ [x]))).1.map fun n => -(n * I)) := by
    refine hpaid.symm.imp (fun hn d hd => ?_) fun hn d hd => ?_ <;>
      obtain ⟨n, hm, rfl⟩ := List.mem_map.mp hd
    · exact Int.neg_nonneg_of_nonpos (Int.mul_nonpos_of_nonpos_of_nonneg (hn n hm) hI.le)
    · exact Int.neg_nonpos_of_nonneg (Int.mul_nonneg (hn n hm) hI.le)
  have hend := foldl_keep_of_same_sign h.fits.right hmoves
  unfold ChartController.keepRight
  rw [hend, sum_pans, hsum, ← Int.sub_eq_add_neg]

/-- Where no end of the series stops a drag, it has panned the way of the mouse
to within one candle. -/
theorem moves_free {s : ChartInput} {width height : Nat} (hI : 0 < I)
    (h : s.Dragged I series width height) (xs : List Rat)
    (hfree : ∀ ys, ys <+: xs → series.firstOpen + (s.chart.view.candlesVisible - 1) * I <
        (s.moves ys).chart.view.rightmostOpenTime ∧
      (s.moves ys).chart.view.rightmostOpenTime < series.lastOpen) :
    let paid := pay s.panAccumulator (strides width s.chart.view.candlesVisible s.lastPanX xs)
    (s.moves xs).chart.view = { s.chart.view with
      rightmostOpenTime := s.chart.view.rightmostOpenTime - paid.1.sum * I } := by
  induction xs generalizing s with
  | nil =>
    dsimp only [strides, pay, List.sum_nil]
    rw [Int.zero_mul, Int.sub_zero]
    rfl
  | cons x xs ih =>
    obtain ⟨hd, hlast, -, hacc, hview⟩ := onMouseMoved_dragged hI h x
    have hinside := hfree [x] (List.prefix_append [x] xs)
    dsimp only [ChartInput.moves, List.foldl_cons, List.foldl_nil] at hinside
    rw [hview] at hinside
    have hright := eq_of_keep_mem hinside.1 hinside.2
    have hvisible : (s.onMouseMoved x).1.chart.view.candlesVisible =
        s.chart.view.candlesVisible := by rw [hview]
    have hrest := ih hd fun ys hys => by
      rw [hvisible]
      exact hfree (x :: ys) (List.cons_prefix_cons.mpr ⟨rfl, hys⟩)
    rw [hlast, hacc, hvisible, hview] at hrest
    refine hrest.trans ?_
    dsimp only [strides, pay_cons, List.sum_cons]
    rw [ChartController.keepRight, hright, Int.add_mul]
    congr 1
    omega

end Drags

/-- A controller at rest, and a button of the mouse that goes down inside its
window. -/
structure ChartInput.Ready (I : Int) (s : ChartInput) (series : CandleSeries) (width height : Nat)
    (button : MouseButton) (x y : Int) : Prop where
  holds : s.chart.Holds I series
  fits : s.chart.Fits I series
  interval : s.chart.intervalMs = I
  window : s.window = some (width, height)
  panning : s.panning = false
  carried : s.panAccumulator = 0
  button : button = .left ∨ button = .middle
  inside : (0 ≤ x ∧ x < width) ∧ 0 ≤ y ∧ y < height

/-- The places of the mouse, as events. -/
def mouseMoves (ps : List (Int × Int)) : List InputCall := ps.map fun p => .mouseMoved p.1 p.2

def places (ps : List (Int × Int)) : List Rat := ps.map fun p => (p.1 : Rat)

/-- The way of the mouse from `x` to the last place, in candles. -/
def wayInCandles (width candles : Nat) (x last : Int) : Rat :=
  (clamp (last : Rat) 0 (width : Rat) - x) * candles / width

section Gestures

variable {I : Int} {s : ChartInput} {series : CandleSeries} {width height : Nat}
  {button : MouseButton} {x y : Int}

theorem clamp_pressed (h : s.Ready I series width height button x y) :
    clamp (x : Rat) 0 (width : Rat) = x :=
  clamp_of_mem ⟨by exact_mod_cast h.inside.1.1, by exact_mod_cast h.inside.1.2.le⟩

theorem OneWay.cast {xs : List Int} (h : OneWay xs) : OneWay (xs.map (Int.cast : Int → Rat)) :=
  h.imp (fun h => (List.isChain_map _).mpr (h.imp fun _ _ hab => Int.cast_le.mpr hab))
    fun h => (List.isChain_map _).mpr (h.imp fun _ _ hab => ge_iff_le.mpr (Int.cast_le.mpr hab))

theorem places_concat (ps : List (Int × Int)) (p : Int × Int) :
    places (ps ++ [p]) = places ps ++ [(p.1 : Rat)] := List.map_append

variable [ViewportMaths]

theorem run_mouseMoves (s : ChartInput) (ps : List (Int × Int)) :
    (s.run (mouseMoves ps)).1 = s.moves (places ps) := by
  induction ps generalizing s with
  | nil => rfl
  | cons p ps ih => exact ih _

/-- The press begins a drag. -/
theorem ChartInput.Ready.pressed (h : s.Ready I series width height button x y) :
    (s.handle (.mouseButtonPressed button x y)).1 =
      { s with panning := true, panButton := button, lastPanX := x } ∧
    { s with panning := true, panButton := button, lastPanX := (x : Rat) }.Dragged I series
      width height := by
  obtain ⟨⟨hx, hxw⟩, hy, hyh⟩ := h.inside
  refine ⟨?_, ⟨h.holds, h.fits, h.interval, h.window, ⟨by omega, by omega⟩, rfl, ?_⟩⟩
  · show s.onMouseButtonPressed button x y = _
    have hbutton : (button ≠ .left && button ≠ .middle : Bool) = false := by
      rcases h.button with rfl | rfl <;> rfl
    have hx' : ¬ (x : Rat) < 0 := not_lt.mpr (by exact_mod_cast hx)
    have hy' : ¬ (y : Rat) < 0 := not_lt.mpr (by exact_mod_cast hy)
    have hxw' : ¬ (width : Rat) ≤ x := not_le.mpr (by exact_mod_cast hxw)
    have hyh' : ¬ (height : Rat) ≤ y := not_le.mpr (by exact_mod_cast hyh)
    unfold ChartInput.onMouseButtonPressed
    rw [h.window]
    dsimp only
    rw [hbutton, if_neg]
    simp only [Bool.false_or, Bool.or_eq_true, decide_eq_true_eq, hx', hy', hxw', hyh', or_false]
    omega
  · show |s.panAccumulator| < 1
    rw [h.carried, abs_zero]
    exact one_pos

/-- A drag is what its moves make of the state after the press. -/
theorem run_drag (h : s.Ready I series width height button x y) (ps : List (Int × Int)) :
    (s.run (.mouseButtonPressed button x y :: mouseMoves ps)).1 =
      { s with panning := true, panButton := button, lastPanX := (x : Rat) }.moves
        (places ps) := by
  rw [← run_mouseMoves, ← h.pressed.1]
  rfl

end Gestures

/-- Where no end of the series stops a drag, it has panned whole candles, the way
of the mouse to within one of them, however often the mouse turns. -/
theorem drag_follows [ViewportMaths] (I : Int) (hI : 0 < I) (s : ChartInput) (series : CandleSeries)
    (width height : Nat) (button : MouseButton) (x y : Int)
    (h : s.Ready I series width height button x y) (ps : List (Int × Int)) (p : Int × Int)
    (hfree : ∀ qs, qs <+: ps ++ [p] →
      let view := (s.run (.mouseButtonPressed button x y :: mouseMoves qs)).1.chart.view
      series.firstOpen + (s.chart.view.candlesVisible - 1) * I < view.rightmostOpenTime ∧
        view.rightmostOpenTime < series.lastOpen) :
    ∃ n : Int, |n - wayInCandles width s.chart.view.candlesVisible x p.1| < 1 ∧
      (s.run (.mouseButtonPressed button x y :: mouseMoves (ps ++ [p]))).1.chart.view =
        { s.chart.view with rightmostOpenTime := s.chart.view.rightmostOpenTime - n * I } := by
  have hview := moves_free hI h.pressed.2 (places (ps ++ [p])) fun ys hys => by
    obtain ⟨qs, hqs, rfl⟩ := List.prefix_map_iff.mp hys
    show _ ∧ _
    rw [← places, ← run_drag h]
    exact hfree qs hqs
  rw [← run_drag h] at hview
  refine ⟨_, ?_, hview⟩
  have hsum := sum_pay s.panAccumulator
    (strides width s.chart.view.candlesVisible x (places (ps ++ [p])))
  have hleft := abs_pay_lt_one h.pressed.2.carried
    (strides width s.chart.view.candlesVisible x (places (ps ++ [p])))
  rw [h.carried, zero_add, places_concat, sum_strides, ← places_concat] at hsum
  rw [h.carried] at hleft
  dsimp only
  rw [wayInCandles, ← hsum, h.carried, sub_add_cancel_left, abs_neg]
  exact hleft

/-- Forty candles in a window of 400 pixels. -/
def fortyInput : ChartInput := { chart := fortyShown, window := some (400, 300) }

theorem fortyInput_ready : fortyInput.Ready 60000 sixtyMinutes 400 300 .left 100 50 where
  holds := ⟨rfl, sixtyMinutes_contiguous, by decide, by decide⟩
  fits := ⟨⟨rfl, by decide +kernel, by decide +kernel, by decide +kernel⟩,
    flatCandle 3300000 true, by decide +kernel, rfl⟩
  interval := by decide +kernel
  window := rfl
  panning := rfl
  carried := rfl
  button := .inl rfl
  inside := by decide

/-- Seventeen pixels to the right, ten back, and eighteen to the right. -/
theorem drag_follows_turning :
    ∃ n : Int, |n - wayInCandles 400 40 100 125| < 1 ∧
      (fortyInput.run [.mouseButtonPressed .left 100 50, .mouseMoved 117 50, .mouseMoved 107 50,
        .mouseMoved 125 50]).1.chart.view =
        { fortyShown.view with rightmostOpenTime := 3300000 - n * 60000 } :=
  drag_follows 60000 (by decide) fortyInput sixtyMinutes 400 300 .left 100 50 fortyInput_ready
    [(117, 50), (107, 50)] (125, 50) fun qs hqs => by
      have hmem := (List.mem_inits qs _).mpr hqs
      clear hqs
      revert qs
      decide +kernel

/-- A drag in one direction pans the whole candles of the way of the mouse, as
far as the series goes: as one move of the mouse would, however many there
were. -/
theorem drag_at_once [ViewportMaths] (I : Int) (hI : 0 < I) (s : ChartInput) (series : CandleSeries)
    (width height : Nat) (button : MouseButton) (x y : Int)
    (h : s.Ready I series width height button x y) (ps : List (Int × Int)) (p : Int × Int)
    (hway : OneWay (x :: (ps ++ [p]).map Prod.fst)) :
    let s' := (s.run (.mouseButtonPressed button x y :: mouseMoves (ps ++ [p]) ++
      [.mouseButtonReleased button])).1
    s'.chart.view = { s.chart.view with
      rightmostOpenTime := s.chart.keepRight I series (s.chart.view.rightmostOpenTime -
        whole (wayInCandles width s.chart.view.candlesVisible x p.1) * I) } ∧
    s'.panning = false ∧ s'.panAccumulator = 0 := by
  intro s'
  have hd := h.pressed.2
  have hway' : OneWay ((x : Rat) :: (places ps ++ [(p.1 : Rat)])) := by
    have := hway.cast
    rw [List.map_cons, List.map_map] at this
    rwa [← places_concat]
  have hview := moves_at_once hI hd h.carried (clamp_pressed h).symm hway'
  obtain ⟨hd', hbutton, -⟩ := moves_pan hI hd (places (ps ++ [p]))
  rw [← places_concat, ← run_drag h, clamp_pressed h] at hview
  rw [← run_drag h] at hd' hbutton
  have hrelease : s' = { (s.run (.mouseButtonPressed button x y :: mouseMoves (ps ++ [p]))).1 with
      panning := false, panAccumulator := 0 } := by
    show (s.run ((.mouseButtonPressed button x y :: mouseMoves (ps ++ [p])) ++
      [.mouseButtonReleased button])).1 = _
    rw [ChartInput.run_append]
    show ChartInput.onMouseButtonReleased _ button = _
    rw [ChartInput.onMouseButtonReleased, if_pos]
    rw [hd'.panning, hbutton, decide_eq_true rfl, Bool.and_self]
  rw [hrelease]
  exact ⟨hview, rfl, rfl⟩

/-- Two and a half candles to the right, in two moves. -/
theorem drag_at_once_right :
    (fortyInput.run [.mouseButtonPressed .left 100 50, .mouseMoved 117 50, .mouseMoved 125 50,
      .mouseButtonReleased .left]).1.chart.view.rightmostOpenTime = 3300000 - 2 * 60000 := by
  have h := (drag_at_once 60000 (by decide) fortyInput sixtyMinutes 400 300 .left 100 50
    fortyInput_ready [(117, 50)] (125, 50)
    (.inl (.cons_cons (by decide) (.cons_cons (by decide) (.singleton _))))).1
  exact (congrArg Viewport.rightmostOpenTime h).trans (by decide +kernel)

end TCV.App
