import TradingChartViewer.App.Snapshot
import TradingChartViewer.Indicators.IndicatorCoordinator
import TradingChartViewer.Lib.Strips
import Mathlib.Data.List.Sort

/-!
# Drawing

The commands that `Application::enqueueCandleRender` gives to `ui::RenderManager`,
and the lines of an indicator that one of them draws. A command is known by its
`Layer`; what the others draw is left out. `std::sort` is a parameter.

* `RenderManager`: the queue of commands, and the view of the window;
* `frameLayers`, `drawOrder`: the commands of a frame, and the order they are drawn in;
* `render_frameLayers`: that is the order, however equal commands are sorted;
* `indicatorStrips`, `line_drawn`: the line of an indicator.
-/

namespace TCV.App

open TCV.Domain TCV.Indicators Lib.Strips

/-! ## The layers -/

/-- What a command draws. -/
inductive Layer
  | stateOverlay
  | grid
  | wicks
  | candles
  | indicators
  | axes
  | labels
  | crosshair
  | hud
  deriving DecidableEq, Repr

/-- `std::sort` by the height; commands of one height may come in any order. -/
structure RenderSort where
  run : List (Int × Layer) → List (Int × Layer)
  perm : ∀ l, (run l).Perm l
  sorted : ∀ l, (run l).Pairwise fun a b => a.1 ≤ b.1

/-- One such arrangement. -/
def RenderSort.insertion : RenderSort where
  run := List.insertionSort fun a b => a.1 ≤ b.1
  perm := List.perm_insertionSort _
  sorted := by
    have : Std.Total fun a b : Int × Layer => a.1 ≤ b.1 := ⟨fun a b => Int.le_total a.1 b.1⟩
    have : IsTrans (Int × Layer) fun a b => a.1 ≤ b.1 := ⟨fun _ _ _ => Int.le_trans⟩
    exact List.pairwise_insertionSort _

structure RenderManager where
  commands : List (Int × Layer) := []
  canvasSize : Nat × Nat := (0, 0)
  viewDirty : Bool := true
  deriving DecidableEq, Repr

namespace RenderManager

def addRenderCommand (m : RenderManager) (command : Int × Layer) : RenderManager :=
  { m with commands := m.commands ++ [command] }

def hasCommands (m : RenderManager) : Bool := !m.commands.isEmpty

def onResize (m : RenderManager) (size : Nat × Nat) : RenderManager :=
  if size.1 = 0 || size.2 = 0 then m
  else if size = m.canvasSize then m
  else { m with canvasSize := size, viewDirty := true }

/-- The manager, the view of the window and what has been drawn, after `render` on a window
of the size `windowSize`. -/
def render (sort : RenderSort) (m : RenderManager) (windowSize view : Nat × Nat) :
    RenderManager × (Nat × Nat) × List Layer :=
  let size := if m.canvasSize.1 = 0 || m.canvasSize.2 = 0 then windowSize else m.canvasSize
  let view := if m.viewDirty && 0 < size.1 && 0 < size.2 then size else view
  ({ m with commands := [], viewDirty := false }, view, (sort.run m.commands).map Prod.snd)

end RenderManager

def overlayLayers (resourceProvider : Bool) : List (Int × Layer) :=
  if resourceProvider then [(90, .stateOverlay)] else []

/-- The layers of a valid snapshot; the text of the HUD is never empty. -/
def chartLayers (overlayFont : Bool) (snapshot : FullSnapshot) : List (Int × Layer) :=
  if !snapshot.valid then []
  else
    [(5, .grid), (8, .wicks), (10, .candles), (11, .indicators), (12, .axes)] ++
      (if overlayFont then [(15, .labels)] else []) ++
      (if snapshot.crosshair.isSome then [(20, .crosshair)] else []) ++
      (if overlayFont then [(40, .hud)] else [])

/-- What a frame adds for its snapshot. -/
def frameLayers (resourceProvider overlayFont : Bool) (snapshot : FullSnapshot) :
    List (Int × Layer) :=
  overlayLayers resourceProvider ++ chartLayers overlayFont snapshot

/-- What is drawn of it, from below. -/
def drawOrder (resourceProvider overlayFont : Bool) (snapshot : FullSnapshot) : List Layer :=
  (chartLayers overlayFont snapshot ++ overlayLayers resourceProvider).map Prod.snd

/-- Commands of different heights are drawn in the order of these. -/
theorem RenderSort.run_eq (sort : RenderSort) {l l' : List (Int × Layer)} (hp : l'.Perm l)
    (hs : l'.Pairwise fun a b => a.1 < b.1) : sort.run l = l' := by
  have hperm := (sort.perm l).trans hp.symm
  have hnodup : (l'.map Prod.fst).Nodup := (List.pairwise_map.mpr hs).imp fun h => h.ne
  refine hperm.eq_of_pairwise (fun a b ha hb hab hba => ?_) (sort.sorted l) (hs.imp fun h => h.le)
  exact List.inj_on_of_nodup_map hnodup (hperm.mem_iff.mp ha) hb (le_antisymm hab hba)

theorem render_frameLayers (sort : RenderSort) (resourceProvider overlayFont : Bool)
    (snapshot : FullSnapshot) :
    (sort.run (frameLayers resourceProvider overlayFont snapshot)).map Prod.snd =
      drawOrder resourceProvider overlayFont snapshot := by
  have hheights : (chartLayers overlayFont snapshot ++ overlayLayers resourceProvider).Pairwise
      fun a b => a.1 < b.1 := by
    unfold chartLayers overlayLayers
    cases snapshot.valid <;> cases overlayFont <;> cases snapshot.crosshair.isSome <;>
      cases resourceProvider <;> decide
  rw [frameLayers, drawOrder, sort.run_eq List.perm_append_comm hheights]

/-! ## The line of an indicator -/

/-- The points of the visible candles, up to the end of the values; `none` is a value that is
not finite. -/
def indicatorPoints (snapshot : RenderSnapshot) (values : List (Option Rat)) :
    List (Option (Rat × Rat)) :=
  ((values.drop snapshot.firstVisibleIndex).zip snapshot.candles).map fun p =>
    p.1.map fun value => (p.2.centerX,
      priceToY value snapshot.visiblePriceMin snapshot.pxPerPrice snapshot.canvasHeight)

def indicatorStrips (snapshot : RenderSnapshot) (values : List (Option Rat)) :
    List (List (Rat × Rat)) :=
  if values.length ≤ snapshot.firstVisibleIndex then []
  else stripsFrom [] (indicatorPoints snapshot values)

/-- What the command of the indicators draws. -/
def drawIndicators (snapshot : RenderSnapshot) (indicators : List IndicatorSeries) :
    List (List (Rat × Rat)) :=
  if indicators.isEmpty || snapshot.candles.isEmpty then []
  else indicators.flatMap fun indicator => indicatorStrips snapshot indicator.values

/-- Where the line goes at a visible candle that has a value: on the axis of the candle, at
the height of the price. -/
def linePoint (snapshot : RenderSnapshot) (values : List (Option Rat)) (i : Nat) :
    Option (Rat × Rat) :=
  snapshot.candles[i]?.bind fun candle =>
    values[snapshot.firstVisibleIndex + i]?.join.map fun value => (candle.centerX,
      priceToY value snapshot.visiblePriceMin snapshot.pxPerPrice snapshot.canvasHeight)

section Line

variable (snapshot : RenderSnapshot) (values : List (Option Rat))

theorem join_indicatorPoints (i : Nat) :
    (indicatorPoints snapshot values)[i]?.join = linePoint snapshot values i := by
  rw [indicatorPoints, linePoint, List.getElem?_map, List.zip, List.getElem?_zipWith,
    List.getElem?_drop]
  cases values[snapshot.firstVisibleIndex + i]? with
  | none => cases snapshot.candles[i]? <;> rfl
  | some value => cases snapshot.candles[i]? <;> rfl

theorem length_indicatorPoints_le :
    (indicatorPoints snapshot values).length ≤ snapshot.candles.length := by
  rw [indicatorPoints, List.length_map, List.length_zip]
  exact Nat.min_le_right _ _

theorem indicatorStrips_eq :
    indicatorStrips snapshot values = stripsFrom [] (indicatorPoints snapshot values) := by
  unfold indicatorStrips
  split
  · rename_i h
    rw [indicatorPoints, List.drop_eq_nil_of_le h]
    rfl
  · rfl

end Line

/-! ## Averages have no gaps -/

theorem exists_emaLoop (alpha ema : Rat) (closes : List Price) :
    ∃ l : List Rat, emaLoop alpha ema closes = l.map some := by
  induction closes generalizing ema with
  | nil => exact ⟨[], rfl⟩
  | cons price rest ih =>
    obtain ⟨l, hl⟩ := ih ((price - ema) * alpha + ema)
    exact ⟨_ :: l, by rw [emaLoop, hl]; rfl⟩

theorem unbroken_computeEMA (candles : CandleSeries) (params : EmaParams) :
    Unbroken (computeEMA candles params).values := by
  have hnone (n : Nat) : Unbroken (List.replicate n (none : Option Rat)) := by
    simpa using unbroken_replicate_append (α := Rat) n []
  unfold computeEMA
  dsimp only
  split
  · exact hnone _
  split
  · exact hnone _
  · obtain ⟨l, hl⟩ := exists_emaLoop (smoothingFactor params.period)
      (((candles.data.map Candle.close).take (sizeOfInt params.period)).foldl (· + ·) 0 /
        sizeOfInt params.period)
      ((candles.data.map Candle.close).drop (sizeOfInt params.period))
    dsimp only
    rw [hl]
    exact unbroken_replicate_append _ (_ :: l)

theorem unbroken_trimWarmup {series : IndicatorSeries} (h : Unbroken series.values)
    (warmup targetSize : Nat) : Unbroken (trimWarmup series warmup targetSize).values := by
  unfold trimWarmup
  split
  · simpa using unbroken_replicate_append (α := Rat) targetSize []
  · refine h.window warmup targetSize fun i => ?_
    dsimp only
    rw [List.getElem?_append]
    split
    · rename_i hi
      rw [List.length_take] at hi
      rw [List.getElem?_take_of_lt (by omega), List.getElem?_drop]
      exact (and_iff_right (by omega)).symm
    · rename_i hi
      have hnone (n m : Nat) : (List.replicate n (none : Option Rat))[m]?.join = none := by
        rw [List.getElem?_replicate]
        split <;> rfl
      rw [List.length_take, List.length_drop] at hi
      rw [hnone]
      refine ⟨fun h => (nomatch h), fun ⟨hlt, hsome⟩ => ?_⟩
      rw [List.getElem?_eq_none (by omega)] at hsome
      cases hsome

/-- The segments of a line join exactly the neighbours among the visible candles that both have
a value, each point on the axis of its candle at the height of its price. The line of an
average, with or without a warm-up, is one strip through all its visible values. -/
theorem indicator_line (snapshot : RenderSnapshot) :
    (∀ values, (indicatorStrips snapshot values).flatMap segments =
      (List.range snapshot.candles.length).filterMap fun i =>
        (linePoint snapshot values i).bind fun a =>
          (linePoint snapshot values (i + 1)).map (a, ·)) ∧
    ∀ candles params warmup targetSize,
      indicatorStrips snapshot (trimWarmup (computeEMA candles params) warmup targetSize).values =
        emit ((List.range snapshot.candles.length).filterMap
          (linePoint snapshot (trimWarmup (computeEMA candles params) warmup targetSize).values)) := by
  refine ⟨fun values => ?_, fun candles params warmup targetSize => ?_⟩
  · rw [indicatorStrips_eq, segments_stripsFrom,
      joins_eq_filterMap_range_of_le (length_indicatorPoints_le snapshot values)]
    simp only [join_indicatorPoints]
  · have h := unbroken_trimWarmup (unbroken_computeEMA candles params) warmup targetSize
    generalize (trimWarmup (computeEMA candles params) warmup targetSize).values = values at h ⊢
    have hunbroken : Unbroken (indicatorPoints snapshot values) := by
      refine h.window snapshot.firstVisibleIndex snapshot.candles.length fun i => ?_
      rw [join_indicatorPoints, linePoint]
      by_cases hi : i < snapshot.candles.length
      · rw [List.getElem?_eq_getElem hi, Option.bind_some, Option.isSome_map]
        exact (and_iff_right hi).symm
      · rw [List.getElem?_eq_none (not_lt.mp hi)]
        exact ⟨fun h => (nomatch h), fun h => absurd h.1 hi⟩
    rw [indicatorStrips_eq, stripsFrom_of_unbroken hunbroken,
      reduceOption_eq_filterMap_range (length_indicatorPoints_le snapshot values)]
    simp only [join_indicatorPoints]

end TCV.App
