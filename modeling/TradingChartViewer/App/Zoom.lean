import TradingChartViewer.App.ChartController
import TradingChartViewer.Lib.Steps

/-!
# The candle under the cursor

`ChartController::onZoomWheel` where neither an edge of the series nor a limit
clamps the view. It keeps the number of candles between the cursor and the right
edge, but a candle is not as wide afterwards.

* `fromRight`, `Viewport.cursorCandle`: the candle under a cursor;
* `ChartController.ZoomsFreely`: nothing clamps; `onZoomWheel_free`: the view that is taken;
* `CursorKept`: the candle under the cursor moves by one candle at most;
* `cursorKept_iff`: when it does.
-/

namespace TCV.App

open TCV.Domain Lib.Grid Lib.Steps

/-! ## Cursors -/

/-- The distance of a cursor from the right edge, in candles. -/
def fromRight (candles : Nat) (mouseX : Rat) (canvasX : Nat) : Rat :=
  (canvasX - mouseX) * candles / canvasX

/-- The time of the candle under a cursor. -/
def Viewport.cursorCandle (view : Viewport) (I : Int) (mouseX : Rat) (canvasX : Nat) : Int :=
  view.rightmostOpenTime - ⌊fromRight view.candlesVisible mouseX canvasX⌋ * I

/-- It moves by one candle at most. -/
def CursorKept (I : Int) (before after : Viewport) (mouseX : Rat) (canvasX : Nat) : Prop :=
  |after.cursorCandle I mouseX canvasX - before.cursorCandle I mouseX canvasX| ≤ I

/-- `rightmostPrime`, which does not depend on how wide a candle is afterwards. -/
def Viewport.rightmostPrime (view : Viewport) (I : Int) (newCandles : Nat) (mouseX : Rat)
    (canvasX : Nat) : Int :=
  let offsetRight := ⌊fromRight view.candlesVisible mouseX canvasX⌋
  view.rightmostOpenTime - offsetRight * I + min offsetRight (newCandles - 1) * I

/-- The view lies strictly inside the series, and neither a limit nor an edge
clamps it when it is widened or narrowed to `newCandles`. -/
structure ChartController.ZoomsFreely (I : Int) (c : ChartController) (series : CandleSeries)
    (newCandles : Nat) (mouseX : Rat) (canvasX : Nat) : Prop where
  shows : c.series = some series
  contiguous : series.Contiguous I
  visible : 1 ≤ c.view.candlesVisible
  inside : series.firstOpen < c.view.rightmostOpenTime - (c.view.candlesVisible - 1) * I ∧
    c.view.rightmostOpenTime < series.lastOpen
  least : 1 ≤ newCandles ∧ min c.minBars series.data.length ≤ newCandles
  most : newCandles ≤ c.maxBars ∧ newCandles ≤ series.data.length
  edge : series.firstOpen ≤
    c.view.rightmostPrime I newCandles mouseX canvasX - (newCandles - 1) * I

section Cursors

variable {I : Int} {candles canvasX : Nat} {mouseX : Rat}

theorem fromRight_nonneg (hx : mouseX ≤ canvasX) : 0 ≤ fromRight candles mouseX canvasX :=
  div_nonneg (mul_nonneg (sub_nonneg.mpr hx) (Nat.cast_nonneg _)) (Nat.cast_nonneg _)

theorem fromRight_le (hx : 0 ≤ mouseX) : fromRight candles mouseX canvasX ≤ candles := by
  rcases Nat.eq_zero_or_pos canvasX with rfl | hw
  · rw [fromRight, Nat.cast_zero, div_zero]
    exact Nat.cast_nonneg _
  · rw [fromRight, div_le_iff₀ (Nat.cast_pos.mpr hw), mul_comm]
    exact mul_le_mul_of_nonneg_left (by linarith) (Nat.cast_nonneg _)

theorem clamp_of_mem {α : Type*} [LinearOrder α] {v lo hi : α} (h : lo ≤ v ∧ v ≤ hi) :
    clamp v lo hi = v := by
  rw [clamp, if_neg (not_lt.mpr h.1), if_neg (not_lt.mpr h.2)]

/-- `offsetRight`, as the code finds it. -/
theorem offsetRight_eq (hx : 0 ≤ mouseX ∧ mouseX ≤ canvasX) (hv : 1 ≤ candles) :
    ((max (max ((canvasX - clamp mouseX 0 (canvasX : Rat)) / (canvasX / (max candles 1 : Nat)))
      0).floor 0).toNat : Int) = ⌊fromRight candles mouseX canvasX⌋ := by
  have hd : ((canvasX : Rat) - mouseX) / (canvasX / (candles : Nat)) =
      fromRight candles mouseX canvasX := by
    rw [fromRight, div_div_eq_mul_div]
  have h0 : 0 ≤ fromRight candles mouseX canvasX := fromRight_nonneg hx.2
  rw [clamp_of_mem hx, max_eq_left hv, hd, max_eq_left h0]
  show ((max ⌊fromRight candles mouseX canvasX⌋ 0).toNat : Int) = _
  rw [max_eq_left (Int.floor_nonneg.mpr h0), Int.toNat_of_nonneg (Int.floor_nonneg.mpr h0)]

end Cursors

/-! ## A free zoom -/

section Zooms

variable {I : Int} {c : ChartController} {series : CandleSeries}
  {newCandles canvasX : Nat} {mouseX : Rat}

theorem ChartController.ZoomsFreely.intervalMs_eq (hI : 0 < I)
    (hf : c.ZoomsFreely I series newCandles mouseX canvasX) : c.intervalMs = I := by
  refine (intervalMs_of_contiguous hI hf.shows hf.contiguous).resolve_right fun h => ?_
  have hv := hf.visible
  have hlast := hf.contiguous.lastOpen_eq
  rw [h.2, Nat.sub_self, Nat.cast_zero, Int.zero_mul] at hlast
  have hspan : 0 ≤ ((c.view.candlesVisible : Int) - 1) * I := Int.mul_nonneg (by omega) hI.le
  have := hf.inside
  omega

/-- The right edge never moves to the right. -/
theorem rightmostPrime_le (hI : 0 < I) (view : Viewport) (newCandles : Nat) (mouseX : Rat)
    (canvasX : Nat) : view.rightmostPrime I newCandles mouseX canvasX ≤ view.rightmostOpenTime := by
  unfold Viewport.rightmostPrime
  dsimp only
  have := Int.mul_le_mul_of_nonneg_right
    (min_le_left ⌊fromRight view.candlesVisible mouseX canvasX⌋ (newCandles - 1)) hI.le
  omega

variable [ViewportMaths]

theorem clampToSeries_eq_self (hI : 0 < I) (hi : c.intervalMs = I) (hc : c.series = some series)
    (h : series.Contiguous I)
    (hleast : 1 ≤ c.view.candlesVisible ∧
      min c.minBars series.data.length ≤ c.view.candlesVisible)
    (hmost : c.view.candlesVisible ≤ c.maxBars ∧ c.view.candlesVisible ≤ series.data.length)
    (hright : series.firstOpen + (c.view.candlesVisible - 1) * I ≤ c.view.rightmostOpenTime ∧
      c.view.rightmostOpenTime ≤ series.lastOpen) : c.clampToSeries = c := by
  rw [ChartController.clampToSeries, shown_of_contiguous hc h]
  dsimp only
  unfold ChartController.ensureVisibleWithinSeries
  rw [shown_of_contiguous hc h]
  dsimp only
  have hbounds : min (max c.minBars 1) series.data.length ≤ c.view.candlesVisible ∧
      c.view.candlesVisible ≤
        min (max c.maxBars (min (max c.minBars 1) series.data.length)) series.data.length := by
    omega
  rw [hi, if_neg (not_le.mpr hI), if_neg (show ¬ min (max c.maxBars _) _ = 0 by omega),
    max_eq_right hleast.1, clamp_of_mem hbounds, spanMs_of_pos hleast.1,
    if_neg (not_lt.mpr (hright.1.trans hright.2)), clamp_of_mem hright]

/-- Nothing is left to clamp. -/
theorem ChartController.ZoomsFreely.clampToSeries_moved (hI : 0 < I)
    (hf : c.ZoomsFreely I series newCandles mouseX canvasX) :
    (c.moved newCandles (c.view.rightmostPrime I newCandles mouseX canvasX)).clampToSeries =
      c.moved newCandles (c.view.rightmostPrime I newCandles mouseX canvasX) := by
  have hi : (c.moved newCandles (c.view.rightmostPrime I newCandles mouseX canvasX)).intervalMs =
      c.intervalMs := rfl
  exact clampToSeries_eq_self hI (hi.trans (hf.intervalMs_eq hI)) hf.shows hf.contiguous hf.least
    hf.most ⟨le_sub_iff_add_le.mp hf.edge,
      (rightmostPrime_le hI c.view newCandles mouseX canvasX).trans hf.inside.2.le⟩

/-- A free zoom takes the view it asks for. -/
theorem onZoomWheel_free {wheelDelta : Int} (hI : 0 < I) (hx : 0 ≤ mouseX ∧ mouseX ≤ canvasX)
    (hnew : newCandles =
      ViewportMaths.clampCandles c.view (c.view.candlesVisible / kZoomBase ^ wheelDelta))
    (hf : c.ZoomsFreely I series newCandles mouseX canvasX)
    (hchange : (c.onZoomWheel wheelDelta mouseX canvasX).view.candlesVisible ≠
      c.view.candlesVisible) :
    c.onZoomWheel wheelDelta mouseX canvasX =
      c.moved newCandles (c.view.rightmostPrime I newCandles mouseX canvasX) := by
  have hoffset := offsetRight_eq hx hf.visible
  have hedge := not_lt.mpr hf.edge
  unfold Viewport.rightmostPrime at hedge
  have hkept : clamp newCandles 1 (max 1 c.maxBars) = newCandles :=
    clamp_of_mem ⟨hf.least.1, le_max_of_le_right hf.most.1⟩
  unfold ChartController.onZoomWheel at hchange ⊢
  rw [shown_of_contiguous hf.shows hf.contiguous] at hchange ⊢
  dsimp only at hchange ⊢
  rw [← hnew, hkept, hf.intervalMs_eq hI] at hchange ⊢
  by_cases hearly : (wheelDelta = 0 || I ≤ 0 || canvasX = 0) = true
  · rw [if_pos hearly] at hchange
    exact absurd rfl hchange
  rw [if_neg hearly] at hchange ⊢
  by_cases hpx : ((canvasX : Rat) / (max c.view.candlesVisible 1 : Nat) ≤ 0 ||
      kZoomBase ^ wheelDelta ≤ 0) = true
  · rw [if_pos hpx] at hchange
    exact absurd rfl hchange
  rw [if_neg hpx] at hchange ⊢
  by_cases hsame : newCandles = c.view.candlesVisible
  · rw [if_pos hsame] at hchange
    exact absurd rfl hchange
  rw [if_neg hsame, if_pos (show 0 < newCandles from hf.least.1), spanMs_of_pos hf.least.1,
    Nat.cast_min, hoffset, Nat.cast_sub hf.least.1, Nat.cast_one, if_neg hedge]
  exact hf.clampToSeries_moved hI

end Zooms

/-! ## When the candle is kept -/

/-- The cursor's distances from the right edge, in candles of either width,
have not two whole numbers in a row between them, above the smaller and up to
the larger. A cursor that is further from the edge than all the candles that
remain is over one of the two leftmost of them. -/
def CursorStays (candles newCandles : Nat) (mouseX : Rat) (canvasX : Nat) : Prop :=
  let d := fromRight candles mouseX canvasX
  let d' := fromRight newCandles mouseX canvasX
  if newCandles ≤ d then newCandles - 2 ≤ d'
  else ¬ ∃ n : Int, min d d' < n ∧ (n : Rat) + 1 ≤ max d d'

section Kept

variable {I : Int} {c : ChartController} {newCandles canvasX : Nat} {mouseX : Rat}

theorem abs_mul_le_iff (hI : 0 < I) (m : Int) : |m * I| ≤ I ↔ |m| ≤ 1 := by
  rw [abs_mul, abs_of_pos hI]
  exact mul_le_iff_le_one_left hI

theorem cursorKept_moved (hI : 0 < I) :
    CursorKept I c.view
      (c.moved newCandles (c.view.rightmostPrime I newCandles mouseX canvasX)).view mouseX canvasX ↔
      |min ⌊fromRight c.view.candlesVisible mouseX canvasX⌋ (newCandles - 1) -
        ⌊fromRight newCandles mouseX canvasX⌋| ≤ 1 := by
  rw [← abs_mul_le_iff hI, CursorKept, Viewport.cursorCandle, Viewport.cursorCandle]
  dsimp only [ChartController.moved, Viewport.rightmostPrime]
  ring_nf

theorem offset_iff (hx : 0 ≤ mouseX) (candles : Nat) :
    |min ⌊fromRight candles mouseX canvasX⌋ (newCandles - 1) -
        ⌊fromRight newCandles mouseX canvasX⌋| ≤ 1 ↔
      CursorStays candles newCandles mouseX canvasX := by
  have hfloor : (newCandles : Rat) ≤ fromRight candles mouseX canvasX ↔
      (newCandles : Int) ≤ ⌊fromRight candles mouseX canvasX⌋ := by
    rw [Int.le_floor, Int.cast_natCast]
  unfold CursorStays
  dsimp only
  split
  · rename_i hfar
    -- The cursor was left of where the candles now end.
    have hle : ⌊fromRight newCandles mouseX canvasX⌋ ≤ newCandles :=
      Int.floor_le_iff.mpr ((fromRight_le hx).trans_lt (lt_add_one _))
    have hleft : (newCandles : Rat) - 2 ≤ fromRight newCandles mouseX canvasX ↔
        (newCandles : Int) - 2 ≤ ⌊fromRight newCandles mouseX canvasX⌋ := by
      rw [Int.le_floor]
      push_cast
      rfl
    rw [hleft, min_eq_right (by have := hfloor.mp hfar; omega), abs_le]
    omega
  · rename_i hnear
    rw [min_eq_left (by have := mt hfloor.mpr hnear; omega), abs_floor_sub_floor_le_one_iff]

/-- A zoom that nothing clamps keeps the candle under the cursor, to within one,
exactly if the cursor stays. -/
theorem cursorKept_iff [ViewportMaths] (I : Int) (hI : 0 < I) (c : ChartController)
    (series : CandleSeries) (wheelDelta : Int) (mouseX : Rat) (canvasX newCandles : Nat)
    (hx : 0 ≤ mouseX ∧ mouseX ≤ canvasX)
    (hnew : newCandles =
      ViewportMaths.clampCandles c.view (c.view.candlesVisible / kZoomBase ^ wheelDelta))
    (hf : c.ZoomsFreely I series newCandles mouseX canvasX)
    (hchange : (c.onZoomWheel wheelDelta mouseX canvasX).view.candlesVisible ≠
      c.view.candlesVisible) :
    (c.onZoomWheel wheelDelta mouseX canvasX).view.candlesVisible = newCandles ∧
    (CursorKept I c.view (c.onZoomWheel wheelDelta mouseX canvasX).view mouseX canvasX ↔
      CursorStays c.view.candlesVisible newCandles mouseX canvasX) := by
  rw [onZoomWheel_free hI hx hnew hf hchange, cursorKept_moved hI, offset_iff hx.1]
  exact ⟨rfl, Iff.rfl⟩

end Kept

/-! ## Forty candles and forty-eight -/

/-- An hour of candles. -/
def sixtyMinutes : CandleSeries :=
  ⟨⟨60000⟩, (List.range 60).map fun i => flatCandle (60000 * (i + 1)) true, 60000, 3600000⟩

/-- It shows the candles from the 16th to the 55th. -/
def fortyShown : ChartController :=
  { series := some sixtyMinutes, view := ⟨40, 3300000, 30, 5000⟩, initialized := true }

theorem fortyShown_zoomsFreely (mouseX : Rat)
    (hedge : 60000 ≤ fortyShown.view.rightmostPrime 60000 48 mouseX 100 - 47 * 60000) :
    fortyShown.ZoomsFreely 60000 sixtyMinutes 48 mouseX 100 where
  shows := rfl
  contiguous := ⟨fun _ => rfl, by unfold Spaced; decide +kernel, by decide +kernel,
    by decide +kernel⟩
  visible := by decide
  inside := by decide +kernel
  least := by decide +kernel
  most := by decide +kernel
  edge := hedge

/-- One step out at the right end of the canvas. -/
theorem cursorKept_iff_right :
    CursorKept 60000 fortyShown.view (fortyShown.onZoomWheel (-1) 100 100).view 100 100 := by
  refine (cursorKept_iff 60000 (by decide) fortyShown sixtyMinutes (-1) 100 100 48
    ⟨by norm_num, by norm_num⟩ (by decide +kernel) (fortyShown_zoomsFreely 100 (by decide +kernel))
    (by decide +kernel)).2.mpr ?_
  have hd (candles : Nat) : fromRight candles 100 100 = 0 := by simp [fromRight]
  unfold CursorStays
  dsimp only
  rw [hd, hd, if_neg (by norm_num)]
  rintro ⟨n, h₁, h₂⟩
  rw [max_self] at h₂
  rw [min_self] at h₁
  linarith

/-- At the left end the candle under the cursor is eight earlier. -/
theorem cursor_moves :
    fortyShown.ZoomsFreely 60000 sixtyMinutes 48 0 100 ∧
    (fortyShown.onZoomWheel (-1) 0 100).view.candlesVisible = 48 ∧
    fortyShown.view.cursorCandle 60000 0 100 = 900000 ∧
    (fortyShown.onZoomWheel (-1) 0 100).view.cursorCandle 60000 0 100 = 420000 ∧
    ¬ CursorKept 60000 fortyShown.view (fortyShown.onZoomWheel (-1) 0 100).view 0 100 :=
  ⟨fortyShown_zoomsFreely 0 (by decide +kernel), by decide +kernel, by decide +kernel,
    by decide +kernel, by unfold CursorKept; decide +kernel⟩

end TCV.App
