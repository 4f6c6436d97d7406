import TradingChartViewer.App.Snapshot

/-!
# The time labels of a contiguous series

The labels that `RenderSnapshotBuilder::build` makes for a contiguous series at
positive multiples of its interval: they are put by the times of the ticks, the
candles by their indices.

* `estimateIntervalMs_contiguous`: the estimate is the interval, if there are two candles;
* `labelX_eq`: the place of a tick is the centre of a candle;
* `timeLabels_on_candles`: how many labels there are, and where.
-/

namespace TCV.App

open TCV.Domain Lib.Grid Lib.Loop

/-- The candles that `build` draws of a series. -/
def renderSeries (series : CandleSeries) : List RenderCandleData :=
  series.data.map fun candle : Candle =>
    ⟨candle.openTime, candle.open_, candle.high, candle.low, candle.close⟩

/-- A contiguous series at positive multiples of its interval. -/
structure OnTicks (I : Int) (series : CandleSeries) : Prop where
  contiguous : series.Contiguous I
  positive : 0 < series.firstOpen
  dvd : I ∣ series.firstOpen

section OnTicks

variable {I : Int} {series : CandleSeries} {startIndex count : Nat}

theorem length_renderSeries (series : CandleSeries) :
    (renderSeries series).length = series.data.length := List.length_map _

theorem openTimeMs_getElem (h : series.Contiguous I) {i : Nat}
    (hi : i < (renderSeries series).length) :
    ((renderSeries series)[i]).openTimeMs = series.firstOpen + i * I := by
  rw [length_renderSeries] at hi
  simp only [renderSeries, List.getElem_map]
  exact h.openTime_getElem hi

theorem estimateIntervalMs_contiguous (hI : 0 < I) (h : series.Contiguous I)
    (hle : startIndex + count ≤ (renderSeries series).length) :
    estimateIntervalMs (renderSeries series) startIndex count = if count < 2 then 0 else I := by
  unfold estimateIntervalMs
  split
  · rfl
  rename_i htwo
  have hdeltas : ((((renderSeries series).drop startIndex).take count).zip
      ((((renderSeries series).drop startIndex).take count).drop 1)).map
        (fun p => p.2.openTimeMs - p.1.openTimeMs) = List.replicate (count - 1) I := by
    refine List.ext_getElem (by simp; omega) fun i hi _ => ?_
    simp only [List.getElem_map, List.getElem_zip, List.getElem_take, List.getElem_drop,
      List.getElem_replicate, openTimeMs_getElem h]
    push_cast
    ring
  have hkept : (List.replicate (count - 1) I).filter (0 < ·) = List.replicate (count - 1) I :=
    List.filter_eq_self.mpr fun t ht => decide_eq_true (List.eq_of_mem_replicate ht ▸ hI)
  have hcount : ((count - 1 : Nat) : Int) ≠ 0 := by omega
  dsimp only
  rw [hdeltas, hkept, if_neg (by simp; omega), List.length_replicate, List.sum_replicate, nsmul_eq_mul,
    Int.mul_tdiv_cancel_left _ hcount]

end OnTicks

/-! ## The axis -/

/-- The axis of `count` contiguous candles. A single one gives no interval. -/
structure TimeAxis.Contiguous (axis : TimeAxis) (I : Int) (count timeStep : Nat) : Prop where
  interval : 0 < I
  pxPerCandle : 0 < axis.pxPerCandle
  firstTime : 0 < axis.firstTime
  dvd : I ∣ axis.firstTime
  pos : 1 ≤ count
  lastTime : axis.lastTime = axis.firstTime + (count - 1) * I
  base : axis.baseIntervalMs = if count < 2 then 1 else I
  stepMs : axis.stepMs = axis.baseIntervalMs * timeStep
  one_le : 1 ≤ timeStep
  few : count / timeStep + 1 ≤ kMaxTimeLabels

section Axis

variable {axis : TimeAxis} {I : Int} {count timeStep : Nat}

theorem TimeAxis.Contiguous.positive (h : axis.Contiguous I count timeStep) : axis.Positive := by
  have hbase : 0 < axis.baseIntervalMs := by
    rw [h.base]
    split
    · exact Int.zero_lt_one
    · exact h.interval
  have hcount := h.pos
  have hstep := h.one_le
  have hspan : 0 ≤ ((count : Int) - 1) * I := Int.mul_nonneg (by omega) h.interval.le
  refine ⟨h.pxPerCandle, h.firstTime, ?_, hbase, ?_⟩
  · rw [h.lastTime]
    omega
  · rw [h.stepMs]
    exact Int.mul_pos hbase (by omega)

/-- A time of the axis is one of a candle, and its place is the centre of it. -/
theorem TimeAxis.Contiguous.labelX_eq (h : axis.Contiguous I count timeStep) {i : Nat}
    (hi : i < count) :
    axis.labelX (axis.firstTime + i * I) = axis.pxPerCandle * (1 / 2 + i) := by
  have hI : (I : Rat) ≠ 0 := by exact_mod_cast h.interval.ne'
  unfold TimeAxis.labelX
  rw [h.base]
  split
  · obtain rfl : i = 0 := by omega
    simp
  · push_cast
    rw [add_sub_cancel_left, mul_div_assoc, div_self hI, mul_one, add_comm]

theorem TimeAxis.Contiguous.exists_index (h : axis.Contiguous I count timeStep) {label : TimeLabel}
    (hplaces : axis.Places label)
    (ht : axis.stepMs ∣ label.tickTime ∨ label.tickTime = axis.firstTime) :
    ∃ i < count, label.tickTime = axis.firstTime + i * I ∧
      label.x = axis.pxPerCandle * (1 / 2 + i) := by
  have hI := h.interval
  have hcount := h.pos
  have hlast := hplaces.last
  have hfirst := hplaces.first
  rw [h.lastTime] at hlast
  -- Between the ends there are only the times of the candles.
  have hdvd : I ∣ label.tickTime - axis.firstTime := by
    obtain ht | ht := ht
    · rw [h.stepMs, h.base] at ht
      split at ht
      · obtain rfl : count = 1 := by omega
        have e : label.tickTime - axis.firstTime = 0 := by simp at hlast; omega
        exact e ▸ Int.dvd_zero I
      · exact Int.dvd_sub (Dvd.dvd.trans (Int.dvd_mul_right ..) ht) h.dvd
    · rw [ht, sub_self]
      exact Int.dvd_zero I
  obtain ⟨k, hk⟩ := hdvd
  have hk0 : 0 ≤ k := nonneg_of_mul_nonneg_right (by omega : 0 ≤ I * k) hI
  obtain ⟨i, rfl⟩ := Int.eq_ofNat_of_zero_le hk0
  have hi : i < count := by
    have : (i : Int) * I ≤ (count - 1) * I := by rw [mul_comm]; omega
    have := le_of_mul_le_mul_right this hI
    omega
  have ht : label.tickTime = axis.firstTime + i * I := by rw [mul_comm]; omega
  exact ⟨i, hi, ht, by rw [hplaces.x, ht, h.labelX_eq hi]⟩

/-- Ten labels at most. -/
theorem TimeAxis.Contiguous.length_le (h : axis.Contiguous I count timeStep)
    {labels : List TimeLabel} (hlabels : axis.Labels labels) : labels.length ≤ kMaxTimeLabels := by
  have hI := h.interval
  have hfew := h.few
  have hspan := hlabels.count
  rw [h.lastTime, add_sub_cancel_left, h.stepMs, h.base] at hspan
  have hdiv : (labels.length - 1) * timeStep ≤ count := by
    split at hspan
    · obtain rfl : count = 1 := by have := h.pos; omega
      simp only [Nat.cast_one, sub_self, zero_mul, one_mul] at hspan
      have hstep := h.one_le
      have : (labels.length : Int) - 1 ≤ 0 := by
        by_contra hmore
        have := Int.mul_pos (not_le.mp hmore) (show (0 : Int) < timeStep by omega)
        omega
      rw [show labels.length - 1 = 0 by omega, zero_mul]
      exact Nat.zero_le _
    · have hle : (labels.length - 1 : Int) * timeStep ≤ count - 1 := by
        refine le_of_mul_le_mul_right ?_ hI
        calc ((labels.length : Int) - 1) * timeStep * I
            = (labels.length - 1) * (I * timeStep) := by ring
          _ ≤ (count - 1) * I := hspan
      rcases Nat.eq_zero_or_pos labels.length with h0 | hpos
      · rw [h0]
        simp
      · zify [hpos]
        omega
  have := (Nat.le_div_iff_mul_le h.one_le).mpr hdiv
  omega

end Axis

/-! ## The labels -/

section Parts

variable {b : RenderSnapshotBuilder} {I : Int} {series : CandleSeries} {viewport : ViewportParams}
  {window : Window} {first last : RenderCandleData} {base : Int} {timeStep : Nat}

theorem openTimeMs_of_getElem? (h : series.Contiguous I) {i : Nat} {candle : RenderCandleData}
    (hread : (renderSeries series)[i]? = some candle) :
    candle.openTimeMs = series.firstOpen + i * I := by
  obtain ⟨hi, rfl⟩ := List.getElem?_eq_some_iff.mp hread
  exact openTimeMs_getElem h hi

/-- The parts of a contiguous series make the axis of one. -/
theorem AxisParts.contiguous (hI : 0 < I) (h : OnTicks I series)
    (hparts : AxisParts b (renderSeries series) viewport window first last base timeStep) :
    (timeAxis (b.frame (renderSeries series) viewport window) first.openTimeMs last.openTimeMs base
      timeStep).Contiguous I window.desiredCount timeStep := by
  have hpos := hparts.fits.pos
  have hfirst := openTimeMs_of_getElem? h.contiguous hparts.first
  have hlast := openTimeMs_of_getElem? h.contiguous hparts.last
  have hbase := hparts.base
  rw [estimateIntervalMs_contiguous hI h.contiguous hparts.fits.le] at hbase
  have h0 : 0 ≤ (window.startIndex : Int) * I := Int.mul_nonneg (by omega) hI.le
  have hfirst0 := h.positive
  refine ⟨hI, frame_pxPerCandle_pos b viewport (renderSeries series) window, ?_, ?_, hpos, ?_, ?_,
    ?_, hparts.one_le, hparts.few⟩
  · show 0 < first.openTimeMs
    omega
  · show I ∣ first.openTimeMs
    rw [hfirst]
    exact Int.dvd_add h.dvd (Int.dvd_mul_left ..)
  · show last.openTimeMs = first.openTimeMs + _
    rw [hfirst, hlast, Nat.add_sub_assoc hpos, Nat.cast_add, Nat.cast_sub hpos, Nat.cast_one]
    ring
  · show base = _
    obtain ⟨base', hread, -, hinterval⟩ := baseIntervalMs_some hparts.fits.le
      (if window.desiredCount < 2 then 0 else I)
    obtain rfl := Option.some.inj (hbase.symm.trans hread)
    split
    · rename_i hone
      rw [if_pos hone, baseIntervalMs, if_neg (by simp; omega)] at hbase
      exact (Option.some.inj hbase).symm
    · rename_i hmore
      rw [if_neg hmore] at hinterval
      exact hinterval hI
  · show base * (max timeStep 1 : Nat) = base * timeStep
    rw [max_eq_left hparts.one_le]

/-- The centre of a candle's body. -/
theorem frame_centerX (b : RenderSnapshotBuilder) (viewport : ViewportParams) {i : Nat}
    (hfits : window.Fits (renderSeries series).length)
    (hi : i < window.desiredCount) : ∃ rect,
    (b.frame (renderSeries series) viewport window).candles[i]? = some rect ∧ rect.centerX =
      (b.frame (renderSeries series) viewport window).pxPerCandle * (1 / 2 + i) := by
  have hle := hfits.le
  have hi' : i < (b.frame (renderSeries series) viewport window).candles.length := by
    rw [(frame_lengths b viewport hfits).1]
    exact hi
  refine ⟨_, List.getElem?_eq_getElem hi', ?_⟩
  simp only [RenderSnapshotBuilder.frame, RenderSnapshotBuilder.candleRect, List.getElem_map,
    List.getElem_zipIdx, Nat.zero_add]

end Parts

/-- Every snapshot of a contiguous series at positive multiples of its interval
has one to ten time labels, from left to right and 80 pixels apart at least, each
at the centre of the candle whose time it gives. -/
theorem timeLabels_on_candles (b : RenderSnapshotBuilder) (I : Int) (hI : 0 < I)
    (series : CandleSeries) (h : OnTicks I series) (viewport : ViewportParams)
    (hw : 1 ≤ viewport.canvasWidth) (hh : 1 ≤ viewport.canvasHeight) (limits : Nat × Nat)
    (cursor : Option CursorState) :
    ∃ snapshot,
      Returns (fun fuel => b.buildChecked fuel (renderSeries series) viewport limits cursor)
        snapshot ∧
      (∃ step, Returns (fun fuel => chooseTimeStep fuel snapshot.visibleCount snapshot.pxPerCandle)
        step) ∧
      (1 ≤ snapshot.timeLabels.length ∧ snapshot.timeLabels.length ≤ kMaxTimeLabels) ∧
      snapshot.timeLabels.IsChain (fun a b => a.x + kTimeLabelMinSpacingPx ≤ b.x) ∧
      ∀ label ∈ snapshot.timeLabels, ∃ i candle rect,
        (renderSeries series)[snapshot.firstVisibleIndex + i]? = some candle ∧
        candle.openTimeMs = label.tickTime ∧
        snapshot.candles[i]? = some rect ∧ rect.centerX = label.x := by
  have hne : renderSeries series ≠ [] := by
    rw [← List.length_pos_iff, length_renderSeries]
    exact h.contiguous.length_pos
  obtain ⟨window, first, last, base, timeStep, hparts, hbuild⟩ :=
    exists_buildChecked b hne hw hh limits cursor
  have haxis := hparts.contiguous hI h
  obtain ⟨labels, hreturns, hlabels⟩ := timeLabels_spec haxis.positive
  obtain ⟨snapshot, hsnapshot, hframe, hlabels', -⟩ := hbuild labels hreturns
  rw [← hlabels'] at hlabels
  refine ⟨snapshot, hsnapshot, ⟨timeStep, ?_⟩,
    ⟨List.length_pos_iff.mpr hlabels.ne_nil, haxis.length_le hlabels⟩, hlabels.apart,
    fun label hl => ?_⟩
  · rw [hframe]
    exact hparts.step
  · obtain ⟨hplaces, ht⟩ := hlabels.places label hl
    obtain ⟨i, hi, htime, hx⟩ := haxis.exists_index hplaces ht
    have hfits := hparts.fits
    have hle := hfits.le
    obtain ⟨rect, hrect, hcentre⟩ := frame_centerX b viewport hfits hi
    have hread := List.getElem?_eq_getElem
      (show window.startIndex + i < (renderSeries series).length by omega)
    rw [hframe]
    refine ⟨i, _, rect, hread, ?_, hrect, hcentre.trans hx.symm⟩
    rw [htime, openTimeMs_getElem h.contiguous]
    show _ = first.openTimeMs + _
    rw [openTimeMs_of_getElem? h.contiguous hparts.first]
    push_cast
    ring

/-- Seven minutes on a canvas of 90 pixels have one label. -/
theorem timeLabels_on_candles_seven : ∃ snapshot,
    Returns (fun fuel => RenderSnapshotBuilder.construct.buildChecked fuel
      (renderSeries sevenCandles) { canvasWidth := 90, canvasHeight := 40 } (1, 7) none) snapshot ∧
    snapshot.timeLabels.length ≤ kMaxTimeLabels ∧
    ∀ label ∈ snapshot.timeLabels, ∃ i candle rect,
      (renderSeries sevenCandles)[snapshot.firstVisibleIndex + i]? = some candle ∧
      candle.openTimeMs = label.tickTime ∧
      snapshot.candles[i]? = some rect ∧ rect.centerX = label.x := by
  have hticks : OnTicks 60000 sevenCandles :=
    ⟨⟨fun _ => rfl, by unfold Spaced; decide, rfl, rfl⟩, by decide, by decide⟩
  obtain ⟨snapshot, hsnapshot, -, hcount, -, hlabels⟩ :=
    timeLabels_on_candles .construct 60000 (by decide) sevenCandles hticks
      { canvasWidth := 90, canvasHeight := 40 } (by decide) (by decide) (1, 7) none
  exact ⟨snapshot, hsnapshot, hcount.2, hlabels⟩

end TCV.App
