import TradingChartViewer.Indicators.Rendering

/-!
# The average of a slice

`getEMA` for a slice of the candles of a repository, with the candles before the slice as its
warm-up.

* `expAverage`, `averages`: the average as a recursion; `computeEMA_values`: what the loop computes;
* `CoversWarmup`: what the values of a slice are, from the candles that the repository has before it;
* `prepareSeriesWithWarmup_slice`: the warm-up that is taken in;
* `stored_sync`: what a synchronous call stores, whenever it does;
* `warmup_iff`: it covers the warm-up unless that is a single candle.
-/

namespace TCV.Indicators

open TCV.Domain TCV.Storage Lib.Grid Lib.Run

/-! ## Exponential averages -/

/-- The average after the first `p + m` numbers: that of the first `p` at first, then moved towards
each number in turn. -/
def expAverage (p : Nat) (closes : List Price) : Nat → Rat
  | 0 => (closes.take p).sum / p
  | m + 1 =>
    let previous := expAverage p closes m
    previous + 2 / (p + 1) * (closes.getD (p + m) 0 - previous)

/-- One value for each number, from the `p`-th on. -/
def averages (p : Nat) (closes : List Price) : List (Option Rat) :=
  (List.range closes.length).map fun i =>
    if i + 1 < p then none else some (expAverage p closes (i + 1 - p))

section Averages

variable {p : Nat} {closes : List Price}

theorem getElem?_averages {i : Nat} (hi : i < closes.length) : (averages p closes)[i]? =
    some (if i + 1 < p then none else some (expAverage p closes (i + 1 - p))) := by
  rw [averages, List.getElem?_map, List.getElem?_range hi]
  rfl

/-- The loop goes on from an average. -/
theorem emaLoop_eq (rest : List Price) {m : Nat} (hrest : closes.drop (p + m) = rest) :
    emaLoop (2 / (p + 1)) (expAverage p closes m) rest =
      (List.range rest.length).map fun i => some (expAverage p closes (m + 1 + i)) := by
  induction rest generalizing m with
  | nil => rfl
  | cons price rest ih =>
    have hprice : closes.getD (p + m) 0 = price := by
      have : (closes.drop (p + m))[0]? = closes[p + m + 0]? := List.getElem?_drop
      rw [hrest, Nat.add_zero] at this
      rw [List.getD_eq_getElem?_getD, ← this]
      rfl
    have hnext : (price - expAverage p closes m) * (2 / (p + 1)) + expAverage p closes m =
        expAverage p closes (m + 1) := by
      rw [expAverage, hprice]
      ring
    have hdrop : closes.drop (p + (m + 1)) = rest := by
      rw [← Nat.add_assoc, ← List.drop_drop, hrest]
      rfl
    rw [emaLoop, hnext, ih hdrop, List.length_cons, List.range_succ_eq_map, List.map_cons, List.map_map]
    refine congrArg₂ _ rfl (List.map_congr_left fun i _ => ?_)
    rw [Function.comp_apply, Nat.succ_eq_add_one, show m + 1 + (i + 1) = m + 1 + 1 + i by omega]

/-- Before the `p`-th number there is no average. -/
theorem averages_of_lt (h : closes.length < p) :
    averages p closes = List.replicate closes.length none := by
  refine List.eq_replicate_iff.mpr ⟨by rw [averages, List.length_map, List.length_range], ?_⟩
  intro value hvalue
  obtain ⟨i, hi, rfl⟩ := List.mem_map.mp hvalue
  have := List.mem_range.mp hi
  rw [if_pos (by omega)]

theorem averages_of_le (hp : 1 ≤ p) (h : p ≤ closes.length) :
    averages p closes = List.replicate (p - 1) none ++
      some (expAverage p closes 0) :: (List.range (closes.drop p).length).map fun i =>
        some (expAverage p closes (0 + 1 + i)) := by
  have hlen : closes.length = p - 1 + ((closes.length - p) + 1) := by omega
  have hnone : (List.range (p - 1)).map (fun i =>
      if i + 1 < p then none else some (expAverage p closes (i + 1 - p))) =
      List.replicate (p - 1) none := by
    refine List.eq_replicate_iff.mpr ⟨by rw [List.length_map, List.length_range], ?_⟩
    intro value hvalue
    obtain ⟨i, hi, rfl⟩ := List.mem_map.mp hvalue
    have := List.mem_range.mp hi
    rw [if_pos (by omega)]
  have hsome : ∀ i, (if p - 1 + i + 1 < p then none
      else some (expAverage p closes (p - 1 + i + 1 - p))) = some (expAverage p closes i) := by
    intro i
    rw [if_neg (by omega), show p - 1 + i + 1 - p = i by omega]
  rw [averages, List.length_drop]
  nth_rewrite 1 [hlen]
  rw [List.range_add, List.map_append, hnone, List.map_map, List.range_succ_eq_map, List.map_cons,
    List.map_map]
  refine congrArg₂ _ rfl (congrArg₂ _ (hsome 0) (List.map_congr_left fun i _ => ?_))
  exact (hsome (i + 1)).trans (by rw [Nat.zero_add, Nat.add_comm])

end Averages

theorem sizeOfInt_of_pos {p : Nat} (h : p < 2 ^ 31) : sizeOfInt p = p := by
  rw [sizeOfInt, Int.emod_eq_of_lt (by omega) (by omega), Int.toNat_natCast]

/-- The loop computes the averages. -/
theorem computeEMA_values (candles : CandleSeries) {p : Nat} (hp : 1 ≤ p) (hp' : p < 2 ^ 31) :
    (computeEMA candles ⟨p⟩).values = averages p (candles.data.map Candle.close) := by
  unfold computeEMA
  dsimp only
  rw [sizeOfInt_of_pos hp']
  generalize hcloses : candles.data.map Candle.close = closes
  have hlen : candles.data.length = closes.length := by rw [← hcloses, List.length_map]
  rw [hlen]
  split
  · rename_i h
    simp only [Bool.or_eq_true, decide_eq_true_eq] at h
    rw [averages_of_lt (by omega)]
  · split
    · rename_i hlt
      rw [averages_of_lt hlt]
    · rename_i hle
      have hsmooth : smoothingFactor p = 2 / (p + 1) := by
        rw [smoothingFactor, if_neg (by omega)]
        simp
      have hseed : (closes.take p).foldl (· + ·) 0 / (p : Rat) = expAverage p closes 0 := by
        rw [expAverage, List.sum_eq_foldl]
      rw [averages_of_le hp (Nat.not_lt.mp hle), hsmooth, hseed]
      dsimp only
      rw [emaLoop_eq (closes.drop p) (m := 0) rfl]

/-- The values of the candles after the warm-up. -/
theorem trimWarmup_values {series : IndicatorSeries} {warmup targetSize : Nat}
    (h : series.values.length = warmup + targetSize) (hpos : 0 < targetSize) :
    (trimWarmup series warmup targetSize).values = series.values.drop warmup := by
  have hlen : (series.values.drop warmup).length = targetSize := by
    rw [List.length_drop]
    omega
  unfold trimWarmup
  rw [if_neg (by omega)]
  dsimp only
  rw [List.take_of_length_le hlen.le, hlen, Nat.sub_self, List.replicate_zero, List.append_nil]

/-! ## The warm-up of a slice -/

/-- The candles are contiguous and closed. -/
structure Gapless (r : Repository) : Prop where
  spaced : Spaced r.intervalMs r.times
  closed : ∀ c ∈ r.candles, c.isClosed = true

/-- The series is a slice of the candles of the repository, after the candles `before`. -/
structure Slice (r : Repository) (before : List Candle) (candles : CandleSeries) : Prop where
  series : candles.Contiguous r.intervalMs
  candles : ∃ after, r.candles = before ++ candles.data ++ after

/-- How many of the candles before a slice an average of `p` candles reaches back to. -/
def warmupSize (before : List Candle) (p : Nat) : Nat := min before.length (p - 1)

/-- The last `n` candles. -/
def lastCandles (before : List Candle) (n : Nat) : List Candle := before.drop (before.length - n)

section Slice

variable {r : Repository} {before : List Candle} {candles : CandleSeries}

/-- Where the candles of a repository with a slice stand. -/
theorem Slice.times (hs : r.Sound) (hg : Gapless r) (h : Slice r before candles) :
    r.metadata.count ≠ 0 ∧ r.times = ticks r.metadata.minOpen r.intervalMs r.candles.length ∧
      candles.firstOpen = r.metadata.minOpen + before.length * r.intervalMs := by
  obtain ⟨after, hafter⟩ := h.candles
  obtain ⟨first, data, hdata⟩ := List.exists_cons_of_ne_nil h.series.ne_nil
  have hmeta := hs.metadata
  rw [metadataOf_eq, closedOf_of_all hg.closed] at hmeta
  have hne : r.candles ≠ [] := by
    rw [hafter, hdata]
    simp
  have hticks : r.times = ticks r.metadata.minOpen r.intervalMs r.candles.length := by
    obtain ⟨c, cs, hcs⟩ := List.exists_cons_of_ne_nil hne
    have hspaced := hg.spaced
    rw [Repository.times, hcs, List.map_cons] at hspaced ⊢
    rw [hmeta, hcs, hspaced.eq_ticks, List.length_map]
    rfl
  refine ⟨by rw [hmeta]; simpa using hne, hticks, ?_⟩
  have hrest := (ticks_take_drop hticks
    (show before.length ≤ r.candles.length by rw [hafter]; simp)).2
  rw [hafter, List.append_assoc, List.drop_left, hdata] at hrest
  have hfirst := h.series.first
  rw [hdata] at hfirst
  exact (Option.some.inj hfirst).symm.trans (List.cons.inj hrest).1

/-- The candles before a slice, and those from it on. -/
theorem Slice.around (hs : r.Sound) (hg : Gapless r) (h : Slice r before candles) {w : Nat}
    (hw : w ≤ before.length) :
    ∃ older rest, r.candles = older ++ lastCandles before w ++ rest ∧
      (∀ c ∈ older, c.openTime < candles.firstOpen - w * r.intervalMs) ∧
      (∀ c ∈ lastCandles before w, candles.firstOpen - w * r.intervalMs ≤ c.openTime ∧
        c.openTime ≤ candles.firstOpen - r.intervalMs) ∧
      ∀ c ∈ rest, candles.firstOpen ≤ c.openTime := by
  obtain ⟨after, hafter⟩ := h.candles
  obtain ⟨-, hticks, hfirst⟩ := h.times hs hg
  have hI := hs.interval_pos
  obtain ⟨m, hm⟩ : ∃ m, before.length = m + w := ⟨before.length - w, by omega⟩
  have hsplit : r.candles = before.take m ++ lastCandles before w ++ (candles.data ++ after) := by
    rw [hafter, lastCandles, hm, Nat.add_sub_cancel, List.take_append_drop, List.append_assoc]
  have hlast : (lastCandles before w).length = w := by
    rw [lastCandles, List.length_drop]
    omega
  have hmw : (before.length : Int) * r.intervalMs = m * r.intervalMs + w * r.intervalMs := by
    rw [hm]
    push_cast
    ring
  have hm' : (before.take m).length = m := by
    rw [List.length_take]
    omega
  rw [Repository.times, hsplit, List.append_assoc] at hticks
  obtain ⟨holder, hdrop⟩ := ticks_take_drop hticks
    (show m ≤ _ by rw [List.length_append, hm']; omega)
  rw [List.take_left' hm'] at holder
  rw [List.drop_left' hm'] at hdrop
  obtain ⟨hwindow, hrest⟩ := ticks_take_drop hdrop
    (show w ≤ _ by rw [List.length_append, hlast]; omega)
  rw [List.take_left' hlast] at hwindow
  rw [List.drop_left' hlast] at hrest
  refine ⟨_, _, hsplit, fun c hc => ?_, fun c hc => ?_, fun c hc => ?_⟩
  · have ht := List.mem_map_of_mem (f := Candle.openTime) hc
    rw [holder, mem_ticks_iff hI] at ht
    omega
  · have ht := List.mem_map_of_mem (f := Candle.openTime) hc
    rw [hwindow, mem_ticks_iff hI] at ht
    obtain ⟨h₁, h₂, hd⟩ := ht
    have := add_le_of_lt hd (Int.dvd_mul_left (w : Int) r.intervalMs)
      (show c.openTime - (r.metadata.minOpen + m * r.intervalMs) < w * r.intervalMs by omega)
    omega
  · have ht := List.mem_map_of_mem (f := Candle.openTime) hc
    rw [hrest, mem_ticks_iff hI] at ht
    omega

/-- The range of `w` candles before a time is empty for one candle too. -/
theorem empty_before {I : Int} (hI : 0 < I) (t : Int) (w : Nat) :
    TimeRange.empty ⟨t - w * I, t - I⟩ = decide (w ≤ 1) := by
  rw [TimeRange.empty, decide_eq_decide]
  dsimp only
  rw [sub_le_sub_iff_left]
  constructor
  · intro hle
    have : (w : Int) * I ≤ 1 * I := by omega
    exact_mod_cast le_of_mul_le_mul_right this hI
  · intro hle
    have : (w : Int) * I ≤ 1 * I := Int.mul_le_mul_of_nonneg_right (by omega) hI.le
    omega

/-- What `getRange` reads of the candles before a slice: nothing for a range of one candle. -/
theorem getRange_before (hs : r.Sound) (hg : Gapless r) (h : Slice r before candles) {w : Nat}
    (hw : w ≤ before.length) :
    (r.getRange ⟨candles.firstOpen - w * r.intervalMs, candles.firstOpen - r.intervalMs⟩).data =
      if w ≤ 1 then [] else lastCandles before w := by
  have hI := hs.interval_pos
  have hempty := empty_before hI candles.firstOpen w
  unfold Repository.getRange
  rw [hempty]
  by_cases hw1 : w ≤ 1
  · simp [hw1]
  · obtain ⟨older, rest, hcandles, holder, hwindow, hrest⟩ := h.around hs hg hw
    have hne : r.candles.isEmpty = false := by
      obtain ⟨after, hafter⟩ := h.candles
      rw [hafter]
      simp [h.series.ne_nil]
    rw [if_neg hw1, hne, decide_eq_false hw1, if_neg (by decide)]
    dsimp only
    rw [rangeLoop_eq (hg.spaced.pairwise hI) _ (by rw [hempty, decide_eq_false hw1]), hcandles,
      List.filter_append, List.filter_append, List.filter_eq_nil_iff.mpr fun c hc => ?_,
      List.filter_eq_self.mpr fun c hc => ?_, List.filter_eq_nil_iff.mpr fun c hc => ?_,
      List.nil_append, List.append_nil]
    · have := hrest c hc
      simp only [Bool.and_eq_true, decide_eq_true_eq]
      omega
    · simpa using hwindow c hc
    · have := holder c hc
      simp only [Bool.and_eq_true, decide_eq_true_eq]
      omega

/-- The warm-up that is taken in: the candles that the average reaches back to, unless there is one
of them only or the repository begins before time 1. -/
def takenWarmup (r : Repository) (before : List Candle) (p : Nat) : Nat :=
  if 2 ≤ warmupSize before p ∧ 0 < r.metadata.minOpen then warmupSize before p else 0

/-- The start that `prepareSeriesWithWarmup` clamps to the first candle of the repository. -/
theorem Slice.clampedStart (hs : r.Sound) (hg : Gapless r) (h : Slice r before candles) {p : Nat}
    (hp : 1 ≤ p) :
    max r.metadata.minOpen (candles.firstOpen - ((p : Int) - 1) * r.intervalMs) =
      candles.firstOpen - warmupSize before p * r.intervalMs := by
  obtain ⟨-, -, hfirst⟩ := h.times hs hg
  have hI := hs.interval_pos
  rcases le_total before.length (p - 1) with hle | hle
  · have : (before.length : Int) * r.intervalMs ≤ ((p : Int) - 1) * r.intervalMs :=
      Int.mul_le_mul_of_nonneg_right (by omega) hI.le
    rw [warmupSize, min_eq_left hle]
    omega
  · have : ((p : Int) - 1) * r.intervalMs ≤ before.length * r.intervalMs :=
      Int.mul_le_mul_of_nonneg_right (by omega) hI.le
    rw [warmupSize, min_eq_right hle, Nat.cast_sub hp, Nat.cast_one]
    omega

theorem warmupTimes_slice (hs : r.Sound) (hg : Gapless r) (h : Slice r before candles) {p : Nat}
    (hp : 1 ≤ p) :
    warmupTimes r candles ⟨p⟩ =
      if 1 ≤ warmupSize before p ∧ 0 < r.metadata.minOpen then
        some ⟨candles.firstOpen - warmupSize before p * r.intervalMs,
          candles.firstOpen - r.intervalMs⟩
      else none := by
  obtain ⟨hcount, -, hfirst⟩ := h.times hs hg
  have hI := hs.interval_pos
  have hinterval : (if candles.interval.valid then candles.interval.ms else r.getIntervalMs) =
      r.intervalMs := by
    split
    · rename_i hv
      exact h.series.interval hv
    · rw [Repository.getIntervalMs, if_pos hI]
  have hempty : candles.data.isEmpty = false := by simpa using h.series.ne_nil
  have hreach : (warmupSize before p : Int) * r.intervalMs ≤ before.length * r.intervalMs :=
    Int.mul_le_mul_of_nonneg_right (by unfold warmupSize; omega) hI.le
  by_cases hp1 : p = 1
  · subst hp1
    have hnone : warmupSize before 1 = 0 := by simp [warmupSize]
    rw [if_neg (by omega)]
    rfl
  unfold warmupTimes
  rw [hinterval]
  dsimp only
  rw [h.clampedStart hs hg hp, hempty, if_neg (by simp; omega), if_neg (by omega)]
  by_cases hpos : 0 < r.metadata.minOpen
  · have hfirstpos : 0 < candles.firstOpen := by
      have : 0 ≤ (before.length : Int) * r.intervalMs := by positivity
      omega
    have hstep : r.intervalMs ≤ ((p : Int) - 1) * r.intervalMs :=
      le_mul_of_one_le_left hI.le (by omega)
    rw [if_neg (by simp; omega), if_neg (by simp [hcount]; omega), if_neg (by omega)]
    by_cases hw : 1 ≤ warmupSize before p
    · have hone : r.intervalMs ≤ (warmupSize before p : Int) * r.intervalMs :=
        le_mul_of_one_le_left hI.le (by omega)
      rw [if_neg (by omega), if_neg (by omega), if_pos ⟨hw, hpos⟩]
    · rw [if_pos (by rw [show warmupSize before p = 0 by omega]; simp), if_neg (by omega)]
  · -- Without a first time there is no warm-up.
    rw [if_neg (show ¬ (1 ≤ warmupSize before p ∧ _) from fun h => hpos h.2)]
    split
    · rfl
    · rw [if_pos (by simp; omega)]

/-- The warm-up of a slice. -/
theorem prepareSeriesWithWarmup_slice (hs : r.Sound) (hg : Gapless r)
    (h : Slice r before candles) {p : Nat} (hp : 1 ≤ p) :
    (prepareSeriesWithWarmup r candles ⟨p⟩).warmup = takenWarmup r before p ∧
      (prepareSeriesWithWarmup r candles ⟨p⟩).view.data =
        lastCandles before (takenWarmup r before p) ++ candles.data := by
  have hnil : lastCandles before 0 = [] := by simp [lastCandles]
  have hlen : (lastCandles before (warmupSize before p)).length = warmupSize before p := by
    simp only [lastCandles, List.length_drop, warmupSize]
    omega
  unfold prepareSeriesWithWarmup takenWarmup
  rw [warmupTimes_slice hs hg h hp]
  have hread := getRange_before hs hg h (min_le_left before.length (p - 1))
  by_cases htaken : 2 ≤ warmupSize before p ∧ 0 < r.metadata.minOpen
  · have hne : ¬ (lastCandles before (warmupSize before p)).isEmpty = true := by
      rw [List.isEmpty_iff]
      intro he
      rw [he, List.length_nil] at hlen
      omega
    rw [if_neg (show ¬ min before.length (p - 1) ≤ 1 from Nat.not_le.mpr htaken.1)] at hread
    rw [if_pos htaken, if_pos ⟨Nat.le_of_succ_le htaken.1, htaken.2⟩]
    dsimp only
    rw [warmupSize, hread, ← warmupSize, if_neg hne]
    exact ⟨hlen, rfl⟩
  · rw [if_neg htaken, hnil]
    by_cases hone : 1 ≤ warmupSize before p ∧ 0 < r.metadata.minOpen
    · have hle : min before.length (p - 1) ≤ 1 := by
        unfold warmupSize at htaken hone
        omega
      rw [if_pos hle] at hread
      rw [if_pos hone]
      dsimp only
      rw [warmupSize, hread]
      exact ⟨rfl, rfl⟩
    · rw [if_neg hone]
      exact ⟨rfl, rfl⟩

/-- The values that `getEMA` computes for a slice. -/
theorem ema_slice (hs : r.Sound) (hg : Gapless r) (h : Slice r before candles) {p : Nat}
    (hp : 1 ≤ p) (hp' : p < 2 ^ 31) :
    (ema r candles ⟨p⟩).values =
      (averages p ((lastCandles before (takenWarmup r before p) ++ candles.data).map
        Candle.close)).drop (takenWarmup r before p) := by
  obtain ⟨hwarmup, hdata⟩ := prepareSeriesWithWarmup_slice hs hg h hp
  have hvalues := computeEMA_values (prepareSeriesWithWarmup r candles ⟨p⟩).view hp hp'
  rw [hdata] at hvalues
  have hlen : (computeEMA (prepareSeriesWithWarmup r candles ⟨p⟩).view ⟨p⟩).values.length =
      takenWarmup r before p + candles.data.length := by
    rw [hvalues, averages, List.length_map, List.length_range, List.length_map, List.length_append,
      lastCandles, List.length_drop]
    unfold takenWarmup warmupSize
    split <;> omega
  unfold ema
  dsimp only
  rw [hwarmup, trimWarmup_values hlen h.series.length_pos, hvalues]

/-- The values of a slice with its warm-up: no number for the first candles that the average of `p`
does not reach, and for each of the others the average that begins with the warm-up. -/
structure CoversWarmup (before data : List Candle) (p : Nat) (values : List (Option Rat)) :
    Prop where
  length : values.length = data.length
  missing : ∀ i < data.length, i < p - 1 - warmupSize before p → values[i]? = some none
  average : ∀ i < data.length, p - 1 - warmupSize before p ≤ i → values[i]? = some (some
    (expAverage p ((lastCandles before (warmupSize before p) ++ data).map Candle.close)
      (i - (p - 1 - warmupSize before p))))

/-- The candles that the average reaches back to are none, or at least two of a repository that
begins after time 0; or the slice is too short for a number. -/
def WarmupTaken (r : Repository) (before data : List Candle) (p : Nat) : Prop :=
  warmupSize before p = 0 ∨ (2 ≤ warmupSize before p ∧ 0 < r.metadata.minOpen) ∨
    data.length ≤ p - 1 - warmupSize before p

theorem coversWarmup_iff (hs : r.Sound) (hg : Gapless r) (h : Slice r before candles) {p : Nat}
    (hp : 1 ≤ p) (hp' : p < 2 ^ 31) :
    CoversWarmup before candles.data p (ema r candles ⟨p⟩).values ↔
      WarmupTaken r before candles.data p := by
  have hw : warmupSize before p ≤ before.length ∧ warmupSize before p ≤ p - 1 := by
    unfold warmupSize
    omega
  have hw' : takenWarmup r before p = warmupSize before p ∨ takenWarmup r before p = 0 := by
    unfold takenWarmup
    split
    · exact .inl rfl
    · exact .inr rfl
  have hlast (n : Nat) (hn : n ≤ before.length) : (lastCandles before n).length = n := by
    rw [lastCandles, List.length_drop]
    omega
  have hcloses : ((lastCandles before (takenWarmup r before p) ++ candles.data).map
      Candle.close).length = takenWarmup r before p + candles.data.length := by
    rw [List.length_map, List.length_append, hlast _ (by omega)]
  rw [ema_slice hs hg h hp hp']
  have hvalue (i : Nat) (hi : i < candles.data.length) :
      ((averages p ((lastCandles before (takenWarmup r before p) ++ candles.data).map
        Candle.close)).drop (takenWarmup r before p))[i]? =
      some (if takenWarmup r before p + i + 1 < p then none
        else some (expAverage p ((lastCandles before (takenWarmup r before p) ++
          candles.data).map Candle.close) (takenWarmup r before p + i + 1 - p))) := by
    rw [List.getElem?_drop, getElem?_averages (by omega)]
  constructor
  · intro hcov
    by_contra hnot
    simp only [WarmupTaken, not_or, not_and, Nat.not_le] at hnot
    obtain ⟨hpos, htwo, hlong⟩ := hnot
    have htaken : takenWarmup r before p = 0 := if_neg fun h => htwo h.1 h.2
    -- The first value that the warm-up is needed for.
    have hfirst := hcov.average _ hlong le_rfl
    rw [hvalue _ hlong, htaken, if_pos (by omega)] at hfirst
    cases hfirst
  · intro htaken
    refine ⟨?_, fun i hi hlt => ?_, fun i hi hle => ?_⟩
    · rw [List.length_drop, averages, List.length_map, List.length_range, hcloses]
      omega
    · rw [hvalue i hi, if_pos (by omega)]
    · have heq : takenWarmup r before p = warmupSize before p := by
        rcases htaken with h0 | htwo | hshort
        · omega
        · exact if_pos htwo
        · omega
      rw [hvalue i hi, heq, if_neg (by omega)]
      congr 3
      omega

end Slice

/-! ## What a synchronous call stores -/

section Sync

variable {s t u : Coordinator} {c : Computation} {n : Nat}

/-- A computation keeps its key and its result. -/
theorem computation_step {e : CoordinatorEvent} (hs : s.step e = some t)
    (h : ∃ d, s.computations[n]? = some d ∧ d.key = c.key ∧ d.result = c.result) :
    ∃ d, t.computations[n]? = some d ∧ d.key = c.key ∧ d.result = c.result := by
  obtain ⟨d, hd, hkey, hresult⟩ := h
  have hlt := (List.getElem?_eq_some_iff.mp hd).1
  cases e with
  | getEMA repo seriesId candles version params async =>
    obtain rfl := Option.some.inj hs
    rcases getEMA_cases s repo seriesId candles version params async with
      e | ⟨series, m, -, -, e⟩ | ⟨pending, e | ⟨-, e⟩⟩ <;> rw [e]
    · exact ⟨d, hd, hkey, hresult⟩
    · exact ⟨d, hd, hkey, hresult⟩
    · exact ⟨d, hd, hkey, hresult⟩
    · exact ⟨d, (List.getElem?_append_left hlt).trans hd, hkey, hresult⟩
  | finish m =>
    obtain ⟨f, hf, -, hcomputations, -⟩ := finish_eq hs
    rw [hcomputations]
    by_cases hm : m = n
    · subst hm
      obtain rfl := Option.some.inj (hd.symm.trans hf)
      exact ⟨_, List.getElem?_set_self hlt, hkey, hresult⟩
    · exact ⟨d, (List.getElem?_set_ne hm).trans hd, hkey, hresult⟩
  | invalidate seriesId =>
    obtain rfl := Option.some.inj hs
    refine ⟨{ d with invalidated := d.invalidated || d.key.seriesId = seriesId }, ?_, hkey, hresult⟩
    rw [Coordinator.invalidate, List.getElem?_map, hd]
    rfl

/-- A synchronous call that finds no series computes the average of its candles, and stores that
when it ends, whatever happens in between. -/
theorem stored_sync {repo : Repository} {seriesId : String} {candles : CandleSeries}
    {version : SeriesVersion} {params : EmaParams} {es : List CoordinatorEvent}
    (hne : candles.data ≠ [])
    (hmiss : s.cached ⟨seriesId, params⟩ version candles.data.length = none)
    (hrun : run Coordinator.step (s.getEMA repo seriesId candles version params false) es = some t)
    (hfinish : t.finish s.computations.length = some u) :
    u.stored ⟨seriesId, params⟩ = some (ema repo candles params, s.computations.length) := by
  let c : Computation :=
    { key := ⟨seriesId, params⟩, candles := candles
      prepared := prepareSeriesWithWarmup repo candles params, version := version
      detached := false }
  have hcall : (s.getEMA repo seriesId candles version params false).computations =
      s.computations ++ [c] := by
    unfold Coordinator.getEMA
    dsimp only
    rw [if_neg (by simpa using hne), hmiss]
    rfl
  have hkept : ∃ d, t.computations[s.computations.length]? = some d ∧ d.key = c.key ∧
      d.result = c.result := by
    refine run_induction (P := fun _ t => ∃ d, t.computations[s.computations.length]? = some d ∧
      d.key = c.key ∧ d.result = c.result) ?_ (fun _ _ _ _ _ h hs => computation_step hs h) hrun
    exact ⟨c, by rw [hcall, List.getElem?_concat_length], rfl, rfl⟩
  obtain ⟨d, hd, hkey, hresult⟩ := hkept
  obtain ⟨f, hf, hstored, -, -⟩ := finish_eq hfinish
  obtain rfl := Option.some.inj (hd.symm.trans hf)
  rw [hstored, hkey, hresult, Function.update_self]
  rfl

end Sync

/-- For every slice of a contiguous and closed repository, what a synchronous call stores covers the
warm-up if and only if that is not a single candle, or one of a repository that begins before
time 1, or of no use because the slice is too short. -/
theorem warmup_iff [TimeUtils] (sort : StdSort) (file : DataFile) (symbol : List Char)
    (interval : Interval) (cs : List Call) (r : Repository)
    (hr : r = (Repository.construct sort file symbol interval).calls sort cs) (hg : Gapless r)
    (before : List Candle) (candles : CandleSeries) (hslice : Slice r before candles)
    (p : Nat) (hp : 1 ≤ p) (hp' : p < 2 ^ 31) (s : Coordinator) (seriesId : String)
    (version : SeriesVersion)
    (hmiss : s.cached ⟨seriesId, ⟨p⟩⟩ version candles.data.length = none)
    (es : List CoordinatorEvent) (t u : Coordinator)
    (hrun : run Coordinator.step (s.getEMA r seriesId candles version ⟨p⟩ false) es = some t)
    (hfinish : t.finish s.computations.length = some u) :
    ∃ series, u.stored ⟨seriesId, ⟨p⟩⟩ = some (series, s.computations.length) ∧
      (CoversWarmup before candles.data p series.values ↔
        WarmupTaken r before candles.data p) := by
  have hs : r.Sound := hr ▸ calls_sound sort file symbol interval cs
  exact ⟨_, stored_sync hslice.series.ne_nil hmiss hrun hfinish, coversWarmup_iff hs hg hslice hp hp'⟩

/-! ## Warm-ups of two candles and of one -/

/-- A repository of three minutes. -/
def threeMinutes : Repository :=
  (Repository.construct .insertion {} ['B'] ⟨60000⟩).calls .insertion
    [.appendBatch [flatCandle 60000 true, flatCandle 120000 true, flatCandle 180000 true]]

/-- The last of them. -/
def lastMinute : CandleSeries := ⟨⟨60000⟩, threeMinutes.candles.drop 2, 180000, 180000⟩

theorem gapless_threeMinutes : Gapless threeMinutes :=
  ⟨by unfold Spaced; decide +kernel, by decide +kernel⟩

theorem slice_lastMinute : Slice threeMinutes (threeMinutes.candles.take 2) lastMinute :=
  ⟨⟨fun _ => by decide +kernel, by unfold Spaced; decide +kernel, by decide +kernel,
    by decide +kernel⟩, [], by rw [List.append_nil]; exact (List.take_append_drop 2 _).symm⟩

/-- For the average of three candles both candles before it are taken in. -/
theorem warmup_iff_three : ∃ u series,
    run Coordinator.step {} [.getEMA threeMinutes "B" lastMinute ⟨180000, 3⟩ ⟨3⟩ false, .finish 0] =
      some u ∧ u.stored ⟨"B", ⟨3⟩⟩ = some (series, 0) ∧
      CoversWarmup (threeMinutes.candles.take 2) lastMinute.data 3 series.values := by
  have hrun : (run Coordinator.step {}
    [.getEMA threeMinutes "B" lastMinute ⟨180000, 3⟩ ⟨3⟩ false, .finish 0]).isSome = true := by
    decide +kernel
  obtain ⟨u, hu⟩ := Option.isSome_iff_exists.mp hrun
  have hfinish : (Coordinator.getEMA {} threeMinutes "B" lastMinute ⟨180000, 3⟩ ⟨3⟩ false).finish 0 =
      some u := by
    rw [← hu]
    simp [run, Coordinator.step]
  obtain ⟨series, hstored, hcovers⟩ := warmup_iff .insertion {} ['B'] ⟨60000⟩ _ threeMinutes rfl
    gapless_threeMinutes _ lastMinute slice_lastMinute 3 (by decide) (by decide) {} "B" ⟨180000, 3⟩ rfl
    [] _ u rfl hfinish
  exact ⟨u, series, hu, hstored, hcovers.mpr (.inr (.inl (by decide +kernel)))⟩

/-- For the average of two the one candle before it is not, and there is no number. -/
theorem warmup_missed :
    Gapless threeMinutes ∧ Slice threeMinutes (threeMinutes.candles.take 2) lastMinute ∧ ∃ u,
    run Coordinator.step {} [.getEMA threeMinutes "B" lastMinute ⟨180000, 3⟩ ⟨2⟩ false, .finish 0] =
      some u ∧ u.stored ⟨"B", ⟨2⟩⟩ = some (⟨"EMA(2)", [none]⟩, 0) ∧
      ¬ CoversWarmup (threeMinutes.candles.take 2) lastMinute.data 2 [none] := by
  refine ⟨gapless_threeMinutes, slice_lastMinute, _, rfl, by decide +kernel, fun h => ?_⟩
  have := h.average 0 (by decide +kernel) (by decide +kernel)
  cases this

end TCV.Indicators
