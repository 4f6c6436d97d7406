import TradingChartViewer.Indicators.Warmup

/-!
# Averages candle by candle

`IndicatorEngine::updateEMAIncremental` and `EMACalculator`, against
`computeEMA`, with exact numbers.

* `averages_concat`: what one more number adds to the averages;
* `updateEMAIncremental_computeEMA`: an update of the average of all but the
  last candle;
* `foldl_eq_expAverage`: what `calculateEmaFromScratch` computes;
* `updates_eq_computeEMA`: updates of the prefixes in turn, by induction on the prefixes;
* `emas_agree`: the three agree.
-/

namespace TCV.Indicators

open TCV.Domain

/-! ## The engine -/

/-- `std::vector::resize` with `kNaN`. -/
def resize (values : List (Option Rat)) (count : Nat) : List (Option Rat) :=
  values.take count ++ List.replicate (count - values.length) none

def updateEMAIncremental (candles : CandleSeries) (params : EmaParams) (inOut : IndicatorSeries) :
    IndicatorSeries :=
  let candleCount := candles.data.length
  let closes := candles.data.map Candle.close
  if params.period ≤ 0 || candleCount = 0 then
    { id := params.name, values := resize [] candleCount }
  else if inOut.values.length + 1 ≠ candleCount then computeEMA candles params
  else
    let inOut : IndicatorSeries := { id := params.name, values := resize inOut.values candleCount }
    if candleCount < sizeOfInt params.period then inOut
    else
      let lastIndex := candleCount - 1
      if candleCount = sizeOfInt params.period then
        let sum : Rat := closes.foldl (· + ·) 0
        let ema := sum / params.period
        { inOut with values := inOut.values.set lastIndex (some ema) }
      else
        match inOut.values.getD (lastIndex - 1) none with
        | none => computeEMA candles params
        | some prev =>
          let alpha := smoothingFactor params.period
          let price := closes.getLast?.getD 0
          let ema := (price - prev) * alpha + prev
          { inOut with values := inOut.values.set lastIndex (some ema) }

/-! ## The calculator -/

/-- What it throws is the text of `std::invalid_argument`. -/
def EMACalculator.calculateEmaFromScratch (prices : List Rat) (periods : Int) :
    Except String Rat :=
  if periods ≤ 0 then .error "EMA period must be positive"
  else if prices.length < sizeOfInt periods then .error "Not enough prices to compute EMA"
  else
    let multiplier : Rat := 2 / (periods + 1)
    let sum : Rat := (prices.take (sizeOfInt periods)).foldl (· + ·) 0
    let ema := sum / periods
    .ok ((prices.drop (sizeOfInt periods)).foldl (fun ema price => (price - ema) * multiplier + ema)
      ema)

def EMACalculator.calculateEmaWithPrevious (previousEma newPrice : Rat) (periods : Int) :
    Except String Rat :=
  if periods ≤ 0 then .error "EMA period must be positive"
  else
    let multiplier : Rat := 2 / (periods + 1)
    .ok ((newPrice - previousEma) * multiplier + previousEma)

/-! ## One more number -/

section Averages

variable {p : Nat} {closes : List Price}

/-- An average reads the numbers up to its own. -/
theorem expAverage_append {m : Nat} (hm : p + m ≤ closes.length) (rest : List Price) :
    expAverage p (closes ++ rest) m = expAverage p closes m := by
  induction m with
  | zero => rw [expAverage, expAverage, List.take_append_of_le_length (by omega)]
  | succ m ih =>
    have hget : (closes ++ rest).getD (p + m) 0 = closes.getD (p + m) 0 := by
      rw [List.getD_eq_getElem?_getD, List.getD_eq_getElem?_getD,
        List.getElem?_append_left (by omega)]
    rw [expAverage, expAverage, ih (by omega), hget]

theorem averages_concat (closes : List Price) (price : Price) :
    averages p (closes ++ [price]) = averages p closes ++
      [if closes.length + 1 < p then none
        else some (expAverage p (closes ++ [price]) (closes.length + 1 - p))] := by
  unfold averages
  rw [List.length_append, List.length_singleton, List.range_succ, List.map_append,
    List.map_singleton]
  refine congrArg₂ _ (List.map_congr_left fun i hi => ?_) rfl
  have := List.mem_range.mp hi
  split
  · rfl
  · rw [expAverage_append (by omega)]

/-- The next average is moved towards the new number. -/
theorem expAverage_concat (h : p ≤ closes.length) (price : Price) :
    expAverage p (closes ++ [price]) (closes.length + 1 - p) =
      (price - expAverage p closes (closes.length - p)) * (2 / (p + 1)) +
        expAverage p closes (closes.length - p) := by
  have hprice : (closes ++ [price]).getD (p + (closes.length - p)) 0 = price := by
    rw [show p + (closes.length - p) = closes.length by omega, List.getD_eq_getElem?_getD,
      List.getElem?_concat_length]
    rfl
  rw [show closes.length + 1 - p = closes.length - p + 1 by omega, expAverage, hprice,
    expAverage_append (by omega)]
  ring

theorem foldl_eq_expAverage (h : p ≤ closes.length) :
    (closes.drop p).foldl (fun ema price => (price - ema) * (2 / ((p : Rat) + 1)) + ema)
      ((closes.take p).foldl (· + ·) 0 / p) = expAverage p closes (closes.length - p) := by
  induction closes using List.reverseRecOn with
  | nil =>
    obtain rfl : p = 0 := Nat.le_zero.mp h
    rfl
  | append_singleton closes price ih =>
    rw [List.length_append, List.length_singleton] at h ⊢
    rcases Nat.lt_or_ge closes.length p with hlt | hle
    · have hp : p = closes.length + 1 := by omega
      rw [List.drop_of_length_le (by simp [hp]), hp, Nat.sub_self, expAverage, List.sum_eq_foldl]
      rfl
    · rw [List.drop_append_of_le_length hle, List.take_append_of_le_length hle, List.foldl_append,
        ih hle, expAverage_concat hle]
      rfl

end Averages

/-! ## Updates -/

/-- The first `n` candles. -/
def firstCandles (candles : CandleSeries) (n : Nat) : CandleSeries :=
  { candles with data := candles.data.take n }

/-- The series of the first candles, from `first` of them to all. -/
def prefixes (candles : CandleSeries) (first : Nat) : List CandleSeries :=
  (List.range' first (candles.data.length + 1 - first)).map (firstCandles candles)

section Updates

variable {candles : CandleSeries} {params : EmaParams}

/-- The closes of the first `n + 1` candles. -/
theorem closes_firstCandles_succ {n : Nat} (hn : n < candles.data.length) : ∃ price,
    (firstCandles candles (n + 1)).data.map Candle.close =
      (firstCandles candles n).data.map Candle.close ++ [price] := by
  refine ⟨(candles.data[n]).close, ?_⟩
  show (candles.data.take (n + 1)).map _ = (candles.data.take n).map _ ++ _
  rw [List.take_succ_eq_append_getElem hn, List.map_append]
  rfl

theorem computeEMA_id (candles : CandleSeries) (params : EmaParams) :
    (computeEMA candles params).id = params.name := by
  unfold computeEMA
  dsimp only
  split_ifs <;> rfl

theorem computeEMA_eq (candles : CandleSeries) {p : Nat} (hp : 1 ≤ p) (hp' : p < 2 ^ 31) :
    computeEMA candles ⟨p⟩ =
      ⟨EmaParams.name ⟨p⟩, averages p (candles.data.map Candle.close)⟩ := by
  rw [← computeEMA_values candles hp hp', ← computeEMA_id]

theorem length_averages (p : Nat) (closes : List Price) :
    (averages p closes).length = closes.length := by
  rw [averages, List.length_map, List.length_range]

theorem resize_concat (values : List (Option Rat)) :
    resize values (values.length + 1) = values ++ [none] := by
  rw [resize, List.take_of_length_le (Nat.le_succ _), Nat.add_sub_cancel_left]
  rfl

/-- The average of one more candle, from the average of those before it. -/
theorem updateEMAIncremental_averages {candles : CandleSeries} {p : Nat} (hp : 1 ≤ p)
    (hp' : p < 2 ^ 31) {closes : List Price} {price : Price}
    (hcloses : candles.data.map Candle.close = closes ++ [price]) :
    updateEMAIncremental candles ⟨p⟩ ⟨EmaParams.name ⟨p⟩, averages p closes⟩ =
      computeEMA candles ⟨p⟩ := by
  have hlen : candles.data.length = (averages p closes).length + 1 := by
    rw [length_averages, ← List.length_map (f := Candle.close), hcloses, List.length_append]
    rfl
  rw [computeEMA_eq candles hp hp', hcloses, averages_concat]
  unfold updateEMAIncremental
  dsimp only
  rw [if_neg (by simp [hlen]; omega), hlen, if_neg (not_not.mpr rfl), sizeOfInt_of_pos hp', hcloses,
    resize_concat, Nat.add_sub_cancel, length_averages]
  have hset (value : Option Rat) : (averages p closes ++ [none]).set closes.length value =
      averages p closes ++ [value] := by
    rw [List.set_append_right _ _ (length_averages p closes).le, length_averages, Nat.sub_self,
      List.set_cons_zero]
  by_cases hfew : closes.length + 1 < p
  · rw [if_pos hfew, if_pos hfew]
  rw [if_neg hfew, if_neg hfew]
  by_cases hseed : closes.length + 1 = p
  · -- The first average is that of the first numbers.
    rw [if_pos hseed, hset, hseed, Nat.sub_self, expAverage, List.sum_eq_foldl,
      List.take_of_length_le (by simp [hseed])]
    rfl
  · rw [if_neg hseed]
    have hprev : (averages p closes ++ [none]).getD (closes.length - 1) none =
        some (expAverage p closes (closes.length - p)) := by
      rw [List.getD_eq_getElem?_getD, List.getElem?_append_left (by rw [length_averages]; omega),
        getElem?_averages (by omega), if_neg (by omega),
        show closes.length - 1 + 1 - p = closes.length - p by omega]
      rfl
    have hsmooth : smoothingFactor p = 2 / (p + 1) := by
      rw [smoothingFactor, if_neg (by omega)]
      simp
    rw [hprev, expAverage_concat (by omega), List.getLast?_concat, hsmooth]
    dsimp only
    rw [hset, Option.getD_some]

theorem updateEMAIncremental_computeEMA {n : Nat} (hn : n < candles.data.length)
    (hp : params.period < 2 ^ 31) :
    updateEMAIncremental (firstCandles candles (n + 1)) params
      (computeEMA (firstCandles candles n) params) =
      computeEMA (firstCandles candles (n + 1)) params := by
  rcases lt_or_ge 0 params.period with hpos | hneg
  · obtain ⟨p, hp0⟩ := Int.eq_ofNat_of_zero_le hpos.le
    obtain rfl : params = ⟨p⟩ := by cases params; exact congrArg _ hp0
    dsimp only at hpos hp
    obtain ⟨price, hcloses⟩ := closes_firstCandles_succ hn
    rw [computeEMA_eq (firstCandles candles n) (by omega) (by omega)]
    exact updateEMAIncremental_averages (by omega) (by omega) hcloses
  · unfold updateEMAIncremental computeEMA
    dsimp only
    rw [if_pos (by simp [hneg]), if_pos (by simp [hneg])]
    simp [resize]

/-- Without candles nothing is computed. -/
theorem computeEMA_firstCandles_zero (candles : CandleSeries) (params : EmaParams) :
    computeEMA (firstCandles candles 0) params = ⟨params.name, []⟩ := by
  unfold computeEMA
  dsimp only
  rw [if_pos (by simp [firstCandles])]
  rfl

theorem updateEMAIncremental_firstCandles_zero (inOut : IndicatorSeries) :
    updateEMAIncremental (firstCandles candles 0) params inOut =
      computeEMA (firstCandles candles 0) params := by
  rw [computeEMA_firstCandles_zero]
  unfold updateEMAIncremental
  dsimp only
  rw [if_pos (by simp [firstCandles])]
  rfl

/-- Update after update, from the average of the first `n` candles. -/
theorem scanl_updateEMAIncremental (candles : CandleSeries) (hp : params.period < 2 ^ 31)
    {k n : Nat}
    (hk : n + k ≤ candles.data.length) :
    ((List.range' (n + 1) k).map (firstCandles candles)).scanl
        (fun inOut taken => updateEMAIncremental taken params inOut)
        (computeEMA (firstCandles candles n) params) =
      ((List.range' n (k + 1)).map (firstCandles candles)).map (computeEMA · params) := by
  induction k generalizing n with
  | zero => rfl
  | succ k ih =>
    rw [List.range'_succ, List.map_cons, List.scanl_cons,
      updateEMAIncremental_computeEMA (by omega) hp, ih (by omega),
      List.range'_succ (n := k + 1), List.map_cons, List.map_cons]

theorem updates_eq_computeEMA (hp : params.period < 2 ^ 31) {first : Nat} (hfirst : first ≤ 1)
    (id : String) :
    ((prefixes candles first).scanl
        (fun inOut taken => updateEMAIncremental taken params inOut) ⟨id, []⟩).tail =
      (prefixes candles first).map (computeEMA · params) := by
  have hscan := scanl_updateEMAIncremental candles hp (n := 0)
    (k := candles.data.length) (Nat.zero_add _).le
  obtain rfl | rfl : first = 0 ∨ first = 1 := by omega
  · -- The first update sees no candle.
    unfold prefixes
    rw [Nat.sub_zero, List.range'_succ, List.map_cons, List.scanl_cons, List.tail_cons,
      updateEMAIncremental_firstCandles_zero, hscan, ← List.map_cons, ← List.range'_succ]
  · -- The first update reads no value and no name.
    have htail := congrArg List.tail hscan
    rw [List.range'_succ, List.map_cons, List.map_cons, List.tail_cons,
      computeEMA_firstCandles_zero] at htail
    unfold prefixes
    rw [Nat.add_sub_cancel, ← htail]
    cases candles.data.length with
    | zero => rfl
    | succ n =>
      rw [List.range'_succ, List.map_cons, List.scanl_cons, List.scanl_cons]
      rfl

end Updates

/-! ## Both together -/

/-- The calculator agrees with the last average of the engine. -/
theorem calculateEmaFromScratch_eq {p : Nat} (hp : 1 ≤ p) (hp' : p < 2 ^ 31) {closes : List Price}
    (hcloses : p ≤ closes.length) :
    EMACalculator.calculateEmaFromScratch closes p =
      .ok (expAverage p closes (closes.length - p)) := by
  unfold EMACalculator.calculateEmaFromScratch
  rw [if_neg (by omega), sizeOfInt_of_pos hp', if_neg (by omega)]
  exact congrArg _ (foldl_eq_expAverage hcloses)

theorem calculateEmaFromScratch_concat {p : Nat} (hp : 1 ≤ p) (hp' : p < 2 ^ 31)
    {closes : List Price} (hcloses : p ≤ closes.length) (price : Price) :
    EMACalculator.calculateEmaFromScratch (closes ++ [price]) p =
      EMACalculator.calculateEmaWithPrevious (expAverage p closes (closes.length - p)) price p := by
  have hlen : (closes ++ [price]).length = closes.length + 1 := by
    rw [List.length_append, List.length_singleton]
  rw [calculateEmaFromScratch_eq hp hp' (by omega), hlen, expAverage_concat hcloses]
  unfold EMACalculator.calculateEmaWithPrevious
  rw [if_neg (by omega)]
  rfl

/-- Every update leaves what computing all candles gives, and from the first
full window on the calculator has the same last average and moves as its step does. -/
theorem emas_agree (candles : CandleSeries) (params : EmaParams) (hp : params.period < 2 ^ 31)
    (first : Nat) (hfirst : first ≤ 1) (id : String) :
    ((prefixes candles first).scanl
        (fun inOut taken => updateEMAIncremental taken params inOut) ⟨id, []⟩).tail =
      (prefixes candles first).map (computeEMA · params) ∧
    (1 ≤ params.period → params.period ≤ candles.data.length → ∃ ema,
      EMACalculator.calculateEmaFromScratch (candles.data.map Candle.close) params.period =
        .ok ema ∧
      (computeEMA candles params).values.getLast? = some (some ema) ∧
      ∀ price,
        EMACalculator.calculateEmaFromScratch (candles.data.map Candle.close ++ [price])
            params.period =
          EMACalculator.calculateEmaWithPrevious ema price params.period) := by
  refine ⟨updates_eq_computeEMA hp hfirst id, fun hpos hlen => ?_⟩
  obtain ⟨p, hp0⟩ := Int.eq_ofNat_of_zero_le (show 0 ≤ params.period by omega)
  obtain rfl : params = ⟨p⟩ := by cases params; exact congrArg _ hp0
  dsimp only at hpos hlen hp
  have hcloses : p ≤ (candles.data.map Candle.close).length := by
    rw [List.length_map]
    omega
  refine ⟨_, calculateEmaFromScratch_eq (by omega) (by omega) hcloses, ?_,
    calculateEmaFromScratch_concat (by omega) (by omega) hcloses⟩
  rw [computeEMA_eq candles (by omega) (by omega), List.getLast?_eq_getElem?, length_averages,
    getElem?_averages (by omega), if_neg (by omega),
    Nat.sub_add_cancel (by omega)]

/-- A series that closes at 1, 2 and 6. -/
def threeCloses : CandleSeries :=
  ⟨⟨60000⟩, [{ flatCandle 60000 true with close := 1 }, { flatCandle 120000 true with close := 2 },
    { flatCandle 180000 true with close := 6 }], 60000, 180000⟩

/-- The average of two over it. -/
theorem emas_agree_three :
    ((prefixes threeCloses 1).scanl
        (fun inOut taken => updateEMAIncremental taken ⟨2⟩ inOut) ⟨"", []⟩).tail =
      [⟨"EMA(2)", [none]⟩, ⟨"EMA(2)", [none, some (3 / 2)]⟩,
        ⟨"EMA(2)", [none, some (3 / 2), some (9 / 2)]⟩] ∧
    EMACalculator.calculateEmaFromScratch [1, 2, 6] 2 = .ok (9 / 2) := by
  have hagree := emas_agree threeCloses ⟨2⟩ (by decide) 1 le_rfl ""
  refine ⟨hagree.1.trans (by decide +kernel), ?_⟩
  obtain ⟨ema, hscratch, hlast, -⟩ := hagree.2 (by decide) (by decide +kernel)
  have hvalue : (computeEMA threeCloses ⟨2⟩).values.getLast? = some (some (9 / 2)) := by
    decide +kernel
  rw [hvalue, Option.some_inj, Option.some_inj] at hlast
  rw [hlast]
  exact hscratch

end TCV.Indicators
