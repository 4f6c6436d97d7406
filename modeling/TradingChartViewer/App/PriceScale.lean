import TradingChartViewer.App.RenderSnapshotBuilder
import TradingChartViewer.Lib.Ladder
import TradingChartViewer.Lib.Loop
import TradingChartViewer.Lib.Steps

/-!
# The price axis

`roundTo125`, `next125`, `prev125` and `buildPriceScale` of
`RenderSnapshotBuilder.cpp`, with exact logarithms and powers of ten. A loop
that is given too few iterations leaves no result.

* `roundTo125_eq`, `next125_value`, `prev125_value`: the three on the ladder;
* `runFor_countBody`, `runFor_tickBody`: what the two loops over a scale compute;
* `exists_ticks`: a step between an eighth and 5/16 of the range has 4 to 10 ticks;
* `paddedRange_gap`: the length of a padded range;
* `buildPriceScale_ticks`: the ticks of every such range.
-/

namespace TCV.App

open Lib.Ladder Lib.Loop Lib.Steps

/-! ## The ladder -/

def roundTo125 (value : Rat) : Rat :=
  if !(0 < value) then 0
  else
    let exponent := Int.log 10 value
    let base := value / 10 ^ exponent
    if base ≤ 1 then 1 * 10 ^ exponent
    else if base ≤ 2 then 2 * 10 ^ exponent
    else if base ≤ 5 then 5 * 10 ^ exponent
    else 10 ^ (exponent + 1)

def next125 (value : Rat) : Rat :=
  if !(0 < value) then 0
  else
    let exponent := Int.log 10 value
    let base := value / 10 ^ exponent
    let base := if base < 1 then 1 else base
    if base < 2 then 2 * 10 ^ exponent
    else if base < 5 then 5 * 10 ^ exponent
    else if base < 10 then 10 * 10 ^ exponent
    else 10 ^ (exponent + 1)

def prev125 (value : Rat) : Rat :=
  if !(0 < value) then 0
  else
    let exponent := Int.log 10 value
    let base := value / 10 ^ exponent
    let epsilon : Rat := 1 / 10 ^ 9
    if base ≤ 1 + epsilon then 5 * 10 ^ (exponent - 1)
    else if base ≤ 2 + epsilon then 1 * 10 ^ exponent
    else if base ≤ 5 + epsilon then 2 * 10 ^ exponent
    else if base ≤ 10 + epsilon then 5 * 10 ^ exponent
    else 1 * 10 ^ (exponent + 1)

theorem roundTo125_eq {value : Rat} (h : 0 < value) : roundTo125 value = (above value).value := by
  unfold roundTo125 above
  rw [if_neg (by simpa using h)]
  dsimp only
  split_ifs <;> simp [Rung.value, Digit.value]

theorem next125_value (r : Rung) : next125 r.value = r.up.value := by
  have hpos := r.value_pos
  unfold next125
  rw [if_neg (by simpa using hpos)]
  dsimp only
  rw [r.value_div_decade, r.log_value]
  obtain ⟨d, exponent⟩ := r
  cases d <;> norm_num [Rung.up, Rung.value, Digit.value, decade_succ]

theorem prev125_value (r : Rung) : prev125 r.value = r.down.value := by
  have hpos := r.value_pos
  unfold prev125
  rw [if_neg (by simpa using hpos)]
  dsimp only
  rw [r.value_div_decade, r.log_value]
  obtain ⟨d, exponent⟩ := r
  cases d <;> norm_num [Rung.down, Rung.value, Digit.value]

/-! ## The scale -/

def kTargetPriceTickCount : Nat := 8
def kMinPriceTicks : Nat := 4
def kMaxPriceTicks : Nat := 12

/-- `std::numeric_limits<double>::max()`. -/
def kDoubleMax : Rat := (2 ^ 53 - 1) * 2 ^ 971

structure PriceScale where
  ticks : List Rat := []
  step : Rat := 0
  decimals : Int := 2
  deriving DecidableEq, Repr

/-- The exact logarithm is rounded up after its sign is changed. -/
def computePriceDecimals (step : Rat) : Int :=
  if !(0 < step) then 2 else clamp (-Int.log 10 step + 2) 2 8

/-- Up to `n` larger steps. -/
def largerSteps : Nat → Rat → List Rat
  | 0, _ => []
  | n + 1, probe =>
    let probe := next125 probe
    if probe ≤ 0 then [] else probe :: largerSteps n probe

/-- Up to `n` smaller steps. -/
def smallerSteps : Nat → Rat → List Rat
  | 0, _ => []
  | n + 1, probe =>
    let prev := prev125 probe
    if !(0 < prev) then [] else prev :: smallerSteps n prev

/-- The loop that counts the ticks of a step, at a value. -/
def countBody (minPrice maxPrice step : Rat) : Rat × Nat → Rat × Nat ⊕ Nat
  | (value, tickCount) =>
    let epsilon := step * (1 / 2)
    if value ≤ maxPrice + epsilon && tickCount < 500 then
      .inl (value + step, if minPrice - epsilon ≤ value then tickCount + 1 else tickCount)
    else .inr tickCount

/-- The loop that collects them. -/
def tickBody (minPrice maxPrice step : Rat) : Rat × List Rat → Rat × List Rat ⊕ List Rat
  | (value, ticks) =>
    let epsilon := step * (1 / 2)
    if value ≤ maxPrice + epsilon then
      let ticks := if minPrice - epsilon ≤ value then ticks ++ [value] else ticks
      if 500 < ticks.length then .inr ticks else .inl (value + step, ticks)
    else .inr ticks

structure BestStep where
  step : Rat
  score : Rat := kDoubleMax
  count : Nat := 0
  deriving DecidableEq, Repr

/-- The search among the steps that are left. -/
def searchStep (fuel : Nat) (minPrice maxPrice : Rat) : BestStep → List Rat → Option BestStep
  | best, [] => some best
  | best, step :: candidates =>
    if !(0 < step) then searchStep fuel minPrice maxPrice best candidates
    else do
      let startTick := ⌊minPrice / step⌋ * step
      let tickCount ← runFor (countBody minPrice maxPrice step) fuel (startTick, 0)
      if tickCount = 0 then searchStep fuel minPrice maxPrice best candidates
      else if kMinPriceTicks ≤ tickCount && tickCount ≤ kMaxPriceTicks then
        some { best with step := step, count := tickCount }
      else
        let diff : Rat := |(tickCount : Rat) - kTargetPriceTickCount|
        if diff < best.score then
          searchStep fuel minPrice maxPrice { step := step, score := diff, count := tickCount }
            candidates
        else searchStep fuel minPrice maxPrice best candidates

def buildPriceScale (fuel : Nat) (minPrice maxPrice : Rat) : Option PriceScale :=
  if !(minPrice < maxPrice) then some {}
  else do
    let range := maxPrice - minPrice
    let roughStep := range / (max kTargetPriceTickCount 1 : Nat)
    let safeRough := max roughStep (1 / 10 ^ 9)
    let stepCandidate := roundTo125 safeRough
    let candidates := stepCandidate :: largerSteps 5 stepCandidate ++ smallerSteps 5 stepCandidate
    let best ← searchStep fuel minPrice maxPrice { step := stepCandidate } candidates
    let startTick := ⌊minPrice / best.step⌋ * best.step
    let epsilon := best.step * (1 / 2)
    let ticks ← runFor (tickBody minPrice maxPrice best.step) fuel (startTick, [])
    let extraStart := startTick - best.step
    let ticks :=
      if ticks.length < kMinPriceTicks && 0 < best.count && extraStart ≤ maxPrice + epsilon then
        extraStart :: ticks
      else ticks
    some { ticks := ticks, step := best.step, decimals := computePriceDecimals best.step }

/-! ## The two loops -/

section Loops

variable {minPrice maxPrice step start : Rat} {n : Nat}

/-- One more of the values that the loops pass is a tick, or not. -/
theorem filter_evenly_succ (start bound : Rat) (n : Nat) :
    (evenly start step (n + 1)).filter (bound ≤ ·) =
      if bound ≤ start then start :: (evenly (start + step) step n).filter (bound ≤ ·)
      else (evenly (start + step) step n).filter (bound ≤ ·) := by
  rw [evenly_succ, List.filter_cons]
  simp only [decide_eq_true_eq]

/-- The loops pass the `n` values up to half a step above the highest price. -/
structure Passes (maxPrice step start : Rat) (n : Nat) : Prop where
  inside : ∀ i < n, start + i * step ≤ maxPrice + step * (1 / 2)
  outside : maxPrice + step * (1 / 2) < start + n * step

theorem Passes.first (h : Passes maxPrice step start (n + 1)) :
    start ≤ maxPrice + step * (1 / 2) := by
  have := h.inside 0 n.succ_pos
  rwa [Nat.cast_zero, zero_mul, add_zero] at this

theorem Passes.tail (h : Passes maxPrice step start (n + 1)) :
    Passes maxPrice step (start + step) n where
  inside i hi := by
    have := h.inside (i + 1) (by omega)
    push_cast at this
    linarith
  outside := by
    have := h.outside
    push_cast at this
    linarith

theorem Passes.nil (h : Passes maxPrice step start 0) : ¬ start ≤ maxPrice + step * (1 / 2) := by
  have := h.outside
  rw [Nat.cast_zero, zero_mul, add_zero] at this
  exact not_le.mpr this

theorem runFor_countBody (minPrice : Rat) (h : Passes maxPrice step start n) (tickCount : Nat)
    (hfew : tickCount + n ≤ 500) :
    runFor (countBody minPrice maxPrice step) (n + 1) (start, tickCount) =
      some (tickCount + ((evenly start step n).filter (minPrice - step * (1 / 2) ≤ ·)).length) := by
  induction n generalizing start tickCount with
  | zero =>
    refine runFor_done ?_ 0
    rw [countBody, if_neg (by rw [Bool.and_eq_true, decide_eq_true_eq]; exact fun hle => h.nil hle.1)]
    rfl
  | succ n ih =>
    have hnext : countBody minPrice maxPrice step (start, tickCount) = .inl (start + step,
        if minPrice - step * (1 / 2) ≤ start then tickCount + 1 else tickCount) := by
      rw [countBody, if_pos]
      rw [Bool.and_eq_true, decide_eq_true_eq, decide_eq_true_eq]
      exact ⟨h.first, by omega⟩
    rw [runFor_next hnext, ih h.tail _ (by split <;> omega), filter_evenly_succ]
    split
    · rw [List.length_cons]
      exact congrArg some (by omega)
    · rfl

theorem runFor_tickBody (minPrice : Rat) (h : Passes maxPrice step start n) (ticks : List Rat)
    (hfew : ticks.length + n ≤ 500) :
    runFor (tickBody minPrice maxPrice step) (n + 1) (start, ticks) =
      some (ticks ++ (evenly start step n).filter (minPrice - step * (1 / 2) ≤ ·)) := by
  induction n generalizing start ticks with
  | zero =>
    refine runFor_done ?_ 0
    rw [tickBody]
    dsimp only
    rw [if_neg h.nil]
    simp [evenly]
  | succ n ih =>
    have hlen : (if minPrice - step * (1 / 2) ≤ start then ticks ++ [start] else ticks).length ≤
        ticks.length + 1 := by
      split
      · rw [List.length_append, List.length_singleton]
      · omega
    have hnext : tickBody minPrice maxPrice step (start, ticks) = .inl (start + step,
        if minPrice - step * (1 / 2) ≤ start then ticks ++ [start] else ticks) := by
      rw [tickBody]
      dsimp only
      rw [if_pos h.first, if_neg (by omega)]
    rw [runFor_next hnext, ih h.tail _ (by omega), filter_evenly_succ]
    split
    · rw [List.append_assoc, List.singleton_append]
    · rfl

/-- Where the loops start they do not pass less than a step below the lowest price. -/
theorem exists_passes (hs : 0 < step) (hrange : minPrice < maxPrice) :
    ∃ n, Passes maxPrice step (⌊minPrice / step⌋ * step) (n + 1) ∧
      ⌊minPrice / step⌋ * step + n * step ≤ maxPrice + step * (1 / 2) := by
  have hle := (floor_mul_le hs minPrice).1
  obtain ⟨n, hn, hn'⟩ := exists_last_step hs
    (show ⌊minPrice / step⌋ * step ≤ maxPrice + step * (1 / 2) by linarith)
  refine ⟨n, ⟨fun i hi => ?_, by push_cast; exact hn'⟩, hn⟩
  have hi : (i : Rat) * step ≤ n * step :=
    mul_le_mul_of_nonneg_right (by exact_mod_cast Nat.lt_succ_iff.mp hi) hs.le
  linarith

/-- A number of steps, from what they span. -/
theorem natCast_lt_of_mul_lt {k : Nat} (hs : 0 < step) (h : (n : Rat) * step < k * step) :
    n < k := by
  exact_mod_cast lt_of_mul_lt_mul_right h hs.le

/-- A step of an eighth to 5/16 of the range has 4 to 10 ticks. -/
theorem exists_ticks (hs : 0 < step) (hrange : minPrice < maxPrice)
    (hlong : maxPrice - minPrice ≤ 8 * step) (hshort : 16 / 5 * step < maxPrice - minPrice) :
    ∃ first n, 3 ≤ n ∧ n ≤ 9 ∧
      (∀ fuel ≥ 12,
        runFor (countBody minPrice maxPrice step) fuel (⌊minPrice / step⌋ * step, 0) =
          some (n + 1) ∧
        runFor (tickBody minPrice maxPrice step) fuel (⌊minPrice / step⌋ * step, []) =
          some (evenly first step (n + 1))) ∧
      (minPrice - step / 2 ≤ first ∧ first ≤ minPrice + step / 2) ∧
      (maxPrice - step / 2 ≤ first + n * step ∧ first + n * step ≤ maxPrice + step / 2) := by
  obtain ⟨hle, hlt⟩ := floor_mul_le hs minPrice
  obtain ⟨n, hpass, hlast⟩ := exists_passes hs hrange
  have hout := hpass.outside
  have hcount := runFor_countBody minPrice hpass 0
  have hticks := runFor_tickBody minPrice hpass []
  rw [filter_evenly hs (by linarith)] at hcount hticks
  push_cast at hout
  generalize (⌊minPrice / step⌋ : Rat) * step = start at *
  have hfew : n < 10 := natCast_lt_of_mul_lt hs (by push_cast; linarith)
  by_cases hfirst : minPrice - step * (1 / 2) ≤ start
  · have hmany : 2 < n := natCast_lt_of_mul_lt hs (by push_cast; linarith)
    rw [if_pos hfirst] at hcount hticks
    refine ⟨start, n, hmany, by omega, fun fuel hfuel => ⟨?_, ?_⟩,
      ⟨by linarith, by linarith⟩, by linarith, by linarith⟩
    · refine runFor_mono (by omega) ((hcount (by omega)).trans ?_)
      rw [length_evenly, Nat.zero_add]
    · exact runFor_mono (by omega) (hticks (by rw [List.length_nil]; omega))
  · -- The first value is more than half a step too low.
    have hmany : 3 < n := natCast_lt_of_mul_lt hs (by push_cast; linarith)
    rw [if_neg hfirst] at hcount hticks
    obtain ⟨n, rfl⟩ : ∃ m, n = m + 1 := ⟨n - 1, by omega⟩
    push_cast at hlast hout
    refine ⟨start + step, n, by omega, by omega, fun fuel hfuel => ⟨?_, ?_⟩,
      ⟨by linarith, by linarith⟩, by linarith, by linarith⟩
    · refine runFor_mono (by omega) ((hcount (by omega)).trans ?_)
      rw [length_evenly, Nat.zero_add]
    · exact runFor_mono (by omega) (hticks (by rw [List.length_nil]; omega))

end Loops

/-! ## The ticks -/

/-- Four to twelve ticks, a rung of the ladder apart, from one end of the range
to the other up to half a step. -/
structure PriceScale.Covers (scale : PriceScale) (minPrice maxPrice : Rat) : Prop where
  step : ∃ r : Rung, scale.step = r.value
  spaced : scale.ticks.IsChain fun a b => b = a + scale.step
  count : kMinPriceTicks ≤ scale.ticks.length ∧ scale.ticks.length ≤ kMaxPriceTicks
  first : ∀ tick ∈ scale.ticks.head?, tick ≤ minPrice + scale.step / 2
  last : ∀ tick ∈ scale.ticks.getLast?, maxPrice - scale.step / 2 ≤ tick
  near : ∀ tick ∈ scale.ticks,
    minPrice - scale.step / 2 ≤ tick ∧ tick ≤ maxPrice + scale.step / 2

section Scales

variable {minPrice maxPrice step : Rat}

theorem paddedRange_gap (minPrice maxPrice : Rat) :
    2 / 10 ^ 6 ≤ (paddedRange minPrice maxPrice).2 - (paddedRange minPrice maxPrice).1 := by
  unfold paddedRange
  dsimp only
  split
  · have : (1 / 1000000 : Rat) ≤
        max (max |(maxPrice + minPrice) * (1 / 2)| 1 * (1 / 1000)) (1 / 1000000) := le_max_right ..
    linarith
  · rename_i h
    have hlt : minPrice < maxPrice := by simpa using h
    have hbase : (1 : Rat) ≤ max (max |maxPrice| |minPrice|) 1 := le_max_right ..
    have : max (max |maxPrice| |minPrice|) 1 * (1 / 1000000) ≤
        max ((maxPrice - minPrice) * (1 / 1000))
          (max (max |maxPrice| |minPrice|) 1 * (1 / 1000000)) := le_max_right ..
    linarith

theorem covers_evenly {r : Rung} {first : Rat} {n : Nat} (decimals : Int) (hn : 3 ≤ n ∧ n ≤ 9)
    (hfirst : minPrice - r.value / 2 ≤ first ∧ first ≤ minPrice + r.value / 2)
    (hlast : maxPrice - r.value / 2 ≤ first + n * r.value ∧
      first + n * r.value ≤ maxPrice + r.value / 2) :
    (PriceScale.mk (evenly first r.value (n + 1)) r.value decimals).Covers minPrice maxPrice where
  step := ⟨r, rfl⟩
  spaced := isChain_evenly ..
  count := by
    dsimp only
    rw [length_evenly, kMinPriceTicks, kMaxPriceTicks]
    omega
  first tick ht := by
    dsimp only at ht
    rw [evenly_succ, List.head?_cons, Option.mem_some_iff] at ht
    exact ht ▸ hfirst.2
  last tick ht := by
    dsimp only at ht
    rw [getLast?_evenly, Option.mem_some_iff] at ht
    exact ht ▸ hlast.1
  near tick ht := by
    obtain ⟨i, hi, rfl⟩ := mem_evenly.mp ht
    have h0 : 0 ≤ (i : Rat) * r.value := mul_nonneg (Nat.cast_nonneg _) r.value_pos.le
    have hle : (i : Rat) * r.value ≤ n * r.value :=
      mul_le_mul_of_nonneg_right (by exact_mod_cast Nat.lt_succ_iff.mp hi) r.value_pos.le
    dsimp only
    constructor <;> linarith

/-- The search stops at a step with the right number of ticks. -/
theorem searchStep_cons {fuel n : Nat} (best : BestStep) (candidates : List Rat) (hs : 0 < step)
    (hn : kMinPriceTicks ≤ n ∧ n ≤ kMaxPriceTicks)
    (hcount : runFor (countBody minPrice maxPrice step) fuel (⌊minPrice / step⌋ * step, 0) =
      some n) :
    searchStep fuel minPrice maxPrice best (step :: candidates) =
      some { best with step := step, count := n } := by
  have hpos : n ≠ 0 := (Nat.lt_of_lt_of_le (by decide) hn.1).ne'
  rw [searchStep, if_neg (by simpa using hs)]
  dsimp only
  rw [hcount, Option.bind_eq_bind, Option.bind_some, if_neg hpos, if_pos (by simpa using hn)]

/-- The first step that is tried is taken. -/
theorem buildPriceScale_eq (h : minPrice < maxPrice) (hpad : 2 / 10 ^ 6 ≤ maxPrice - minPrice) :
    ∃ (r : Rung) (first : Rat) (n : Nat), (3 ≤ n ∧ n ≤ 9) ∧
      (∀ fuel ≥ 12, buildPriceScale fuel minPrice maxPrice =
        some ⟨evenly first r.value (n + 1), r.value, computePriceDecimals r.value⟩) ∧
      (minPrice - r.value / 2 ≤ first ∧ first ≤ minPrice + r.value / 2) ∧
      (maxPrice - r.value / 2 ≤ first + n * r.value ∧
        first + n * r.value ≤ maxPrice + r.value / 2) := by
  have hrough : max ((maxPrice - minPrice) / (max kTargetPriceTickCount 1 : Nat)) (1 / 10 ^ 9) =
      (maxPrice - minPrice) / 8 := by
    rw [show max kTargetPriceTickCount 1 = 8 from rfl, Nat.cast_ofNat]
    exact max_eq_left (by linarith)
  obtain ⟨r, hr⟩ : ∃ r, r = above ((maxPrice - minPrice) / 8) := ⟨_, rfl⟩
  obtain ⟨hlong, hshort⟩ := above_spec (v := (maxPrice - minPrice) / 8) (by linarith)
  rw [← hr] at hlong hshort
  have hs := r.value_pos
  obtain ⟨first, n, hn3, hn9, hruns, hfirst, hlast⟩ :=
    exists_ticks hs h (by linarith) (by linarith)
  refine ⟨r, first, n, ⟨hn3, hn9⟩, fun fuel hfuel => ?_, hfirst, hlast⟩
  obtain ⟨hcount, hticks⟩ := hruns fuel hfuel
  unfold buildPriceScale
  rw [if_neg (by simpa using h)]
  dsimp only
  rw [hrough, roundTo125_eq (by linarith), ← hr, List.cons_append,
    searchStep_cons _ _ hs (by rw [kMinPriceTicks, kMaxPriceTicks]; omega) hcount,
    Option.bind_eq_bind, Option.bind_some]
  dsimp only
  rw [hticks, Option.bind_eq_bind, Option.bind_some, length_evenly, if_neg]
  rw [kMinPriceTicks]
  simp only [Bool.and_eq_true, decide_eq_true_eq]
  omega

end Scales

/-- The price axis of every range of the length that `paddedRange` makes sure of. -/
theorem buildPriceScale_ticks (minPrice maxPrice : Rat) (h : minPrice < maxPrice)
    (hpad : 2 / 10 ^ 6 ≤ maxPrice - minPrice) :
    ∃ scale, (∀ fuel ≥ 12, buildPriceScale fuel minPrice maxPrice = some scale) ∧
      scale.Covers minPrice maxPrice := by
  obtain ⟨r, first, n, hn, hbuild, hfirst, hlast⟩ := buildPriceScale_eq h hpad
  exact ⟨_, hbuild, covers_evenly _ hn hfirst hlast⟩

/-- A third to eight and a half, in steps of two. -/
theorem buildPriceScale_ticks_two :
    buildPriceScale 12 (1 / 3) (17 / 2) = some ⟨[0, 2, 4, 6, 8], 2, 2⟩ ∧
      (PriceScale.mk [0, 2, 4, 6, 8] 2 2).Covers (1 / 3) (17 / 2) := by
  have heval : buildPriceScale 12 (1 / 3) (17 / 2) = some ⟨[0, 2, 4, 6, 8], 2, 2⟩ := by
    decide +kernel
  obtain ⟨scale, hbuild, hcovers⟩ :=
    buildPriceScale_ticks (1 / 3) (17 / 2) (by norm_num) (by norm_num)
  rw [hbuild 12 le_rfl, Option.some_inj] at heval
  exact ⟨by rw [hbuild 12 le_rfl, heval], heval ▸ hcovers⟩

end TCV.App
