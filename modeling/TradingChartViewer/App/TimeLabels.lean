import TradingChartViewer.App.PriceScale

/-!
# The time axis

`chooseTimeStep` and the time labels that `RenderSnapshotBuilder::build` makes,
with exact numbers. The text of a label is left out: a label carries the time it
is the text of. A loop that is given too few iterations leaves no result.

* `lowerBody_ends`, `raiseBody_ends`: the two loops on the ladder;
* `chooseTimeStep_spec`: it ends, at a step with at most ten labels;
* `LabelsInv`: the labels so far, at the head of an iteration; `timeLabels_spec`: all of them.
-/

namespace TCV.App

open Lib.Grid Lib.Ladder Lib.Loop

def kMinTimeLabels : Nat := 6
def kMaxTimeLabels : Nat := 10
def kTimeLabelMinSpacingPx : Rat := 80
def kTimeLabelTargetSpacingPx : Rat := 100

/-! ## The step -/

def countForStep (visibleCount : Nat) (step : Rat) : Nat :=
  if !(0 < step) then visibleCount else ⌊visibleCount / step⌋.toNat + 1

/-- The loop to more labels. -/
def lowerBody (visibleCount : Nat) (candidate : Rat) : Rat ⊕ Rat :=
  if 1 < candidate && countForStep visibleCount candidate < kMinTimeLabels then
    let prev := prev125 candidate
    if !(1 ≤ prev) then .inr 1 else .inl prev
  else .inr candidate

/-- The loop to fewer. -/
def raiseBody (visibleCount : Nat) (candidate : Rat) : Rat ⊕ Rat :=
  if kMaxTimeLabels < countForStep visibleCount candidate then
    let next := next125 candidate
    if !(candidate < next) then .inr candidate else .inl next
  else .inr candidate

/-- The candidate is never negative where it is rounded. -/
def chooseTimeStep (fuel visibleCount : Nat) (pxPerCandle : Rat) : Option Nat :=
  if visibleCount = 0 || pxPerCandle ≤ 0 then some 1
  else do
    let minSpacingCandles := kTimeLabelTargetSpacingPx / max pxPerCandle (1 / 1000)
    let minCandles := max minSpacingCandles 1
    let targetCandles : Rat := visibleCount / 8
    let roughStep := max minCandles targetCandles
    let roughStep := if roughStep < 1 then 1 else roughStep
    let candidate := roundTo125 roughStep
    let candidate := if candidate < 1 then 1 else candidate
    let candidate ← runFor (lowerBody visibleCount) fuel candidate
    let candidate ← runFor (raiseBody visibleCount) fuel candidate
    let step := ⌊max (⌊candidate + 1 / 2⌋ : Rat) 1⌋.toNat
    let spacingPx := pxPerCandle * step
    let step :=
      if spacingPx < kTimeLabelMinSpacingPx then
        let adjusted := roundTo125 ⌈kTimeLabelMinSpacingPx / max pxPerCandle 1⌉
        ⌊max adjusted step⌋.toNat
      else step
    some (max step 1)

section Steps

variable {visibleCount : Nat} {r : Rung}

theorem countForStep_eq {step : Nat} (hs : 1 ≤ step) :
    countForStep visibleCount step = visibleCount / step + 1 := by
  have hfloor : ⌊(visibleCount : Rat) / step⌋ = ((visibleCount / step : Nat) : Int) :=
    Rat.floor_natCast_div_natCast visibleCount step
  rw [countForStep, if_neg (by simpa using Nat.pos_iff_ne_zero.mp hs), hfloor, Int.toNat_natCast]

/-- The loops stay on the rungs from 1 on. -/
def OnLadder (c : Rat) : Prop := ∃ r : Rung, c = r.value ∧ 1 ≤ r.value

theorem OnLadder.exists_nat {c : Rat} (h : OnLadder c) : ∃ n : Nat, 1 ≤ n ∧ c = n := by
  obtain ⟨r, rfl, hr⟩ := h
  obtain ⟨n, hn⟩ := r.exists_nat hr
  exact ⟨n, by rw [hn] at hr; exact_mod_cast hr, hn⟩

/-- On whole numbers, an order of the numbers is one of their floors. -/
theorem OnLadder.floor_lt {c d : Rat} (hc : OnLadder c) (hd : OnLadder d) (h : c < d) :
    ⌊c⌋.toNat < ⌊d⌋.toNat := by
  obtain ⟨m, -, rfl⟩ := hc.exists_nat
  obtain ⟨n, -, rfl⟩ := hd.exists_nat
  simpa using h

theorem lowerBody_next {c d : Rat} (hc : OnLadder c) (hb : lowerBody visibleCount c = .inl d) :
    OnLadder d ∧ d < c := by
  obtain ⟨r, rfl, -⟩ := hc
  unfold lowerBody at hb
  split at hb
  · rename_i hgo
    rw [Bool.and_eq_true, decide_eq_true_eq] at hgo
    have hdown := Rung.one_le_down hgo.1
    dsimp only at hb
    rw [prev125_value, if_neg (by simpa using hdown)] at hb
    exact ⟨⟨r.down, (Sum.inl.inj hb).symm, hdown⟩, (Sum.inl.inj hb) ▸ r.value_down_lt⟩
  · cases hb

theorem lowerBody_done {c d : Rat} (hc : OnLadder c) (hb : lowerBody visibleCount c = .inr d) :
    d = c := by
  obtain ⟨r, rfl, -⟩ := hc
  unfold lowerBody at hb
  split at hb
  · rename_i hgo
    rw [Bool.and_eq_true, decide_eq_true_eq] at hgo
    dsimp only at hb
    rw [prev125_value, if_neg (by simpa using Rung.one_le_down hgo.1)] at hb
    cases hb
  · exact (Sum.inr.inj hb).symm

/-- The loop to more labels ends on the ladder. -/
theorem lowerBody_ends (visibleCount : Nat) {c : Rat} (hc : OnLadder c) :
    ∃ d, OnLadder d ∧ Ends (lowerBody visibleCount) c d := by
  obtain ⟨d, hd⟩ : Halts (lowerBody visibleCount) c := halts_of_measure (fun c => ⌊c⌋.toNat)
    (fun c d hc hb => ⟨(lowerBody_next hc hb).1,
      (lowerBody_next hc hb).1.floor_lt hc (lowerBody_next hc hb).2⟩) hc
  exact ⟨d, hd.rule (fun _ _ hc hb => (lowerBody_next hc hb).1)
    (fun _ _ hc hb => lowerBody_done hc hb ▸ hc) hc, hd⟩

theorem raiseBody_next {c d : Rat} (hc : OnLadder c) (hb : raiseBody visibleCount c = .inl d) :
    OnLadder d ∧ c < d ∧ ⌊c⌋.toNat ≤ visibleCount := by
  obtain ⟨n, hn, hcn⟩ := hc.exists_nat
  obtain ⟨r, rfl, hr⟩ := hc
  have hup := r.value_lt_up
  unfold raiseBody at hb
  split at hb
  · rename_i hgo
    dsimp only at hb
    rw [next125_value, if_neg (by simpa using hup)] at hb
    have hfit : n ≤ visibleCount := by
      rw [hcn, countForStep_eq hn, kMaxTimeLabels] at hgo
      have := Nat.div_mul_le_self visibleCount n
      nlinarith
    exact ⟨⟨r.up, (Sum.inl.inj hb).symm, hr.trans hup.le⟩, (Sum.inl.inj hb) ▸ hup,
      by rw [hcn, Int.floor_natCast, Int.toNat_natCast]; exact hfit⟩
  · cases hb

theorem raiseBody_done {c d : Rat} (hc : OnLadder c) (hb : raiseBody visibleCount c = .inr d) :
    d = c ∧ countForStep visibleCount c ≤ kMaxTimeLabels := by
  obtain ⟨r, rfl, -⟩ := hc
  unfold raiseBody at hb
  split at hb
  · dsimp only at hb
    rw [next125_value, if_neg (by simpa using r.value_lt_up)] at hb
    cases hb
  · rename_i hstop
    exact ⟨(Sum.inr.inj hb).symm, not_lt.mp hstop⟩

/-- The loop to fewer labels ends on the ladder, with few enough. -/
theorem raiseBody_ends (visibleCount : Nat) {c : Rat} (hc : OnLadder c) :
    ∃ d, (OnLadder d ∧ countForStep visibleCount d ≤ kMaxTimeLabels) ∧
      Ends (raiseBody visibleCount) c d := by
  obtain ⟨d, hd⟩ : Halts (raiseBody visibleCount) c := halts_of_measure
    (fun c => visibleCount + 1 - ⌊c⌋.toNat)
    (fun c d hc hb => by
      obtain ⟨hd, hlt, hfit⟩ := raiseBody_next hc hb
      have := hc.floor_lt hd hlt
      exact ⟨hd, by omega⟩) hc
  refine ⟨d, hd.rule (Q := fun d => OnLadder d ∧ countForStep visibleCount d ≤ kMaxTimeLabels)
    (fun _ _ hc hb => (raiseBody_next hc hb).1) (fun c d hc hb => ?_) hc, hd⟩
  obtain ⟨rfl, hcount⟩ := raiseBody_done hc hb
  exact ⟨hc, hcount⟩

theorem onLadder_roundTo125 {v : Rat} (hv : 1 ≤ v) : OnLadder (roundTo125 v) := by
  rw [roundTo125_eq (by linarith)]
  exact ⟨above v, rfl, hv.trans (above_spec (by linarith)).1⟩

/-- What is left to do after the loops: the step is widened at most. -/
theorem le_widened (pxPerCandle : Rat) (n : Nat) :
    n ≤ max (if pxPerCandle * n < kTimeLabelMinSpacingPx then
      ⌊max (roundTo125 ⌈kTimeLabelMinSpacingPx / max pxPerCandle 1⌉) n⌋.toNat else n) 1 := by
  refine le_max_of_le_left ?_
  split
  · have h : (n : Int) ≤ ⌊max (roundTo125 ⌈kTimeLabelMinSpacingPx / max pxPerCandle 1⌉) (n : Rat)⌋ :=
      Int.le_floor.mpr (by exact_mod_cast le_max_right ..)
    omega
  · exact le_rfl

/-- `chooseTimeStep` ends, at a step with at most ten labels. -/
theorem chooseTimeStep_spec {pxPerCandle : Rat} (hn : 1 ≤ visibleCount) (hpx : 0 < pxPerCandle) :
    ∃ step, Returns (fun fuel => chooseTimeStep fuel visibleCount pxPerCandle) step ∧
      1 ≤ step ∧ visibleCount / step + 1 ≤ kMaxTimeLabels := by
  obtain ⟨roughStep, hrough⟩ : ∃ v, v = max
    (max (kTimeLabelTargetSpacingPx / max pxPerCandle (1 / 1000)) 1) ((visibleCount : Rat) / 8) :=
    ⟨_, rfl⟩
  have hone : 1 ≤ roughStep := hrough ▸ le_max_of_le_left (le_max_right ..)
  obtain ⟨r, hr, hr1⟩ := onLadder_roundTo125 hone
  obtain ⟨low, hlow, hends⟩ := lowerBody_ends visibleCount
    (onLadder_roundTo125 hone)
  obtain ⟨c, ⟨hc, hcount⟩, hends'⟩ := raiseBody_ends visibleCount hlow
  obtain ⟨n, hn1, rfl⟩ := hc.exists_nat
  rw [countForStep_eq hn1] at hcount
  have hstep : ⌊max ((⌊(n : Rat) + 1 / 2⌋ : Int) : Rat) 1⌋.toNat = n := by
    have hround : ⌊(n : Rat) + 1 / 2⌋ = n := by
      rw [Int.floor_natCast_add, show ⌊(1 / 2 : Rat)⌋ = 0 by norm_num, add_zero]
    rw [hround, Int.cast_natCast, max_eq_left (by exact_mod_cast hn1), Int.floor_natCast,
      Int.toNat_natCast]
  obtain ⟨k, hk⟩ := hends.returns
  obtain ⟨k', hk'⟩ := hends'.returns
  refine ⟨_, ⟨max k k', fun fuel hfuel => ?_⟩, le_max_right _ _,
    (Nat.add_le_add_right (Nat.div_le_div_left (le_widened pxPerCandle n) hn1) 1).trans hcount⟩
  unfold chooseTimeStep
  dsimp only at hk hk' ⊢
  rw [decide_eq_false (Nat.one_le_iff_ne_zero.mp hn), decide_eq_false (not_le.mpr hpx),
    Bool.or_false, if_neg Bool.false_ne_true, ← hrough, if_neg (not_lt.mpr hone),
    if_neg (by rw [hr]; exact not_lt.mpr hr1), hk fuel (le_of_max_le_left hfuel),
    Option.bind_eq_bind, Option.bind_some, hk' fuel (le_of_max_le_right hfuel), Option.bind_some,
    hstep]

end Steps

/-! ## The labels -/

structure TimeLabel where
  x : Rat
  tickTime : Int
  deriving DecidableEq, Repr

/-- What the label loop reads. -/
structure TimeAxis where
  pxPerCandle : Rat
  canvasWidth : Rat
  firstTime : Int
  lastTime : Int
  baseIntervalMs : Int
  stepMs : Int
  deriving DecidableEq, Repr

def TimeAxis.labelX (axis : TimeAxis) (tickTime : Int) : Rat :=
  let offsetCandles := ((tickTime : Rat) - axis.firstTime) / axis.baseIntervalMs
  axis.pxPerCandle * (offsetCandles + 1 / 2)

/-- The loop to the first tick of the window. -/
def TimeAxis.alignBody (axis : TimeAxis) (tickTime : Int) : Int ⊕ Int :=
  if tickTime < axis.firstTime then .inl (tickTime + axis.stepMs) else .inr tickTime

/-- The loop over the ticks. -/
def TimeAxis.labelBody (axis : TimeAxis) :
    Int × List TimeLabel → Int × List TimeLabel ⊕ List TimeLabel
  | (tickTime, labels) =>
    if tickTime ≤ axis.lastTime then
      let x := axis.labelX tickTime
      if x < -kTimeLabelMinSpacingPx || axis.canvasWidth + kTimeLabelMinSpacingPx < x then
        .inl (tickTime + axis.stepMs, labels)
      else if labels.getLast?.any fun last => |x - last.x| < kTimeLabelMinSpacingPx then
        .inl (tickTime + axis.stepMs, labels)
      else .inl (tickTime + axis.stepMs, labels ++ [⟨x, tickTime⟩])
    else .inr labels

/-- Where the first loop starts. -/
def TimeAxis.origin (axis : TimeAxis) : Int :=
  let origin := axis.firstTime.tdiv axis.stepMs * axis.stepMs
  if axis.firstTime < origin then origin - axis.stepMs else origin

def TimeAxis.labels (axis : TimeAxis) (fuel : Nat) : Option (List TimeLabel) := do
  let tickTime ← runFor axis.alignBody fuel axis.origin
  let labels ← runFor axis.labelBody fuel (tickTime, [])
  some (if labels.isEmpty then [⟨axis.pxPerCandle * (1 / 2), axis.firstTime⟩] else labels)

section Labels

variable {axis : TimeAxis} {tickTime : Int} {labels : List TimeLabel}

/-- One iteration goes on to the next tick, with one more label at most. -/
theorem labelBody_next {t : Int × List TimeLabel} (hb : axis.labelBody (tickTime, labels) = .inl t) :
    tickTime ≤ axis.lastTime ∧ t.1 = tickTime + axis.stepMs ∧
      (t.2 = labels ∨ t.2 = labels ++ [⟨axis.labelX tickTime, tickTime⟩] ∧
        ∀ last ∈ labels.getLast?,
          kTimeLabelMinSpacingPx ≤ |axis.labelX tickTime - last.x|) := by
  rw [TimeAxis.labelBody] at hb
  split at hb
  · rename_i hle
    dsimp only at hb
    refine ⟨hle, ?_⟩
    split at hb
    · exact Sum.inl.inj hb ▸ ⟨rfl, .inl rfl⟩
    split at hb
    · exact Sum.inl.inj hb ▸ ⟨rfl, .inl rfl⟩
    · rename_i hfar
      refine Sum.inl.inj hb ▸ ⟨rfl, .inr ⟨rfl, fun last hlast => ?_⟩⟩
      rw [Option.mem_def.mp hlast] at hfar
      simpa using hfar
  · cases hb

theorem labelBody_done {r : List TimeLabel} (hb : axis.labelBody (tickTime, labels) = .inr r) :
    r = labels ∧ axis.lastTime < tickTime := by
  rw [TimeAxis.labelBody] at hb
  split at hb
  · dsimp only at hb
    split_ifs at hb
  · exact ⟨(Sum.inr.inj hb).symm, by omega⟩

theorem alignBody_halts (hs : 0 < axis.stepMs) (origin : Int) : Halts axis.alignBody origin := by
  refine halts_of_measure (I := fun _ => True) (fun t => (axis.firstTime - t).toNat)
    (fun t u _ hb => ⟨trivial, ?_⟩) trivial
  unfold TimeAxis.alignBody at hb
  split at hb
  · have := Sum.inl.inj hb
    omega
  · cases hb

theorem labelBody_halts (hs : 0 < axis.stepMs) (s : Int × List TimeLabel) :
    Halts axis.labelBody s := by
  refine halts_of_measure (I := fun _ => True) (fun s => (axis.lastTime + 1 - s.1).toNat)
    (fun s t _ hb => ⟨trivial, ?_⟩) trivial
  obtain ⟨hle, hnext, -⟩ := labelBody_next hb
  omega

/-- The labels of every window are made. -/
theorem labels_halt (hs : 0 < axis.stepMs) :
    ∃ tickTime labels, Ends axis.alignBody axis.origin tickTime ∧
      Ends axis.labelBody (tickTime, []) labels ∧ Returns axis.labels
        (if labels.isEmpty then [⟨axis.pxPerCandle * (1 / 2), axis.firstTime⟩] else labels) := by
  obtain ⟨tickTime, hends⟩ := alignBody_halts hs axis.origin
  obtain ⟨labels, hends'⟩ := labelBody_halts hs (tickTime, [])
  obtain ⟨k, hk⟩ := hends.returns
  obtain ⟨k', hk'⟩ := hends'.returns
  refine ⟨tickTime, labels, hends, hends', max k k', fun fuel hfuel => ?_⟩
  unfold TimeAxis.labels
  dsimp only at hk hk'
  rw [hk fuel (le_of_max_le_left hfuel), Option.bind_eq_bind, Option.bind_some,
    hk' fuel (le_of_max_le_right hfuel), Option.bind_eq_bind, Option.bind_some]

/-- The axis of a window whose first candle is at a positive time. -/
structure TimeAxis.Positive (axis : TimeAxis) : Prop where
  pxPerCandle : 0 < axis.pxPerCandle
  firstTime : 0 < axis.firstTime
  lastTime : axis.firstTime ≤ axis.lastTime
  baseIntervalMs : 0 < axis.baseIntervalMs
  stepMs : 0 < axis.stepMs

theorem TimeAxis.Positive.labelX_lt (h : axis.Positive) {s t : Int} (hst : s < t) :
    axis.labelX s < axis.labelX t := by
  have hbase : (0 : Rat) < axis.baseIntervalMs := by exact_mod_cast h.baseIntervalMs
  have hst : (s : Rat) - axis.firstTime < t - axis.firstTime := by
    have : (s : Rat) < t := by exact_mod_cast hst
    linarith
  exact mul_lt_mul_of_pos_left (by linarith [div_lt_div_of_pos_right hst hbase]) h.pxPerCandle

theorem TimeAxis.Positive.origin_eq (h : axis.Positive) :
    axis.origin = floorTo axis.firstTime axis.stepMs :=
  if_neg (not_lt.mpr (floorTo_le h.firstTime.le))

/-- The first tick is the first multiple of the step in the window. -/
theorem alignBody_ends (h : axis.Positive) (hends : Ends axis.alignBody axis.origin tickTime) :
    axis.stepMs ∣ tickTime ∧ axis.firstTime ≤ tickTime ∧
      tickTime < axis.firstTime + axis.stepMs := by
  have hs := h.stepMs
  have hle := floorTo_le (I := axis.stepMs) h.firstTime.le
  rw [h.origin_eq] at hends
  refine hends.rule (I := fun t => axis.stepMs ∣ t ∧ t < axis.firstTime + axis.stepMs)
    (Q := fun t => axis.stepMs ∣ t ∧ axis.firstTime ≤ t ∧ t < axis.firstTime + axis.stepMs)
    (fun t u ht hb => ?_) (fun t u ht hb => ?_) ⟨dvd_floorTo .., by omega⟩
  · unfold TimeAxis.alignBody at hb
    split at hb
    · exact Sum.inl.inj hb ▸ ⟨Int.dvd_add ht.1 (Int.dvd_refl _), by omega⟩
    · cases hb
  · unfold TimeAxis.alignBody at hb
    split at hb
    · cases hb
    · exact Sum.inr.inj hb ▸ ⟨ht.1, by omega, ht.2⟩

/-- A label at the place of its time, which is a tick of the window. -/
structure TimeAxis.Places (axis : TimeAxis) (label : TimeLabel) : Prop where
  x : label.x = axis.labelX label.tickTime
  first : axis.firstTime ≤ label.tickTime
  last : label.tickTime ≤ axis.lastTime

/-- The labels so far, at the head of an iteration. -/
structure LabelsInv (axis : TimeAxis) (tickTime : Int) (labels : List TimeLabel) : Prop where
  dvd : axis.stepMs ∣ tickTime
  first : axis.firstTime ≤ tickTime
  last : tickTime ≤ axis.lastTime + axis.stepMs
  count : labels.length * axis.stepMs ≤ tickTime - axis.firstTime
  places : ∀ label ∈ labels, axis.Places label ∧ label.tickTime < tickTime ∧
    axis.stepMs ∣ label.tickTime
  apart : labels.IsChain fun a b => a.x + kTimeLabelMinSpacingPx ≤ b.x

theorem LabelsInv.next (h : axis.Positive) (hi : LabelsInv axis tickTime labels)
    {t : Int × List TimeLabel} (hb : axis.labelBody (tickTime, labels) = .inl t) :
    LabelsInv axis t.1 t.2 := by
  have hs := h.stepMs
  have hfirst := hi.first
  obtain ⟨hle, hnext, hlabels⟩ := labelBody_next hb
  have hcount := hi.count
  have hplaces (label : TimeLabel) (hl : label ∈ labels) : axis.Places label ∧
      label.tickTime < tickTime + axis.stepMs ∧ axis.stepMs ∣ label.tickTime :=
    have := hi.places label hl
    ⟨this.1, by omega, this.2.2⟩
  rw [hnext]
  obtain e | ⟨e, hfar⟩ := hlabels
  · rw [e]
    exact ⟨Int.dvd_add hi.dvd (Int.dvd_refl _), by omega, by omega, by omega, hplaces, hi.apart⟩
  · rw [e]
    refine ⟨Int.dvd_add hi.dvd (Int.dvd_refl _), by omega, by omega, ?_, fun label hl => ?_, ?_⟩
    · rw [List.length_append, List.length_singleton]
      push_cast
      linarith
    · obtain hl | hl := List.mem_append.mp hl
      · exact hplaces label hl
      · obtain rfl := List.mem_singleton.mp hl
        exact ⟨⟨rfl, hfirst, hle⟩, by dsimp only; omega, hi.dvd⟩
    · rw [List.isChain_append]
      refine ⟨hi.apart, .singleton _, fun last hlast label hlabel => ?_⟩
      obtain rfl := Option.some.inj hlabel
      -- The new label is further to the right, so it is that far from the last.
      obtain ⟨hplace, hlt, -⟩ := hi.places last (List.mem_of_getLast? hlast)
      have hx := h.labelX_lt hlt
      have := hfar last hlast
      rw [hplace.x, abs_of_pos (sub_pos.mpr hx)] at this
      rw [hplace.x]
      linarith

/-- The labels of a window: one at least, apart from each other, and no more than
there are steps in it. -/
structure TimeAxis.Labels (axis : TimeAxis) (labels : List TimeLabel) : Prop where
  ne_nil : labels ≠ []
  count : (labels.length - 1) * axis.stepMs ≤ axis.lastTime - axis.firstTime
  places : ∀ label ∈ labels, axis.Places label ∧
    (axis.stepMs ∣ label.tickTime ∨ label.tickTime = axis.firstTime)
  apart : labels.IsChain fun a b => a.x + kTimeLabelMinSpacingPx ≤ b.x

theorem timeLabels_spec (h : axis.Positive) :
    ∃ labels, Returns axis.labels labels ∧ axis.Labels labels := by
  have hs := h.stepMs
  have hlast := h.lastTime
  obtain ⟨tickTime, labels, halign, hends, hlabels⟩ := labels_halt hs
  obtain ⟨hdvd, hfirst, hlt⟩ := alignBody_ends h halign
  have hinv := hends.rule (I := fun s => LabelsInv axis s.1 s.2)
    (Q := fun r => ∃ t, LabelsInv axis t r) (fun _ _ hi hb => hi.next h hb)
    (fun s r hi hb => (labelBody_done hb).1 ▸ ⟨s.1, hi⟩)
    ⟨hdvd, hfirst, by omega, by simp; omega, fun _ hl => absurd hl List.not_mem_nil, .nil⟩
  obtain ⟨t, hi⟩ := hinv
  refine ⟨_, hlabels, ?_⟩
  cases labels with
  | nil =>
    refine ⟨List.cons_ne_nil _ _, by simp; omega, fun label hl => ?_, .singleton _⟩
    obtain rfl := List.mem_singleton.mp hl
    exact ⟨⟨by simp [TimeAxis.labelX], le_rfl, hlast⟩, .inr rfl⟩
  | cons label labels =>
    refine ⟨List.cons_ne_nil _ _, ?_, fun l hl => ?_, hi.apart⟩
    · have := hi.count
      have := hi.last
      show (((label :: labels).length : Int) - 1) * axis.stepMs ≤ _
      rw [sub_mul, one_mul]
      linarith
    · exact ⟨(hi.places l hl).1, .inl (hi.places l hl).2.2⟩

end Labels

end TCV.App
