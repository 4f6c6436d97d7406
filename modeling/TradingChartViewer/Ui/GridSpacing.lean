import Mathlib.Data.List.Infix
import TradingChartViewer.Lib.Run
import TradingChartViewer.Ui.GridValues

/-!
# The spacing of the price grid

`redefineValuesVector` draws a line every `nextJump` cents (`redefined`,
`redefineValuesVector_returns`). The step comes from the range where a quotient
is even, and else from the call before.

* `lineCount_le_thirty_iff`: when there are at most 30 lines;
* `gridded_iff`: over a sequence of calls, once both limits are set.
-/

namespace TCV.Ui

open Lib.Loop Lib.Run

namespace GridValues

variable {s t : GridValues}

/-! ## The loop -/

def position (s : GridValues) (k : Nat) : Rat := s.minRealValue + k * s.jumpValue

/-- The line that the loop draws in its pass `k`. -/
def line (s : GridValues) (k : Nat) : GridValue :=
  ⟨truncate (s.position k), 1850, s.getValuePosY (truncate (s.position k))⟩

/-- How many steps of `nextJump` the range holds, and one. -/
def lineCount (s : GridValues) : Nat := (s.rangeInCents / s.nextJump + 1).toNat

/-- With the step that `redefineValuesVector` takes. -/
def jumped (s : GridValues) : GridValues := { s with jumpValue := s.nextJump }

/-- The state that `redefineValuesVector` leaves. -/
def redefined (s : GridValues) : GridValues :=
  { s.jumped with values := (List.range s.lineCount).map s.jumped.line }

theorem nextJump_pos (s : GridValues) : 0 < s.nextJump := by
  simp only [nextJump]
  split_ifs <;> omega

/-- The condition of the loop, in whole numbers. -/
theorem position_le_iff (s : GridValues) (k : Nat) :
    s.minRealValue + k * s.jumpValue ≤ s.minRealValue + s.rangeInCents ↔
      (k : Int) * s.jumpValue ≤ s.rangeInCents := by
  rw [add_le_add_iff_left]
  exact_mod_cast Iff.rfl

theorem lt_lineCount_iff (s : GridValues) (k : Nat) :
    k < s.lineCount ↔ (k : Int) * s.nextJump ≤ s.rangeInCents := by
  rw [lineCount, Int.lt_toNat, Int.lt_add_one_iff, Int.le_ediv_iff_mul_le s.nextJump_pos]

/-- The loop before its pass `k`. -/
def fillAt (s : GridValues) (k : Nat) : Fill := ⟨k, (List.range k).map s.line⟩

theorem fillBody_ends (s : GridValues) :
    Ends s.jumped.fillBody (s.jumped.fillAt 0) ((List.range s.lineCount).map s.jumped.line) := by
  refine ends_of_trace (n := s.lineCount) (fun k hk => ?_) ?_
  · have hle := (s.jumped.position_le_iff k).mpr ((s.lt_lineCount_iff k).mp hk)
    rw [fillAt, fillAt, fillBody, if_pos hle, List.range_succ, List.map_append]
    rfl
  · have hgt : ¬s.lineCount < s.lineCount := lt_irrefl _
    rw [fillAt, fillBody, if_neg]
    exact fun h => hgt ((s.lt_lineCount_iff _).mpr ((s.jumped.position_le_iff _).mp h))

/-- The loop ends, with a line at every step. -/
theorem redefineValuesVector_returns (s : GridValues) :
    Returns (fun n => s.redefineValuesVector n) s.redefined := by
  obtain ⟨n, hn⟩ := s.fillBody_ends.returns
  have hjump : s.jumped.jumpValue ≠ 0 := s.nextJump_pos.ne'
  refine ⟨n, fun m hm => ?_⟩
  have hloop : s.redefineValuesVector m =
      (runFor s.jumped.fillBody m (s.jumped.fillAt 0)).map fun values =>
        { s.jumped with values := values } := if_pos hjump
  exact hloop.trans (congrArg (Option.map _) (hn m hm))

/-! ## The number of lines -/

/-- A quotient of the range by a number from 10 to 19 is even. -/
def EvenQuotient (range : Int) : Prop := ∃ i : Int, 10 ≤ i ∧ i ≤ 19 ∧ Even (range / i)

/-- The test of the code, for a range that is not negative. -/
theorem tmod_tdiv_iff {range i : Int} (hr : 0 ≤ range) (hi : 0 < i) :
    (range.tdiv i).tmod 2 = 0 ↔ Even (range / i) := by
  rw [Int.tdiv_eq_ediv_of_nonneg hr, Int.tmod_eq_emod_of_nonneg (Int.ediv_nonneg hr hi.le),
    Int.even_iff]

theorem mem_divisors_iff {i : Int} :
    i ∈ ([10, 11, 12, 13, 14, 15, 16, 17, 18, 19] : List Int) ↔ 10 ≤ i ∧ i ≤ 19 := by
  simp only [List.mem_cons, List.not_mem_nil, or_false]
  omega

theorem divisor_eq_some (hs : 0 ≤ s.rangeInCents) {i : Int} (h : s.divisor = some i) :
    10 ≤ i ∧ i ≤ 19 ∧ Even (s.rangeInCents / i) := by
  obtain ⟨hlo, hhi⟩ := mem_divisors_iff.mp (List.mem_of_find?_eq_some h)
  have heven := List.find?_some h
  exact ⟨hlo, hhi, (tmod_tdiv_iff hs (by omega)).mp (of_decide_eq_true heven)⟩

theorem divisor_eq_none (hs : 0 ≤ s.rangeInCents) (h : s.divisor = none) :
    ¬EvenQuotient s.rangeInCents := by
  rintro ⟨i, hlo, hhi, heven⟩
  have hodd := List.find?_eq_none.mp h i (mem_divisors_iff.mpr ⟨hlo, hhi⟩)
  exact hodd (decide_eq_true ((tmod_tdiv_iff hs (by omega)).mpr heven))

/-- Thirty steps of an even quotient go beyond the range. -/
theorem lt_thirty_mul {range i : Int} (hr : 0 ≤ range) (hlo : 10 ≤ i) (hhi : i ≤ 19)
    (h : Even (range / i)) : range < 30 * max (range / i) 1 := by
  have hq : 0 ≤ range / i := Int.ediv_nonneg hr (by omega)
  have hlt : range < (range / i + 1) * i := Int.lt_ediv_add_one_mul_self range (by omega)
  have hle : (range / i + 1) * i ≤ (range / i + 1) * 19 :=
    Int.mul_le_mul_of_nonneg_left hhi (by omega)
  obtain ⟨k, hk⟩ := h
  omega

theorem nextJump_eq (hs : 0 ≤ s.rangeInCents) :
    (∃ i, s.divisor = some i ∧ s.nextJump = max (s.rangeInCents / i) 1) ∨
      s.divisor = none ∧ s.nextJump = max s.jumpValue 1 := by
  have hmax : ∀ x : Int, (if x < 1 then 1 else x) = max x 1 := by
    intro x
    split_ifs <;> omega
  cases h : s.divisor with
  | some i =>
    refine .inl ⟨i, rfl, ?_⟩
    rw [nextJump, h, ← Int.tdiv_eq_ediv_of_nonneg hs]
    exact hmax _
  | none =>
    refine .inr ⟨rfl, ?_⟩
    rw [nextJump, h]
    exact hmax _

theorem lineCount_le_iff (s : GridValues) : s.lineCount ≤ 30 ↔ s.rangeInCents < 30 * s.nextJump := by
  have h := s.lt_lineCount_iff 30
  push_cast at h
  omega

/-- At most 30 lines fit exactly if a quotient of the range is even, or the
step of the call before is large enough. -/
theorem lineCount_le_thirty_iff (hs : 0 ≤ s.rangeInCents) : s.lineCount ≤ 30 ↔
    EvenQuotient s.rangeInCents ∨ s.rangeInCents < 30 * max s.jumpValue 1 := by
  rw [lineCount_le_iff]
  obtain ⟨i, hi, hjump⟩ | ⟨hnone, hjump⟩ := nextJump_eq hs
  · obtain ⟨hlo, hhi, heven⟩ := divisor_eq_some hs hi
    rw [hjump]
    exact iff_of_true (lt_thirty_mul hs hlo hhi heven) (.inl ⟨i, hlo, hhi, heven⟩)
  · rw [hjump, or_iff_right (divisor_eq_none hs hnone)]

/-! ## The lines -/

/-- A number of whole cents. -/
def Whole (x : Rat) : Prop := x.den = 1

theorem whole_intCast (z : Int) : Whole z := Rat.den_intCast z

theorem truncate_of_whole {x : Rat} (h : Whole x) : (truncate x : Rat) = x := by
  rw [truncate, h, Nat.cast_one, Int.tdiv_one]
  exact (Rat.den_eq_one_iff x).mp h

theorem whole_position (k : Nat) (h : Whole s.minRealValue) : Whole (s.position k) := by
  rw [position, ← (Rat.den_eq_one_iff _).mp h]
  exact_mod_cast whole_intCast (s.minRealValue.num + k * s.jumpValue)

/-- At most 30 lines, a positive step apart, from the lower end of the range to
less than a step from the upper. -/
structure Gridded (s : GridValues) : Prop where
  few : s.values.length ≤ 30
  jump_pos : 0 < s.jumpValue
  spaced : s.values.map (fun v => (v.value : Rat)) = (List.range s.values.length).map s.position
  below : (s.values.length - 1 : Int) * s.jumpValue ≤ s.rangeInCents
  above : s.rangeInCents < s.values.length * s.jumpValue

theorem length_redefined (s : GridValues) : s.redefined.values.length = s.lineCount := by
  rw [redefined, List.length_map, List.length_range]

theorem gridded_redefined (hs : 0 ≤ s.rangeInCents) (hw : Whole s.minRealValue)
    (h : s.lineCount ≤ 30) : s.redefined.Gridded where
  few := s.length_redefined ▸ h
  jump_pos := s.nextJump_pos
  spaced := by
    rw [length_redefined, redefined, List.map_map]
    exact List.map_congr_left fun k _ => truncate_of_whole (whole_position k hw)
  below := by
    have hpos := (s.lt_lineCount_iff 0).mpr (by rw [Nat.cast_zero, zero_mul]; exact hs)
    have hlast := (s.lt_lineCount_iff (s.lineCount - 1)).mp (by omega)
    rw [Nat.cast_sub hpos, Nat.cast_one] at hlast
    rw [length_redefined]
    exact hlast
  above := by
    rw [length_redefined]
    exact not_le.mp fun h => lt_irrefl _ ((s.lt_lineCount_iff s.lineCount).mpr h)

/-! ## Calls -/

/-- The state on which a call runs `redefineValuesVector`, if it does. -/
def moved (s : GridValues) : GridCall → Option GridValues
  | .maxPriceLimitChanged newMax =>
    let maxVal := newMax * 100 + newMax * 100 * (1 / 1000)
    some ({ s with maxVal := maxVal }.setRange (maxVal - s.minVal))
  | .minPriceLimitChanged newMin =>
    let minVal := newMin * 100 - newMin * 100 * (1 / 1000)
    some ({ s with minVal := minVal, minRealValue := minVal }.setRange (s.maxVal - minVal))
  | .zoomOut =>
    if s.jumpValue < 1000000 then
      some ({ s with minRealValue := s.minRealValue - stdRound (1 / 10 * s.rangeInCents) }.setRange
        (s.rangeInCents + stdRound (1 / 5 * s.rangeInCents)))
    else none
  | .zoomIn =>
    if s.jumpValue > 1 then
      some ({ s with minRealValue := s.minRealValue + stdRound (1 / 10 * s.rangeInCents) }.setRange
        (s.rangeInCents - stdRound (1 / 5 * s.rangeInCents)))
    else none

theorem call_eq (n : Nat) (s : GridValues) (c : GridCall) :
    s.call n c = (s.moved c).elim (some s) fun u => u.redefineValuesVector n := by
  cases c with
  | maxPriceLimitChanged | minPriceLimitChanged => rfl
  | zoomOut =>
    simp only [call, zoomOut, moved]
    split_ifs <;> rfl
  | zoomIn =>
    simp only [call, zoomIn, moved]
    split_ifs <;> rfl

/-- The state after a call. -/
def next (s : GridValues) (c : GridCall) : GridValues := (s.moved c).elim s redefined

theorem call_returns (s : GridValues) (c : GridCall) : Returns (fun n => s.call n c) (s.next c) := by
  simp only [call_eq, next]
  cases s.moved c with
  | none => exact ⟨0, fun _ _ => rfl⟩
  | some u => exact u.redefineValuesVector_returns

/-- The calls lead from `s` to `t`, with passes enough for each loop. -/
def Reached (s : GridValues) (calls : List GridCall) (t : GridValues) : Prop :=
  Returns (fun n => run (call n) s calls) t

theorem reached_foldl (s : GridValues) (calls : List GridCall) :
    s.Reached calls (calls.foldl next s) := by
  induction calls generalizing s with
  | nil => exact ⟨0, fun _ _ => rfl⟩
  | cons c calls ih => exact (s.call_returns c).bind (ih (s.next c))

theorem Reached.eq {calls : List GridCall} (h : s.Reached calls t) : t = calls.foldl next s :=
  h.unique (s.reached_foldl calls)

theorem Reached.concat {pre : List GridCall} {c : GridCall} (h : s.Reached pre t) :
    s.Reached (pre ++ [c]) (t.next c) := by
  have hr := s.reached_foldl (pre ++ [c])
  rwa [List.foldl_append, ← h.eq] at hr

/-! ## Sequences of calls -/

end GridValues

def GridCall.setsMax : GridCall → Bool
  | .maxPriceLimitChanged _ => true
  | _ => false

def GridCall.setsMin : GridCall → Bool
  | .minPriceLimitChanged _ => true
  | _ => false

namespace GridValues

variable {s t : GridValues}

/-- Both limits are set. Before that the range is what `int` makes of the largest `float`. -/
def LimitsSet (calls : List GridCall) : Prop :=
  calls.any GridCall.setsMax = true ∧ calls.any GridCall.setsMin = true

instance (calls : List GridCall) : Decidable (LimitsSet calls) :=
  inferInstanceAs (Decidable (_ ∧ _))

/-- The cents of the call are whole. -/
def WholeCall : GridCall → Prop
  | .minPriceLimitChanged newMin => Whole (newMin * 100 - newMin * 100 * (1 / 1000))
  | _ => True

instance : DecidablePred WholeCall
  | .minPriceLimitChanged _ => inferInstanceAs (Decidable (_ = 1))
  | .maxPriceLimitChanged _ | .zoomOut | .zoomIn => .isTrue trivial

/-- Where the call draws the grid, a quotient of its range is even or the step
before is at least a thirtieth of it. -/
def StepFits (s : GridValues) (c : GridCall) : Prop :=
  ∀ u ∈ s.moved c, EvenQuotient u.rangeInCents ∨ u.rangeInCents < 30 * max s.jumpValue 1

theorem jumpValue_moved {c : GridCall} {u : GridValues} (h : s.moved c = some u) :
    u.jumpValue = s.jumpValue := by
  cases c with
  | maxPriceLimitChanged | minPriceLimitChanged =>
    obtain rfl := Option.some.inj h
    rfl
  | zoomOut | zoomIn =>
    obtain ⟨-, h⟩ := Option.ite_none_right_eq_some.mp h
    obtain rfl := Option.some.inj h
    rfl

theorem whole_moved {c : GridCall} {u : GridValues} (hc : WholeCall c)
    (hw : c.setsMin = false → Whole s.minRealValue) (h : s.moved c = some u) :
    Whole u.minRealValue := by
  cases c with
  | maxPriceLimitChanged =>
    obtain rfl := Option.some.inj h
    exact hw rfl
  | minPriceLimitChanged =>
    obtain rfl := Option.some.inj h
    exact hc
  | zoomOut =>
    obtain ⟨-, h⟩ := Option.ite_none_right_eq_some.mp h
    obtain rfl := Option.some.inj h
    have hz := whole_intCast (s.minRealValue.num - stdRound (1 / 10 * s.rangeInCents))
    rwa [Int.cast_sub, (Rat.den_eq_one_iff _).mp (hw rfl)] at hz
  | zoomIn =>
    obtain ⟨-, h⟩ := Option.ite_none_right_eq_some.mp h
    obtain rfl := Option.some.inj h
    have hz := whole_intCast (s.minRealValue.num + stdRound (1 / 10 * s.rangeInCents))
    rwa [Int.cast_add, (Rat.den_eq_one_iff _).mp (hw rfl)] at hz

theorem next_of_some {c : GridCall} {u : GridValues} (h : s.moved c = some u) :
    s.next c = u.redefined := by
  rw [next, h]
  rfl

theorem next_of_none {c : GridCall} (h : s.moved c = none) : s.next c = s := by
  rw [next, h]
  rfl

/-- A limit that is set draws the grid. -/
theorem sets_of_moved_none {c : GridCall} (h : s.moved c = none) :
    c.setsMax = false ∧ c.setsMin = false := by
  cases c with
  | maxPriceLimitChanged | minPriceLimitChanged => cases h
  | zoomOut | zoomIn => exact ⟨rfl, rfl⟩

theorem any_concat {p : GridCall → Bool} {pre : List GridCall} {c : GridCall} (h : p c = false) :
    (pre ++ [c]).any p = pre.any p := by
  rw [List.any_append, List.any_cons, h]
  simp

theorem limitsSet_concat {pre : List GridCall} {c : GridCall}
    (h : c.setsMax = false ∧ c.setsMin = false) : LimitsSet (pre ++ [c]) ↔ LimitsSet pre := by
  rw [LimitsSet, LimitsSet, any_concat h.1, any_concat h.2]

/-- The grid starts at whole cents once its lower limit is set. -/
theorem Reached.whole {calls : List GridCall} (hcalls : ∀ c ∈ calls, WholeCall c)
    (hmin : calls.any GridCall.setsMin = true) (h : s.Reached calls t) : Whole t.minRealValue := by
  rw [h.eq]
  clear h
  induction calls using List.reverseRecOn with
  | nil => cases hmin
  | append_singleton pre c ih =>
    have ih := ih fun d hd => hcalls d (List.mem_append_left _ hd)
    rw [List.foldl_append, List.foldl_cons, List.foldl_nil]
    cases hm : (pre.foldl next s).moved c with
    | none =>
      rw [next_of_none hm]
      exact ih (any_concat (sets_of_moved_none hm).2 ▸ hmin)
    | some u =>
      rw [next_of_some hm]
      have hu := whole_moved (hcalls c List.mem_concat_self)
        (fun hc => ih (any_concat hc ▸ hmin)) hm
      exact hu

/-- One call: it draws a grid of 30 lines at most exactly if the step fits. -/
theorem gridded_next_iff {c : GridCall} {u : GridValues} (hu : s.moved c = some u)
    (hr : 0 ≤ u.rangeInCents) (hw : Whole u.minRealValue) :
    (s.next c).Gridded ↔ s.StepFits c := by
  rw [next_of_some hu, StepFits, hu]
  have hfits : (∀ v ∈ some u, EvenQuotient v.rangeInCents ∨ v.rangeInCents < 30 * max s.jumpValue 1) ↔
      u.lineCount ≤ 30 := by
    rw [lineCount_le_thirty_iff hr, jumpValue_moved hu]
    exact ⟨fun h => h u rfl, fun h v hv => Option.some.inj hv ▸ h⟩
  rw [hfits]
  exact ⟨fun h => u.length_redefined ▸ h.few, gridded_redefined hr hw⟩

/-- Every sequence of calls ends, and all grids that it leaves with both limits set have 30 lines
at most exactly if the step of each call fits that draws one. -/
theorem gridded_iff {calls : List GridCall} (hcalls : ∀ c ∈ calls, WholeCall c)
    (hrange : ∀ pre, pre <+: calls → LimitsSet pre → ∀ u, s.Reached pre u → 0 ≤ u.rangeInCents) :
    (∃ t, s.Reached calls t) ∧
      ((∀ pre, pre <+: calls → LimitsSet pre → ∀ u, s.Reached pre u → u.Gridded) ↔
        ∀ pre c, pre ++ [c] <+: calls → LimitsSet (pre ++ [c]) →
          ∀ u, s.Reached pre u → u.StepFits c) := by
  refine ⟨⟨_, s.reached_foldl calls⟩, ?_⟩
  have hdrawn : ∀ pre c, pre ++ [c] <+: calls → LimitsSet (pre ++ [c]) → ∀ u, s.Reached pre u →
      ∀ v, u.moved c = some v → ((u.next c).Gridded ↔ u.StepFits c) := by
    intro pre c hpre hset u hu v hv
    have hr := hrange _ hpre hset _ (hu.concat (c := c))
    have hw := hu.concat.whole (fun d hd => hcalls d (hpre.subset hd)) hset.2
    rw [next_of_some hv] at hr hw
    exact gridded_next_iff hv hr hw
  constructor
  · intro h pre c hpre hset u hu v hv
    exact (hdrawn pre c hpre hset u hu v hv).mp (h _ hpre hset _ hu.concat) v hv
  · intro h pre
    induction pre using List.reverseRecOn with
    | nil => exact fun _ hset => Bool.noConfusion hset.1
    | append_singleton pre c ih =>
      intro hpre hset t ht
      have hu := reached_foldl s pre
      obtain rfl := ht.unique hu.concat
      cases hv : (pre.foldl next s).moved c with
      | none =>
        rw [next_of_none hv]
        exact ih ((List.prefix_append pre [c]).trans hpre)
          ((limitsSet_concat (sets_of_moved_none hv)).mp hset) _ hu
      | some v => exact (hdrawn pre c hpre hset _ hu v hv).mpr (h pre c hpre hset _ hu)

theorem range_nonneg_of_inits {calls : List GridCall}
    (h : ∀ pre ∈ calls.inits, LimitsSet pre → 0 ≤ (pre.foldl next s).rangeInCents) :
    ∀ pre, pre <+: calls → LimitsSet pre → ∀ u, s.Reached pre u → 0 ≤ u.rangeInCents := by
  intro pre hpre hset u hu
  rw [hu.eq]
  exact h pre ((List.mem_inits pre calls).mpr hpre) hset

/-- A grid on which no call was made yet, with 0 where the constructor sets nothing. -/
def freshGrid : GridValues := { minRealValue := 0 }

/-- Prices from 260 to 270, zoomed out and in again. -/
def zoomedCalls : List GridCall :=
  [.minPriceLimitChanged 260, .maxPriceLimitChanged 270, .zoomOut, .zoomIn]

theorem gridded_iff_zoomed :
    (∃ t, freshGrid.Reached zoomedCalls t) ∧
      ((∀ pre, pre <+: zoomedCalls → LimitsSet pre → ∀ u, freshGrid.Reached pre u → u.Gridded) ↔
        ∀ pre c, pre ++ [c] <+: zoomedCalls → LimitsSet (pre ++ [c]) →
          ∀ u, freshGrid.Reached pre u → u.StepFits c) :=
  gridded_iff (by decide +kernel) (range_nonneg_of_inits (by decide +kernel))

/-- A highest price of 270, and then of 510. -/
def risingCalls : List GridCall :=
  [.minPriceLimitChanged 260, .maxPriceLimitChanged 270, .maxPriceLimitChanged 510]

/-- From the second call on both limits are set, and no range is negative. All ten
quotients of the last one, 25077, are odd, and with the step 70 of
the range before there are 359 lines. -/
theorem many_lines :
    (∀ c ∈ risingCalls, WholeCall c) ∧ LimitsSet risingCalls ∧
      (∀ pre, pre <+: risingCalls → LimitsSet pre → ∀ u, freshGrid.Reached pre u →
        0 ≤ u.rangeInCents) ∧
        ∃ t, freshGrid.Reached risingCalls t ∧ t.values.length = 359 ∧ ¬t.Gridded := by
  have hlength : (risingCalls.foldl next freshGrid).values.length = 359 := by
    rw [show risingCalls.foldl next freshGrid = redefined _ from rfl, length_redefined]
    decide +kernel
  refine ⟨by decide +kernel, by decide, range_nonneg_of_inits (by decide +kernel),
    _, reached_foldl _ _, hlength, fun h => ?_⟩
  have := h.few
  omega

/-- Where the first range is that between the limits, the step before is 1. -/
example :
    let s := freshGrid.next (.minPriceLimitChanged 260)
    s.rangeInCents = kIntMin ∧ s.values = [] ∧ s.jumpValue = 1 ∧
      (s.next (.maxPriceLimitChanged 510)).lineCount = 25078 := by
  decide +kernel

end GridValues

end TCV.Ui
