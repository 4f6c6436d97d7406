import Mathlib.Data.Rat.Floor
import Mathlib.Tactic.Linarith
import Mathlib.Tactic.Ring

/-!
# Steps along a line

Rational numbers, the whole numbers below them, and numbers at equal distances.

* `abs_floor_sub_floor_le_one_iff`: when two numbers are at most one whole
  number apart;
* `evenly start step n`: the `n` numbers from `start` on at distance `step`;
* `exists_last_step`: how many of them there are up to a bound;
  `filter_evenly`: those of them from a bound on.
-/

namespace Lib.Steps

/-! ## Whole numbers between two numbers -/

theorem floor_sub_floor_le_one_iff {a b : Rat} :
    ⌊b⌋ - ⌊a⌋ ≤ 1 ↔ ¬ ∃ n : Int, a < n ∧ (n : Rat) + 1 ≤ b := by
  constructor
  · rintro hle ⟨n, ha, hb⟩
    have hna : ⌊a⌋ < n := Int.floor_lt.mpr ha
    have hnb : n + 1 ≤ ⌊b⌋ := Int.le_floor.mpr (by push_cast; exact hb)
    omega
  · intro hnone
    by_contra hlt
    refine hnone ⟨⌊a⌋ + 1, by push_cast; exact Int.lt_floor_add_one a, ?_⟩
    have hb : ⌊a⌋ + 1 + 1 ≤ ⌊b⌋ := by omega
    exact_mod_cast Int.le_floor.mp hb

/-- Not two whole numbers in a row lie between them, above the smaller and up to the larger. -/
theorem abs_floor_sub_floor_le_one_iff (a b : Rat) :
    |⌊a⌋ - ⌊b⌋| ≤ 1 ↔ ¬ ∃ n : Int, min a b < n ∧ (n : Rat) + 1 ≤ max a b := by
  rcases le_total a b with h | h
  · rw [min_eq_left h, max_eq_right h, ← floor_sub_floor_le_one_iff, abs_sub_comm,
      abs_of_nonneg (Int.sub_nonneg_of_le (Int.floor_mono h))]
  · rw [min_eq_right h, max_eq_left h, ← floor_sub_floor_le_one_iff,
      abs_of_nonneg (Int.sub_nonneg_of_le (Int.floor_mono h))]

/-! ## Equal distances -/

def evenly (start step : Rat) (n : Nat) : List Rat :=
  (List.range n).map fun i : Nat => start + i * step

section Evenly

variable {start step bound : Rat} {n : Nat}

theorem evenly_succ (start step : Rat) (n : Nat) :
    evenly start step (n + 1) = start :: evenly (start + step) step n := by
  unfold evenly
  rw [List.range_succ_eq_map, List.map_cons, List.map_map]
  refine congrArg₂ _ (by simp) (List.map_congr_left fun i _ => ?_)
  simp only [Function.comp_apply]
  push_cast
  ring

theorem length_evenly (start step : Rat) (n : Nat) : (evenly start step n).length = n := by
  rw [evenly, List.length_map, List.length_range]

theorem mem_evenly {x : Rat} : x ∈ evenly start step n ↔ ∃ i < n, start + i * step = x := by
  simp only [evenly, List.mem_map, List.mem_range]

theorem getLast?_evenly (start step : Rat) (n : Nat) :
    (evenly start step (n + 1)).getLast? = some (start + n * step) := by
  rw [evenly, List.range_succ, List.map_append, List.map_singleton, List.getLast?_concat]

theorem isChain_evenly (start step : Rat) (n : Nat) :
    (evenly start step n).IsChain fun a b => b = a + step := by
  induction n generalizing start with
  | zero => exact .nil
  | succ n ih =>
    rw [evenly_succ]
    cases n with
    | zero => exact .singleton _
    | succ n =>
      have := ih (start + step)
      rw [evenly_succ] at this ⊢
      exact .cons_cons rfl this

theorem floor_mul_le (hs : 0 < step) (x : Rat) :
    ⌊x / step⌋ * step ≤ x ∧ x < ⌊x / step⌋ * step + step := by
  have hlo := (le_div_iff₀ hs).mp (Int.floor_le (x / step))
  have hhi := (div_lt_iff₀ hs).mp (Int.lt_floor_add_one (x / step))
  exact ⟨hlo, by linarith⟩

/-- The last step up to a bound. -/
theorem exists_last_step (hs : 0 < step) (h : start ≤ bound) :
    ∃ n : Nat, start + n * step ≤ bound ∧ bound < start + (n + 1) * step := by
  obtain ⟨n, hn⟩ := Int.eq_ofNat_of_zero_le
    (Int.floor_nonneg.mpr (div_nonneg (sub_nonneg.mpr h) hs.le))
  have hbounds := floor_mul_le hs (bound - start)
  rw [hn, Int.cast_natCast] at hbounds
  exact ⟨n, by linarith, by linarith⟩

/-- Only the first number can be below a bound that is less than a step above it. -/
theorem filter_evenly (hs : 0 < step) (h : bound ≤ start + step) :
    (evenly start step (n + 1)).filter (bound ≤ ·) =
      if bound ≤ start then evenly start step (n + 1) else evenly (start + step) step n := by
  have hkept {start : Rat} {n : Nat} (h : bound ≤ start) :
      (evenly start step n).filter (bound ≤ ·) = evenly start step n := by
    rw [List.filter_eq_self]
    intro x hx
    obtain ⟨i, -, rfl⟩ := mem_evenly.mp hx
    exact decide_eq_true (h.trans (le_add_of_nonneg_right (mul_nonneg (Nat.cast_nonneg i) hs.le)))
  split
  · rename_i hle
    exact hkept hle
  · rename_i hle
    rw [evenly_succ, List.filter_cons_of_neg (by simpa using hle), hkept h]

end Evenly

end Lib.Steps
