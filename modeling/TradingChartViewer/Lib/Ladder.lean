import Mathlib.Algebra.Order.Field.Rat
import Mathlib.Data.Int.Log
import Mathlib.Data.Rat.Floor
import Mathlib.Tactic.FieldSimp
import Mathlib.Tactic.Linarith

/-!
# The 1-2-5 ladder

The numbers 1, 2 and 5 times a power of ten, as steps of a scale are chosen
from them.

* `Rung`, `Rung.up`, `Rung.down`: its rungs and their neighbours;
* `Rung.value_up`: neighbours are a factor of 2 to 5/2 apart; `Rung.log_value`: the power of ten;
* `Rung.exists_nat`: the rungs from 1 on are whole numbers;
* `above`: the lowest rung from a number on; `above_spec`: it is less than 5/2 times the number.
-/

namespace Lib.Ladder

/-! ## Rungs -/

inductive Digit
  | one
  | two
  | five
  deriving DecidableEq, Repr

def Digit.value : Digit → Rat
  | .one => 1
  | .two => 2
  | .five => 5

structure Rung where
  digit : Digit
  exponent : Int
  deriving DecidableEq, Repr

def Rung.value (r : Rung) : Rat := r.digit.value * 10 ^ r.exponent

/-- The next higher rung. -/
def Rung.up : Rung → Rung
  | ⟨.one, exponent⟩ => ⟨.two, exponent⟩
  | ⟨.two, exponent⟩ => ⟨.five, exponent⟩
  | ⟨.five, exponent⟩ => ⟨.one, exponent + 1⟩

/-- The next lower rung. -/
def Rung.down : Rung → Rung
  | ⟨.one, exponent⟩ => ⟨.five, exponent - 1⟩
  | ⟨.two, exponent⟩ => ⟨.one, exponent⟩
  | ⟨.five, exponent⟩ => ⟨.two, exponent⟩

theorem Digit.value_mem (d : Digit) : 1 ≤ d.value ∧ d.value ≤ 5 := by
  cases d <;> norm_num [Digit.value]

theorem decade_pos (exponent : Int) : (0 : Rat) < 10 ^ exponent := zpow_pos (by norm_num) _

theorem decade_succ (exponent : Int) : (10 : Rat) ^ (exponent + 1) = 10 * 10 ^ exponent := by
  rw [zpow_add_one₀ (by norm_num), mul_comm]

theorem Rung.value_pos (r : Rung) : 0 < r.value :=
  mul_pos (by linarith [r.digit.value_mem.1]) (decade_pos _)

theorem Rung.up_down (r : Rung) : r.down.up = r := by
  obtain ⟨d, exponent⟩ := r
  cases d <;> simp [Rung.up, Rung.down]

theorem Rung.value_up (r : Rung) : 2 * r.value ≤ r.up.value ∧ r.up.value ≤ 5 / 2 * r.value := by
  obtain ⟨d, exponent⟩ := r
  have := decade_pos exponent
  cases d <;> simp only [Rung.up, Rung.value, Digit.value, decade_succ] <;> constructor <;> linarith

theorem Rung.value_lt_up (r : Rung) : r.value < r.up.value := by
  linarith [r.value_pos, r.value_up.1]

theorem Rung.value_down_lt (r : Rung) : r.down.value < r.value := by
  have := r.down.value_lt_up
  rwa [r.up_down] at this

/-- The power of ten at or below a number. -/
theorem log_eq {v : Rat} {exponent : Int} (h₁ : 10 ^ exponent ≤ v) (h₂ : v < 10 ^ (exponent + 1)) :
    Int.log 10 v = exponent := by
  have hv : 0 < v := (decade_pos exponent).trans_le h₁
  have hle := (Int.zpow_le_iff_le_log (b := 10) (by norm_num) hv).mp (by exact_mod_cast h₁)
  have hlt := (Int.lt_zpow_iff_log_lt (b := 10) (by norm_num) hv).mp (by exact_mod_cast h₂)
  omega

theorem Rung.log_value (r : Rung) : Int.log 10 r.value = r.exponent := by
  have hpos := decade_pos r.exponent
  obtain ⟨hone, hfive⟩ := r.digit.value_mem
  refine log_eq (le_mul_of_one_le_left hpos.le hone) ?_
  rw [decade_succ]
  exact mul_lt_mul_of_pos_right (by linarith) hpos

/-- The digit of a rung is what is left of it over its power of ten. -/
theorem Rung.value_div_decade (r : Rung) : r.value / 10 ^ Int.log 10 r.value = r.digit.value := by
  rw [r.log_value, Rung.value, mul_div_assoc, div_self (decade_pos _).ne', mul_one]

theorem Rung.exponent_nonneg {r : Rung} (h : 1 ≤ r.value) : 0 ≤ r.exponent := by
  rw [← r.log_value]
  exact (Int.zpow_le_iff_le_log (b := 10) (by norm_num) r.value_pos).mp (by simpa using h)

theorem one_le_decade {exponent : Int} (h : 0 ≤ exponent) : (1 : Rat) ≤ 10 ^ exponent :=
  one_le_zpow₀ (by norm_num) h

/-- The rungs from 1 on are whole numbers. -/
theorem Rung.exists_nat {r : Rung} (h : 1 ≤ r.value) : ∃ n : Nat, r.value = n := by
  obtain ⟨k, hk⟩ := Int.eq_ofNat_of_zero_le (r.exponent_nonneg h)
  rw [Rung.value, hk]
  cases r.digit with
  | one => exact ⟨10 ^ k, by simp [Digit.value]⟩
  | two => exact ⟨2 * 10 ^ k, by simp [Digit.value]⟩
  | five => exact ⟨5 * 10 ^ k, by simp [Digit.value]⟩

/-- Below a rung above 1 there is one from 1 on. -/
theorem Rung.one_le_down {r : Rung} (h : 1 < r.value) : 1 ≤ r.down.value := by
  have he := r.exponent_nonneg h.le
  obtain ⟨d, exponent⟩ := r
  cases d with
  | one =>
    have hne : exponent ≠ 0 := by
      rintro rfl
      norm_num [Rung.value, Digit.value] at h
    have := one_le_decade (show 0 ≤ exponent - 1 by dsimp only at he; omega)
    simp only [Rung.down, Rung.value, Digit.value]
    linarith
  | two =>
    simp only [Rung.down, Rung.value, Digit.value]
    linarith [one_le_decade he]
  | five =>
    simp only [Rung.down, Rung.value, Digit.value]
    linarith [one_le_decade he]

/-! ## Numbers between the rungs -/

/-- The lowest rung from `v` on. -/
def above (v : Rat) : Rung :=
  let exponent := Int.log 10 v
  let base := v / 10 ^ exponent
  if base ≤ 1 then ⟨.one, exponent⟩
  else if base ≤ 2 then ⟨.two, exponent⟩
  else if base ≤ 5 then ⟨.five, exponent⟩
  else ⟨.one, exponent + 1⟩

theorem above_spec {v : Rat} (hv : 0 < v) :
    v ≤ (above v).value ∧ (above v).value < 5 / 2 * v := by
  have hpos := decade_pos (Int.log 10 v)
  have hlo : (10 : Rat) ^ Int.log 10 v ≤ v := by
    exact_mod_cast Int.zpow_log_le_self (b := 10) (by norm_num) hv
  have hhi : v < 10 * 10 ^ Int.log 10 v := by
    rw [← decade_succ]
    exact_mod_cast Int.lt_zpow_succ_log_self (b := 10) (by norm_num) v
  unfold above
  dsimp only
  simp only [div_le_iff₀ hpos]
  split_ifs <;> simp only [Rung.value, Digit.value, decade_succ] <;> constructor <;> linarith

end Lib.Ladder
