import Mathlib.Algebra.Order.Floor.Ring
import Mathlib.Algebra.Order.BigOperators.Group.List
import Mathlib.Tactic.Linarith
import Mathlib.Tactic.Abel

/-!
# Amounts paid in whole units

Amounts come in one after another; whole units are paid out and what is left of
them is carried over. The payments then move something that stops at two ends.

* `whole`: the whole part of an amount, towards zero;
* `pay`: the payments, and what is carried over at the end;
* `sum_pay`, `abs_pay_lt_one`: nothing is lost, and less than a unit is outstanding;
* `sum_pay_of_same_sign`: amounts of one sign are paid as if they came at once;
* `keep`, `foldl_keep_of_same_sign`: moves of one sign between two ends.
-/

namespace Lib.Carry

/-! ## Payments -/

section Pay

variable {K : Type*} [Field K] [LinearOrder K] [FloorRing K] {x acc : K} {xs : List K}

/-- The whole part, towards zero. -/
def whole (x : K) : ℤ := if 0 < x then ⌊x⌋ else ⌈x⌉

/-- The payments, one for each amount, and what is carried over. -/
def pay (acc : K) : List K → List ℤ × K
  | [] => ([], acc)
  | x :: xs =>
    let rest := pay (acc + x - whole (acc + x)) xs
    (whole (acc + x) :: rest.1, rest.2)

theorem pay_cons (acc x : K) (xs : List K) :
    pay acc (x :: xs) = (whole (acc + x) :: (pay (acc + x - whole (acc + x)) xs).1,
      (pay (acc + x - whole (acc + x)) xs).2) := rfl

/-- Nothing is lost. -/
theorem sum_pay (acc : K) (xs : List K) :
    ((pay acc xs).1.sum : K) + (pay acc xs).2 = acc + xs.sum := by
  induction xs generalizing acc with
  | nil => simp [pay]
  | cons x xs ih =>
    rw [pay_cons, List.sum_cons, List.sum_cons, Int.cast_add, add_assoc, ih]
    abel

theorem whole_of_nonpos (h : x ≤ 0) : whole x = ⌈x⌉ := if_neg (not_lt.mpr h)

variable [IsStrictOrderedRing K]

theorem whole_of_nonneg (h : 0 ≤ x) : whole x = ⌊x⌋ := by
  unfold whole
  split
  · rfl
  · rename_i hx
    obtain rfl : x = 0 := le_antisymm (not_lt.mp hx) h
    rw [Int.ceil_zero, Int.floor_zero]

theorem whole_neg (x : K) : whole (-x) = -whole x := by
  rcases le_total 0 x with h | h
  · rw [whole_of_nonneg h, whole_of_nonpos (neg_nonpos.mpr h), Int.ceil_neg]
  · rw [whole_of_nonpos h, whole_of_nonneg (neg_nonneg.mpr h), Int.floor_neg]

theorem abs_sub_whole_lt_one (x : K) : |x - whole x| < 1 := by
  rcases le_total 0 x with h | h
  · rw [whole_of_nonneg h, abs_lt]
    exact ⟨by linarith [Int.floor_le x], by linarith [Int.lt_floor_add_one x]⟩
  · rw [whole_of_nonpos h, abs_lt]
    exact ⟨by linarith [Int.ceil_lt_add_one x], by linarith [Int.le_ceil x]⟩

theorem whole_eq_zero (h : |x| < 1) : whole x = 0 := by
  obtain ⟨h₁, h₂⟩ := abs_lt.mp h
  rcases le_total 0 x with h0 | h0
  · rw [whole_of_nonneg h0, Int.floor_eq_zero_iff]
    exact ⟨h0, h₂⟩
  · rw [whole_of_nonpos h0, Int.ceil_eq_zero_iff]
    exact ⟨h₁, h0⟩

/-- Less than a unit is outstanding. -/
theorem abs_pay_lt_one (h : |acc| < 1) (xs : List K) : |(pay acc xs).2| < 1 := by
  induction xs generalizing acc with
  | nil => exact h
  | cons x xs ih => exact ih (abs_sub_whole_lt_one _)

/-- The payments are those of the opposite amounts, taken back. -/
theorem pay_neg (acc : K) (xs : List K) :
    pay (-acc) (xs.map (- ·)) = ((pay acc xs).1.map (- ·), -(pay acc xs).2) := by
  induction xs generalizing acc with
  | nil => rfl
  | cons x xs ih =>
    have hsum : -acc + -x = -(acc + x) := by abel
    have hleft : -(acc + x) - ((-whole (acc + x) : ℤ) : K) = -(acc + x - whole (acc + x)) := by
      push_cast
      abel
    rw [List.map_cons, pay_cons, pay_cons, hsum, whole_neg, hleft, ih]
    rfl

theorem pay_of_nonneg (h : 0 ≤ acc) (hxs : ∀ x ∈ xs, 0 ≤ x) :
    (∀ n ∈ (pay acc xs).1, 0 ≤ n) ∧ 0 ≤ (pay acc xs).2 := by
  induction xs generalizing acc with
  | nil => exact ⟨fun n hn => absurd hn List.not_mem_nil, h⟩
  | cons x xs ih =>
    have hx : 0 ≤ acc + x := add_nonneg h (hxs x List.mem_cons_self)
    rw [pay_cons, whole_of_nonneg hx]
    have hrest : 0 ≤ acc + x - ⌊acc + x⌋ := sub_nonneg.mpr (Int.floor_le _)
    obtain ⟨hpaid, hleft⟩ := ih hrest fun y hy => hxs y (List.mem_cons_of_mem _ hy)
    exact ⟨List.forall_mem_cons.mpr ⟨Int.floor_nonneg.mpr hx, hpaid⟩, hleft⟩

/-- All of one sign. -/
def SameSign {α : Type*} [Zero α] [LE α] (xs : List α) : Prop :=
  (∀ x ∈ xs, 0 ≤ x) ∨ ∀ x ∈ xs, x ≤ 0

/-- Amounts of one sign are paid as if they came at once. -/
theorem sum_pay_of_same_sign (h : SameSign xs) :
    SameSign (pay 0 xs).1 ∧ (pay 0 xs).1.sum = whole xs.sum := by
  have nonneg (ys : List K) (hys : ∀ y ∈ ys, 0 ≤ y) :
      (∀ n ∈ (pay 0 ys).1, 0 ≤ n) ∧ (pay 0 ys).1.sum = whole ys.sum := by
    obtain ⟨hpaid, hleft⟩ := pay_of_nonneg le_rfl hys
    have hsum := sum_pay 0 ys
    have hone := (abs_lt.mp (abs_pay_lt_one (by rw [abs_zero]; exact one_pos) ys)).2
    rw [whole_of_nonneg (List.sum_nonneg hys)]
    refine ⟨hpaid, (Int.floor_eq_iff.mpr ⟨?_, ?_⟩).symm⟩ <;> linarith
  rcases h with h | h
  · exact ⟨.inl (nonneg xs h).1, (nonneg xs h).2⟩
  · obtain ⟨hpaid, hsum⟩ := nonneg (xs.map (- ·)) fun y hy => by
      obtain ⟨x, hx, rfl⟩ := List.mem_map.mp hy
      exact neg_nonneg.mpr (h x hx)
    have e := pay_neg 0 xs
    rw [neg_zero] at e
    rw [e] at hpaid hsum
    rw [← List.sum_neg, ← List.sum_neg, whole_neg] at hsum
    exact ⟨.inr fun n hn => neg_nonneg.mp (hpaid _ (List.mem_map_of_mem hn)), neg_injective hsum⟩

end Pay

/-! ## Moves between two ends -/

section Keep

variable {α : Type*} [LinearOrder α] {lo hi a : α}

/-- The place between two ends that is closest to `a`. -/
def keep (lo hi a : α) : α := max lo (min hi a)

theorem keep_mem (h : lo ≤ hi) (a : α) : lo ≤ keep lo hi a ∧ keep lo hi a ≤ hi :=
  ⟨le_max_left _ _, max_le h (min_le_left _ _)⟩

theorem keep_of_mem (h : lo ≤ a ∧ a ≤ hi) : keep lo hi a = a := by
  rw [keep, min_eq_right h.2, max_eq_right h.1]

/-- Nothing that ends between the ends was stopped. -/
theorem eq_of_keep_mem (h₁ : lo < keep lo hi a) (h₂ : keep lo hi a < hi) : keep lo hi a = a := by
  have hmin : keep lo hi a = min hi a :=
    max_eq_right ((lt_max_iff.mp h₁).resolve_left (lt_irrefl _)).le
  rw [hmin] at h₂ ⊢
  exact min_eq_right ((min_lt_iff.mp h₂).resolve_left (lt_irrefl _)).le

theorem SameSign.tail [Zero α] {x : α} {xs : List α} (h : SameSign (x :: xs)) : SameSign xs :=
  h.imp (fun h y hy => h y (List.mem_cons_of_mem _ hy)) fun h y hy => h y (List.mem_cons_of_mem _ hy)

variable [AddCommGroup α] [IsOrderedAddMonoid α]

/-- A move on from an end that stopped one of the same sign. -/
theorem keep_keep_add {x y : α} (ha : lo ≤ a ∧ a ≤ hi) (h : 0 ≤ x ∧ 0 ≤ y ∨ x ≤ 0 ∧ y ≤ 0) :
    keep lo hi (keep lo hi (a + x) + y) = keep lo hi (a + (x + y)) := by
  rw [← add_assoc]
  rcases h with ⟨hx, hy⟩ | ⟨hx, hy⟩
  · have hlo : lo ≤ a + x := ha.1.trans (le_add_of_nonneg_right hx)
    rcases le_total (a + x) hi with hle | hle
    · rw [keep_of_mem ⟨hlo, hle⟩]
    · have hend : keep lo hi (a + x) = hi := by
        rw [keep, min_eq_left hle, max_eq_right (ha.1.trans ha.2)]
      rw [hend, keep, keep, min_eq_left (le_add_of_nonneg_right hy),
        min_eq_left (hle.trans (le_add_of_nonneg_right hy))]
  · have hhi : a + x ≤ hi := (add_le_of_nonpos_right hx).trans ha.2
    rcases le_total lo (a + x) with hle | hle
    · rw [keep_of_mem ⟨hle, hhi⟩]
    · have hend : keep lo hi (a + x) = lo := by rw [keep, min_eq_right hhi, max_eq_left hle]
      have hlohi : lo ≤ hi := ha.1.trans ha.2
      have h₁ : lo + y ≤ lo := add_le_of_nonpos_right hy
      have h₂ : a + x + y ≤ lo := (add_le_of_nonpos_right hy).trans hle
      rw [hend, keep, keep, min_eq_right (h₁.trans hlohi), min_eq_right (h₂.trans hlohi),
        max_eq_left h₁, max_eq_left h₂]

/-- Moves of one sign end where the sum of them ends. -/
theorem foldl_keep_of_same_sign {xs : List α} (ha : lo ≤ a ∧ a ≤ hi) (h : SameSign xs) :
    xs.foldl (fun a x => keep lo hi (a + x)) a = keep lo hi (a + xs.sum) := by
  induction xs generalizing a with
  | nil => rw [List.foldl_nil, List.sum_nil, add_zero, keep_of_mem ha]
  | cons x xs ih =>
    have hsigns : 0 ≤ x ∧ 0 ≤ xs.sum ∨ x ≤ 0 ∧ xs.sum ≤ 0 := by
      rcases h with h | h
      · exact .inl ⟨h x List.mem_cons_self,
          List.sum_nonneg fun y hy => h y (List.mem_cons_of_mem _ hy)⟩
      · refine .inr ⟨h x List.mem_cons_self, neg_nonneg.mp ?_⟩
        rw [List.sum_neg]
        refine List.sum_nonneg fun y hy => ?_
        obtain ⟨z, hz, rfl⟩ := List.mem_map.mp hy
        exact neg_nonneg.mpr (h z (List.mem_cons_of_mem _ hz))
    rw [List.foldl_cons, ih (keep_mem (ha.1.trans ha.2) _) h.tail, List.sum_cons,
      keep_keep_add ha hsigns]

end Keep

end Lib.Carry
