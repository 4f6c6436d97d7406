import Mathlib.Data.List.Chain
import Mathlib.Data.Int.Order.Basic
import Mathlib.Tactic.Ring
import Mathlib.Tactic.Linarith

/-!
# Grid times

The multiples of a step `I`, and lists of consecutive ones.

* `floorTo t I`: rounding towards zero to a multiple of `I`, as C's integer
  division does;
* `ticks a I n`: the `n` times `a`, `a + I`, …; `split_ticks` cuts a list at
  such times;
* `Spaced I`: a list whose neighbours differ by exactly `I`;
* `walk`: the elements of an ordered list at such times; `walk_eq_some_iff` says
  that it finds what single look-ups do;
* `window`: an ascending list of multiples of `I` in a window of `n` grid times
  has at most `n` elements, and is the whole window if it has `n`.
-/

namespace Lib.Grid

/-! ## Rounding -/

/-- `t` rounded towards zero to a multiple of `I`. -/
def floorTo (t I : Int) : Int := t.tdiv I * I

variable {I : Int}

theorem dvd_floorTo (t I : Int) : I ∣ floorTo t I := Dvd.intro_left _ rfl

theorem floorTo_of_dvd {t : Int} (h : I ∣ t) : floorTo t I = t := Int.tdiv_mul_cancel h

theorem floorTo_mono (hI : 0 < I) {s t : Int} (h : s ≤ t) : floorTo s I ≤ floorTo t I :=
  Int.mul_le_mul_of_nonneg_right (Int.tdiv_le_tdiv hI h) hI.le

theorem floorTo_le {t : Int} (ht : 0 ≤ t) : floorTo t I ≤ t := by
  rw [floorTo, Int.mul_comm]
  exact Int.mul_tdiv_self_le ht

theorem lt_floorTo_add (hI : 0 < I) (t : Int) : t < floorTo t I + I := by
  have := Int.lt_tdiv_add_one_mul_self t hI
  rw [Int.add_mul, Int.one_mul] at this
  exact this

theorem floorTo_nonpos (hI : 0 < I) {t : Int} (ht : t ≤ 0) : floorTo t I ≤ 0 := by
  have := floorTo_mono hI ht
  rwa [floorTo_of_dvd (Int.dvd_zero I)] at this

/-- A time is positive if its rounded time is. -/
theorem pos_of_floorTo_pos (hI : 0 < I) {t : Int} (h : 0 < floorTo t I) : 0 < t := by
  by_contra ht
  have := floorTo_nonpos hI (Int.not_lt.mp ht)
  omega

/-- Between a multiple of `I` and the next there is none. -/
theorem le_of_lt_add {a b : Int} (ha : I ∣ a) (hb : I ∣ b) (h : a < b + I) : a ≤ b := by
  obtain ⟨x, rfl⟩ := ha
  obtain ⟨y, rfl⟩ := hb
  rcases le_or_gt I 0 with h0 | h0
  · omega
  have : x < y + 1 := by
    have h' : I * x < I * (y + 1) := by rw [Int.mul_add, Int.mul_one]; exact h
    exact lt_of_mul_lt_mul_left h' h0.le
  exact Int.mul_le_mul_of_nonneg_left (by omega) h0.le

theorem add_le_of_lt {a b : Int} (ha : I ∣ a) (hb : I ∣ b) (h : a < b) : a + I ≤ b := by
  by_contra hc
  have := le_of_lt_add hb ha (by omega)
  omega

theorem exists_steps {a b : Int} (ha : I ∣ a) (hb : I ∣ b) (hI : 0 < I) (h : a < b) :
    ∃ j : Nat, b = a + (j + 1) * I := by
  obtain ⟨x, rfl⟩ := ha
  obtain ⟨y, rfl⟩ := hb
  have hxy : x < y := lt_of_mul_lt_mul_left h hI.le
  refine ⟨(y - x - 1).toNat, ?_⟩
  rw [Int.toNat_of_nonneg (by omega)]
  ring

/-- The first multiple of `I` from `t` on. -/
def ceilTo (I t : Int) : Int := t + (-t) % I

theorem dvd_ceilTo (I t : Int) : I ∣ ceilTo I t := by
  apply Int.dvd_of_emod_eq_zero
  rw [ceilTo, Int.add_emod, Int.emod_emod, ← Int.add_emod, Int.add_right_neg, Int.zero_emod]

theorem le_ceilTo (hI : 0 < I) (t : Int) : t ≤ ceilTo I t ∧ ceilTo I t < t + I := by
  have h₁ := Int.emod_nonneg (-t) hI.ne'
  have h₂ := Int.emod_lt_of_pos (-t) hI
  unfold ceilTo
  omega

/-! ## Consecutive grid times -/

/-- The `n` times `a`, `a + I`, `a + 2I`, …. -/
def ticks (a I : Int) : Nat → List Int
  | 0 => []
  | n + 1 => a :: ticks (a + I) I n

@[simp] theorem ticks_zero (a I : Int) : ticks a I 0 = [] := rfl

theorem ticks_succ (a I : Int) (n : Nat) : ticks a I (n + 1) = a :: ticks (a + I) I n := rfl

@[simp] theorem length_ticks (a I : Int) (n : Nat) : (ticks a I n).length = n := by
  induction n generalizing a with
  | zero => rfl
  | succ n ih => rw [ticks_succ, List.length_cons, ih]

theorem mem_ticks {a I t : Int} {n : Nat} : t ∈ ticks a I n ↔ ∃ k < n, t = a + k * I := by
  induction n generalizing a with
  | zero => simp
  | succ n ih =>
    rw [ticks_succ, List.mem_cons, ih]
    constructor
    · rintro (rfl | ⟨k, hk, rfl⟩)
      · exact ⟨0, by omega, by simp⟩
      · exact ⟨k + 1, by omega, by push_cast; ring⟩
    · rintro ⟨k, hk, rfl⟩
      cases k with
      | zero => exact .inl (by simp)
      | succ k => exact .inr ⟨k, by omega, by push_cast; ring⟩

/-- The grid times from `a` on, below `a + nI`. -/
theorem mem_ticks_iff (hI : 0 < I) {a t : Int} {n : Nat} :
    t ∈ ticks a I n ↔ a ≤ t ∧ t < a + n * I ∧ I ∣ t - a := by
  rw [mem_ticks]
  constructor
  · rintro ⟨k, hk, rfl⟩
    have h0 : 0 ≤ (k : Int) * I := Int.mul_nonneg (by omega) hI.le
    have h1 : (k : Int) * I < n * I := Int.mul_lt_mul_of_pos_right (by omega) hI
    exact ⟨by omega, by omega, ⟨k, by ring⟩⟩
  · rintro ⟨h₁, h₂, q, hq⟩
    have hq0 : 0 ≤ q := by
      by_contra hc
      have : I * q < 0 := Int.mul_neg_of_pos_of_neg hI (by omega)
      omega
    have hqn : q < n := by
      have : q * I < n * I := by rw [Int.mul_comm q]; omega
      exact lt_of_mul_lt_mul_right this hI.le
    exact ⟨q.toNat, by omega, by rw [Int.toNat_of_nonneg hq0, Int.mul_comm]; omega⟩

theorem ticks_append (a I : Int) (m n : Nat) :
    ticks a I (m + n) = ticks a I m ++ ticks (a + m * I) I n := by
  induction m generalizing a with
  | zero => simp
  | succ m ih =>
    rw [Nat.succ_add, ticks_succ, ticks_succ, ih, List.cons_append]
    congr 3
    push_cast
    ring

theorem getLast?_ticks (a I : Int) (n : Nat) : (ticks a I (n + 1)).getLast? = some (a + n * I) := by
  rw [ticks_append, ticks_succ, ticks_zero, List.getLast?_concat]

/-- A list at consecutive grid times, cut after its first `k` elements. -/
theorem ticks_take_drop {α : Type*} {f : α → Int} {l : List α} {a : Int} {k : Nat}
    (h : l.map f = ticks a I l.length) (hk : k ≤ l.length) :
    (l.take k).map f = ticks a I k ∧ (l.drop k).map f = ticks (a + k * I) I (l.drop k).length := by
  have hlen : l.length = k + (l.drop k).length := by rw [List.length_drop]; omega
  rw [hlen, ticks_append] at h
  nth_rewrite 1 [← List.take_append_drop k l] at h
  rw [List.map_append] at h
  exact List.append_inj h (by rw [List.length_map, List.length_take, length_ticks]; omega)

/-- A list at consecutive grid times, cut before a grid time. -/
theorem split_ticks {α : Type*} {f : α → Int} (hI : 0 < I) {l : List α} {a b : Int}
    (h : l.map f = ticks a I l.length) (hd : I ∣ b - a) (hab : a ≤ b) (hb : b ≤ a + l.length * I) :
    ∃ as bs, l = as ++ bs ∧ as.map f = ticks a I as.length ∧ bs.map f = ticks b I bs.length ∧
      b = a + as.length * I := by
  obtain ⟨q, hq⟩ := hd
  have hq0 : 0 ≤ q := by
    by_contra hc
    have : I * q < 0 := Int.mul_neg_of_pos_of_neg hI (by omega)
    omega
  obtain ⟨k, rfl⟩ := Int.eq_ofNat_of_zero_le hq0
  have hkI : I * (k : Int) = k * I := Int.mul_comm _ _
  have hk : k ≤ l.length := by
    have : (k : Int) * I ≤ l.length * I := by omega
    exact_mod_cast le_of_mul_le_mul_right this hI
  obtain ⟨m, hm⟩ : ∃ m, l.length = k + m := ⟨l.length - k, by omega⟩
  rw [hm, ticks_append, List.map_eq_append_iff] at h
  obtain ⟨as, bs, rfl, has, hbs⟩ := h
  have hla : as.length = k := by simpa using congrArg List.length has
  have hlb : bs.length = m := by simpa using congrArg List.length hbs
  refine ⟨as, bs, rfl, by rw [has, hla], ?_, by rw [hla]; omega⟩
  rw [hbs, hlb]
  congr 1
  omega

theorem ticks_pairwise (hI : 0 < I) (a : Int) (n : Nat) : (ticks a I n).Pairwise (· < ·) := by
  induction n generalizing a with
  | zero => exact .nil
  | succ n ih =>
    refine .cons (fun t ht => ?_) (ih (a + I))
    have := ((mem_ticks_iff hI).mp ht).1
    omega

/-- How many of the grid times from `a` on are up to `t`. -/
theorem length_takeWhile_ticks (hI : 0 < I) (a t : Int) (n : Nat) :
    ((ticks a I n).takeWhile (· ≤ t)).length = min n ((t - a) / I + 1).toNat := by
  induction n generalizing a with
  | zero => simp
  | succ n ih =>
    rw [ticks_succ, List.takeWhile_cons]
    by_cases h : a ≤ t
    · have h0 : 0 ≤ (t - a) / I := Int.ediv_nonneg (by omega) hI.le
      have hstep : (t - (a + I)) / I + 1 = (t - a) / I := by
        rw [show t - (a + I) = t - a + -1 * I by ring, Int.add_mul_ediv_right _ _ hI.ne']
        omega
      rw [if_pos (decide_eq_true h), List.length_cons, ih, hstep]
      omega
    · have h0 : (t - a) / I < 0 := Int.ediv_neg_of_neg_of_pos (by omega) hI
      rw [if_neg (by simpa using h), List.length_nil]
      omega

/-- A list of times whose neighbours differ by exactly `I`. -/
def Spaced (I : Int) (l : List Int) : Prop := l.IsChain fun s t => t = s + I

theorem Spaced.eq_ticks {a : Int} {l : List Int} (h : Spaced I (a :: l)) :
    a :: l = ticks a I (l.length + 1) := by
  induction l generalizing a with
  | nil => rfl
  | cons b l ih =>
    obtain ⟨rfl, h⟩ := List.isChain_cons_cons.mp h
    rw [List.length_cons, ticks_succ, ← ih h]

/-- One more time after the last. -/
theorem Spaced.concat {l : List Int} (h : Spaced I l) {t : Int}
    (ht : ∀ s ∈ l.getLast?, t = s + I) : Spaced I (l ++ [t]) :=
  List.isChain_append.mpr ⟨h, .singleton t, fun s hs u hu => by
    obtain rfl : t = u := by simpa using hu
    exact ht s hs⟩

theorem Spaced.initial {l l' : List Int} (h : Spaced I l') (hl : l <+: l') : Spaced I l := by
  obtain ⟨rest, rfl⟩ := hl
  exact (List.isChain_append.mp h).1

theorem Spaced.pairwise (hI : 0 < I) {l : List Int} (h : Spaced I l) : l.Pairwise (· < ·) := by
  cases l with
  | nil => exact .nil
  | cons a l => rw [h.eq_ticks]; exact ticks_pairwise hI _ _

/-! ## Walks -/

section Walk

variable {α : Type*} {look : Int → Option α}

/-- The elements at the `n` grid times from `t` on, if the list begins with them. -/
def walk (I t : Int) : Nat → List (Int × α) → Option (List α)
  | 0, _ => some []
  | _ + 1, [] => none
  | n + 1, it :: its => if it.1 ≠ t then none else (walk I (t + I) n its).map (it.2 :: ·)

/-- Entries that follow one another in steps are steps from the first one. -/
theorem steps_from_head {t : Int} {a : α} {its : List (Int × α)}
    (h : ((t, a) :: its).Pairwise fun a b => ∃ j : Nat, b.1 = a.1 + (j + 1) * I) :
    ∀ it ∈ (t, a) :: its, ∃ k : Nat, it.1 = t + k * I := by
  intro it hit
  rcases List.mem_cons.mp hit with rfl | hit
  · exact ⟨0, by simp⟩
  · obtain ⟨j, hj⟩ := (List.pairwise_cons.mp h).1 it hit
    exact ⟨j + 1, by rw [hj]; push_cast; rfl⟩

/-- Over the entries of an ordered map from `t` on, or the entries back from `t` if `I` is negative,
a walk finds what the single look-ups do. -/
theorem walk_eq_some_iff (look : Int → Option α) (hI : I ≠ 0) {t : Int} {n : Nat}
    {its : List (Int × α)} {out : List α}
    (hits : its.Pairwise fun a b => ∃ j : Nat, b.1 = a.1 + (j + 1) * I)
    (hfrom : ∀ it ∈ its, ∃ k : Nat, it.1 = t + k * I)
    (hlook : ∀ (k : Nat) a, look (t + k * I) = some a ↔ (t + k * I, a) ∈ its) :
    walk I t n its = some out ↔ (ticks t I n).map look = out.map some := by
  induction n generalizing t its out with
  | zero => cases out <;> simp [walk]
  | succ n ih =>
    have hhead : ∀ a, look t = some a ↔ (t, a) ∈ its := by simpa using hlook 0
    rw [ticks_succ, List.map_cons]
    -- No entry of the time `t`.
    have hmiss (hnone : ∀ it ∈ its, it.1 ≠ t) :
        look t :: (ticks (t + I) I n).map look ≠ out.map some := by
      intro h
      cases out with
      | nil => cases h
      | cons a out => exact hnone _ ((hhead a).mp (List.cons.inj h).1) rfl
    cases its with
    | nil => simpa [walk] using hmiss
    | cons it its =>
      obtain ⟨hlater, hits⟩ := List.pairwise_cons.mp hits
      obtain ⟨k, hk⟩ := hfrom it List.mem_cons_self
      by_cases ht : it.1 = t
      · have hnext : ∀ it' ∈ its, ∃ k : Nat, it'.1 = t + I + k * I := by
          intro it' hit'
          obtain ⟨j, hj⟩ := hlater it' hit'
          exact ⟨j, by rw [hj, ht]; ring⟩
        have hrest (out : List α) : walk I (t + I) n its = some out ↔
            (ticks (t + I) I n).map look = out.map some := ih hits hnext fun j a => by
          have hne : (t + I + j * I, a) ≠ it := fun e => by
            have h : (j + 1) * I = 0 := by
              rw [← e] at ht
              linarith
            rcases mul_eq_zero.mp h with h | h <;> omega
          have hj := hlook (j + 1) a
          rw [show t + ((j + 1 : Nat) : Int) * I = t + I + j * I by push_cast; ring] at hj
          rw [hj, List.mem_cons, or_iff_right hne]
        rw [walk, if_neg (not_not.mpr ht), (hhead it.2).mpr (ht ▸ List.mem_cons_self)]
        cases out with
        | nil => simp
        | cons a out =>
          rw [List.map_cons, List.cons.injEq, ← hrest]
          simp [and_comm]
      · rw [walk, if_pos ht]
        refine iff_of_false nofun (hmiss fun it' hit' => ?_)
        rcases List.mem_cons.mp hit' with rfl | hit'
        · exact ht
        · obtain ⟨j, hj⟩ := hlater it' hit'
          intro h
          have hz : (k + j + 1) * I = 0 := by linarith
          rcases mul_eq_zero.mp hz with h | h <;> omega

theorem exists_map_eq_some_iff {l : List Int} :
    (∃ out : List α, l.map look = out.map some) ↔ ∀ t ∈ l, (look t).isSome = true := by
  constructor
  · rintro ⟨out, h⟩ t ht
    have := List.mem_map_of_mem (f := look) ht
    rw [h] at this
    obtain ⟨a, -, ha⟩ := List.mem_map.mp this
    rw [← ha, Option.isSome_some]
  · intro h
    refine ⟨l.pmap (fun t ht => (look t).get ht) h, ?_⟩
    rw [List.map_pmap]
    simp

/-- The times of a walk back are those of a walk on, the last one first. -/
theorem ticks_neg (t I : Int) (n : Nat) :
    ticks t (-I) n = (ticks (t - (n - 1) * I) I n).reverse := by
  induction n generalizing t with
  | zero => rfl
  | succ n ih =>
    rw [ticks_succ, ih, ticks_append _ _ n 1, List.reverse_append, ticks_succ, ticks_zero,
      List.reverse_singleton, List.singleton_append]
    push_cast
    congr 3 <;> ring

end Walk

/-! ## Windows -/

/-- An ascending list of multiples of `I` in a window of `n` grid times is no
longer than the window, and equals it when it is as long. -/
theorem window {b : Int} (hI : 0 < I) (hb : I ∣ b) : ∀ {n : Nat} {l : List Int},
    l.Pairwise (· < ·) → (∀ t ∈ l, I ∣ t ∧ b ≤ t ∧ t < b + n * I) →
    l.length ≤ n ∧ (l.length = n → l = ticks b I n)
  | n, [], _, _ => ⟨Nat.zero_le _, fun h => by rw [← h]; rfl⟩
  | 0, t :: l, _, hw => by
    obtain ⟨-, h₁, h₂⟩ := hw t List.mem_cons_self
    simp only [Int.zero_mul, Nat.cast_zero] at h₂
    omega
  | n + 1, t :: l, hs, hw => by
    obtain ⟨hlt, hs⟩ := List.pairwise_cons.mp hs
    obtain ⟨ht, hbt, htn⟩ := hw t List.mem_cons_self
    -- The tail lies in the window that starts one step later.
    have tail := window hI (Int.dvd_add hb (Int.dvd_refl I)) (n := n) hs fun u hu => by
      obtain ⟨hu₁, -, hu₂⟩ := hw u (List.mem_cons_of_mem _ hu)
      have := add_le_of_lt ht hu₁ (hlt u hu)
      refine ⟨hu₁, by omega, ?_⟩
      push_cast at hu₂
      rw [Int.add_mul, Int.one_mul] at hu₂
      omega
    refine ⟨by rw [List.length_cons]; omega, fun hl => ?_⟩
    have hl' : l.length = n := by rw [List.length_cons] at hl; omega
    rw [ticks_succ, tail.2 hl']
    congr 1
    by_contra hne
    -- Were `t` later than `b`, the tail would fit in a window one shorter.
    have hbt' : b + I ≤ t := add_le_of_lt hb ht (by omega)
    cases n with
    | zero =>
      push_cast at htn
      omega
    | succ n =>
      have short := window hI (Int.dvd_add (Int.dvd_add hb (Int.dvd_refl I)) (Int.dvd_refl I))
        (n := n) hs fun u hu => by
          obtain ⟨hu₁, -, hu₂⟩ := hw u (List.mem_cons_of_mem _ hu)
          have := add_le_of_lt ht hu₁ (hlt u hu)
          refine ⟨hu₁, by omega, ?_⟩
          push_cast at hu₂
          rw [Int.add_mul, Int.add_mul, Int.one_mul] at hu₂
          omega
      omega

end Lib.Grid
