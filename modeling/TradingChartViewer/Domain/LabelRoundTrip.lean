import TradingChartViewer.Domain.Labels
import Mathlib.Data.List.TakeWhile

/-!
# The two readers of interval labels

Both readers take a label apart into a number (`labelNumber`) and a unit
(`labelUnit`); they differ on a number beyond 64 bits, which one rejects and the
other clamps, and neither looks at the product. The printer writes an interval
that is not of whole seconds with the suffix `ms`, of which the readers see the
`m` alone.

* `intervalFromLabel_ms`, `parseIntervalMs_eq`: what each reader computes.
* `readersAgree_iff`: they agree, without overflow, exactly on the labels whose
  number times unit fits in 64 bits.
* `intervalFromLabel_intervalLabel_iff`: the label of an interval is read back
  exactly when the interval is of whole seconds.
-/

namespace TCV.Domain

/-! ## Number and unit -/

/-- The number a label starts with; 0 without digits. -/
def labelNumber (label : List Char) : Nat := Nat.ofDigitChars 10 (scanLabel label).1 0

/-- The milliseconds of one unit of a label. -/
def labelUnit (label : List Char) : Int :=
  match (scanLabel label).2.head?.map Char.toLower with
  | some c => suffixMs c
  | none => 1

theorem one_le_labelUnit (label : List Char) : 1 ≤ labelUnit label := by
  unfold labelUnit
  split
  · unfold suffixMs
    split <;> omega
  · omega

theorem labelNumber_of_isEmpty {label : List Char} (h : (scanLabel label).1.isEmpty = true) :
    labelNumber label = 0 := by
  rw [labelNumber, List.isEmpty_iff.mp h]
  rfl

theorem labelUnit_of_some {label : List Char} {c : Char}
    (h : (scanLabel label).2.head?.map Char.toLower = some c) : labelUnit label = suffixMs c := by
  rw [labelUnit, h]

/-- Any other suffix, or none, counts milliseconds. -/
theorem labelUnit_eq_one {label : List Char}
    (hs : (scanLabel label).2.head?.map Char.toLower ≠ some 's')
    (hm : (scanLabel label).2.head?.map Char.toLower ≠ some 'm')
    (hh : (scanLabel label).2.head?.map Char.toLower ≠ some 'h')
    (hd : (scanLabel label).2.head?.map Char.toLower ≠ some 'd') : labelUnit label = 1 := by
  unfold labelUnit
  split
  · rename_i c hc
    simp only [hc, ne_eq, Option.some.injEq] at hs hm hh hd
    unfold suffixMs
    split
    · exact absurd rfl hs
    · exact absurd rfl hm
    · exact absurd rfl hh
    · exact absurd rfl hd
    · rfl
  · rfl

/-- The gateway's reader rejects a number beyond 64 bits. -/
theorem intervalFromLabel_ms (label : List Char) :
    (intervalFromLabel label).ms =
      if (labelNumber label : Int) ≤ kLongLongMax then labelNumber label * labelUnit label
      else 0 := by
  simp only [intervalFromLabel, stoll]
  rw [← labelNumber]
  split
  · rename_i h
    rw [labelNumber_of_isEmpty h]
    simp
  · by_cases hmax : (labelNumber label : Int) ≤ kLongLongMax
    · simp only [hmax, if_true]
      split
      · rename_i h0
        have : labelNumber label = 0 := by omega
        simp [this]
      · show (labelNumber label : Int) * _ = _
        congr 1
        split
        · rename_i h; rw [labelUnit_of_some h]; rfl
        · rename_i h; rw [labelUnit_of_some h]; rfl
        · rename_i h; rw [labelUnit_of_some h]; rfl
        · rename_i h; rw [labelUnit_of_some h]; rfl
        · rename_i hs hm hh hd; rw [labelUnit_eq_one hs hm hh hd]
    · simp only [hmax, if_false]

/-- The repository's reader clamps it. -/
theorem parseIntervalMs_eq (label : List Char) :
    parseIntervalMs label = min (labelNumber label : Int) kLongLongMax * labelUnit label := by
  have hmax : 0 < kLongLongMax := by decide
  have hv : strtoll (scanLabel label).1 = min (labelNumber label : Int) kLongLongMax := rfl
  simp only [parseIntervalMs, hv]
  split
  · rename_i h
    rw [labelNumber_of_isEmpty h]
    simp [le_of_lt hmax]
  · split
    · rename_i h0
      have : min (labelNumber label : Int) kLongLongMax = 0 := by omega
      rw [this]
      omega
    · simp only [kMillisPerMinute, kMillisPerSecond]
      split
      · rename_i h; rw [labelUnit_of_some h]; rfl
      · rename_i h; rw [labelUnit_of_some h]; rfl
      · rename_i h; rw [labelUnit_of_some h]; simp only [suffixMs]; omega
      · rename_i h; rw [labelUnit_of_some h]; simp only [suffixMs]; omega
      · rename_i hs hm hh hd; rw [labelUnit_eq_one hs hm hh hd]; omega

/-! ## Agreement -/

/-- The readers both reject a label, or both read the same positive number of
milliseconds, which fits in 64 bits. -/
def ReadersAgree (label : List Char) : Prop :=
  ((intervalFromLabel label).valid = false ∧ parseIntervalMs label = 0) ∨
    (0 < parseIntervalMs label ∧ (intervalFromLabel label).ms = parseIntervalMs label ∧
      parseIntervalMs label ≤ kLongLongMax)

instance (label : List Char) : Decidable (ReadersAgree label) :=
  inferInstanceAs (Decidable (_ ∨ _))

theorem labelNumber_le_of_mul_le {label : List Char} {m : Int}
    (h : labelNumber label * labelUnit label ≤ m) : (labelNumber label : Int) ≤ m := by
  have := Int.mul_le_mul_of_nonneg_left (one_le_labelUnit label)
    (show (0 : Int) ≤ labelNumber label by omega)
  omega

/-- The readers agree exactly on the labels whose number of milliseconds fits in
64 bits. -/
theorem readersAgree_iff (label : List Char) :
    ReadersAgree label ↔ labelNumber label * labelUnit label ≤ kLongLongMax := by
  have hmax : 0 < kLongLongMax := by decide
  have hunit := one_le_labelUnit label
  simp only [ReadersAgree, Interval.valid, intervalFromLabel_ms, parseIntervalMs_eq]
  by_cases hle : (labelNumber label : Int) ≤ kLongLongMax
  · -- The number fits: both readers compute the product.
    simp only [hle, if_true, min_eq_left]
    have h0 : (0 : Int) ≤ labelNumber label * labelUnit label :=
      Int.mul_nonneg (by omega) (by omega)
    rcases eq_or_lt_of_le h0 with hz | hz
    · simp only [← hz]
      simp [le_of_lt hmax]
    · simp [hz, show ¬ labelNumber label * labelUnit label = 0 by omega]
  · -- One rejects it, the other takes the largest number.
    have hpos : (0 : Int) < kLongLongMax * labelUnit label :=
      Int.mul_pos hmax (by omega)
    have hprod : ¬ labelNumber label * labelUnit label ≤ kLongLongMax :=
      fun h => hle (labelNumber_le_of_mul_le h)
    simp only [hle, if_false, min_eq_right (show kLongLongMax ≤ (labelNumber label : Int) by omega)]
    simp only [hprod, iff_false]
    rintro (⟨-, h⟩ | ⟨-, h, -⟩) <;> omega

/-! ## Printing and reading -/

theorem labelNumber_toDigits (n : Nat) {c : Char} (hd : c.isDigit = false) (hs : isSpace c = false)
    (cs : List Char) : labelNumber (Nat.toDigits 10 n ++ c :: cs) = n := by
  rw [labelNumber, scanLabel_toDigits n hd hs, Nat.ofDigitChars_ten_toDigits]

theorem labelUnit_toDigits (n : Nat) {c : Char} (hd : c.isDigit = false) (hs : isSpace c = false)
    (cs : List Char) : labelUnit (Nat.toDigits 10 n ++ c :: cs) = suffixMs c.toLower := by
  rw [labelUnit, scanLabel_toDigits n hd hs]
  rfl

/-- What is read from a number with a suffix. -/
theorem intervalFromLabel_toDecimal {n : Int} (h0 : 0 ≤ n) (hmax : n ≤ kLongLongMax) {c : Char}
    (hc : c ∈ ['s', 'm', 'h', 'd']) (cs : List Char) :
    (intervalFromLabel (toDecimal n ++ c :: cs)).ms = n * suffixMs c := by
  have hletter : c.isDigit = false ∧ isSpace c = false ∧ c.toLower = c := by
    simp only [List.mem_cons, List.not_mem_nil, or_false] at hc
    rcases hc with rfl | rfl | rfl | rfl <;> exact ⟨by decide, by decide, by decide⟩
  rw [toDecimal_of_nonneg h0, intervalFromLabel_ms, labelNumber_toDigits _ hletter.1 hletter.2.1,
    labelUnit_toDigits _ hletter.1 hletter.2.1, hletter.2.2, Int.toNat_of_nonneg h0, if_pos hmax]

/-- The number of milliseconds read from the label of an interval. -/
theorem intervalFromLabel_intervalLabel_ms {i : Interval} (h : i.valid = true)
    (hmax : i.ms ≤ kLongLongMax) :
    (intervalFromLabel (intervalLabel i)).ms = if 1000 ∣ i.ms then i.ms else i.ms * 60000 := by
  have hpos : 0 < i.ms := by simpa [Interval.valid] using h
  simp only [intervalLabel, h, Bool.not_true, Bool.false_eq_true, if_false,
    Int.dvd_iff_emod_eq_zero]
  by_cases hs : i.ms % 1000 = 0
  · -- Days, hours, minutes and seconds.
    simp only [hs, if_true]
    split_ifs
    · rw [intervalFromLabel_toDecimal (by omega) (by omega) (by decide)]
      show i.ms / 86400000 * 86400000 = i.ms
      omega
    · rw [intervalFromLabel_toDecimal (by omega) (by omega) (by decide)]
      show i.ms / 3600000 * 3600000 = i.ms
      omega
    · rw [intervalFromLabel_toDecimal (by omega) (by omega) (by decide)]
      show i.ms / 60000 * 60000 = i.ms
      omega
    · rw [intervalFromLabel_toDecimal (by omega) (by omega) (by decide)]
      show i.ms / 1000 * 1000 = i.ms
      omega
  · -- The suffix `ms` is read as minutes.
    rw [if_neg (by omega), if_neg (by omega), if_neg (by omega), if_neg hs, if_neg hs,
      intervalFromLabel_toDecimal (by omega) hmax (by decide)]
    rfl

/-- The label of an interval is read back exactly when the interval is of whole
seconds. -/
theorem intervalFromLabel_intervalLabel_iff {i : Interval} (h : i.valid = true)
    (hmax : i.ms ≤ kLongLongMax) : intervalFromLabel (intervalLabel i) = i ↔ 1000 ∣ i.ms := by
  have hpos : 0 < i.ms := by simpa [Interval.valid] using h
  have hms : intervalFromLabel (intervalLabel i) = i ↔
      (intervalFromLabel (intervalLabel i)).ms = i.ms := by
    constructor
    · intro e
      rw [e]
    · intro e
      cases hi : intervalFromLabel (intervalLabel i)
      rw [hi] at e
      cases i
      simpa using e
  rw [hms, intervalFromLabel_intervalLabel_ms h hmax]
  split
  · simpa
  · rename_i hn
    simp only [hn, iff_false]
    omega

/-- Interval labels and their readers: where a label is read back, and where the
readers agree. -/
theorem labels_iff (i : Interval) (h : i.valid = true) (hmax : i.ms ≤ kLongLongMax)
    (label : List Char) :
    (intervalFromLabel (intervalLabel i) = i ↔ 1000 ∣ i.ms) ∧
      (ReadersAgree label ↔ labelNumber label * labelUnit label ≤ kLongLongMax) :=
  ⟨intervalFromLabel_intervalLabel_iff h hmax, readersAgree_iff label⟩

theorem labels_iff_fifteenMinutes :
    (intervalFromLabel (intervalLabel ⟨900000⟩) = ⟨900000⟩ ↔ 1000 ∣ (900000 : Int)) ∧
      (ReadersAgree " 15 min".toList ↔
        labelNumber " 15 min".toList * labelUnit " 15 min".toList ≤ kLongLongMax) :=
  labels_iff ⟨900000⟩ (by decide) (by decide) " 15 min".toList

/-- Half a second is printed as `500ms` and read as 500 minutes, and the readers
differ on the first number beyond 64 bits. -/
theorem labels_halfSecond :
    ¬ ((∀ i : Interval, i.valid = true → i.ms ≤ kLongLongMax →
          intervalFromLabel (intervalLabel i) = i) ∧ ∀ label, ReadersAgree label) ∧
      intervalLabel ⟨500⟩ = "500ms".toList ∧ (intervalFromLabel "500ms".toList).ms = 30000000 ∧
      ¬ ReadersAgree "9223372036854775808".toList := by
  refine ⟨fun h => ?_, by decide, by decide, by decide⟩
  have := h.1 ⟨500⟩ (by decide) (by decide)
  exact absurd this (by decide)

/-! ## Truncated labels -/

theorem ofDigitChars_lt {l : List Char} (h : ∀ c ∈ l, c.isDigit = true) :
    Nat.ofDigitChars 10 l 0 < 10 ^ l.length := by
  induction l with
  | nil => decide
  | cons c l ih =>
    have hc : c.toNat - '0'.toNat ≤ 9 := by
      have := h c List.mem_cons_self
      simp only [Char.isDigit, ge_iff_le, Bool.and_eq_true, decide_eq_true_eq] at this
      have h9 : c.toNat ≤ '9'.toNat := this.2
      have : '9'.toNat = '0'.toNat + 9 := by decide
      omega
    have ih := ih fun d hd => h d (List.mem_cons_of_mem _ hd)
    rw [Nat.ofDigitChars_cons, Nat.ofDigitChars_eq_ofDigitChars_zero, List.length_cons, Nat.pow_succ]
    have := Nat.mul_le_mul_left (10 ^ l.length) hc
    simp only [Nat.mul_zero, Nat.zero_add]
    omega

/-- Digits alone scan into themselves. -/
theorem scanLabel_of_isDigit {l : List Char} (h : ∀ c ∈ l, c.isDigit = true) :
    scanLabel l = (l, []) := by
  have hskip : l.dropWhile isSpace = l := by
    cases l with
    | nil => rfl
    | cons c l =>
      rw [List.dropWhile_cons_of_neg]
      rw [isSpace_of_isDigit (h c List.mem_cons_self)]
      decide
  simp only [scanLabel, hskip]
  rw [List.takeWhile_eq_self_iff.mpr h, List.dropWhile_eq_nil_iff.mpr h]
  rfl

/-- A number of more than `k` digits. -/
theorem pow_le_of_lt_length_toDigits {m k : Nat} (hk : 0 < k)
    (h : k < (Nat.toDigits 10 m).length) : 10 ^ k ≤ m := by
  by_contra hlt
  have := (Nat.length_toDigits_le_iff (by decide) hk).mpr (Nat.lt_of_not_le hlt)
  omega

/-- The first digits of a number are a positive number. -/
theorem ofDigitChars_take_pos {m k : Nat} (hm : 0 < m) (hk : 0 < k) :
    0 < Nat.ofDigitChars 10 ((Nat.toDigits 10 m).take k) 0 := by
  have hrest : Nat.ofDigitChars 10 ((Nat.toDigits 10 m).drop k) 0 <
      10 ^ ((Nat.toDigits 10 m).drop k).length :=
    ofDigitChars_lt fun x hx =>
      Nat.isDigit_of_mem_toDigits (by decide) (by decide) (List.mem_of_mem_drop hx)
  have hsum : Nat.ofDigitChars 10 ((Nat.toDigits 10 m).take k ++ (Nat.toDigits 10 m).drop k) 0 =
      m := by
    rw [List.take_append_drop, Nat.ofDigitChars_ten_toDigits]
  rw [Nat.ofDigitChars_append, Nat.ofDigitChars_eq_ofDigitChars_zero] at hsum
  rcases Nat.eq_zero_or_pos (Nat.ofDigitChars 10 ((Nat.toDigits 10 m).take k) 0) with h | h
  · -- The rest alone would be the whole number, which has more digits.
    rw [h, Nat.mul_zero, Nat.zero_add] at hsum
    rcases Nat.eq_zero_or_pos ((Nat.toDigits 10 m).drop k).length with hd | hd
    · rw [hd] at hrest
      omega
    · have := pow_le_of_lt_length_toDigits hd (m := m) (by rw [List.length_drop] at hd ⊢; omega)
      omega
  · exact h

/-- A label of whole minutes that is cut after 7 characters reads as fewer
milliseconds. -/
theorem parseIntervalMs_take {i : Interval} (hpos : 0 < i.ms) (hmin : kMillisPerMinute ∣ i.ms)
    (hlen : 7 < (intervalLabel i).length) :
    0 < parseIntervalMs ((intervalLabel i).take 7) ∧
      parseIntervalMs ((intervalLabel i).take 7) < i.ms := by
  have hmin : i.ms % 60000 = 0 := Int.emod_eq_zero_of_dvd hmin
  have hv : (!i.valid) = false := by simp [Interval.valid, hpos]
  -- A number of 7 digits or more and a letter: the first 7 digits are left.
  have key : ∀ {n : Int} {c : Char}, 0 ≤ n → 60000 * n ≤ i.ms → 7 < (toDecimal n ++ [c]).length →
      0 < parseIntervalMs ((toDecimal n ++ [c]).take 7) ∧
        parseIntervalMs ((toDecimal n ++ [c]).take 7) < i.ms := by
    intro n c hn hle hl
    rw [toDecimal_of_nonneg hn] at hl ⊢
    generalize hm : n.toNat = m at hl ⊢
    rw [List.length_append, List.length_singleton] at hl
    rw [List.take_append_of_le_length (by omega)]
    have htake : ∀ x ∈ (Nat.toDigits 10 m).take 7, x.isDigit = true := fun x hx =>
      Nat.isDigit_of_mem_toDigits (by decide) (by decide) (List.mem_of_mem_take hx)
    have hbig := pow_le_of_lt_length_toDigits (m := m) (k := 6) (by decide) (by omega)
    have hlow := ofDigitChars_lt htake
    have hfirst := ofDigitChars_take_pos (m := m) (k := 7) (by omega) (by decide)
    have hnum : labelNumber ((Nat.toDigits 10 m).take 7) =
        Nat.ofDigitChars 10 ((Nat.toDigits 10 m).take 7) 0 := by
      rw [labelNumber, scanLabel_of_isDigit htake]
    have hunit : labelUnit ((Nat.toDigits 10 m).take 7) = 1 := by
      rw [labelUnit, scanLabel_of_isDigit htake]
      rfl
    rw [List.length_take_of_le (by omega)] at hlow
    rw [parseIntervalMs_eq, hnum, hunit]
    simp only [kLongLongMax]
    omega
  simp only [intervalLabel, hv, Bool.false_eq_true, if_false, hmin, if_true] at hlen ⊢
  split_ifs at hlen ⊢
  · exact key (by omega) (by omega) hlen
  · exact key (by omega) (by omega) hlen
  · exact key (by omega) (by omega) hlen

end TCV.Domain
