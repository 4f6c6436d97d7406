import TradingChartViewer.App.TimeAxis
import TradingChartViewer.App.Zoom
import TradingChartViewer.Lib.Calendar
import TradingChartViewer.Lib.Decimal
import Mathlib.Data.List.Nodup

/-!
# The texts of the labels

`formatPrice` and `formatTimeLabel` of `RenderSnapshotBuilder.cpp`, and what a
reader of the two axes gets back from them. A price is printed with the decimals
of its scale, less zeros at the end; a time without its date where the date is
that of the label before. `std::fixed` rounds half to even, `gmtime_r` is the
Gregorian calendar; prices and ticks are exact.

* `formatPrice_eq`: what is printed of a price; `formatPrice_near`: how close it is;
* `priceTexts_read`: the texts of the price axis give its ticks exactly;
* `timeTexts_read`: the texts of the time axis give the minutes of its ticks.
-/

namespace TCV.App

open TCV.Domain Lib.Calendar Lib.Decimal Lib.Ladder Lib.Loop Lib.Steps

/-! ## Prices -/

/-- `std::string::find_last_not_of`. -/
def findLastNotOf (c : Char) (text : List Char) : Option Nat :=
  (text.reverse.findIdx? (· ≠ c)).map fun i => text.length - 1 - i

/-- The place of the last character that is kept. -/
def lastKept (minDecimals dotPos : Nat) (text : List Char) : Nat :=
  let minIndex := dotPos + minDecimals - 1
  match findLastNotOf '0' text with
  | none => minIndex
  | some lastNonZero =>
    if lastNonZero < dotPos then minIndex
    else if lastNonZero < minIndex then minIndex
    else lastNonZero

/-- `text` without zeros at the end. -/
def cutZeros (minDecimals dotPos : Nat) (text : List Char) : List Char :=
  let initialDecimals := text.length - dotPos - 1
  if minDecimals < initialDecimals then
    let lastNonZero := lastKept minDecimals dotPos text
    if lastNonZero + 1 < text.length then text.take (lastNonZero + 1) else text
  else text

/-- It has two decimals. -/
def trimDecimals (dotPos : Nat) (text : List Char) : List Char :=
  let minDecimals := 2
  let text := cutZeros minDecimals dotPos text
  let decimalsNow := text.length - dotPos - 1
  let text :=
    if decimalsNow < minDecimals then text ++ List.replicate (minDecimals - decimalsNow) '0'
    else text
  if text.getLast? = some '.' then text ++ List.replicate minDecimals '0' else text

def formatPrice (value : Rat) (decimals : Int) : List Char :=
  let text := fixed (clamp decimals 0 8).toNat value
  match text.findIdx? (· = '.') with
  | none => text
  | some dotPos => trimDecimals dotPos text

example : formatPrice 100 4 = "100.00".toList := by decide +kernel
example : formatPrice (-1 / 8) 4 = "-0.125".toList := by decide +kernel

section Prices

variable {pre stripped : List Char} {z : Nat}

theorem findLastNotOf_append {c x : Char} (hx : x ≠ c) (l : List Char) (z : Nat) :
    findLastNotOf c (l ++ x :: List.replicate z c) = some l.length := by
  have hzeros : (List.replicate z c).findIdx? (fun y => decide (y ≠ c)) = none :=
    List.findIdx?_eq_none_iff.mpr fun y hy => by
      rw [List.eq_of_mem_replicate hy]
      simp
  have hrev : (l ++ x :: List.replicate z c).reverse =
      List.replicate z c ++ x :: l.reverse := by
    simp
  unfold findLastNotOf
  rw [hrev, List.findIdx?_append, hzeros, Option.none_or, List.findIdx?_cons,
    if_pos (decide_eq_true hx), Option.map_some, Option.map_some]
  simp

/-- The last character before the zeros at the end. -/
theorem findLastNotOf_zeros (hs : stripped.getLast? ≠ some '0') (pre : List Char) (z : Nat) :
    findLastNotOf '0' (pre ++ '.' :: (stripped ++ List.replicate z '0')) =
      some (pre.length + stripped.length) := by
  rcases List.eq_nil_or_concat stripped with rfl | ⟨init, x, rfl⟩
  · exact findLastNotOf_append (by decide) pre z
  · have hx : x ≠ '0' := by simpa using hs
    have e : pre ++ '.' :: (init ++ [x] ++ List.replicate z '0') =
        (pre ++ '.' :: init) ++ x :: List.replicate z '0' := by simp
    rw [List.concat_eq_append] at *
    rw [e, findLastNotOf_append hx]
    simp

theorem take_zeros (pre stripped : List Char) {k z : Nat} (h : k ≤ z) :
    (pre ++ '.' :: (stripped ++ List.replicate z '0')).take (pre.length + 1 + stripped.length + k) =
      pre ++ '.' :: (stripped ++ List.replicate k '0') := by
  have hz : List.replicate z '0' = List.replicate k '0' ++ List.replicate (z - k) '0' := by
    rw [List.replicate_append_replicate, Nat.add_sub_cancel' h]
  have e : pre ++ '.' :: (stripped ++ List.replicate z '0') =
      (pre ++ '.' :: (stripped ++ List.replicate k '0')) ++ List.replicate (z - k) '0' := by
    rw [hz]
    simp
  rw [e, List.take_left']
  simp
  omega

theorem length_zeros (pre stripped : List Char) (z : Nat) :
    (pre ++ '.' :: (stripped ++ List.replicate z '0')).length =
      pre.length + 1 + stripped.length + z := by
  simp
  omega

/-- One decimal is kept, and those up to the last that is no zero. -/
theorem cutZeros_eq (hs : stripped.getLast? ≠ some '0') (pre : List Char) :
    ∃ k ≤ z, (k = 1 - stripped.length ∨ k = z ∧ stripped.length + z ≤ 2) ∧
      cutZeros 2 pre.length (pre ++ '.' :: (stripped ++ List.replicate z '0')) =
        pre ++ '.' :: (stripped ++ List.replicate k '0') := by
  have hkept : lastKept 2 pre.length (pre ++ '.' :: (stripped ++ List.replicate z '0')) + 1 =
      pre.length + 1 + stripped.length + (1 - stripped.length) := by
    unfold lastKept
    rw [findLastNotOf_zeros hs]
    dsimp only
    split_ifs <;> omega
  unfold cutZeros
  dsimp only
  rw [hkept, length_zeros]
  split_ifs with h₁ h₂
  · exact ⟨1 - stripped.length, by omega, .inl rfl, take_zeros pre stripped (by omega)⟩
  · exact ⟨z, le_rfl, .inl (by omega), rfl⟩
  · exact ⟨z, le_rfl, .inr ⟨rfl, by omega⟩, rfl⟩

/-- Two decimals are kept, and those up to the last that is no zero. -/
theorem trimDecimals_eq (hs : stripped.getLast? ≠ some '0')
    (hdigits : ∀ c ∈ stripped, c.isDigit = true) (pre : List Char) :
    trimDecimals pre.length (pre ++ '.' :: (stripped ++ List.replicate z '0')) =
      pre ++ '.' :: (stripped ++ List.replicate (2 - stripped.length) '0') := by
  obtain ⟨k, hkz, hk, hcut⟩ := cutZeros_eq (z := z) hs pre
  have hnow : (pre ++ '.' :: (stripped ++ List.replicate k '0')).length - pre.length - 1 =
      stripped.length + k := by
    rw [length_zeros]
    omega
  have hfill : (if stripped.length + k < 2 then
      pre ++ '.' :: (stripped ++ List.replicate k '0') ++
        List.replicate (2 - (stripped.length + k)) '0'
      else pre ++ '.' :: (stripped ++ List.replicate k '0')) =
      pre ++ '.' :: (stripped ++ List.replicate (2 - stripped.length) '0') := by
    split
    · rw [show 2 - stripped.length = k + (2 - (stripped.length + k)) by omega,
        List.replicate_add]
      simp
    · rw [show 2 - stripped.length = k by omega]
  have hlast : (pre ++ '.' :: (stripped ++ List.replicate (2 - stripped.length) '0')).getLast? ≠
      some '.' := by
    have hne : stripped ++ List.replicate (2 - stripped.length) '0' ≠ [] := by
      rw [← List.length_pos_iff, List.length_append, List.length_replicate]
      omega
    rw [show pre ++ '.' :: (stripped ++ List.replicate (2 - stripped.length) '0') =
      (pre ++ ['.']) ++ (stripped ++ List.replicate (2 - stripped.length) '0') by simp,
      List.getLast?_append_of_ne_nil _ hne]
    intro h
    obtain h | h := List.mem_append.mp (List.mem_of_getLast? h)
    · exact absurd (hdigits _ h) (by decide)
    · exact absurd (List.eq_of_mem_replicate h) (by decide)
  unfold trimDecimals
  dsimp only
  rw [hcut, hnow, hfill, if_neg hlast]

theorem exists_stripped (c : Char) (l : List Char) :
    ∃ stripped z, l = stripped ++ List.replicate z c ∧ stripped.getLast? ≠ some c := by
  induction l using List.reverseRecOn with
  | nil => exact ⟨[], 0, rfl, nofun⟩
  | append_singleton l x ih =>
    by_cases hx : x = c
    · obtain ⟨stripped, z, rfl, hs⟩ := ih
      refine ⟨stripped, z + 1, ?_, hs⟩
      rw [hx, List.append_assoc, List.replicate_succ']
    · exact ⟨l ++ [x], 0, by simp, by simpa using hx⟩

/-- The parts of a number with decimals. -/
theorem exists_fixed {d : Nat} (hd : 0 < d) (value : Rat) : ∃ sign whole frac,
    fixed d value = sign ++ decimal whole frac ∧ (sign = [] ∨ sign = ['-']) ∧
      (∀ c ∈ whole, c.isDigit = true) ∧ whole ≠ [] ∧ (∀ c ∈ frac, c.isDigit = true) ∧
      frac.length = d := by
  refine ⟨if value < 0 then ['-'] else [], Nat.toDigits 10 ((roundHalfEven (|value| * 10 ^ d)).toNat / 10 ^ d),
    padded d ((roundHalfEven (|value| * 10 ^ d)).toNat % 10 ^ d), ?_, ?_,
    fun _ => isDigit_of_mem_toDigits, Nat.toDigits_ne_nil, fun _ => isDigit_of_mem_padded,
    length_padded hd (Nat.mod_lt _ (by positivity))⟩
  · rw [fixed, fixedUnits, if_neg hd.ne']
  · split
    · exact .inr rfl
    · exact .inl rfl

/-- What `formatPrice` prints: the number with its decimals, without some zeros
at the end, and two decimals at least. -/
theorem formatPrice_eq {decimals : Int} (hd : 2 ≤ decimals ∧ decimals ≤ 8) (value : Rat) :
    ∃ sign whole kept z, formatPrice value decimals = sign ++ decimal whole kept ∧
      fixed decimals.toNat value = sign ++ decimal whole (kept ++ List.replicate z '0') ∧
      (sign = [] ∨ sign = ['-']) ∧ (∀ c ∈ whole, c.isDigit = true) ∧ whole ≠ [] ∧
      2 ≤ kept.length ∧ kept.length + z = decimals.toNat := by
  obtain ⟨sign, whole, frac, hfixed, hsign, hwhole, hne, hfrac, hlen⟩ :=
    exists_fixed (d := decimals.toNat) (by omega) value
  obtain ⟨stripped, z, hz, hs⟩ := exists_stripped '0' frac
  have hsz : stripped.length + z = decimals.toNat := by
    rw [← hlen, hz]
    simp
  have hstripped : ∀ c ∈ stripped, c.isDigit = true := fun c hc =>
    hfrac c (hz ▸ List.mem_append_left _ hc)
  have hpoint : ∀ c ∈ sign ++ whole, ¬ decide (c = '.') = true := fun c hc => by
    rw [decide_eq_true_eq]
    rintro rfl
    obtain hc | hc := List.mem_append.mp hc
    · obtain rfl | rfl := hsign
      · cases hc
      · exact absurd hc (by decide)
    · exact absurd (hwhole _ hc) (by decide)
  have htext : fixed decimals.toNat value =
      (sign ++ whole) ++ '.' :: (stripped ++ List.replicate z '0') := by
    rw [hfixed, hz, decimal, List.append_assoc]
  refine ⟨sign, whole, stripped ++ List.replicate (2 - stripped.length) '0',
    z - (2 - stripped.length), ?_, ?_, hsign, hwhole, hne, ?_, ?_⟩
  · have hfind : (fixed decimals.toNat value).findIdx? (fun c => decide (c = '.')) =
        some (sign ++ whole).length := by
      rw [htext, List.findIdx?_append,
        List.findIdx?_eq_none_iff.mpr fun c hc => Bool.eq_false_of_not_eq_true (hpoint c hc),
        Option.none_or, List.findIdx?_cons, if_pos (by decide)]
      simp
    unfold formatPrice
    dsimp only
    rw [clamp_of_mem ⟨by omega, hd.2⟩, hfind]
    dsimp only
    rw [htext, trimDecimals_eq hs hstripped, decimal, List.append_assoc]
  · rw [htext, decimal, List.append_assoc, List.append_assoc, List.replicate_append_replicate,
      show 2 - stripped.length + (z - (2 - stripped.length)) = z by omega]
  · rw [List.length_append, List.length_replicate]
    omega
  · rw [List.length_append, List.length_replicate]
    omega

/-- Trimming leaves the value. -/
theorem readDecimal_formatPrice {decimals : Int} (hd : 2 ≤ decimals ∧ decimals ≤ 8) (value : Rat) :
    readDecimal (formatPrice value decimals) = readDecimal (fixed decimals.toNat value) := by
  obtain ⟨sign, whole, kept, z, htext, hfixed, hsign, hwhole, hne, -, -⟩ := formatPrice_eq hd value
  rw [htext, hfixed, readDecimal_append_zeros hsign hwhole hne]

end Prices

/-- The text of a price has two to eight decimals, not more than are asked for,
and is off by half of the last of those at most. -/
theorem formatPrice_near (value : Rat) (decimals : Int) (hd : 2 ≤ decimals ∧ decimals ≤ 8) :
    |readDecimal (formatPrice value decimals) - value| ≤ 1 / 2 / 10 ^ decimals.toNat ∧
    ∃ whole frac, formatPrice value decimals = decimal whole frac ∧
      2 ≤ frac.length ∧ frac.length ≤ decimals.toNat := by
  constructor
  · rw [readDecimal_formatPrice hd]
    exact abs_readDecimal_fixed_sub_le _ _
  · obtain ⟨sign, whole, kept, z, htext, -, -, -, -, htwo, hlen⟩ := formatPrice_eq hd value
    refine ⟨sign ++ whole, kept, ?_, htwo, by omega⟩
    rw [htext, decimal, decimal, List.append_assoc]

/-- Two thirds, and a negative price. -/
theorem formatPrice_near_thirds :
    formatPrice (2 / 3) 4 = ['0', '.', '6', '6', '6', '7'] ∧
    |readDecimal (formatPrice (-2 / 3) 4) - -2 / 3| ≤ 1 / 2 / 10 ^ 4 :=
  ⟨by decide +kernel, (formatPrice_near (-2 / 3) 4 (by decide)).1⟩

/-! ## The price axis -/

section PriceAxis

variable {minPrice maxPrice step : Rat}

/-- A round goes one step on, and adds the value it is at, if anything. -/
theorem tickBody_inl {s t : Rat × List Rat} (h : tickBody minPrice maxPrice step s = .inl t) :
    t.1 = s.1 + step ∧ ∀ tick ∈ t.2, tick ∈ s.2 ∨ tick = s.1 := by
  unfold tickBody at h
  dsimp only at h
  split_ifs at h <;> cases h <;> grind

theorem tickBody_inr {s : Rat × List Rat} {r : List Rat}
    (h : tickBody minPrice maxPrice step s = .inr r) : ∀ tick ∈ r, tick ∈ s.2 ∨ tick = s.1 := by
  unfold tickBody at h
  dsimp only at h
  split_ifs at h <;> cases h <;> grind

/-- The loop from a multiple of the step on collects multiples of it. -/
theorem tickBody_multiples {s : Rat × List Rat} {ticks : List Rat}
    (h : Ends (tickBody minPrice maxPrice step) s ticks) (hvalue : ∃ k : Int, s.1 = k * step)
    (hticks : ∀ tick ∈ s.2, ∃ k : Int, tick = k * step) :
    ∀ tick ∈ ticks, ∃ k : Int, tick = k * step := by
  refine h.rule (I := fun s => (∃ k : Int, s.1 = k * step) ∧
    ∀ tick ∈ s.2, ∃ k : Int, tick = k * step)
    (Q := fun ticks => ∀ tick ∈ ticks, ∃ k : Int, tick = k * step)
    (fun s t hs hb => ?_) (fun s r hs hb tick ht => ?_) ⟨hvalue, hticks⟩
  · obtain ⟨⟨k, hk⟩, hall⟩ := hs
    obtain ⟨hstep, hadd⟩ := tickBody_inl hb
    refine ⟨⟨k + 1, ?_⟩, fun tick ht => ?_⟩
    · rw [hstep, hk]
      push_cast
      ring
    · obtain ht | rfl := hadd tick ht
      · exact hall tick ht
      · exact ⟨k, hk⟩
  · obtain ht | rfl := tickBody_inr hb tick ht
    · exact hs.2 tick ht
    · exact hs.1

theorem buildPriceScale_multiples {fuel : Nat} {scale : PriceScale}
    (h : buildPriceScale fuel minPrice maxPrice = some scale) :
    ∀ tick ∈ scale.ticks, ∃ k : Int, tick = k * scale.step := by
  unfold buildPriceScale at h
  split at h
  · cases h
    exact fun tick ht => absurd ht List.not_mem_nil
  · obtain ⟨best, -, h⟩ := Option.bind_eq_some_iff.mp h
    obtain ⟨ticks, hticks, h⟩ := Option.bind_eq_some_iff.mp h
    cases h
    have hall := tickBody_multiples ⟨fuel, hticks⟩ ⟨_, rfl⟩ fun tick ht =>
      absurd ht List.not_mem_nil
    dsimp only
    split
    · refine List.forall_mem_cons.mpr ⟨⟨⌊minPrice / best.step⌋ - 1, ?_⟩, hall⟩
      push_cast
      ring
    · exact hall

/-- The decimals of a rung that is not too low are enough for its multiples. -/
theorem computePriceDecimals_enough {r : Rung} (h : -7 ≤ r.exponent) :
    (2 ≤ computePriceDecimals r.value ∧ computePriceDecimals r.value ≤ 8) ∧
    ∀ k : Int, ∃ m : Int, k * r.value * 10 ^ (computePriceDecimals r.value).toNat = m := by
  have hdecimals : computePriceDecimals r.value = clamp (-r.exponent + 2) 2 8 := by
    rw [computePriceDecimals, if_neg (by simpa using r.value_pos), r.log_value]
  have hmem := clamp_mem (show (2 : Int) ≤ 8 by decide) (-r.exponent + 2)
  have henough : -r.exponent ≤ clamp (-r.exponent + 2) 2 8 := by
    unfold clamp
    split_ifs <;> omega
  rw [hdecimals]
  refine ⟨hmem, fun k => ?_⟩
  obtain ⟨n, hn⟩ := Int.eq_ofNat_of_zero_le
    (show 0 ≤ r.exponent + (clamp (-r.exponent + 2) 2 8).toNat by omega)
  obtain ⟨digit, hdigit⟩ : ∃ digit : Int, r.digit.value = digit := by
    obtain ⟨d, -⟩ := r
    cases d
    · exact ⟨1, by norm_num [Digit.value]⟩
    · exact ⟨2, by norm_num [Digit.value]⟩
    · exact ⟨5, by norm_num [Digit.value]⟩
  refine ⟨k * digit * 10 ^ n, ?_⟩
  have hpow : (10 : Rat) ^ r.exponent * 10 ^ (clamp (-r.exponent + 2) 2 8).toNat = 10 ^ n := by
    rw [← zpow_natCast, ← zpow_add₀ (by norm_num), hn, zpow_natCast]
  rw [Rung.value, hdigit]
  push_cast
  rw [mul_assoc, mul_assoc, hpow, ← mul_assoc]

/-- Every tick of a padded range is read back, and one of them is in the range. -/
theorem exists_scale_read (h : minPrice < maxPrice) (hpad : 2 / 10 ^ 6 ≤ maxPrice - minPrice) :
    ∃ scale, (∀ fuel ≥ 12, buildPriceScale fuel minPrice maxPrice = some scale) ∧
      (∃ tick ∈ scale.ticks, minPrice ≤ tick ∧ tick ≤ maxPrice) ∧
      scale.ticks.Pairwise (· < ·) ∧
      ∀ tick ∈ scale.ticks, readDecimal (formatPrice tick scale.decimals) = tick := by
  obtain ⟨r, first, n, ⟨hn3, hn⟩, hbuild, ⟨hfirst, hfirst'⟩, hlast, hlast'⟩ :=
    buildPriceScale_eq h hpad
  have hpos := r.value_pos
  -- Ten steps are longer than the range.
  have hlong : 2 / 10 ^ 7 ≤ r.value := by
    have : (n : Rat) * r.value ≤ 9 * r.value :=
      mul_le_mul_of_nonneg_right (by exact_mod_cast hn) hpos.le
    linarith
  have hexp : -7 ≤ r.exponent := by
    by_contra hlow
    have hdecade : (10 : Rat) ^ r.exponent ≤ 10 ^ (-8 : Int) :=
      zpow_le_zpow_right₀ (by norm_num) (by omega)
    have hvalue : r.value ≤ 5 * 10 ^ (-8 : Int) :=
      mul_le_mul r.digit.value_mem.2 hdecade (decade_pos _).le (by norm_num)
    norm_num at hvalue hlong
    linarith
  obtain ⟨hdecimals, hint⟩ := computePriceDecimals_enough hexp
  refine ⟨_, hbuild, ⟨first + 1 * r.value, ?_, ?_, ?_⟩, ?_, fun tick ht => ?_⟩
  · exact mem_evenly.mpr ⟨1, by omega, by norm_num⟩
  · linarith
  · have : 3 * r.value ≤ n * r.value :=
      mul_le_mul_of_nonneg_right (by exact_mod_cast hn3) hpos.le
    linarith
  · exact List.isChain_iff_pairwise.mp ((isChain_evenly first r.value (n + 1)).imp
      fun a b (hab : b = a + r.value) => by linarith)
  · obtain ⟨k, hk⟩ := buildPriceScale_multiples (hbuild 12 le_rfl) tick ht
    obtain ⟨m, hm⟩ := hint k
    dsimp only at hk ⊢
    rw [readDecimal_formatPrice hdecimals, hk]
    exact readDecimal_fixed_of_int hm

end PriceAxis

/-- The texts of the price labels. -/
def FullSnapshot.priceTexts (snapshot : FullSnapshot) (fuel : Nat) : Option (List (List Char)) := do
  let scale ← buildPriceScale fuel snapshot.visiblePriceMin snapshot.visiblePriceMax
  some (snapshot.priceLabels.map fun label => formatPrice label.tick scale.decimals)

section PriceLabels

variable {minPrice pxPerPrice : Rat} {canvasHeight : Nat}

/-- A tick is added at its place, or not at all. -/
theorem addPriceLabel_cases (labels : List PriceLabel) (tick : Rat) :
    addPriceLabel minPrice pxPerPrice canvasHeight labels tick = labels ∨
    addPriceLabel minPrice pxPerPrice canvasHeight labels tick =
      labels ++ [⟨priceToY tick minPrice pxPerPrice canvasHeight, tick⟩] := by
  unfold addPriceLabel
  dsimp only
  split
  · exact .inl rfl
  split
  · exact .inl rfl
  · exact .inr rfl

theorem addPriceLabel_nil {tick : Rat}
    (htop : 0 ≤ priceToY tick minPrice pxPerPrice canvasHeight)
    (hbottom : priceToY tick minPrice pxPerPrice canvasHeight ≤ canvasHeight) :
    addPriceLabel minPrice pxPerPrice canvasHeight [] tick =
      [⟨priceToY tick minPrice pxPerPrice canvasHeight, tick⟩] := by
  unfold addPriceLabel
  dsimp only
  rw [if_neg]
  · rfl
  · have : (0 : Rat) ≤ kPriceLabelMinSpacingPx := by decide +kernel
    simp only [Bool.or_eq_true, decide_eq_true_eq, not_or, not_lt]
    constructor <;> linarith

variable (minPrice pxPerPrice canvasHeight) in
/-- The labels are at the places of some of the ticks, in their order. -/
theorem priceLabels_sublist (ticks : List Rat) (labels : List PriceLabel)
    (h : ∀ label ∈ labels, label.y = priceToY label.tick minPrice pxPerPrice canvasHeight) :
    ((ticks.foldl (addPriceLabel minPrice pxPerPrice canvasHeight) labels).map
      PriceLabel.tick).Sublist (labels.map PriceLabel.tick ++ ticks) ∧
    ∀ label ∈ ticks.foldl (addPriceLabel minPrice pxPerPrice canvasHeight) labels,
      label.y = priceToY label.tick minPrice pxPerPrice canvasHeight := by
  induction ticks generalizing labels with
  | nil => exact ⟨by simp, h⟩
  | cons tick ticks ih =>
    rw [List.foldl_cons]
    obtain e | e := addPriceLabel_cases labels tick <;> rw [e]
    · obtain ⟨hsub, hplaces⟩ := ih labels h
      exact ⟨hsub.trans ((List.Sublist.refl _).append (List.sublist_cons_self _ _)), hplaces⟩
    · obtain ⟨hsub, hplaces⟩ := ih (labels ++ [⟨priceToY tick minPrice pxPerPrice canvasHeight,
        tick⟩]) (List.forall_mem_append.mpr ⟨h, List.forall_mem_singleton.mpr rfl⟩)
      rw [List.map_append, List.append_assoc] at hsub
      exact ⟨hsub, hplaces⟩

/-- A tick on the canvas makes sure of a label. -/
theorem priceLabels_ne_nil {tick : Rat}
    (htop : 0 ≤ priceToY tick minPrice pxPerPrice canvasHeight)
    (hbottom : priceToY tick minPrice pxPerPrice canvasHeight ≤ canvasHeight) (ticks : List Rat)
    (labels : List PriceLabel) (h : labels ≠ [] ∨ tick ∈ ticks) :
    ticks.foldl (addPriceLabel minPrice pxPerPrice canvasHeight) labels ≠ [] := by
  induction ticks generalizing labels with
  | nil => exact h.resolve_right List.not_mem_nil
  | cons other ticks ih =>
    refine ih _ ?_
    rcases eq_or_ne labels [] with rfl | hne
    · obtain rfl | ht := List.mem_cons.mp (h.resolve_left (absurd rfl))
      · rw [addPriceLabel_nil htop hbottom]
        exact .inl (List.cons_ne_nil _ _)
      · exact .inr ht
    · obtain e | e := addPriceLabel_cases labels other <;> rw [e]
      · exact .inl hne
      · exact .inl (by simp)

end PriceLabels

/-- A price of the range is on the canvas. -/
theorem priceToY_mem {tick minPrice maxPrice : Rat} (h : minPrice < maxPrice)
    (ht : minPrice ≤ tick ∧ tick ≤ maxPrice) (height : Nat) :
    0 ≤ priceToY tick minPrice (height / (maxPrice - minPrice)) height ∧
    priceToY tick minPrice (height / (maxPrice - minPrice)) height ≤ height := by
  have hrange := sub_pos.mpr h
  have hheight : (0 : Rat) ≤ height := Nat.cast_nonneg _
  have hle : (tick - minPrice) * (height / (maxPrice - minPrice)) ≤ height := by
    calc (tick - minPrice) * (height / (maxPrice - minPrice))
        ≤ (maxPrice - minPrice) * (height / (maxPrice - minPrice)) :=
          mul_le_mul_of_nonneg_right (by linarith) (div_nonneg hheight hrange.le)
      _ = height := mul_div_cancel₀ _ hrange.ne'
  have hnonneg : 0 ≤ (tick - minPrice) * (height / (maxPrice - minPrice)) :=
    mul_nonneg (by linarith) (div_nonneg hheight hrange.le)
  unfold priceToY
  constructor <;> linarith

/-- The price axis of a snapshot is that of its price range. -/
theorem exists_priceLabels (b : RenderSnapshotBuilder) {series : List RenderCandleData}
    (hne : series ≠ []) {viewport : ViewportParams} (hw : 1 ≤ viewport.canvasWidth)
    (hh : 1 ≤ viewport.canvasHeight) (limits : Nat × Nat) (cursor : Option CursorState) :
    ∃ snapshot, Returns (fun fuel => b.buildChecked fuel series viewport limits cursor) snapshot ∧
      2 / 10 ^ 6 ≤ snapshot.visiblePriceMax - snapshot.visiblePriceMin ∧
      snapshot.pxPerPrice =
        snapshot.canvasHeight / (snapshot.visiblePriceMax - snapshot.visiblePriceMin) ∧
      ∀ scale, Returns (fun fuel => buildPriceScale fuel snapshot.visiblePriceMin
          snapshot.visiblePriceMax) scale →
        snapshot.priceLabels = scale.ticks.foldl (addPriceLabel snapshot.visiblePriceMin
          snapshot.pxPerPrice snapshot.canvasHeight) [] := by
  obtain ⟨window, hwin, hfits⟩ := checkedWindow_spec viewport limits (List.length_pos_iff.mpr hne)
  obtain ⟨first, last, hfirst, hlast, -, -⟩ := frame_times b viewport hfits
  obtain ⟨timeStep, hstep, hone, -⟩ := chooseTimeStep_spec hfits.pos
    (frame_pxPerCandle_pos b viewport series window)
  obtain ⟨base, hbase, hpos, -⟩ := baseIntervalMs_some hfits.le
    (estimateIntervalMs series window.startIndex window.desiredCount)
  obtain ⟨crosshair, hcross, -⟩ := buildCrosshair_spec
    (b.frame series viewport window) (frame_pxPerCandle_pos b viewport series window) hfits.pos
    hfits.le cursor
  have hstepMs : 0 < (timeAxis (b.frame series viewport window) first.openTimeMs last.openTimeMs
    base timeStep).stepMs := Int.mul_pos hpos (by omega)
  obtain ⟨-, labels, -, -, hlabels⟩ := labels_halt hstepMs
  have hgap : 2 / 10 ^ 6 ≤ (b.frame series viewport window).visiblePriceMax -
    (b.frame series viewport window).visiblePriceMin := paddedRange_gap _ _
  obtain ⟨scale, hscale, -⟩ := buildPriceScale_ticks _ _
    (frame_prices_lt b viewport series window) hgap
  refine ⟨_, buildChecked_eq hw hh hne hwin hfits hfirst hlast ⟨12, hscale⟩ hstep hbase hlabels
    hcross, hgap, rfl, fun scale' hscale' => ?_⟩
  obtain rfl : scale = scale' := Returns.unique ⟨12, hscale⟩ hscale'
  rfl

/-- The price axis of every snapshot has a label, no two labels have one text, and
each text is that of the price at its place, to the last digit. -/
theorem priceTexts_read (b : RenderSnapshotBuilder) (series : List RenderCandleData)
    (hne : series ≠ []) (viewport : ViewportParams) (hw : 1 ≤ viewport.canvasWidth)
    (hh : 1 ≤ viewport.canvasHeight) (limits : Nat × Nat) (cursor : Option CursorState) :
    ∃ snapshot texts,
      Returns (fun fuel => b.buildChecked fuel series viewport limits cursor) snapshot ∧
      Returns snapshot.priceTexts texts ∧
      texts ≠ [] ∧ texts.Nodup ∧
      texts.map readDecimal = snapshot.priceLabels.map PriceLabel.tick ∧
      texts.map (fun text => priceToY (readDecimal text) snapshot.visiblePriceMin
        snapshot.pxPerPrice snapshot.canvasHeight) = snapshot.priceLabels.map PriceLabel.y := by
  obtain ⟨snapshot, hreturns, hgap, hpx, hlabels⟩ := exists_priceLabels b hne hw hh limits cursor
  have hrange : snapshot.visiblePriceMin < snapshot.visiblePriceMax := by linarith
  obtain ⟨scale, hscale, ⟨tick, ht, hmem⟩, hsorted, hread⟩ := exists_scale_read hrange hgap
  have hsome : snapshot.priceLabels ≠ [] := by
    have hy := priceToY_mem hrange hmem snapshot.canvasHeight
    rw [← hpx] at hy
    rw [hlabels scale ⟨12, hscale⟩]
    exact priceLabels_ne_nil hy.1 hy.2 _ _ (.inr ht)
  obtain ⟨hsub, hplaces⟩ := priceLabels_sublist snapshot.visiblePriceMin
    snapshot.pxPerPrice snapshot.canvasHeight scale.ticks []
    fun label hl => absurd hl List.not_mem_nil
  rw [← hlabels scale ⟨12, hscale⟩] at hsub hplaces
  have hlabel (label : PriceLabel) (hl : label ∈ snapshot.priceLabels) :
      readDecimal (formatPrice label.tick scale.decimals) = label.tick :=
    hread _ (hsub.subset (List.mem_map_of_mem hl))
  obtain ⟨texts, htexts⟩ : ∃ texts, texts = snapshot.priceLabels.map fun label =>
    formatPrice label.tick scale.decimals := ⟨_, rfl⟩
  have hvalues : texts.map readDecimal = snapshot.priceLabels.map PriceLabel.tick := by
    rw [htexts, List.map_map]
    exact List.map_congr_left hlabel
  have hreads : Returns snapshot.priceTexts texts := by
    refine ⟨12, fun fuel hfuel => ?_⟩
    rw [FullSnapshot.priceTexts, hscale fuel hfuel, htexts]
    rfl
  have hplace : texts.map (fun text => priceToY (readDecimal text) snapshot.visiblePriceMin
      snapshot.pxPerPrice snapshot.canvasHeight) = snapshot.priceLabels.map PriceLabel.y := by
    rw [htexts, List.map_map]
    refine List.map_congr_left fun label hl => ?_
    rw [Function.comp_apply, hlabel label hl, hplaces label hl]
  refine ⟨snapshot, texts, hreturns, hreads, ?_, ?_, hvalues, hplace⟩
  · rw [htexts]
    exact fun h => hsome (List.map_eq_nil_iff.mp h)
  · refine List.Nodup.of_map readDecimal ?_
    rw [hvalues]
    exact hsub.nodup (hsorted.imp ne_of_lt)

/-- Five candles, not in order, on a canvas of twelve pixels by twenty. -/
theorem priceTexts_read_narrow : ∃ snapshot texts,
    Returns (fun fuel => RenderSnapshotBuilder.construct.buildChecked fuel fiveCandles
      { canvasWidth := 12, canvasHeight := 20 } (5, 3) none) snapshot ∧
    Returns snapshot.priceTexts texts ∧ texts ≠ [] ∧
    texts.map readDecimal = snapshot.priceLabels.map PriceLabel.tick := by
  obtain ⟨snapshot, texts, hreturns, htexts, hsome, -, hvalues, -⟩ :=
    priceTexts_read .construct fiveCandles (List.cons_ne_nil _ _)
      { canvasWidth := 12, canvasHeight := 20 } (by decide) (by decide) (5, 3) none
  exact ⟨snapshot, texts, hreturns, htexts, hsome, hvalues⟩

/-! ## Times -/

/-- A broken-down time, in UTC. -/
structure Tm where
  date : Date
  hour : Nat
  min : Nat
  deriving DecidableEq, Repr

def toUtcTm (timestampMs : Int) : Tm :=
  let seconds := timestampMs.tdiv 1000
  let ofDay := (seconds % 86400).toNat
  { date := dateOfDays (seconds / 86400), hour := ofDay / 3600, min := ofDay / 60 % 60 }

/-- Whether two times are not of one day. -/
def Tm.newDay (previous tm : Tm) : Bool :=
  previous.date.year ≠ tm.date.year || previous.date.yday ≠ tm.date.yday

/-- `%H:%M`. -/
def Tm.timeText (tm : Tm) : List Char := padded 2 tm.hour ++ ':' :: padded 2 tm.min

/-- `%Y-%m-%d`. -/
def Tm.dateText (tm : Tm) : List Char :=
  padded 4 tm.date.year.toNat ++ '-' :: padded 2 tm.date.month ++ '-' :: padded 2 tm.date.mday

def formatTimeLabel (timestampMs : Int) (previous reference : Option Tm) : List Char :=
  if timestampMs ≤ 0 then ['-', '-', ':', '-', '-']
  else
    let tm := toUtcTm timestampMs
    let newDay := ((previous <|> reference).map (·.newDay tm)).getD false
    if newDay then tm.dateText ++ ' ' :: tm.timeText else tm.timeText

/-- The texts of the time labels, from left to right. -/
def labelTexts (reference : Tm) (previous : Option Tm) : List TimeLabel → List (List Char)
  | [] => []
  | label :: labels =>
    formatTimeLabel label.tickTime previous (some reference) ::
      labelTexts reference (some (toUtcTm label.tickTime)) labels

/-- The texts of the time labels. The label that is made when there is no other has
no label before it either. -/
def FullSnapshot.timeTexts (snapshot : FullSnapshot) : List (List Char) :=
  labelTexts (toUtcTm snapshot.logicalFromMs) none snapshot.timeLabels

/-- The minute that a text gives, on `day` if it has no date. -/
def readMinute (day : Int) (text : List Char) : Option Int :=
  match numbers text with
  | [hour, min] => some (day * 1440 + hour * 60 + min)
  | [year, month, mday, hour, min] =>
    some (daysOfDate year month mday * 1440 + hour * 60 + min)
  | _ => none

/-- The minutes of the texts, each without a date on the day of the one before. -/
def readMinutes (day : Int) : List (List Char) → Option (List Int)
  | [] => some []
  | text :: texts => do
    let minute ← readMinute day text
    let minutes ← readMinutes (minute / 1440) texts
    some (minute :: minutes)

section Times

theorem numbers_timeText (tm : Tm) : numbers tm.timeText = [tm.hour, tm.min] := by
  rw [Tm.timeText, numbers_padded_cons _ _ (by decide), numbers_padded]

theorem numbers_dateText (tm : Tm) :
    numbers (tm.dateText ++ ' ' :: tm.timeText) =
      [tm.date.year.toNat, tm.date.month, tm.date.mday, tm.hour, tm.min] := by
  rw [Tm.dateText, List.append_assoc, List.append_assoc, List.cons_append, List.cons_append,
    numbers_padded_cons _ _ (by decide), numbers_padded_cons _ _ (by decide),
    numbers_padded_cons _ _ (by decide), numbers_timeText]

/-- The parts of a positive time. -/
theorem toUtcTm_eq {t : Int} (ht : 0 < t) :
    (toUtcTm t).date = dateOfDays (t / 60000 / 1440) ∧
      t / 60000 / 1440 * 1440 + (toUtcTm t).hour * 60 + (toUtcTm t).min = t / 60000 := by
  have hsec : t.tdiv 1000 = t / 1000 := Int.tdiv_eq_ediv_of_nonneg ht.le
  unfold toUtcTm
  dsimp only
  rw [hsec]
  refine ⟨congrArg dateOfDays (by omega), ?_⟩
  obtain ⟨ofDay, hday⟩ := Int.eq_ofNat_of_zero_le
    (Int.emod_nonneg (t / 1000) (show (86400 : Int) ≠ 0 by decide))
  rw [hday, Int.toNat_natCast]
  push_cast
  omega

/-- A text gives the minute of its time to a reader who knows the day of the label
before it. -/
theorem readMinute_formatTimeLabel {t day : Int} (ht : 0 < t) {previous reference : Option Tm}
    {tm : Tm} (hknown : (previous <|> reference) = some tm) (hday : tm.date = dateOfDays day) :
    readMinute day (formatTimeLabel t previous reference) = some (t / 60000) := by
  obtain ⟨hdate, hminute⟩ := toUtcTm_eq ht
  unfold formatTimeLabel
  rw [if_neg (by omega), hknown]
  dsimp only [Option.map_some, Option.getD_some]
  split
  · have hyear : ((toUtcTm t).date.year.toNat : Int) = (toUtcTm t).date.year :=
      Int.toNat_of_nonneg (hdate ▸ year_nonneg (by omega))
    rw [readMinute, numbers_dateText]
    dsimp only
    rw [hyear, hdate, daysOfDate_dateOfDays, hminute]
  · rename_i hsame
    have hsame : tm.date.year = (toUtcTm t).date.year ∧ tm.date.yday = (toUtcTm t).date.yday := by
      simpa [Tm.newDay] using hsame
    rw [hdate, hday, sameDay_iff] at hsame
    rw [readMinute, numbers_timeText]
    dsimp only
    rw [hsame, hminute]

example : formatTimeLabel 951782400000 (some (toUtcTm 951782399000)) none =
    "2000-02-29 00:00".toList := by decide +kernel

/-- The induction is on the labels; the day is that of the label before. -/
theorem readMinutes_labelTexts {reference : Tm} {labels : List TimeLabel}
    (hpos : ∀ label ∈ labels, 0 < label.tickTime) {day : Int} {previous : Option Tm} {tm : Tm}
    (hknown : (previous <|> some reference) = some tm) (hday : tm.date = dateOfDays day) :
    readMinutes day (labelTexts reference previous labels) =
      some (labels.map (·.tickTime / 60000)) := by
  induction labels generalizing day previous tm with
  | nil => rfl
  | cons label labels ih =>
    obtain ⟨ht, hpos⟩ := List.forall_mem_cons.mp hpos
    rw [labelTexts, readMinutes, readMinute_formatTimeLabel ht hknown hday]
    dsimp only [Option.bind_eq_bind, Option.bind_some]
    have hlabel : (some (toUtcTm label.tickTime) <|> some reference) =
      some (toUtcTm label.tickTime) := rfl
    rw [ih hpos hlabel (toUtcTm_eq ht).1]
    rfl

end Times

/-- The texts of the time axis give the minutes of its ticks to a reader who knows
the day of the first candle that is shown, for all candles in the order of their
times. -/
theorem timeTexts_read (b : RenderSnapshotBuilder) (series : List RenderCandleData)
    (hne : series ≠ []) (hpos : ∀ candle ∈ series, 0 < candle.openTimeMs)
    (hsorted : series.Pairwise fun before after => before.openTimeMs ≤ after.openTimeMs)
    (viewport : ViewportParams) (hw : 1 ≤ viewport.canvasWidth) (hh : 1 ≤ viewport.canvasHeight)
    (limits : Nat × Nat) (cursor : Option CursorState) :
    ∃ snapshot, Returns (fun fuel => b.buildChecked fuel series viewport limits cursor) snapshot ∧
      snapshot.timeTexts ≠ [] ∧
      readMinutes (snapshot.logicalFromMs / 60000 / 1440) snapshot.timeTexts =
        some (snapshot.timeLabels.map (·.tickTime / 60000)) := by
  obtain ⟨window, first, last, base, timeStep, hparts, hbuild⟩ :=
    exists_buildChecked b hne hw hh limits cursor
  have hfirst := hpos first (List.mem_of_getElem? hparts.first)
  have haxis : (timeAxis (b.frame series viewport window) first.openTimeMs last.openTimeMs base
      timeStep).Positive := by
    obtain ⟨base', hbase, hbase0, -⟩ := baseIntervalMs_some hparts.fits.le
      (estimateIntervalMs series window.startIndex window.desiredCount)
    obtain rfl := Option.some.inj (hbase.symm.trans hparts.base)
    refine ⟨frame_pxPerCandle_pos b viewport series window, hfirst, ?_, hbase0, hparts.stepMs_pos⟩
    obtain ⟨hi, rfl⟩ := List.getElem?_eq_some_iff.mp hparts.first
    obtain ⟨hj, rfl⟩ := List.getElem?_eq_some_iff.mp hparts.last
    have hcount := hparts.fits.pos
    obtain hlt | heq := Nat.lt_or_eq_of_le (show window.startIndex ≤
        window.startIndex + window.desiredCount - 1 by omega)
    · exact List.pairwise_iff_getElem.mp hsorted _ _ hi hj hlt
    · simp only [timeAxis, ← heq, le_refl]
  obtain ⟨labels, hreturns, hlabels⟩ := timeLabels_spec haxis
  obtain ⟨snapshot, hsnapshot, hframe, rfl, -⟩ := hbuild labels hreturns
  have hfrom : snapshot.logicalFromMs = first.openTimeMs := by
    obtain ⟨first', -, hread, -, hfrom, -⟩ := frame_times b viewport hparts.fits
    rw [hframe, hfrom, Option.some.inj (hread.symm.trans hparts.first)]
  refine ⟨snapshot, hsnapshot, ?_, ?_⟩
  · obtain ⟨label, rest, e⟩ := List.exists_cons_of_ne_nil hlabels.ne_nil
    rw [FullSnapshot.timeTexts, e]
    exact List.cons_ne_nil _ _
  · rw [FullSnapshot.timeTexts, hfrom]
    exact readMinutes_labelTexts (fun label hl => hfirst.trans_le (hlabels.places label hl).1.first)
      rfl (toUtcTm_eq hfirst).1

/-- Seven minutes. -/
theorem timeTexts_read_seven : ∃ snapshot,
    Returns (fun fuel => RenderSnapshotBuilder.construct.buildChecked fuel
      (renderSeries sevenCandles) { canvasWidth := 90, canvasHeight := 40 } (1, 7) none) snapshot ∧
    snapshot.timeTexts ≠ [] ∧
    readMinutes (snapshot.logicalFromMs / 60000 / 1440) snapshot.timeTexts =
      some (snapshot.timeLabels.map (·.tickTime / 60000)) :=
  timeTexts_read .construct (renderSeries sevenCandles) (by decide) (by decide) (by decide)
    { canvasWidth := 90, canvasHeight := 40 } (by decide) (by decide) (1, 7) none

end TCV.App
