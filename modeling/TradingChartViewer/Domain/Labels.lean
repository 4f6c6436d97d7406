import TradingChartViewer.Domain.Types

/-!
# Interval labels

`domain::interval_label` and its two readers, `domain::interval_from_label` and
the repository's `parseIntervalMs`. Strings are lists of characters without
NUL. Both readers scan a label the same way (`scanLabel`) and differ in how
they treat a number beyond 64 bits and an empty suffix.

`parseIntervalMs_intervalLabel`: the repository reads back the label of every
interval of whole minutes whose number fits in 64 bits.
-/

namespace TCV.Domain

/-! ## The C character functions -/

/-- `std::isspace` in the C locale. -/
def isSpace (c : Char) : Bool := c = ' ' || ('\t' ≤ c && c ≤ '\r')

/-- `std::to_string`. -/
def toDecimal : Int → List Char
  | .ofNat n => Nat.toDigits 10 n
  | .negSucc n => '-' :: Nat.toDigits 10 (n + 1)

/-- The largest `long long`. -/
def kLongLongMax : Int := 2 ^ 63 - 1

/-- `std::stoll` on a string of digits: it throws when the number does not fit. -/
def stoll (digits : List Char) : Option Int :=
  let value : Int := Nat.ofDigitChars 10 digits 0
  if value ≤ kLongLongMax then some value else none

/-- `std::strtoll` on a string of digits: it returns the largest `long long`
when the number does not fit. -/
def strtoll (digits : List Char) : Int := min (Nat.ofDigitChars 10 digits 0) kLongLongMax

/-! ## Labels -/

def intervalLabel (interval : Interval) : List Char :=
  if !interval.valid then []
  else
    let ms := interval.ms
    if ms % 86400000 = 0 then toDecimal (ms / 86400000) ++ ['d']
    else if ms % 3600000 = 0 then toDecimal (ms / 3600000) ++ ['h']
    else if ms % 60000 = 0 then toDecimal (ms / 60000) ++ ['m']
    else if ms % 1000 = 0 then toDecimal (ms / 1000) ++ ['s']
    else toDecimal ms ++ ['m', 's']

/-- The digits of a label, after leading blanks, and what follows them, after
the blanks between. -/
def scanLabel (label : List Char) : List Char × List Char :=
  let rest := label.dropWhile isSpace
  (rest.takeWhile Char.isDigit, (rest.dropWhile Char.isDigit).dropWhile isSpace)

def intervalFromLabel (label : List Char) : Interval :=
  let (digits, rest) := scanLabel label
  if digits.isEmpty then {}
  else
    match stoll digits with
    | none => {}
    | some value =>
      if value ≤ 0 then {}
      else
        let multiplier : Int :=
          match rest.head?.map Char.toLower with
          | some 's' => 1000
          | some 'm' => 60000
          | some 'h' => 3600000
          | some 'd' => 86400000
          | _ => 1
        { ms := value * multiplier }

/-- The reader of `PriceDataTimeSeriesRepository.cpp`. -/
def parseIntervalMs (label : List Char) : Int :=
  let (digits, rest) := scanLabel label
  if digits.isEmpty then 0
  else
    let value := strtoll digits
    if value ≤ 0 then 0
    else
      match rest.head?.map Char.toLower with
      | some 's' => value * kMillisPerSecond
      | some 'm' => value * kMillisPerMinute
      | some 'h' => value * kMillisPerMinute * 60
      | some 'd' => value * kMillisPerMinute * 60 * 24
      | _ => value

/-! ## Reading a label back -/

theorem isSpace_of_isDigit {c : Char} (h : c.isDigit = true) : isSpace c = false := by
  simp only [Char.isDigit, ge_iff_le, Bool.and_eq_true, decide_eq_true_eq] at h
  simp only [isSpace, Bool.or_eq_false_iff, decide_eq_false_iff_not, Bool.and_eq_false_iff]
  refine ⟨fun e => ?_, .inr fun hc => ?_⟩
  · subst e
    exact absurd h.1 (by decide)
  · exact absurd (UInt32.le_trans h.1 hc) (by decide)

/-- A number followed by a letter scans into the two. -/
theorem scanLabel_toDigits (n : Nat) {c : Char} (hd : c.isDigit = false) (hs : isSpace c = false)
    (cs : List Char) :
    scanLabel (Nat.toDigits 10 n ++ c :: cs) = (Nat.toDigits 10 n, c :: cs) := by
  have hdig : ∀ x ∈ Nat.toDigits 10 n, x.isDigit = true := fun x hx =>
    Nat.isDigit_of_mem_toDigits (by decide) (by decide) hx
  have hskip : (Nat.toDigits 10 n ++ c :: cs).dropWhile isSpace = Nat.toDigits 10 n ++ c :: cs := by
    cases hl : Nat.toDigits 10 n with
    | nil => exact absurd hl Nat.toDigits_ne_nil
    | cons x xs =>
      rw [List.cons_append, List.dropWhile_cons_of_neg]
      rw [isSpace_of_isDigit (hdig x (by rw [hl]; exact List.mem_cons_self))]
      decide
  have htake : (Nat.toDigits 10 n ++ c :: cs).takeWhile Char.isDigit = Nat.toDigits 10 n := by
    rw [List.takeWhile_append_of_pos hdig, List.takeWhile_cons_of_neg (by rw [hd]; decide),
      List.append_nil]
  have hdrop : (Nat.toDigits 10 n ++ c :: cs).dropWhile Char.isDigit = c :: cs := by
    rw [List.dropWhile_append_of_pos hdig, List.dropWhile_cons_of_neg (by rw [hd]; decide)]
  simp only [scanLabel, hskip, htake, hdrop]
  rw [List.dropWhile_cons_of_neg (by rw [hs]; decide)]

theorem strtoll_toDigits {n : Nat} (h : (n : Int) ≤ kLongLongMax) :
    strtoll (Nat.toDigits 10 n) = n := by
  rw [strtoll, Nat.ofDigitChars_ten_toDigits, min_eq_left h]

/-- The milliseconds of one unit of a label's suffix, as the repository reads it. -/
def suffixMs : Char → Int
  | 's' => 1000
  | 'm' => 60000
  | 'h' => 3600000
  | 'd' => 86400000
  | _ => 1

/-- The reader on a positive number followed by a suffix. -/
theorem parseIntervalMs_toDigits {n : Nat} (hn : 0 < n) (h : (n : Int) ≤ kLongLongMax) {c : Char}
    (hc : c ∈ ['s', 'm', 'h', 'd']) :
    parseIntervalMs (Nat.toDigits 10 n ++ [c]) = n * suffixMs c := by
  have hne : (Nat.toDigits 10 n).isEmpty = false := by
    rw [List.isEmpty_eq_false_iff]
    exact Nat.toDigits_ne_nil
  have hpos : ¬ (n : Int) ≤ 0 := by omega
  simp only [List.mem_cons, List.not_mem_nil, or_false] at hc
  have hletter : c.isDigit = false ∧ isSpace c = false ∧ c.toLower = c := by
    rcases hc with rfl | rfl | rfl | rfl <;> exact ⟨by decide, by decide, by decide⟩
  have hscan : scanLabel (Nat.toDigits 10 n ++ [c]) = (Nat.toDigits 10 n, [c]) :=
    scanLabel_toDigits n hletter.1 hletter.2.1 []
  simp only [parseIntervalMs, hscan, hne, strtoll_toDigits h, hpos, Bool.false_eq_true, if_false,
    List.head?_cons, Option.map_some, hletter.2.2, kMillisPerMinute, kMillisPerSecond]
  rcases hc with rfl | rfl | rfl | rfl <;> simp only [suffixMs] <;> omega

theorem toDecimal_of_nonneg {n : Int} (h : 0 ≤ n) : toDecimal n = Nat.toDigits 10 n.toNat := by
  obtain ⟨k, rfl⟩ := Int.eq_ofNat_of_zero_le h
  rfl

/-- The repository reads back the label of an interval of whole minutes. -/
theorem parseIntervalMs_intervalLabel {i : Interval} (hpos : 0 < i.ms)
    (hmin : kMillisPerMinute ∣ i.ms) (hmax : i.ms ≤ kLongLongMax) :
    parseIntervalMs (intervalLabel i) = i.ms := by
  have hmin : i.ms % 60000 = 0 := Int.emod_eq_zero_of_dvd hmin
  have hv : (!i.valid) = false := by simp [Interval.valid, hpos]
  simp only [intervalLabel, hv, Bool.false_eq_true, if_false, hmin, if_true]
  split
  · rename_i hd
    rw [toDecimal_of_nonneg (by omega), parseIntervalMs_toDigits (by omega) (by omega) (by decide)]
    simp only [suffixMs]
    omega
  · split
    · rename_i hh
      rw [toDecimal_of_nonneg (by omega), parseIntervalMs_toDigits (by omega) (by omega) (by decide)]
      simp only [suffixMs]
      omega
    · rw [toDecimal_of_nonneg (by omega), parseIntervalMs_toDigits (by omega) (by omega) (by decide)]
      simp only [suffixMs]
      omega

theorem intervalLabel_ne_nil {i : Interval} (h : 0 < i.ms) : intervalLabel i ≠ [] := by
  have hv : (!i.valid) = false := by simp [Interval.valid, h]
  simp only [intervalLabel, hv, Bool.false_eq_true, if_false]
  split_ifs <;> simp

/-- A label is a C string. -/
theorem ne_zero_of_mem_intervalLabel {i : Interval} {c : Char} (h : c ∈ intervalLabel i) :
    c ≠ Char.ofNat 0 := by
  -- A number and one of the suffixes.
  have key : ∀ {n : Int} {suffix : List Char}, 0 ≤ n → Char.ofNat 0 ∉ suffix →
      c ∈ toDecimal n ++ suffix → c ≠ Char.ofNat 0 := by
    rintro n suffix hn hs hc rfl
    rw [toDecimal_of_nonneg hn] at hc
    rcases List.mem_append.mp hc with hc | hc
    · have := Nat.isDigit_of_mem_toDigits (by decide) (by decide) hc
      revert this
      decide
    · exact hs hc
  unfold intervalLabel at h
  split at h
  · cases h
  · rename_i hv
    have hpos : 0 < i.ms := by simpa [Interval.valid] using hv
    dsimp only at h
    split_ifs at h
    all_goals exact key (by omega) (by decide) h

/-- A label of at most 7 characters names an interval that fits in 64 bits. -/
theorem ms_le_of_length_intervalLabel {i : Interval} (h : (intervalLabel i).length ≤ 7)
    (hpos : 0 < i.ms) : i.ms ≤ kLongLongMax := by
  have hv : (!i.valid) = false := by simp [Interval.valid, hpos]
  -- A number written with at most 7 digits is below `10 ^ 7`.
  have bound : ∀ {n : Int}, 0 ≤ n → (toDecimal n).length ≤ 7 → n < 10 ^ 7 := by
    intro n hn hl
    rw [toDecimal_of_nonneg hn, Nat.length_toDigits_le_iff (by decide) (by decide)] at hl
    omega
  simp only [intervalLabel, hv, Bool.false_eq_true, if_false] at h
  simp only [kLongLongMax]
  split_ifs at h <;> simp only [List.length_append, List.length_cons, List.length_nil] at h
  · have := bound (n := i.ms / 86400000) (by omega) (by omega); omega
  · have := bound (n := i.ms / 3600000) (by omega) (by omega); omega
  · have := bound (n := i.ms / 60000) (by omega) (by omega); omega
  · have := bound (n := i.ms / 1000) (by omega) (by omega); omega
  · have := bound (n := i.ms) (by omega) (by omega); omega

example : intervalLabel ⟨900000⟩ = "15m".toList ∧ parseIntervalMs "15m".toList = 900000 := by
  decide

end TCV.Domain
