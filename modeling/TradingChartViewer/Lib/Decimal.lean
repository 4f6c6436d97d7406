import Mathlib.Data.Rat.Floor
import Mathlib.Data.List.TakeWhile
import Mathlib.Tactic.FieldSimp
import Mathlib.Tactic.Linarith
import Mathlib.Tactic.Ring

/-!
# Decimal numbers as text

* `padded`: a number with leading zeros;
* `numbers`: the numbers in a text, `numbers_append`;
* `roundHalfEven`, `fixed`: a rational number with so many decimals;
* `readDecimal`: its value; `abs_readDecimal_fixed_sub_le`: it is off by half of the last decimal
  at most; `readDecimal_fixed_of_int`: not at all where the decimals are enough;
* `readDecimal_append_zeros`: zeros at the end say nothing.
-/

namespace Lib.Decimal

/-! ## Digits -/

/-- `n` with at least `k` digits. -/
def padded (k n : Nat) : List Char :=
  List.replicate (k - (Nat.toDigits 10 n).length) '0' ++ Nat.toDigits 10 n

section Digits

variable {k n : Nat}

theorem isDigit_of_mem_toDigits {c : Char} (h : c ∈ Nat.toDigits 10 n) : c.isDigit = true :=
  Nat.isDigit_of_mem_toDigits (by decide) (by decide) h

theorem isDigit_of_mem_padded {c : Char} (h : c ∈ padded k n) : c.isDigit = true := by
  obtain h | h := List.mem_append.mp h
  · rw [List.eq_of_mem_replicate h]
    decide
  · exact isDigit_of_mem_toDigits h

@[simp] theorem ofDigitChars_padded (k n : Nat) : Nat.ofDigitChars 10 (padded k n) 0 = n := by
  rw [padded, Nat.ofDigitChars_append, Nat.ofDigitChars_replicate_zero, Nat.mul_zero,
    Nat.ofDigitChars_ten_toDigits]

theorem length_padded (hk : 0 < k) (h : n < 10 ^ k) : (padded k n).length = k := by
  have := (Nat.length_toDigits_le_iff (by decide) hk).mpr h
  rw [padded, List.length_append, List.length_replicate]
  omega

theorem padded_ne_nil (k n : Nat) : padded k n ≠ [] := by
  rw [padded, Ne, List.append_eq_nil_iff]
  exact fun h => Nat.toDigits_ne_nil h.2

end Digits

/-! ## The numbers in a text -/

/-- The numbers from here on; `current` is the number that is being read. -/
def numbersFrom (current : Option Nat) : List Char → List Nat
  | [] => current.toList
  | c :: cs =>
    if c.isDigit then numbersFrom (some (10 * current.getD 0 + (c.toNat - '0'.toNat))) cs
    else current.toList ++ numbersFrom none cs

def numbers (text : List Char) : List Nat := numbersFrom none text

section Numbers

variable {ds : List Char}

theorem numbersFrom_digits (h : ∀ c ∈ ds, c.isDigit = true) (n : Nat) (rest : List Char) :
    numbersFrom (some n) (ds ++ rest) = numbersFrom (some (Nat.ofDigitChars 10 ds n)) rest := by
  induction ds generalizing n with
  | nil => rfl
  | cons c ds ih =>
    obtain ⟨hc, hds⟩ := List.forall_mem_cons.mp h
    rw [List.cons_append, numbersFrom, if_pos hc, ih hds, Option.getD_some,
      Nat.ofDigitChars_cons]

/-- A number, and what follows it. -/
theorem numbersFrom_number (h : ∀ c ∈ ds, c.isDigit = true) (hne : ds ≠ []) (rest : List Char) :
    numbersFrom none (ds ++ rest) = numbersFrom (some (Nat.ofDigitChars 10 ds 0)) rest := by
  cases ds with
  | nil => exact absurd rfl hne
  | cons c ds =>
    obtain ⟨hc, hds⟩ := List.forall_mem_cons.mp h
    rw [List.cons_append, numbersFrom, if_pos hc, numbersFrom_digits hds, Option.getD_none,
      Nat.ofDigitChars_cons]

/-- The first number of a text ends at a character that is no digit. -/
theorem numbers_append (h : ∀ c ∈ ds, c.isDigit = true) (hne : ds ≠ []) {c : Char}
    (hc : c.isDigit = false) (rest : List Char) :
    numbers (ds ++ c :: rest) = Nat.ofDigitChars 10 ds 0 :: numbers rest := by
  rw [numbers, numbersFrom_number h hne, numbersFrom, if_neg (by rw [hc]; decide)]
  rfl

theorem numbers_digits (h : ∀ c ∈ ds, c.isDigit = true) (hne : ds ≠ []) :
    numbers ds = [Nat.ofDigitChars 10 ds 0] := by
  have e := numbersFrom_number h hne []
  rw [List.append_nil] at e
  exact e

theorem numbers_padded_cons (k n : Nat) {c : Char} (hc : c.isDigit = false) (rest : List Char) :
    numbers (padded k n ++ c :: rest) = n :: numbers rest := by
  rw [numbers_append (fun _ => isDigit_of_mem_padded) (padded_ne_nil k n) hc, ofDigitChars_padded]

theorem numbers_padded (k n : Nat) : numbers (padded k n) = [n] := by
  rw [numbers_digits (fun _ => isDigit_of_mem_padded) (padded_ne_nil k n), ofDigitChars_padded]

end Numbers

/-! ## Rounding -/

/-- The nearest integer, the even one of two. -/
def roundHalfEven (x : Rat) : Int :=
  if x - ⌊x⌋ < 1 / 2 then ⌊x⌋
  else if 1 / 2 < x - ⌊x⌋ then ⌊x⌋ + 1
  else if ⌊x⌋ % 2 = 0 then ⌊x⌋ else ⌊x⌋ + 1

theorem abs_roundHalfEven_sub_le (x : Rat) : |(roundHalfEven x : Rat) - x| ≤ 1 / 2 := by
  have h₁ := Int.floor_le x
  have h₂ := Int.lt_floor_add_one x
  unfold roundHalfEven
  rw [abs_le]
  split_ifs <;> push_cast <;> constructor <;> linarith

theorem roundHalfEven_intCast (n : Int) : roundHalfEven n = n := by
  rw [roundHalfEven, Int.floor_intCast, if_pos (by rw [sub_self]; norm_num)]

theorem roundHalfEven_nonneg {x : Rat} (h : 0 ≤ x) : 0 ≤ roundHalfEven x := by
  have := Int.floor_nonneg.mpr h
  unfold roundHalfEven
  split_ifs <;> omega

/-! ## Decimals -/

/-- A whole part and its decimals. -/
def decimal (whole frac : List Char) : List Char := whole ++ '.' :: frac

/-- `n` units of the last of `d` decimals. -/
def fixedUnits (d n : Nat) : List Char :=
  if d = 0 then Nat.toDigits 10 n
  else decimal (Nat.toDigits 10 (n / 10 ^ d)) (padded d (n % 10 ^ d))

/-- `value` rounded to `d` decimals. -/
def fixed (d : Nat) (value : Rat) : List Char :=
  (if value < 0 then ['-'] else []) ++ fixedUnits d (roundHalfEven (|value| * 10 ^ d)).toNat

def readUnsigned (text : List Char) : Rat :=
  let whole := text.takeWhile (· ≠ '.')
  let frac := (text.dropWhile (· ≠ '.')).drop 1
  Nat.ofDigitChars 10 whole 0 + Nat.ofDigitChars 10 frac 0 / 10 ^ frac.length

def readDecimal : List Char → Rat
  | '-' :: text => -readUnsigned text
  | text => readUnsigned text

section Decimals

variable {whole frac : List Char} {d n : Nat} {value : Rat}

theorem ne_point_of_isDigit {c : Char} (h : c.isDigit = true) : decide (c ≠ '.') = true := by
  rw [decide_eq_true_eq]
  rintro rfl
  exact absurd h (by decide)

theorem readUnsigned_decimal (h : ∀ c ∈ whole, c.isDigit = true) (frac : List Char) :
    readUnsigned (decimal whole frac) =
      Nat.ofDigitChars 10 whole 0 + Nat.ofDigitChars 10 frac 0 / 10 ^ frac.length := by
  have hwhole : ∀ c ∈ whole, decide (c ≠ '.') = true := fun c hc => ne_point_of_isDigit (h c hc)
  unfold readUnsigned decimal
  rw [List.takeWhile_append_of_pos hwhole, List.dropWhile_append_of_pos hwhole,
    List.takeWhile_cons_of_neg (by decide), List.append_nil, List.dropWhile_cons_of_neg (by decide)]
  rfl

theorem readUnsigned_digits (h : ∀ c ∈ whole, c.isDigit = true) :
    readUnsigned whole = Nat.ofDigitChars 10 whole 0 := by
  have hwhole : ∀ c ∈ whole, decide (c ≠ '.') = true := fun c hc => ne_point_of_isDigit (h c hc)
  unfold readUnsigned
  rw [List.takeWhile_eq_self_iff.mpr hwhole, List.dropWhile_eq_nil_iff.mpr hwhole]
  simp

/-- Zeros at the end say nothing. -/
theorem readUnsigned_append_zeros (h : ∀ c ∈ whole, c.isDigit = true) (frac : List Char) (k : Nat) :
    readUnsigned (decimal whole (frac ++ List.replicate k '0')) =
      readUnsigned (decimal whole frac) := by
  rw [readUnsigned_decimal h, readUnsigned_decimal h, Nat.ofDigitChars_append,
    Nat.ofDigitChars_replicate_zero, List.length_append, List.length_replicate, pow_add]
  push_cast
  field_simp

theorem readUnsigned_fixedUnits (d n : Nat) : readUnsigned (fixedUnits d n) = n / 10 ^ d := by
  unfold fixedUnits
  split
  · rename_i hd
    rw [readUnsigned_digits fun _ => isDigit_of_mem_toDigits, Nat.ofDigitChars_ten_toDigits, hd]
    simp
  · rename_i hd
    rw [readUnsigned_decimal fun _ => isDigit_of_mem_toDigits, Nat.ofDigitChars_ten_toDigits,
      ofDigitChars_padded, length_padded (Nat.pos_of_ne_zero hd) (Nat.mod_lt _ (by positivity))]
    have hn : (n : Rat) = 10 ^ d * (n / 10 ^ d : Nat) + (n % 10 ^ d : Nat) := by
      exact_mod_cast (Nat.div_add_mod n (10 ^ d)).symm
    rw [hn]
    field_simp

theorem head_fixedUnits (d n : Nat) : (fixedUnits d n).head? ≠ some '-' := by
  have hdigits (m : Nat) : (Nat.toDigits 10 m).head? ≠ some '-' := fun h =>
    absurd (isDigit_of_mem_toDigits (List.mem_of_mem_head? h)) (by decide)
  unfold fixedUnits
  split
  · exact hdigits n
  · rw [decimal, List.head?_append_of_ne_nil _ Nat.toDigits_ne_nil]
    exact hdigits _

theorem readDecimal_of_head {text : List Char} (h : text.head? ≠ some '-') :
    readDecimal text = readUnsigned text := by
  unfold readDecimal
  split
  · exact absurd rfl h
  · rfl

theorem readDecimal_append_zeros {sign : List Char} (hsign : sign = [] ∨ sign = ['-'])
    (h : ∀ c ∈ whole, c.isDigit = true) (hne : whole ≠ []) (frac : List Char) (k : Nat) :
    readDecimal (sign ++ decimal whole (frac ++ List.replicate k '0')) =
      readDecimal (sign ++ decimal whole frac) := by
  have hhead (frac : List Char) : (decimal whole frac).head? ≠ some '-' := by
    rw [decimal, List.head?_append_of_ne_nil _ hne]
    exact fun hm => absurd (h _ (List.mem_of_mem_head? hm)) (by decide)
  obtain rfl | rfl := hsign
  · rw [List.nil_append, List.nil_append, readDecimal_of_head (hhead _),
      readDecimal_of_head (hhead _), readUnsigned_append_zeros h]
  · exact congrArg (- ·) (readUnsigned_append_zeros h frac k)

/-- The value of a text is its sign and the rounded amount. -/
theorem readDecimal_fixed (d : Nat) (value : Rat) :
    readDecimal (fixed d value) =
      (if value < 0 then -1 else 1) * (roundHalfEven (|value| * 10 ^ d) / 10 ^ d) := by
  have hround : (((roundHalfEven (|value| * 10 ^ d)).toNat : Nat) : Rat) =
      (roundHalfEven (|value| * 10 ^ d) : Rat) := by
    exact_mod_cast Int.toNat_of_nonneg (roundHalfEven_nonneg (by positivity))
  unfold fixed
  split
  · show -readUnsigned (fixedUnits d _) = _
    rw [readUnsigned_fixedUnits, hround, neg_one_mul]
  · rw [List.nil_append, readDecimal_of_head (head_fixedUnits _ _), readUnsigned_fixedUnits, hround,
      one_mul]

theorem sign_mul_abs (value : Rat) : (if value < 0 then -1 else 1) * |value| = value := by
  split
  · rw [abs_of_neg ‹_›]
    ring
  · rw [abs_of_nonneg (not_lt.mp ‹_›), one_mul]

/-- The text is off by half of its last decimal at most. -/
theorem abs_readDecimal_fixed_sub_le (d : Nat) (value : Rat) :
    |readDecimal (fixed d value) - value| ≤ 1 / 2 / 10 ^ d := by
  have hd : (0 : Rat) < 10 ^ d := by positivity
  have hround := abs_roundHalfEven_sub_le (|value| * 10 ^ d)
  have hsign : |(if value < 0 then -1 else 1 : Rat)| = 1 := by split <;> norm_num
  have e : readDecimal (fixed d value) - value = (if value < 0 then -1 else 1) *
      ((roundHalfEven (|value| * 10 ^ d) - |value| * 10 ^ d) / 10 ^ d) := by
    nth_rewrite 2 [← sign_mul_abs value]
    rw [readDecimal_fixed, ← mul_sub]
    field_simp
  rw [e, abs_mul, hsign, one_mul, abs_div, abs_of_pos hd]
  exact div_le_div_of_nonneg_right hround hd.le

/-- Where `d` decimals are enough nothing is lost. -/
theorem readDecimal_fixed_of_int {m : Int} (h : value * 10 ^ d = m) :
    readDecimal (fixed d value) = value := by
  have hd : (10 : Rat) ^ d ≠ 0 := by positivity
  have habs : |value| * 10 ^ d = (|m| : Int) := by
    rw [Int.cast_abs, ← h, abs_mul, abs_of_pos (show (0 : Rat) < 10 ^ d by positivity)]
  rw [readDecimal_fixed, habs, roundHalfEven_intCast, ← habs, mul_div_assoc, div_self hd, mul_one,
    sign_mul_abs]

end Decimals

end Lib.Decimal
