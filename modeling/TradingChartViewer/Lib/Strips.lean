import Mathlib.Data.List.ReduceOption

/-!
# Lines through points with gaps

A line is drawn through a row of points, some of which are missing, as strips: a
strip ends at a missing point, and is drawn if it has two points.

* `stripsFrom`: the strips, after the points of the one that is open;
* `segments`, `joins`: what a strip draws, and the neighbours that are both there;
* `segments_stripsFrom`: the strips draw exactly the joins;
* `Unbroken`, `stripsFrom_of_unbroken`: points without a gap are one strip.
-/

namespace Lib.Strips

variable {α : Type*}

/-- A strip of one point draws nothing. -/
def emit (strip : List α) : List (List α) := if 2 ≤ strip.length then [strip] else []

def stripsFrom (strip : List α) : List (Option α) → List (List α)
  | [] => emit strip
  | none :: points => emit strip ++ stripsFrom [] points
  | some point :: points => stripsFrom (strip ++ [point]) points

/-- The segments of a strip. -/
def segments (strip : List α) : List (α × α) := strip.zip strip.tail

/-- The neighbours in a row of points, both of which are there. -/
def joins (points : List (Option α)) : List (α × α) :=
  (points.zip points.tail).filterMap fun p => p.1.bind fun a => p.2.map (a, ·)

theorem segments_emit (strip : List α) : (emit strip).flatMap segments = segments strip := by
  unfold emit
  split
  · simp
  · match strip with
    | [] => rfl
    | [_] => rfl
    | _ :: _ :: _ => simp at *

@[simp] theorem joins_none_cons (points : List (Option α)) :
    joins (none :: points) = joins points := by
  cases points <;> rfl

@[simp] theorem joins_some_none_cons (a : α) (points : List (Option α)) :
    joins (some a :: none :: points) = joins points := by
  rw [joins, List.tail_cons, List.zip_cons_cons, List.filterMap_cons_none (by rfl)]
  exact joins_none_cons points

@[simp] theorem joins_some_some_cons (a b : α) (points : List (Option α)) :
    joins (some a :: some b :: points) = (a, b) :: joins (some b :: points) := rfl

theorem segments_concat (strip : List α) (last point : α) :
    segments (strip ++ [last] ++ [point]) = segments (strip ++ [last]) ++ [(last, point)] := by
  induction strip with
  | nil => rfl
  | cons a strip ih =>
    cases strip with
    | nil => rfl
    | cons b strip => exact congrArg ((a, b) :: ·) ih

/-- The strips draw what was open, and then the joins, the first one from its last point. -/
theorem segments_stripsFrom_concat (points : List (Option α)) :
    (stripsFrom [] points).flatMap segments = joins points ∧
      ∀ strip last, (stripsFrom (strip ++ [last]) points).flatMap segments =
        segments (strip ++ [last]) ++ joins (some last :: points) := by
  induction points with
  | nil => exact ⟨rfl, fun strip last => by simp [stripsFrom, segments_emit, joins]⟩
  | cons point points ih =>
    obtain ⟨hempty, hopen⟩ := ih
    cases point with
    | none =>
      have hemit (strip : List α) : (stripsFrom strip (none :: points)).flatMap segments =
          segments strip ++ joins points := by
        rw [stripsFrom, List.flatMap_append, segments_emit, hempty]
      refine ⟨?_, fun strip last => ?_⟩
      · rw [hemit, joins_none_cons]
        rfl
      · rw [hemit, joins_some_none_cons]
    | some point =>
      refine ⟨hopen [] point, fun strip last => ?_⟩
      rw [stripsFrom, hopen (strip ++ [last]) point, segments_concat, joins_some_some_cons,
        List.append_assoc]
      rfl

/-- The strips draw exactly the neighbours that are both there. -/
theorem segments_stripsFrom (points : List (Option α)) :
    (stripsFrom [] points).flatMap segments = joins points :=
  (segments_stripsFrom_concat points).1

theorem joins_cons (point : Option α) (points : List (Option α)) :
    joins (point :: points) =
      (point.bind fun a => points[0]?.join.map (a, ·)).toList ++ joins points := by
  cases point with
  | none => exact joins_none_cons points
  | some a =>
    cases points with
    | nil => rfl
    | cons next points =>
      cases next with
      | none => rw [joins_some_none_cons, joins_none_cons]; rfl
      | some b => rfl

/-- The joins, place by place. -/
theorem joins_eq_filterMap_range (points : List (Option α)) :
    joins points = (List.range points.length).filterMap fun i =>
      points[i]?.join.bind fun a => points[i + 1]?.join.map (a, ·) := by
  induction points with
  | nil => rfl
  | cons point points ih =>
    rw [joins_cons, ih, List.length_cons, List.range_succ_eq_map, List.filterMap_cons,
      List.filterMap_map]
    simp only [List.getElem?_cons_zero, List.getElem?_cons_succ, Option.join_some]
    cases point.bind fun a => points[0]?.join.map (a, ·) <;> rfl

/-- There are no more joins behind the points. -/
theorem joins_eq_filterMap_range_of_le {points : List (Option α)} {n : Nat}
    (hn : points.length ≤ n) : joins points = (List.range n).filterMap fun i =>
      points[i]?.join.bind fun a => points[i + 1]?.join.map (a, ·) := by
  obtain ⟨m, rfl⟩ := Nat.exists_eq_add_of_le hn
  have hbehind : ((List.range m).map (points.length + ·)).filterMap (fun i =>
      points[i]?.join.bind fun a => points[i + 1]?.join.map (a, ·)) = [] := by
    rw [List.filterMap_eq_nil_iff]
    intro i hi
    obtain ⟨j, -, rfl⟩ := List.mem_map.mp hi
    rw [List.getElem?_eq_none (Nat.le_add_right _ j)]
    rfl
  rw [joins_eq_filterMap_range, List.range_add, List.filterMap_append, hbehind, List.append_nil]

/-- The points that are there, place by place. -/
theorem reduceOption_eq_filterMap_range {points : List (Option α)} {n : Nat}
    (hn : points.length ≤ n) :
    points.reduceOption = (List.range n).filterMap fun i => points[i]?.join := by
  induction points generalizing n with
  | nil => exact (List.filterMap_eq_nil_iff.mpr fun i _ => rfl).symm
  | cons point points ih =>
    obtain ⟨n, rfl⟩ : ∃ m, n = m + 1 := ⟨n - 1, by rw [List.length_cons] at hn; omega⟩
    rw [List.range_succ_eq_map, List.filterMap_cons, List.filterMap_map]
    simp only [List.getElem?_cons_zero, Option.join_some]
    have hrest := ih (Nat.le_of_succ_le_succ hn)
    cases point with
    | none => exact (List.reduceOption_cons_of_none points).trans hrest
    | some a => exact congrArg (a :: ·) hrest

/-! ## Points without a gap -/

/-- No point is missing between two that are there. -/
def Unbroken (points : List (Option α)) : Prop :=
  ∀ i j k : Nat, i ≤ j → j ≤ k → points[i]?.join.isSome = true → points[k]?.join.isSome = true →
    points[j]?.join.isSome = true

theorem Unbroken.tail {point : Option α} {points : List (Option α)}
    (h : Unbroken (point :: points)) : Unbroken points :=
  fun i j k hij hjk => h (i + 1) (j + 1) (k + 1) (by omega) (by omega)

/-- A part of such a row, with whatever its points are turned into. -/
theorem Unbroken.window {β : Type*} {points : List (Option α)} (h : Unbroken points)
    {part : List (Option β)} (first count : Nat) (hpart : ∀ i, part[i]?.join.isSome = true ↔
      i < count ∧ points[first + i]?.join.isSome = true) : Unbroken part := by
  intro i j k hij hjk hi hk
  rw [hpart] at hi hk ⊢
  exact ⟨by omega, h (first + i) (first + j) (first + k) (by omega) (by omega) hi.2 hk.2⟩

theorem unbroken_replicate_append (n : Nat) (points : List α) :
    Unbroken (List.replicate n none ++ points.map some) := by
  have hthere (i : Nat) : (List.replicate n none ++ points.map some)[i]?.join.isSome = true ↔
      n ≤ i ∧ i < n + points.length := by
    rw [List.getElem?_append, List.length_replicate]
    split
    · rename_i hi
      rw [List.getElem?_replicate, if_pos hi]
      simp only [Option.join_some, Option.isSome_none, Bool.false_eq_true, false_iff]
      omega
    · rw [List.getElem?_map, show (points[i - n]?.map some).join = points[i - n]? by
        cases points[i - n]? <;> rfl, isSome_getElem?]
      omega
  intro i j k hij hjk hi hk
  rw [hthere] at hi hk ⊢
  omega

/-- After points that are there and one that is not, there are no more. -/
theorem Unbroken.rest {a : α} {points : List (Option α)}
    (h : Unbroken (some a :: none :: points)) : points = List.replicate points.length none := by
  rw [List.eq_replicate_iff]
  refine ⟨rfl, fun point hp => ?_⟩
  obtain ⟨k, hk⟩ := List.mem_iff_getElem?.mp hp
  cases point with
  | none => rfl
  | some b =>
    have hmissing := h 0 1 (k + 2) (by omega) (by omega) rfl (by
      rw [List.getElem?_cons_succ, List.getElem?_cons_succ, hk]
      rfl)
    cases hmissing

theorem stripsFrom_replicate (n : Nat) : stripsFrom ([] : List α) (List.replicate n none) = [] := by
  induction n with
  | zero => rfl
  | succ n ih => exact ih

theorem stripsFrom_of_unbroken_some (strip : List α) (a : α) (points : List (Option α))
    (h : Unbroken (some a :: points)) :
    stripsFrom strip points = emit (strip ++ points.reduceOption) := by
  induction points generalizing strip a with
  | nil => rw [List.reduceOption_nil, List.append_nil]; rfl
  | cons point points ih =>
    cases point with
    | none =>
      have hnone := h.rest
      rw [stripsFrom, hnone, stripsFrom_replicate, List.append_nil, List.reduceOption_cons_of_none]
      simp [List.reduceOption]
    | some b =>
      rw [stripsFrom, ih (strip ++ [b]) b h.tail, List.reduceOption_cons_of_some,
        List.append_assoc, List.singleton_append]

/-- Points without a gap are one strip. -/
theorem stripsFrom_of_unbroken {points : List (Option α)} (h : Unbroken points) :
    stripsFrom [] points = emit points.reduceOption := by
  induction points with
  | nil => rfl
  | cons point points ih =>
    cases point with
    | none =>
      rw [List.reduceOption_cons_of_none, ← ih h.tail]
      rfl
    | some a =>
      exact stripsFrom_of_unbroken_some [a] a points h

end Lib.Strips
