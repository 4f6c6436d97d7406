import Mathlib.Algebra.Order.Ring.Defs
import Mathlib.Algebra.Ring.Nat
import Mathlib.Tactic.Linarith

/-!
# Throttles

A throttle lets an offer pass that is forced, that comes before any has passed, or that comes a
gap or more after the last that passed. Others are held. A throttle may be reset, after which it
knows of no offer. A log is what came to it, with the decisions.

* `Throttled`: a log is that of a throttle; `final`: when the last offer passed;
* `Throttled.of_final`: since the last offer that passed, all were held, less than a gap after it;
* `HeldBack`: all that came last was held;
* `Throttled.spent`: how many offers pass in a stretch of time.
-/

namespace Lib.Throttle

inductive Item (K : Type*)
  | offer (now : K) (forced passed : Bool)
  | reset
  deriving DecidableEq, Repr

variable {K : Type*}

def Item.now? : Item K → Option K
  | .offer now _ _ => some now
  | .reset => none

def Item.isPassed : Item K → Bool
  | .offer _ _ passed => passed
  | .reset => false

/-- The offers that may pass at any time. -/
def Item.isFree : Item K → Bool
  | .offer _ forced _ => forced
  | .reset => true

section Log

variable [Sub K] [LT K] [DecidableLT K]

/-- The log of a throttle at which the last offer passed at `last`. -/
def Throttled (gap : K) : Option K → List (Item K) → Prop
  | _, [] => True
  | last, .offer now forced passed :: l =>
    passed = (forced || !last.any (now - · < gap)) ∧
      Throttled gap (if passed then some now else last) l
  | _, .reset :: l => Throttled gap none l

omit [Sub K] [LT K] [DecidableLT K] in
/-- When the last offer passed, after a log. -/
def final : Option K → List (Item K) → Option K
  | last, [] => last
  | last, .offer now _ passed :: l => final (if passed then some now else last) l
  | _, .reset :: l => final none l

variable {gap : K} {last : Option K} {l l' : List (Item K)}

omit [Sub K] [LT K] [DecidableLT K] in
theorem final_append : final last (l ++ l') = final (final last l) l' := by
  induction l generalizing last with
  | nil => rfl
  | cons x l ih => cases x <;> exact ih

theorem throttled_append :
    Throttled gap last (l ++ l') ↔ Throttled gap last l ∧ Throttled gap (final last l) l' := by
  induction l generalizing last with
  | nil => exact ⟨fun h => ⟨trivial, h⟩, And.right⟩
  | cons x l ih =>
    cases x with
    | offer now forced passed =>
      rw [List.cons_append, Throttled, ih, Throttled, final, and_assoc]
    | reset => exact ih

/-- What is forced passes. -/
theorem Throttled.passed_of_forced (h : Throttled gap last l) {now : K} {passed : Bool}
    (hx : .offer now true passed ∈ l) : passed = true := by
  obtain ⟨before, after, rfl⟩ := List.append_of_mem hx
  exact (throttled_append.mp h).2.1

/-- Held, less than a gap after `t`. -/
def Item.HeldSince (gap t : K) : Item K → Prop
  | .offer now forced passed => forced = false ∧ passed = false ∧ now - t < gap
  | .reset => False

/-- The last offer that passed did so in the log, or before it. All that came since were held. -/
theorem Throttled.of_final (h : Throttled gap last l) {t : K} (hf : final last l = some t) :
    (∃ before forced after, l = before ++ .offer t forced true :: after ∧
      ∀ x ∈ after, x.HeldSince gap t) ∨
    last = some t ∧ ∀ x ∈ l, x.HeldSince gap t := by
  induction l generalizing last with
  | nil => exact .inr ⟨hf, nofun⟩
  | cons x l ih =>
    cases x with
    | offer now forced passed =>
      obtain ⟨hpassed, h⟩ := h
      obtain ⟨before, forced', after, rfl, hafter⟩ | ⟨hlast, hheld⟩ := ih h hf
      · exact .inl ⟨.offer now forced passed :: before, forced', after, rfl, hafter⟩
      · cases passed with
        | true =>
          obtain rfl := Option.some.inj hlast
          exact .inl ⟨[], forced, l, rfl, hheld⟩
        | false =>
          obtain rfl : last = some t := hlast
          rw [eq_comm, Bool.or_eq_false_iff, Bool.not_eq_false'] at hpassed
          have hnow : now - t < gap := of_decide_eq_true hpassed.2
          exact .inr ⟨rfl, List.forall_mem_cons.mpr ⟨⟨hpassed.1, rfl, hnow⟩, hheld⟩⟩
    | reset =>
      obtain ⟨before, forced', after, rfl, hafter⟩ | ⟨hlast, -⟩ := ih h hf
      · exact .inl ⟨.reset :: before, forced', after, rfl, hafter⟩
      · cases hlast

/-- After the last offer that passed came some that were held, all less than a gap after it. -/
def HeldBack (gap : K) (l : List (Item K)) : Prop :=
  ∃ before t forced after, l = before ++ .offer t forced true :: after ∧
    (∃ now, .offer now false false ∈ after) ∧ ∀ x ∈ after, x = .reset ∨ x.HeldSince gap t

omit [DecidableLT K] in
theorem HeldBack.reset (h : HeldBack gap l) : HeldBack gap (l ++ [.reset]) := by
  obtain ⟨before, t, forced, after, rfl, ⟨now, hnow⟩, hafter⟩ := h
  refine ⟨before, t, forced, after ++ [.reset], List.append_assoc .., ⟨now, ?_⟩, ?_⟩
  · exact List.mem_append_left _ hnow
  · exact List.forall_mem_append.mpr ⟨hafter, List.forall_mem_singleton.mpr (.inl rfl)⟩

/-- An offer that is held after the last that passed. -/
theorem Throttled.heldBack (h : Throttled gap none l) {t now : K} (hf : final none l = some t)
    (hnow : now - t < gap) : HeldBack gap (l ++ [.offer now false false]) := by
  obtain ⟨before, forced, after, rfl, hafter⟩ | ⟨hlast, -⟩ := h.of_final hf
  · refine ⟨before, t, forced, after ++ [.offer now false false], List.append_assoc ..,
      ⟨now, ?_⟩, ?_⟩
    · exact List.mem_append_right _ (List.mem_singleton_self _)
    · exact List.forall_mem_append.mpr ⟨fun x hx => .inr (hafter x hx),
        List.forall_mem_singleton.mpr (.inr ⟨rfl, rfl, hnow⟩)⟩
  · cases hlast

end Log

/-! ## How many pass -/

section Rate

/-- The offers come in order, in the time from `a` to `b`. -/
def Within [LE K] (a b : K) (l : List (Item K)) : Prop :=
  (l.filterMap Item.now?).Pairwise (· ≤ ·) ∧ ∀ now ∈ l.filterMap Item.now?, a ≤ now ∧ now ≤ b

theorem Within.offer [LE K] {a b now : K} {forced passed : Bool} {l : List (Item K)}
    (h : Within a b (.offer now forced passed :: l)) : a ≤ now ∧ now ≤ b ∧ Within now b l := by
  obtain ⟨hsorted, hbounds⟩ := h
  have e : (Item.offer now forced passed :: l).filterMap Item.now? =
    now :: l.filterMap Item.now? := List.filterMap_cons_some rfl
  rw [e] at hsorted hbounds
  obtain ⟨hle, hsorted⟩ := List.pairwise_cons.mp hsorted
  obtain ⟨hnow, hbounds⟩ := List.forall_mem_cons.mp hbounds
  exact ⟨hnow.1, hnow.2, hsorted, fun t ht => ⟨hle t ht, (hbounds t ht).2⟩⟩

variable [CommRing K] [LinearOrder K] [IsStrictOrderedRing K] {gap a b : K} {last : Option K}
  {l : List (Item K)}

/-- The induction is on the log. An offer that passes and is not free uses up a gap of the time
that is left, and a reset gives one back. -/
theorem Throttled.spent (hgap : 0 ≤ gap) (hab : a ≤ b) (h : Throttled gap last l)
    (hl : Within a b l) :
    gap * l.countP Item.isPassed ≤ gap * (l.countP Item.isFree + 1) + (b - a) ∧
    ∀ t, last = some t → t ≤ a →
      gap * l.countP Item.isPassed ≤ gap * l.countP Item.isFree + (b - t) := by
  induction l generalizing last a with
  | nil =>
    simp only [List.countP_nil, Nat.cast_zero, mul_zero, zero_add, mul_one]
    exact ⟨by linarith, fun t _ ht => by linarith⟩
  | cons x l ih =>
    cases x with
    | offer now forced passed =>
      obtain ⟨ha, hb, hl⟩ := hl.offer
      obtain ⟨hpassed, h⟩ := h
      obtain ⟨hloose, htight⟩ := ih hb h hl
      cases passed with
      | true =>
        have hspent := htight now rfl le_rfl
        rw [List.countP_cons_of_pos rfl]
        cases forced with
        | true =>
          rw [List.countP_cons_of_pos rfl]
          push_cast
          exact ⟨by linarith, fun t _ ht => by linarith⟩
        | false =>
          rw [List.countP_cons_of_neg Bool.false_ne_true]
          push_cast
          refine ⟨by linarith, fun t hlast _ => ?_⟩
          subst hlast
          have hnow : gap ≤ now - t := by simpa using hpassed
          linarith
      | false =>
        obtain rfl : forced = false := (Bool.or_eq_false_iff.mp hpassed.symm).1
        rw [List.countP_cons_of_neg Bool.false_ne_true, List.countP_cons_of_neg Bool.false_ne_true]
        exact ⟨by linarith, fun t hlast ht => htight t hlast (ht.trans ha)⟩
    | reset =>
      have hloose := (ih hab h hl).1
      rw [List.countP_cons_of_neg Bool.false_ne_true, List.countP_cons_of_pos rfl]
      push_cast
      exact ⟨by linarith, fun t _ ht => by linarith⟩

end Rate

end Lib.Throttle
