import Mathlib.Data.List.Basic
import Mathlib.Data.List.Infix

/-!
# Templates

Lists in which a pair of elements stands for a value that is filled in. The
values go to the first pairs in order, and the pairs after them stay.

* `fill`: the list with the values in it;
* `fill_split`: the first pair, where it can be told from what is before it;
* `fill_eq_nil_iff`: when nothing is left.
-/

namespace Lib.Template

variable {α : Type*} [DecidableEq α]

/-- The list with `values` for its first pairs `p q`. -/
def fill (p q : α) (values : List (List α)) : List α → List α
  | [] => []
  | [c] => [c]
  | c :: d :: rest =>
    if c = p ∧ d = q then values.headD [p, q] ++ fill p q values.tail rest
    else c :: fill p q values (d :: rest)

variable {p q : α} {values : List (List α)} {v a rest : List α}

theorem fill_pair : fill p q values (p :: q :: rest) =
    values.headD [p, q] ++ fill p q values.tail rest := by
  rw [fill, if_pos ⟨rfl, rfl⟩]

theorem fill_cons {c : α} (h : ¬[p, q] <+: c :: rest) :
    fill p q values (c :: rest) = c :: fill p q values rest := by
  cases rest with
  | nil => rfl
  | cons d rest =>
    rw [fill, if_neg]
    rintro ⟨rfl, rfl⟩
    exact h ⟨rest, rfl⟩

theorem fill_nil : ∀ l : List α, fill p q [] l = l
  | [] => rfl
  | [_] => rfl
  | c :: d :: rest => by
    rw [fill]
    split
    · rename_i h
      rw [List.tail_nil, fill_nil rest, h.1, h.2]
      rfl
    · rw [fill_nil (d :: rest)]

/-- What is before the first pair stays. -/
theorem fill_append (hpq : p ≠ q) (h : ¬[p, q] <:+: a) :
    fill p q values (a ++ p :: rest) = a ++ fill p q values (p :: rest) := by
  induction a with
  | nil => rfl
  | cons c a ih =>
    have hprefix : ¬[p, q] <+: c :: (a ++ p :: rest) := by
      rintro ⟨l, hl⟩
      cases a with
      | nil => exact hpq (List.cons.inj (List.cons.inj hl).2).1.symm
      | cons d a =>
        obtain ⟨rfl, hd⟩ := List.cons.inj hl
        obtain ⟨rfl, -⟩ := List.cons.inj hd
        exact h ⟨[], a, rfl⟩
    rw [List.cons_append, fill_cons hprefix, ih fun hi => h (List.infix_cons hi)]
    rfl

theorem fill_split (hpq : p ≠ q) (h : ¬[p, q] <:+: a) :
    fill p q (v :: values) (a ++ p :: q :: rest) = a ++ (v ++ fill p q values rest) := by
  rw [fill_append hpq h, fill_pair]
  rfl

theorem fill_eq_nil_iff {l : List α} : fill p q (v :: values) l = [] ↔
    l = [] ∨ ∃ rest, l = p :: q :: rest ∧ v = [] ∧ fill p q values rest = [] := by
  constructor
  · intro hl
    cases l with
    | nil => exact .inl rfl
    | cons c l =>
      by_cases h : [p, q] <+: c :: l
      · obtain ⟨rest, hrest⟩ := h
        rw [← hrest] at hl ⊢
        rw [List.cons_append, List.singleton_append, fill_pair] at hl
        exact .inr ⟨rest, rfl, List.append_eq_nil_iff.mp hl⟩
      · rw [fill_cons h] at hl
        cases hl
  · rintro (rfl | ⟨rest, rfl, rfl, hrest⟩)
    · rfl
    · rw [fill_pair]
      exact hrest

end Lib.Template
