import Mathlib.Data.List.Pairwise
import Mathlib.Data.Int.Order.Basic
import Mathlib.Order.Basic

/-!
# Pages of a history

A server that keeps an ascending history answers a request for a window of
times and at most `limit` elements with the first `limit` ones of the window.

* `page`: that answer; `mem_of_mem_page`, `page_ascending`;
* `exists_first_of_page`: a page of a window with an element begins no later;
* `page_of_length_lt`: a short page is the whole window; `mem_page_of_lt`: no
  page has a hole;
* `page_append`: the page when the history is cut at the window;
* `between`, `between_split`, `between_isInfix`: windows without a limit, cut in two, and as a
  part of the history.
-/

namespace Lib.Page

variable {α : Type*} (time : α → Int)

def page (history : List α) (lo hi : Int) (limit : Nat) : List α :=
  (history.filter fun a => lo ≤ time a && time a ≤ hi).take limit

/-- Times do not descend. -/
def Ascending (l : List α) : Prop := l.Pairwise fun a b => time a ≤ time b

variable {time} {history : List α} {lo hi : Int} {limit : Nat} {a : α}

theorem mem_window : (a ∈ history.filter fun a => lo ≤ time a && time a ≤ hi) ↔
    a ∈ history ∧ lo ≤ time a ∧ time a ≤ hi := by
  rw [List.mem_filter, Bool.and_eq_true, decide_eq_true_eq, decide_eq_true_eq]

theorem mem_of_mem_page (h : a ∈ page time history lo hi limit) :
    a ∈ history ∧ lo ≤ time a ∧ time a ≤ hi :=
  mem_window.mp (List.mem_of_mem_take h)

theorem page_sublist : (page time history lo hi limit).Sublist history :=
  (List.take_sublist _ _).trans List.filter_sublist

theorem page_ascending (h : Ascending time history) : Ascending time (page time history lo hi limit) :=
  h.sublist page_sublist

/-- A page of a window that has an element begins no later than that element. -/
theorem exists_first_of_page (h : Ascending time history) (hl : 0 < limit) (ha : a ∈ history)
    (hlo : lo ≤ time a) (hhi : time a ≤ hi) :
    ∃ b ∈ page time history lo hi limit, time b ≤ time a := by
  have hw : a ∈ history.filter fun a => lo ≤ time a && time a ≤ hi := mem_window.mpr ⟨ha, hlo, hhi⟩
  unfold page
  cases hf : history.filter fun a => lo ≤ time a && time a ≤ hi with
  | nil =>
    rw [hf] at hw
    cases hw
  | cons b rest =>
    have hasc : Ascending time (b :: rest) := hf ▸ h.sublist List.filter_sublist
    obtain ⟨n, rfl⟩ : ∃ n, limit = n + 1 := ⟨limit - 1, by omega⟩
    refine ⟨b, by rw [List.take_succ_cons]; exact List.mem_cons_self, ?_⟩
    rw [hf] at hw
    rcases List.mem_cons.mp hw with rfl | hw
    · exact le_rfl
    · exact (List.pairwise_cons.mp hasc).1 a hw

/-- A page shorter than its limit is the whole window. -/
theorem page_of_length_lt (h : (page time history lo hi limit).length < limit) :
    page time history lo hi limit = history.filter fun a => lo ≤ time a && time a ≤ hi := by
  unfold page at h ⊢
  rw [List.length_take] at h
  exact List.take_of_length_le (by omega)

/-- A page leaves out no element before one it has. -/
theorem mem_page_of_lt (h : Ascending time history) (ha : a ∈ history) (hlo : lo ≤ time a) {b : α}
    (hb : b ∈ page time history lo hi limit) (hlt : time a < time b) :
    a ∈ page time history lo hi limit := by
  have hw : a ∈ history.filter fun a => lo ≤ time a && time a ≤ hi :=
    mem_window.mpr ⟨ha, hlo, by have := (mem_of_mem_page hb).2.2; omega⟩
  have hasc : Ascending time (history.filter fun a => lo ≤ time a && time a ≤ hi) :=
    h.sublist List.filter_sublist
  rw [← List.take_append_drop limit (history.filter _)] at hw hasc
  rcases List.mem_append.mp hw with hw | hw
  · exact hw
  · have := (List.pairwise_append.mp hasc).2.2 b hb a hw
    omega

theorem page_eq_nil (h : ∀ a ∈ history, ¬ (lo ≤ time a ∧ time a ≤ hi)) :
    page time history lo hi limit = [] := by
  rw [page, List.filter_eq_nil_iff.mpr fun a ha => by simpa using h a ha, List.take_nil]

/-- The page of a window that starts with `rest`, after `before` and ahead of
`after`. -/
theorem page_append {before rest after : List α} (hbefore : ∀ a ∈ before, time a < lo)
    (hrest : ∀ a ∈ rest.take limit, lo ≤ time a ∧ time a ≤ hi) (hafter : ∀ a ∈ after, hi < time a) :
    page time (before ++ (rest ++ after)) lo hi limit = rest.take limit := by
  have h₁ : before.filter (fun a => lo ≤ time a && time a ≤ hi) = [] :=
    List.filter_eq_nil_iff.mpr fun a ha => by
      have := hbefore a ha
      simp only [Bool.and_eq_true, decide_eq_true_eq]
      omega
  have h₂ : after.filter (fun a => lo ≤ time a && time a ≤ hi) = [] :=
    List.filter_eq_nil_iff.mpr fun a ha => by
      have := hafter a ha
      simp only [Bool.and_eq_true, decide_eq_true_eq]
      omega
  have h₃ : (rest.take limit).filter (fun a => lo ≤ time a && time a ≤ hi) = rest.take limit :=
    List.filter_eq_self.mpr fun a ha => by simpa using hrest a ha
  unfold page
  rw [List.filter_append, List.filter_append, h₁, h₂, List.nil_append, List.append_nil,
    ← List.take_append_drop limit rest, List.filter_append, h₃]
  by_cases hl : limit ≤ rest.length
  · have hlen : (rest.take limit).length = limit := by rw [List.length_take]; omega
    rw [List.take_append_drop]
    exact List.take_left' hlen
  · rw [List.drop_of_length_le (by omega), List.filter_nil, List.append_nil]

/-! ## Whole windows -/

variable (time) in
def between (history : List α) (lo hi : Int) : List α :=
  history.filter fun a => lo ≤ time a && time a ≤ hi

theorem mem_between : a ∈ between time history lo hi ↔ a ∈ history ∧ lo ≤ time a ∧ time a ≤ hi :=
  mem_window

theorem page_of_length_le (h : (between time history lo hi).length ≤ limit) :
    page time history lo hi limit = between time history lo hi :=
  List.take_of_length_le h

theorem between_congr {lo' hi' : Int}
    (h : ∀ a ∈ history, lo ≤ time a ∧ time a ≤ hi ↔ lo' ≤ time a ∧ time a ≤ hi') :
    between time history lo hi = between time history lo' hi' :=
  List.filter_congr fun a ha => by
    rw [Bool.eq_iff_iff, Bool.and_eq_true, Bool.and_eq_true, decide_eq_true_eq, decide_eq_true_eq,
      decide_eq_true_eq, decide_eq_true_eq]
    exact h a ha

/-- A window of an ascending history, cut at `mid`. -/
theorem between_split {mid : Int} (h : Ascending time history) (hm : lo ≤ mid) :
    between time history lo hi =
      between time history lo (min hi (mid - 1)) ++ between time history mid hi := by
  induction history with
  | nil => rfl
  | cons a l ih =>
    obtain ⟨hle, hl⟩ := List.pairwise_cons.mp h
    by_cases ha : time a < mid
    · -- `a` can only be in the first part.
      have hsecond : between time (a :: l) mid hi = between time l mid hi :=
        List.filter_cons_of_neg (by simp [Int.not_le.mpr ha])
      rw [hsecond]
      by_cases hw : lo ≤ time a ∧ time a ≤ hi
      · have h₁ : between time (a :: l) lo hi = a :: between time l lo hi :=
          List.filter_cons_of_pos (by simp [hw.1, hw.2])
        have h₂ : between time (a :: l) lo (min hi (mid - 1)) =
            a :: between time l lo (min hi (mid - 1)) :=
          List.filter_cons_of_pos (by simp only [Bool.and_eq_true, decide_eq_true_eq]; omega)
        rw [h₁, h₂, ih hl, List.cons_append]
      · have h₁ : between time (a :: l) lo hi = between time l lo hi :=
          List.filter_cons_of_neg (by simpa using hw)
        have h₂ : between time (a :: l) lo (min hi (mid - 1)) =
            between time l lo (min hi (mid - 1)) :=
          List.filter_cons_of_neg (by simp only [Bool.and_eq_true, decide_eq_true_eq]; omega)
        rw [h₁, h₂, ih hl]
    · -- From `a` on, the first part is over.
      have hall : ∀ b ∈ a :: l, mid ≤ time b := fun b hb => by
        rcases List.mem_cons.mp hb with rfl | hb
        · omega
        · have := hle b hb
          omega
      have hnil : between time (a :: l) lo (min hi (mid - 1)) = [] :=
        List.filter_eq_nil_iff.mpr fun b hb => by
          have := hall b hb
          simp only [Bool.and_eq_true, decide_eq_true_eq]
          omega
      rw [hnil, List.nil_append]
      apply between_congr
      intro b hb
      have := hall b hb
      omega

/-- A window of an ascending history has no holes. -/
theorem between_isInfix (h : Ascending time history) (lo hi : Int) :
    between time history lo hi <:+: history := by
  have habove : history.filter (fun a => lo ≤ time a) <:+ history := by
    induction history with
    | nil => exact List.suffix_rfl
    | cons a l ih =>
      obtain ⟨hle, hl⟩ := List.pairwise_cons.mp h
      by_cases ha : lo ≤ time a
      · have hall : ∀ b ∈ a :: l, decide (lo ≤ time b) = true := by
          intro b hb
          rcases List.mem_cons.mp hb with rfl | hb
          · exact decide_eq_true ha
          · exact decide_eq_true (ha.trans (hle b hb))
        exact ⟨[], List.filter_eq_self.mpr hall⟩
      · rw [List.filter_cons_of_neg (by simpa using ha)]
        exact (ih hl).trans (List.suffix_cons a l)
  have hbelow : ∀ {l : List α}, Ascending time l → l.filter (fun a => time a ≤ hi) <+: l := by
    intro l hl
    induction l with
    | nil => exact List.prefix_rfl
    | cons a l ih =>
      obtain ⟨hle, hl⟩ := List.pairwise_cons.mp hl
      by_cases ha : time a ≤ hi
      · rw [List.filter_cons_of_pos (by simpa using ha)]
        exact List.cons_prefix_cons.mpr ⟨rfl, ih hl⟩
      · have hnone : ∀ b ∈ a :: l, ¬ decide (time b ≤ hi) = true := by
          intro b hb
          rw [decide_eq_true_eq]
          rcases List.mem_cons.mp hb with rfl | hb
          · exact ha
          · have := hle b hb
            omega
        rw [List.filter_eq_nil_iff.mpr hnone]
        exact List.nil_prefix
  have hcut : between time history lo hi =
      (history.filter fun a => lo ≤ time a).filter fun a => time a ≤ hi := by
    rw [List.filter_filter, between]
    exact List.filter_congr fun a _ => Bool.and_comm _ _
  rw [hcut]
  exact (hbelow (h.sublist List.filter_sublist)).isInfix.trans habove.isInfix

end Lib.Page
