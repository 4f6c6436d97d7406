import TradingChartViewer.Lib.Page
import Mathlib.Data.List.Induction
import Mathlib.Data.List.Sort
import Mathlib.Tactic.Common

/-!
# Maps by time

An ordered map from times to elements that carry their time.

* `insertAll`: the elements of a list inserted in turn; `getElem?_insertAll`
  says that the last one of a time stays, `getElem?_insertAll_of_mem` that an
  ascending list keeps them all;
* `Keyed`: every element is stored under its own time;
* `values`: the elements in ascending order; `mem_values_iff`,
  `values_pairwise`, `le_of_getLast?_values`, and `values_insertAll` for a
  list that ascends;
* `values_insert_newest`, `values_insert_last`: a new last element, and one of
  the time of the last;
* `insertAll_values_insertAll`, `insertAll_insertAll_self`: lists that are sorted first, and lists
  that are inserted again;
* `values_insertAll_between`: a window of a history that goes on where the map ends.
-/

namespace Lib.TimeMap

variable {α : Type*} {time : α → Int} {m : Std.ExtTreeMap Int α} {l : List α} {a : α} {t : Int}

theorem getElem?_insert_self_or (m : Std.ExtTreeMap Int α) (k : Int) (a : α) (t : Int) :
    (m.insert k a)[t]? = if k = t then some a else m[t]? := by
  rw [Std.ExtTreeMap.getElem?_insert]
  simp only [Std.LawfulEqCmp.compare_eq_iff_eq]

def insertAll (time : α → Int) (m : Std.ExtTreeMap Int α) (l : List α) : Std.ExtTreeMap Int α :=
  l.foldl (fun m a => m.insert (time a) a) m

theorem insertAll_append (m : Std.ExtTreeMap Int α) (as bs : List α) :
    insertAll time m (as ++ bs) = insertAll time (insertAll time m as) bs :=
  List.foldl_append

/-- The last element of a time stays. -/
theorem getElem?_insertAll (m : Std.ExtTreeMap Int α) (l : List α) (t : Int) :
    (insertAll time m l)[t]? = ((l.filter fun a => time a = t).getLast?).or m[t]? := by
  induction l using List.reverseRecOn with
  | nil => rfl
  | append_singleton l a ih =>
    rw [insertAll_append, insertAll, List.foldl_cons, List.foldl_nil, getElem?_insert_self_or, ih,
      List.filter_append]
    by_cases h : time a = t <;> simp [h]

theorem isSome_insertAll_iff :
    (insertAll time m l)[t]?.isSome = true ↔ m[t]?.isSome = true ∨ ∃ a ∈ l, time a = t := by
  rw [getElem?_insertAll, Option.isSome_or, Bool.or_eq_true, or_comm]
  apply or_congr_right
  rw [List.getLast?_isSome, Ne, List.filter_eq_nil_iff]
  push Not
  simp only [decide_eq_true_eq]

theorem getElem?_insertAll_of_ne (h : ∀ a ∈ l, time a ≠ t) : (insertAll time m l)[t]? = m[t]? := by
  have hnil : (l.filter fun a => time a = t) = [] :=
    List.filter_eq_nil_iff.mpr fun a ha => by simpa using h a ha
  rw [getElem?_insertAll, hnil, List.getLast?_nil, Option.none_or]

theorem getElem?_insertAll_of_mem (h : l.Pairwise fun a b => time a < time b) (ha : a ∈ l) :
    (insertAll time m l)[time a]? = some a := by
  -- An ascending list has at most one element of a time.
  have hnodup : (l.map time).Nodup := List.pairwise_map.mpr (h.imp ne_of_lt)
  have hf : a ∈ l.filter fun b => time b = time a := List.mem_filter.mpr ⟨ha, decide_eq_true rfl⟩
  rw [getElem?_insertAll]
  cases hb : (l.filter fun b => time b = time a).getLast? with
  | none =>
    rw [List.getLast?_eq_none_iff.mp hb] at hf
    cases hf
  | some b =>
    obtain ⟨hbl, hbt⟩ := List.mem_filter.mp (List.mem_of_getLast? hb)
    rw [Option.some_or, List.inj_on_of_nodup_map hnodup hbl ha (of_decide_eq_true hbt)]

/-- Every element is stored under its own time. -/
def Keyed (time : α → Int) (m : Std.ExtTreeMap Int α) : Prop := ∀ t a, m[t]? = some a → time a = t

theorem keyed_empty : Keyed time (∅ : Std.ExtTreeMap Int α) := by
  intro t a h
  rw [Std.ExtTreeMap.getElem?_empty] at h
  cases h

theorem Keyed.insert (h : Keyed time m) (a : α) : Keyed time (m.insert (time a) a) := by
  intro t b hb
  rw [getElem?_insert_self_or] at hb
  split at hb
  · rename_i e
    rw [← Option.some.inj hb, e]
  · exact h t b hb

theorem Keyed.insertAll (h : Keyed time m) (l : List α) : Keyed time (insertAll time m l) := by
  induction l generalizing m with
  | nil => exact h
  | cons a l ih => exact ih (h.insert a)

/-- Elements with a property, inserted in a map of such. -/
theorem forall_insertAll {P : α → Prop} (hm : ∀ (t : Int) a, m[t]? = some a → P a)
    (hl : ∀ a ∈ l, P a) (t : Int) (a : α) (h : (insertAll time m l)[t]? = some a) : P a := by
  rw [getElem?_insertAll, Option.or_eq_some_iff] at h
  rcases h with h | ⟨-, h⟩
  · exact hl a (List.mem_of_mem_filter (List.mem_of_getLast? h))
  · exact hm t a h

/-- The elements in the order of their times. -/
def values (m : Std.ExtTreeMap Int α) : List α := m.toList.map Prod.snd

theorem mem_values_iff (h : Keyed time m) : a ∈ values m ↔ m[time a]? = some a := by
  rw [values, List.mem_map]
  constructor
  · rintro ⟨⟨t, b⟩, hb, rfl⟩
    have hb := Std.ExtTreeMap.mem_toList_iff_getElem?_eq_some.mp hb
    rwa [h t b hb]
  · exact fun ha => ⟨(time a, a), Std.ExtTreeMap.mem_toList_iff_getElem?_eq_some.mpr ha, rfl⟩

theorem values_pairwise (h : Keyed time m) : (values m).Pairwise fun a b => time a < time b := by
  rw [values, List.pairwise_map]
  apply Std.ExtTreeMap.ordered_keys_toList.imp_of_mem
  intro p q hp hq hlt
  rw [h p.1 p.2 (Std.ExtTreeMap.mem_toList_iff_getElem?_eq_some.mp hp),
    h q.1 q.2 (Std.ExtTreeMap.mem_toList_iff_getElem?_eq_some.mp hq)]
  exact Std.compare_eq_lt.mp hlt

/-- The last element of an ascending list is the newest one. -/
theorem le_of_getLast? (h : l.Pairwise fun a b => time a < time b) {b : α}
    (hb : l.getLast? = some b) (ha : a ∈ l) : time a ≤ time b := by
  obtain ⟨init, rfl⟩ := List.getLast?_eq_some_iff.mp hb
  rcases List.mem_append.mp ha with ha | ha
  · exact le_of_lt ((List.pairwise_append.mp h).2.2 a ha b (List.mem_singleton_self b))
  · rw [List.mem_singleton.mp ha]

theorem le_of_getLast?_values (h : Keyed time m) {b : α} (hb : (values m).getLast? = some b)
    (ha : m[t]? = some a) : t ≤ time b := by
  obtain rfl := h t a ha
  exact le_of_getLast? (values_pairwise h) hb ((mem_values_iff h).mpr ha)

theorem insertAll_values (h : Keyed time m) : insertAll time ∅ (values m) = m := by
  apply Std.ExtTreeMap.ext_getElem?
  intro t
  by_cases ht : ∃ a ∈ values m, time a = t
  · obtain ⟨a, ha, rfl⟩ := ht
    rw [getElem?_insertAll_of_mem (values_pairwise h) ha, (mem_values_iff h).mp ha]
  · rw [getElem?_insertAll_of_ne fun a ha hat => ht ⟨a, ha, hat⟩, Std.ExtTreeMap.getElem?_empty]
    cases hm : m[t]? with
    | none => rfl
    | some a =>
      obtain rfl := h t a hm
      exact absurd ⟨a, (mem_values_iff h).mpr hm, rfl⟩ ht

theorem keys_eq_map_values (h : Keyed time m) : m.keys = (values m).map time := by
  rw [values, List.map_map, ← Std.ExtTreeMap.map_fst_toList_eq_keys]
  apply List.map_congr_left
  intro p hp
  exact (h p.1 p.2 (Std.ExtTreeMap.mem_toList_iff_getElem?_eq_some.mp hp)).symm

/-- An ascending list of the elements of a map. -/
theorem values_eq_of_mem_iff (h : Keyed time m) (hl : l.Pairwise fun a b => time a < time b)
    (hmem : ∀ a, a ∈ l ↔ m[time a]? = some a) : values m = l := by
  have : Std.Irrefl fun a b : α => time a < time b := ⟨fun a => lt_irrefl (time a)⟩
  apply (values_pairwise h).eq_of_mem_iff hl
  intro a
  rw [mem_values_iff h, hmem]

/-- An ascending list is what its elements inserted in turn give back. -/
theorem values_insertAll (h : l.Pairwise fun a b => time a < time b) :
    values (insertAll time ∅ l) = l := by
  refine values_eq_of_mem_iff (keyed_empty.insertAll l) h fun a => ⟨getElem?_insertAll_of_mem h, ?_⟩
  intro ha
  rw [getElem?_insertAll, Std.ExtTreeMap.getElem?_empty, Option.or_none] at ha
  exact List.mem_of_mem_filter (List.mem_of_getLast? ha)

theorem mem_values_insert_iff (h : Keyed time m) {b : α} :
    b ∈ values (m.insert (time a) a) ↔ b = a ∨ time b ≠ time a ∧ b ∈ values m := by
  rw [mem_values_iff (h.insert a), mem_values_iff h, getElem?_insert_self_or]
  by_cases hb : time a = time b
  · rw [if_pos hb, Option.some_inj]
    exact ⟨fun e => Or.inl e.symm, fun e => (e.resolve_right fun e => e.1 hb.symm).symm⟩
  · rw [if_neg hb]
    exact ⟨fun e => Or.inr ⟨fun e => hb e.symm, e⟩,
      fun e => (e.resolve_left fun e => hb (by rw [e])).2⟩

/-- An element later than all others comes last. -/
theorem values_insert_newest (h : Keyed time m) (hlt : ∀ b ∈ values m, time b < time a) :
    values (m.insert (time a) a) = values m ++ [a] := by
  refine values_eq_of_mem_iff (h.insert a) ?_ fun b => ?_
  · refine List.pairwise_append.mpr ⟨values_pairwise h, List.pairwise_singleton _ a, ?_⟩
    exact fun b hb c hc => List.mem_singleton.mp hc ▸ hlt b hb
  · rw [← mem_values_iff (h.insert a), mem_values_insert_iff h, List.mem_append,
      List.mem_singleton, or_comm]
    exact or_congr_right ⟨fun hb => ⟨(hlt b hb).ne, hb⟩, And.right⟩

/-- An element of the time of the last one takes its place. -/
theorem values_insert_last (h : Keyed time m) {init : List α} {b : α}
    (hb : values m = init ++ [b]) (ht : time a = time b) :
    values (m.insert (time a) a) = init ++ [a] := by
  have hp := values_pairwise h
  rw [hb] at hp
  obtain ⟨hinit, -, hlt⟩ := List.pairwise_append.mp hp
  have hlt : ∀ c ∈ init, time c < time a := fun c hc => ht ▸ hlt c hc b (List.mem_singleton_self b)
  refine values_eq_of_mem_iff (h.insert a) ?_ fun c => ?_
  · refine List.pairwise_append.mpr ⟨hinit, List.pairwise_singleton _ a, ?_⟩
    exact fun c hc d hd => List.mem_singleton.mp hd ▸ hlt c hc
  · rw [← mem_values_iff (h.insert a), mem_values_insert_iff h, hb, List.mem_append,
      List.mem_append, List.mem_singleton, List.mem_singleton, or_comm]
    refine or_congr_right ⟨fun hc => ⟨(hlt c hc).ne, Or.inl hc⟩, ?_⟩
    rintro ⟨hne, hc | rfl⟩
    · exact hc
    · exact absurd ht.symm hne

theorem toList_eq_map_values (h : Keyed time m) : m.toList = (values m).map fun a => (time a, a) := by
  have hid : m.toList.map ((fun a => (time a, a)) ∘ Prod.snd) = m.toList.map id := by
    apply List.map_congr_left
    intro p hp
    exact Prod.ext (h p.1 p.2 (Std.ExtTreeMap.mem_toList_iff_getElem?_eq_some.mp hp)) rfl
  rw [values, List.map_map, hid, List.map_id]

/-- Elements may be sorted, each time with its last element, before they are inserted. -/
theorem insertAll_values_insertAll (m : Std.ExtTreeMap Int α) (l : List α) :
    insertAll time m (values (insertAll time ∅ l)) = insertAll time m l := by
  have hk : Keyed time (insertAll time ∅ l) := keyed_empty.insertAll l
  apply Std.ExtTreeMap.ext_getElem?
  intro t
  have hl : (insertAll time ∅ l)[t]? = (l.filter fun a => time a = t).getLast? := by
    rw [getElem?_insertAll, Std.ExtTreeMap.getElem?_empty, Option.or_none]
  rw [getElem?_insertAll m l, ← hl]
  cases hv : (insertAll time ∅ l)[t]? with
  | some a =>
    obtain rfl := hk t a hv
    exact getElem?_insertAll_of_mem (values_pairwise hk) ((mem_values_iff hk).mpr hv)
  | none =>
    rw [Option.none_or]
    refine getElem?_insertAll_of_ne fun a ha hat => ?_
    have := (mem_values_iff hk).mp ha
    rw [hat, hv] at this
    cases this

/-- Inserting a list again changes nothing. -/
theorem insertAll_insertAll_self (m : Std.ExtTreeMap Int α) (l : List α) :
    insertAll time (insertAll time m l) l = insertAll time m l := by
  apply Std.ExtTreeMap.ext_getElem?
  intro t
  rw [getElem?_insertAll, getElem?_insertAll, ← Option.or_assoc, Option.or_self]

theorem insertAll_eq_empty_iff : insertAll time m l = ∅ ↔ m = ∅ ∧ l = [] := by
  constructor
  · intro h
    have hnone : ∀ t : Int, ¬ (m[t]?.isSome = true ∨ ∃ a ∈ l, time a = t) := fun t ht => by
      have := isSome_insertAll_iff.mpr ht
      rw [h, Std.ExtTreeMap.getElem?_empty] at this
      cases this
    refine ⟨Std.ExtTreeMap.ext_getElem? fun t => ?_, List.eq_nil_iff_forall_not_mem.mpr fun a ha => ?_⟩
    · rw [Std.ExtTreeMap.getElem?_empty]
      simpa using fun hm => hnone t (.inl hm)
    · exact hnone (time a) (.inr ⟨a, ha, rfl⟩)
  · rintro ⟨rfl, rfl⟩
    rfl

open Lib.Page in
/-- Two windows of an ascending history that share their bound. -/
theorem values_insertAll_between (hk : Keyed time m)
    (hl : l.Pairwise fun a b => time a < time b) {lo mid hi : Int} (hlo : lo ≤ mid) (hhi : mid ≤ hi)
    (hm : values m = between time l lo mid) :
    values (insertAll time m (between time l mid hi)) = between time l lo hi := by
  have hwindow : (between time l mid hi).Pairwise fun a b => time a < time b :=
    hl.sublist List.filter_sublist
  refine values_eq_of_mem_iff (hk.insertAll _) (hl.sublist List.filter_sublist) fun a => ?_
  have hold : m[time a]? = some a ↔ a ∈ l ∧ lo ≤ time a ∧ time a ≤ mid := by
    rw [← mem_values_iff hk, hm, mem_between]
  rw [mem_between]
  by_cases hb : ∃ b ∈ between time l mid hi, time b = time a
  · obtain ⟨b, hb, hba⟩ := hb
    have hbl := mem_between.mp hb
    rw [← hba, getElem?_insertAll_of_mem hwindow hb, Option.some_inj]
    constructor
    · rintro ⟨ha, -⟩
      exact List.inj_on_of_nodup_map (List.pairwise_map.mpr (hl.imp ne_of_lt)) hbl.1 ha hba
    · rintro rfl
      exact ⟨hbl.1, hlo.trans hbl.2.1, hbl.2.2⟩
  · rw [getElem?_insertAll_of_ne fun b hb' hba => hb ⟨b, hb', hba⟩, hold]
    apply and_congr_right
    intro ha
    -- An element from `mid` on would be in the second window.
    have hnot : ¬ (mid ≤ time a ∧ time a ≤ hi) := fun h => hb ⟨a, mem_between.mpr ⟨ha, h⟩, rfl⟩
    omega

end Lib.TimeMap
