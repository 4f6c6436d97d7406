import Mathlib.Data.List.Induction

/-!
# Lists kept by time

A list in ascending order of time, to which elements come one at a time: one of the time
of the last element replaces it, a later one follows it, an earlier one is dropped
(`upsert`). `appendLater` drops those of the last time as well.

* `ascending_upsertAll`: the order is kept;
* `upsertAll_concat`: the list that was there stays, but possibly its last element;
* `mem_upsertAll_of_last`: of a batch in order, the last element of each time is there;
* `mem_appendLaterAll_iff`: of a batch in order, `appendLater` keeps the first ones.
* `NoRepeat`: a batch in which no element has the time of the latest one so far.
-/

namespace Lib.Upsert

variable {α : Type*} (time : α → Int)

def upsert (l : List α) (a : α) : List α :=
  match l.getLast? with
  | none => [a]
  | some last =>
    if time a = time last then l.dropLast ++ [a]
    else if time last < time a then l ++ [a]
    else l

def upsertAll (l as : List α) : List α := as.foldl (upsert time) l

def appendLater (l : List α) (a : α) : List α :=
  match l.getLast? with
  | none => [a]
  | some last => if time last < time a then l ++ [a] else l

def appendLaterAll (l as : List α) : List α := as.foldl (appendLater time) l

/-- The times ascend strictly. -/
def Ascending (l : List α) : Prop := l.Pairwise fun a b => time a < time b

/-- The times do not descend. -/
def Sorted (l : List α) : Prop := l.Pairwise fun a b => time a ≤ time b

/-- After `bound`, no element has the time of the latest one before it. -/
def NoRepeat (bound : Int) (as : List α) : Prop :=
  ∀ pre a post, as = pre ++ a :: post → bound < time a → (∀ b ∈ pre, time b ≤ time a) →
    ∀ b ∈ pre, time b < time a

/-- The last element of each time is the first one as well. -/
def FirstIsLast (as : List α) : Prop :=
  ∀ pre a post, as = pre ++ a :: post → (∀ b ∈ post, time b ≠ time a) →
    ∃ pre' post', as = pre' ++ a :: post' ∧ ∀ b ∈ pre', time b ≠ time a

variable {time} {l as pre : List α} {a b last : α}

/-! ## Ends of lists -/

theorem forall_getLast?_of_eq {P : α → Prop} (hl : l.getLast? = some last) (h : P last) :
    ∀ d, l.getLast? = some d → P d :=
  fun _ hd => Option.some.inj (hl.symm.trans hd) ▸ h

/-- An element of a list with one more at its end. -/
theorem concat_eq_append_cons_iff {c : α} {post : List α} :
    as ++ [c] = pre ++ a :: post ↔
      post = [] ∧ as = pre ∧ c = a ∨ ∃ post', post = post' ++ [c] ∧ as = pre ++ a :: post' := by
  constructor
  · intro e
    rcases List.eq_nil_or_concat post with rfl | ⟨post', d, rfl⟩
    · obtain ⟨rfl, hc⟩ := List.append_inj' e rfl
      exact .inl ⟨rfl, rfl, (List.cons.inj hc).1⟩
    · rw [List.concat_eq_append, ← List.cons_append, ← List.append_assoc] at e
      obtain ⟨rfl, hc⟩ := List.append_inj' e rfl
      rw [List.concat_eq_append, (List.cons.inj hc).1]
      exact .inr ⟨post', rfl, rfl⟩
  · rintro (⟨rfl, rfl, rfl⟩ | ⟨post', rfl, rfl⟩)
    · rfl
    · simp

/-- If each step of a fold ends with an element that is no earlier than the new one and the last
one before, so does the whole fold. -/
theorem le_getLast?_foldl {f : List α → α → List α}
    (hf : ∀ l a, ∃ end_, (f l a).getLast? = some end_ ∧ time a ≤ time end_ ∧
      ∀ last, l.getLast? = some last → time last ≤ time end_) (as : List α) {end_ : α}
    (he : (as.foldl f l).getLast? = some end_) :
    (∀ last, l.getLast? = some last → time last ≤ time end_) ∧ ∀ a ∈ as, time a ≤ time end_ := by
  induction as generalizing l with
  | nil => exact ⟨forall_getLast?_of_eq he (Int.le_refl _), by simp⟩
  | cons a as ih =>
    obtain ⟨h₁, h₂⟩ := ih he
    obtain ⟨mid, hm, ha, hl⟩ := hf l a
    have hmid := h₁ mid hm
    refine ⟨fun last hlast => Int.le_trans (hl last hlast) hmid, fun b hb => ?_⟩
    rcases List.mem_cons.mp hb with rfl | hb
    · omega
    · exact h₂ b hb

/-! ## One element -/

theorem upsert_same (pre : List α) (h : time a = time last) :
    upsert time (pre ++ [last]) a = pre ++ [a] := by
  simp only [upsert, List.getLast?_concat, h, if_true, List.dropLast_concat]

theorem upsert_later (h : ∀ last, l.getLast? = some last → time last < time a) :
    upsert time l a = l ++ [a] := by
  unfold upsert
  cases hl : l.getLast? with
  | none => rw [List.getLast?_eq_none_iff.mp hl]; rfl
  | some last =>
    have := h last hl
    dsimp only
    rw [if_neg (by omega), if_pos this]

theorem upsert_earlier (hl : l.getLast? = some last) (h : time a < time last) :
    upsert time l a = l := by
  simp only [upsert, hl]
  rw [if_neg (by omega), if_neg (by omega)]

variable (time) in
/-- The last element after an upsert is no earlier than the new one and the last one before. -/
theorem exists_getLast?_upsert (l : List α) (a : α) :
    ∃ end_, (upsert time l a).getLast? = some end_ ∧ time a ≤ time end_ ∧
      ∀ last, l.getLast? = some last → time last ≤ time end_ := by
  unfold upsert
  cases hl : l.getLast? with
  | none => exact ⟨a, rfl, by omega, nofun⟩
  | some last =>
    have hlast : ∀ {end_ : α}, time last ≤ time end_ →
        ∀ d, some last = some d → time d ≤ time end_ := fun h d hd => Option.some.inj hd ▸ h
    dsimp only
    split_ifs with h₁ h₂
    · exact ⟨a, List.getLast?_concat, by omega, hlast (by omega)⟩
    · exact ⟨a, List.getLast?_concat, by omega, hlast (by omega)⟩
    · exact ⟨last, hl, by omega, hlast (by omega)⟩

theorem getLast?_upsert {end_ : α} (h : (upsert time l a).getLast? = some end_) :
    l.getLast? = some end_ ∨ end_ = a := by
  unfold upsert at h
  cases hl : l.getLast? with
  | none =>
    rw [hl] at h
    exact .inr (Option.some.inj h).symm
  | some last =>
    rw [hl] at h
    dsimp only at h
    split_ifs at h
    · rw [List.getLast?_concat] at h
      exact .inr (Option.some.inj h).symm
    · rw [List.getLast?_concat] at h
      exact .inr (Option.some.inj h).symm
    · exact .inl (hl ▸ h)

theorem mem_upsert (h : b ∈ upsert time l a) : b ∈ l ∨ b = a := by
  unfold upsert at h
  split at h
  · exact .inr (List.mem_singleton.mp h)
  · split_ifs at h
    · rcases List.mem_append.mp h with h | h
      · exact .inl (List.dropLast_subset _ h)
      · exact .inr (List.mem_singleton.mp h)
    · rcases List.mem_append.mp h with h | h
      · exact .inl h
      · exact .inr (List.mem_singleton.mp h)
    · exact .inl h

theorem ascending_concat (h : Ascending time l)
    (ha : ∀ last, l.getLast? = some last → time last < time a) : Ascending time (l ++ [a]) := by
  refine List.pairwise_append.mpr ⟨h, List.pairwise_singleton _ _, fun b hb c hc => ?_⟩
  rw [List.mem_singleton.mp hc]
  obtain ⟨pre, last, rfl⟩ := List.eq_nil_or_concat l |>.resolve_left (List.ne_nil_of_mem hb)
  rw [List.concat_eq_append] at *
  have hlast := ha last List.getLast?_concat
  rcases List.mem_append.mp hb with hb | hb
  · have := (List.pairwise_append.mp h).2.2 b hb last List.mem_cons_self
    omega
  · rw [List.mem_singleton.mp hb]
    exact hlast

theorem ascending_upsert (h : Ascending time l) (a : α) : Ascending time (upsert time l a) := by
  cases hl : l.getLast? with
  | none =>
    rw [List.getLast?_eq_none_iff.mp hl]
    exact List.pairwise_singleton _ _
  | some last =>
    obtain ⟨pre, rfl⟩ := List.getLast?_eq_some_iff.mp hl
    rcases Int.lt_trichotomy (time a) (time last) with ht | ht | ht
    · rwa [upsert_earlier hl ht]
    · rw [upsert_same pre ht]
      have hp := List.pairwise_append.mp h
      refine List.pairwise_append.mpr ⟨hp.1, List.pairwise_singleton _ _, fun b hb c hc => ?_⟩
      rw [List.mem_singleton.mp hc, ht]
      exact hp.2.2 b hb last List.mem_cons_self
    · rw [upsert_later (forall_getLast?_of_eq hl ht)]
      exact ascending_concat h (forall_getLast?_of_eq hl ht)

/-! ## A batch -/

theorem upsertAll_append (l as bs : List α) :
    upsertAll time l (as ++ bs) = upsertAll time (upsertAll time l as) bs := List.foldl_append

theorem upsertAll_concat_one (l as : List α) (a : α) :
    upsertAll time l (as ++ [a]) = upsert time (upsertAll time l as) a := upsertAll_append l as [a]

theorem ascending_upsertAll (h : Ascending time l) (as : List α) :
    Ascending time (upsertAll time l as) := by
  induction as generalizing l with
  | nil => exact h
  | cons a as ih => exact ih (ascending_upsert h a)

theorem mem_upsertAll (h : b ∈ upsertAll time l as) : b ∈ l ∨ b ∈ as := by
  induction as generalizing l with
  | nil => exact .inl h
  | cons a as ih =>
    rcases ih h with h | h
    · rcases mem_upsert h with h | rfl
      · exact .inl h
      · exact .inr List.mem_cons_self
    · exact .inr (List.mem_cons_of_mem _ h)

/-- No time is lost. -/
theorem map_subset_upsert (l : List α) (a : α) : l.map time ⊆ (upsert time l a).map time := by
  unfold upsert
  cases hl : l.getLast? with
  | none =>
    rw [List.getLast?_eq_none_iff.mp hl]
    exact List.nil_subset _
  | some last =>
    obtain ⟨pre, rfl⟩ := List.getLast?_eq_some_iff.mp hl
    dsimp only
    split_ifs with he
    · rw [List.dropLast_concat, List.map_append, List.map_append, List.map_singleton,
        List.map_singleton, he]
      exact List.Subset.refl _
    · exact List.map_subset time (List.subset_append_left _ _)
    · exact List.Subset.refl _

theorem map_subset_upsertAll (l as : List α) : l.map time ⊆ (upsertAll time l as).map time := by
  induction as generalizing l with
  | nil => exact List.Subset.refl _
  | cons a as ih => exact List.Subset.trans (map_subset_upsert l a) (ih (upsert time l a))

theorem getLast?_upsertAll (as : List α) {end_ : α}
    (h : (upsertAll time l as).getLast? = some end_) : l.getLast? = some end_ ∨ end_ ∈ as := by
  induction as generalizing l with
  | nil => exact .inl h
  | cons a as ih =>
    rcases ih h with h | h
    · rcases getLast?_upsert h with h | rfl
      · exact .inl h
      · exact .inr List.mem_cons_self
    · exact .inr (List.mem_cons_of_mem _ h)

/-- Nothing that was there or came is later than the last element. -/
theorem le_getLast?_upsertAll (as : List α) {end_ : α}
    (he : (upsertAll time l as).getLast? = some end_) :
    (∀ last, l.getLast? = some last → time last ≤ time end_) ∧ ∀ a ∈ as, time a ≤ time end_ :=
  le_getLast?_foldl (exists_getLast?_upsert time) as he

variable (time) in
/-- The list that was there stays, but possibly its last element, and what follows it came
with the batch. -/
theorem upsertAll_concat (pre : List α) (last : α) (as : List α) :
    ∃ last' rest, upsertAll time (pre ++ [last]) as = pre ++ last' :: rest ∧
      (last' = last ∨ last' ∈ as ∧ time last' = time last) ∧ ∀ b ∈ rest, b ∈ as := by
  induction as using List.reverseRecOn with
  | nil => exact ⟨last, [], rfl, .inl rfl, nofun⟩
  | append_singleton as a ih =>
    obtain ⟨last', rest, e, h, hrest⟩ := ih
    have hwider : last' = last ∨ last' ∈ as ++ [a] ∧ time last' = time last :=
      h.imp_right fun h => ⟨List.mem_append_left _ h.1, h.2⟩
    have htime : time last' = time last := h.elim (congrArg time) And.right
    rw [upsertAll_concat_one, e]
    cases rest using List.reverseRecOn with
    | nil =>
      rcases Int.lt_trichotomy (time a) (time last') with ht | ht | ht
      · exact ⟨last', [], upsert_earlier List.getLast?_concat ht, hwider, nofun⟩
      · exact ⟨a, [], upsert_same pre ht, .inr ⟨by simp, ht.trans htime⟩, nofun⟩
      · refine ⟨last', [a], ?_, hwider, by simp⟩
        rw [upsert_later (forall_getLast?_of_eq List.getLast?_concat ht)]
        exact List.append_assoc ..
    | append_singleton rest end_ =>
      have hsplit : pre ++ last' :: (rest ++ [end_]) = (pre ++ last' :: rest) ++ [end_] := by simp
      have hl : (pre ++ last' :: (rest ++ [end_])).getLast? = some end_ := by
        rw [hsplit, List.getLast?_concat]
      have hin : ∀ b ∈ rest, b ∈ as ++ [a] := fun b hb =>
        List.mem_append_left _ (hrest b (List.mem_append_left _ hb))
      have hin' : ∀ b ∈ rest ++ [end_], b ∈ as ++ [a] := fun b hb =>
        List.mem_append_left _ (hrest b hb)
      rcases Int.lt_trichotomy (time a) (time end_) with ht | ht | ht
      · exact ⟨last', rest ++ [end_], upsert_earlier hl ht, hwider, hin'⟩
      · refine ⟨last', rest ++ [a], ?_, hwider, fun b hb => ?_⟩
        · rw [hsplit, upsert_same _ ht]
          simp
        · rcases List.mem_append.mp hb with hb | hb
          · exact hin b hb
          · exact List.mem_append_right _ hb
      · refine ⟨last', rest ++ [end_] ++ [a], ?_, hwider, fun b hb => ?_⟩
        · rw [upsert_later (forall_getLast?_of_eq hl ht)]
          simp
        · rcases List.mem_append.mp hb with hb | hb
          · exact hin' b hb
          · exact List.mem_append_right _ hb

/-- An element no earlier than anything before it becomes the last one. -/
theorem getLast?_upsert_of_le (h : ∀ last, l.getLast? = some last → time last ≤ time a) :
    (upsert time l a).getLast? = some a := by
  unfold upsert
  cases hl : l.getLast? with
  | none => rfl
  | some last =>
    have := h last hl
    dsimp only
    split_ifs with h₁ h₂
    · exact List.getLast?_concat
    · exact List.getLast?_concat
    · omega

/-- Later elements leave what is there. -/
theorem mem_upsertAll_of_later {as : List α} (hl : l.getLast? = some a)
    (h : ∀ b ∈ as, time a < time b) : a ∈ upsertAll time l as := by
  obtain ⟨pre, rfl⟩ := List.getLast?_eq_some_iff.mp hl
  obtain ⟨last', rest, e, h', -⟩ := upsertAll_concat time pre a as
  rw [e]
  rcases h' with rfl | ⟨hm, ht⟩
  · simp
  · have := h last' hm
    omega

/-- Of a batch in order, the last element of each time is stored, unless it is earlier than
what was there. -/
theorem mem_upsertAll_of_last {post : List α} (hs : Sorted time (pre ++ a :: post))
    (hlast : ∀ b ∈ post, time b ≠ time a) (hl : ∀ last, l.getLast? = some last → time last ≤ time a) :
    a ∈ upsertAll time l (pre ++ a :: post) := by
  have hp := List.pairwise_append.mp hs
  have hpost := List.pairwise_cons.mp hp.2.1
  rw [upsertAll_append]
  show a ∈ upsertAll time (upsert time (upsertAll time l pre) a) post
  refine mem_upsertAll_of_later (getLast?_upsert_of_le fun mid hm => ?_) fun b hb => ?_
  · -- The last element before it was there, or came before it.
    rcases getLast?_upsertAll pre hm with h | h
    · exact hl mid h
    · exact hp.2.2 mid h a List.mem_cons_self
  · have := hpost.1 b hb
    have := hlast b hb
    omega

/-- A batch in strict order that is not earlier than what was there is all stored. -/
theorem mem_upsertAll_of_ascending {as : List α} (h : Ascending time as)
    (hl : ∀ last, l.getLast? = some last → ∀ a ∈ as, time last ≤ time a) :
    ∀ a ∈ as, a ∈ upsertAll time l as := by
  intro a ha
  obtain ⟨pre, post, rfl⟩ := List.append_of_mem ha
  have hpost := (List.pairwise_cons.mp (List.pairwise_append.mp h).2.1).1
  have hs : Sorted time (pre ++ a :: post) := List.Pairwise.imp (fun hlt => Int.le_of_lt hlt) h
  apply mem_upsertAll_of_last hs
  · intro b hb
    have := hpost b hb
    omega
  · exact fun last hlast => hl last hlast a ha

/-! ## Batches that repeat no latest time -/

theorem noRepeat_nil (bound : Int) : NoRepeat time bound [] := by
  intro pre a post h
  exact absurd h (by simp)

/-- One more element. -/
theorem noRepeat_concat {bound : Int} {as : List α} :
    NoRepeat time bound (as ++ [a]) ↔ NoRepeat time bound as ∧
      (bound < time a → (∀ b ∈ as, time b ≤ time a) → ∀ b ∈ as, time b < time a) := by
  constructor
  · intro h
    refine ⟨fun pre b post e => ?_, h as a [] rfl⟩
    exact h pre b (post ++ [a]) (by rw [e]; simp)
  · rintro ⟨h, hlast⟩ pre b post e
    rcases concat_eq_append_cons_iff.mp e with ⟨-, rfl, rfl⟩ | ⟨post', -, e⟩
    · exact hlast
    · exact h pre b post' e

/-- A batch in strict order repeats nothing. -/
theorem noRepeat_of_ascending {as : List α} (h : Ascending time as) (bound : Int) :
    NoRepeat time bound as := by
  rintro pre a post rfl - - b hb
  exact (List.pairwise_append.mp h).2.2 b hb a List.mem_cons_self

/-! ## First elements -/

theorem appendLaterAll_concat_one (l as : List α) (a : α) :
    appendLaterAll time l (as ++ [a]) = appendLater time (appendLaterAll time l as) a :=
  List.foldl_append

theorem appendLater_later (h : ∀ last, l.getLast? = some last → time last < time a) :
    appendLater time l a = l ++ [a] := by
  unfold appendLater
  cases hl : l.getLast? with
  | none => rw [List.getLast?_eq_none_iff.mp hl]; rfl
  | some last => exact if_pos (h last hl)

theorem appendLater_not_later (hl : l.getLast? = some last) (h : time a ≤ time last) :
    appendLater time l a = l := by
  simp only [appendLater, hl]
  rw [if_neg (by omega)]

variable (time) in
theorem exists_getLast?_appendLater (l : List α) (a : α) :
    ∃ end_, (appendLater time l a).getLast? = some end_ ∧ time a ≤ time end_ ∧
      ∀ last, l.getLast? = some last → time last ≤ time end_ := by
  unfold appendLater
  cases hl : l.getLast? with
  | none => exact ⟨a, rfl, by omega, nofun⟩
  | some last =>
    have hlast : ∀ {end_ : α}, time last ≤ time end_ →
        ∀ d, some last = some d → time d ≤ time end_ := fun h d hd => Option.some.inj hd ▸ h
    dsimp only
    split_ifs with h
    · exact ⟨a, List.getLast?_concat, by omega, hlast (by omega)⟩
    · exact ⟨last, hl, by omega, hlast (by omega)⟩

theorem le_getLast?_appendLaterAll (as : List α) {end_ : α}
    (he : (appendLaterAll time l as).getLast? = some end_) : ∀ a ∈ as, time a ≤ time end_ :=
  (le_getLast?_foldl (exists_getLast?_appendLater time) as he).2

theorem ascending_appendLaterAll (h : Ascending time l) (as : List α) :
    Ascending time (appendLaterAll time l as) := by
  induction as generalizing l with
  | nil => exact h
  | cons a as ih =>
    refine ih ?_
    cases hl : l.getLast? with
    | none =>
      rw [List.getLast?_eq_none_iff.mp hl]
      exact List.pairwise_singleton _ _
    | some last =>
      by_cases ht : time last < time a
      · rw [appendLater_later (forall_getLast?_of_eq hl ht)]
        exact ascending_concat h (forall_getLast?_of_eq hl ht)
      · rwa [appendLater_not_later hl (by omega)]

theorem mem_appendLaterAll {as : List α} (h : a ∈ appendLaterAll time [] as) : a ∈ as := by
  induction as using List.reverseRecOn with
  | nil => exact h
  | append_singleton as c ih =>
    rw [appendLaterAll_concat_one, appendLater] at h
    split at h
    · exact List.mem_append_right _ h
    · split at h
      · rcases List.mem_append.mp h with h | h
        · exact List.mem_append_left _ (ih h)
        · exact List.mem_append_right _ h
      · exact List.mem_append_left _ (ih h)

/-- Of a batch in order, the first element of each time is kept. -/
theorem mem_appendLaterAll_iff {as : List α} (hs : Sorted time as) :
    a ∈ appendLaterAll time [] as ↔
      ∃ pre post, as = pre ++ a :: post ∧ ∀ b ∈ pre, time b ≠ time a := by
  induction as using List.reverseRecOn with
  | nil => simp [appendLaterAll]
  | append_singleton as c ih =>
    obtain ⟨hs, -, hc⟩ := List.pairwise_append.mp hs
    have hc : ∀ b ∈ as, time b ≤ time c := fun b hb => hc b hb c List.mem_cons_self
    -- A first element of the longer batch is one of the shorter batch, or the new one.
    have hsplit : (∃ pre post, as ++ [c] = pre ++ a :: post ∧ ∀ b ∈ pre, time b ≠ time a) ↔
        a ∈ appendLaterAll time [] as ∨ a = c ∧ ∀ b ∈ as, time b ≠ time c := by
      rw [ih hs]
      constructor
      · rintro ⟨pre, post, e, h⟩
        rcases concat_eq_append_cons_iff.mp e with ⟨-, rfl, rfl⟩ | ⟨post', -, e⟩
        · exact .inr ⟨rfl, h⟩
        · exact .inl ⟨pre, post', e, h⟩
      · rintro (⟨pre, post, rfl, h⟩ | ⟨rfl, h⟩)
        · exact ⟨pre, post ++ [c], by simp, h⟩
        · exact ⟨as, [], rfl, h⟩
    rw [hsplit, appendLaterAll_concat_one]
    cases hl : (appendLaterAll time [] as).getLast? with
    | none =>
      have hnil := List.getLast?_eq_none_iff.mp hl
      have has : as = [] := by
        rcases List.eq_nil_or_concat as with h | ⟨init, d, rfl⟩
        · exact h
        · rw [List.concat_eq_append, appendLaterAll_concat_one] at hl
          obtain ⟨e, he, -⟩ := exists_getLast?_appendLater time (appendLaterAll time [] init) d
          rw [hl] at he
          exact nomatch he
      rw [appendLater_later (by rw [hl]; nofun), hnil, has]
      simp
    | some end_ =>
      have hle := le_getLast?_appendLaterAll as hl
      have hend := mem_appendLaterAll (List.mem_of_getLast? hl)
      by_cases ht : time end_ < time c
      · rw [appendLater_later (forall_getLast?_of_eq hl ht)]
        simp only [List.mem_append, List.mem_singleton]
        refine or_congr_right ⟨fun h => ⟨h, fun b hb => ?_⟩, And.left⟩
        have := hle b hb
        omega
      · rw [appendLater_not_later hl (by omega)]
        refine ⟨.inl, fun h => h.resolve_right fun ⟨_, h⟩ => ?_⟩
        have := hc end_ hend
        exact h end_ hend (by omega)

end Lib.Upsert
