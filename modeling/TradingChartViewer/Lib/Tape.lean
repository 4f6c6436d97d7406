import TradingChartViewer.Lib.Grid
import Mathlib.Data.List.Infix

/-!
# Tapes

A tape is a list of cells at consecutive grid times, all final but possibly
the last. A new cell is offered by its time: it starts an empty tape,
replaces the last cell when it has its time (unless it would reopen a final
one), follows it when it comes exactly one step later (the last cell is then
finished), and is refused otherwise.

* `place`, `offer`: where a cell goes, and the tape it leaves;
* `Ok`: the invariant;
* `dropLast_prefix_offer`, `offer_cell`: no cell but the last ever changes, and what
  becomes of a cell;
* `getLast?_offer`: a cell that enters is the new last one;
* `feed`: cells offered in turn up to the first gap; `feed_entered_iff`, `feed_gap_iff`,
  `feed_flag_iff`: what becomes of cells in order.
-/

namespace Lib.Tape

open Lib.Grid

/-- How cells are read and finished. -/
structure Cells (α : Type*) where
  time : α → Int
  final : α → Bool
  finish : α → α
  time_finish : ∀ a, time (finish a) = time a
  final_finish : ∀ a, final (finish a) = true
  finish_of_final : ∀ a, final a = true → finish a = a

/-- Where an offered cell goes. -/
inductive Place
  | start
  | replace
  | follow
  | overlap
  | gap
  deriving DecidableEq, Repr

/-- The offered cell becomes the last one. -/
def Place.enters : Place → Bool
  | .start | .replace | .follow => true
  | .overlap | .gap => false

variable {α : Type*} (C : Cells α) (I : Int)

def place (cells : List α) (c : α) : Place :=
  match cells.getLast? with
  | none => .start
  | some last =>
    if C.time c = C.time last then if C.final last && !C.final c then .overlap else .replace
    else if C.time c < C.time last + I then .overlap
    else if C.time last + I < C.time c then .gap
    else .follow

def offer (cells : List α) (c : α) : List α :=
  match place C I cells c with
  | .start => [c]
  | .replace => cells.dropLast ++ [c]
  | .follow => cells.dropLast ++ (cells.getLast?.map C.finish).toList ++ [c]
  | .overlap => cells
  | .gap => cells

/-- The invariant of a tape. -/
structure Ok (cells : List α) : Prop where
  spaced : Spaced I (cells.map C.time)
  final : ∀ c ∈ cells.dropLast, C.final c = true

variable {C I} {cells : List α} {c last : α}

/-! ## Where a cell goes -/

theorem place_nil (c : α) : place C I [] c = .start := rfl

theorem place_some (h : cells.getLast? = some last) :
    place C I cells c =
      if C.time c = C.time last then if C.final last && !C.final c then .overlap else .replace
      else if C.time c < C.time last + I then .overlap
      else if C.time last + I < C.time c then .gap
      else .follow := by
  simp only [place, h]

theorem place_eq_start : place C I cells c = .start ↔ cells = [] := by
  cases h : cells.getLast? with
  | none =>
    rw [List.getLast?_eq_none_iff] at h
    simp [h, place_nil]
  | some last =>
    have hne : cells ≠ [] := by rintro rfl; cases h
    simp only [place_some h, hne, iff_false]
    split_ifs <;> simp

theorem place_eq_replace (h : cells.getLast? = some last) :
    place C I cells c = .replace ↔
      C.time c = C.time last ∧ ¬ (C.final last = true ∧ C.final c = false) := by
  rw [place_some h]
  split_ifs <;> simp_all

theorem place_eq_follow (hI : 0 < I) (h : cells.getLast? = some last) :
    place C I cells c = .follow ↔ C.time c = C.time last + I := by
  rw [place_some h]
  split_ifs <;> simp only [false_iff, true_iff] <;> omega

theorem place_eq_gap (hI : 0 < I) (h : cells.getLast? = some last) :
    place C I cells c = .gap ↔ C.time last + I < C.time c := by
  rw [place_some h]
  split_ifs <;> simp only [false_iff, true_iff] <;> omega

/-! ## What an offer leaves -/

theorem offer_start (h : place C I cells c = .start) : offer C I cells c = [c] := by
  rw [offer, h]

theorem offer_replace (h : place C I cells c = .replace) :
    offer C I cells c = cells.dropLast ++ [c] := by
  rw [offer, h]

theorem offer_follow (h : place C I cells c = .follow) (hl : cells.getLast? = some last) :
    offer C I cells c = cells.dropLast ++ [C.finish last] ++ [c] := by
  rw [offer, h, hl]
  rfl

theorem offer_overlap (h : place C I cells c = .overlap) : offer C I cells c = cells := by
  rw [offer, h]

theorem offer_gap (h : place C I cells c = .gap) : offer C I cells c = cells := by
  rw [offer, h]

theorem dropLast_append_of_getLast? (h : cells.getLast? = some last) :
    cells.dropLast ++ [last] = cells :=
  List.dropLast_append_getLast? last h

/-- No cell but the last ever changes. -/
theorem dropLast_prefix_offer (cells : List α) (c : α) :
    cells.dropLast <+: (offer C I cells c).dropLast := by
  unfold offer
  split
  · rename_i h
    rw [place_eq_start.mp h]
    exact List.nil_prefix
  · rw [List.dropLast_concat]
  · rw [List.dropLast_concat]
    exact List.prefix_append _ _
  · exact List.prefix_rfl
  · exact List.prefix_rfl

/-- A cell that enters is the new last one. -/
theorem getLast?_offer (cells : List α) (c : α) :
    (offer C I cells c).getLast? =
      if (place C I cells c).enters then some c else cells.getLast? := by
  unfold offer
  split <;> rename_i h <;> simp [Place.enters, h]

/-- No time ever changes. -/
theorem times_prefix_offer (cells : List α) (c : α) :
    cells.map C.time <+: (offer C I cells c).map C.time := by
  cases hl : cells.getLast? with
  | none => rw [List.getLast?_eq_none_iff.mp hl]; exact List.nil_prefix
  | some last =>
    have e : cells.map C.time = cells.dropLast.map C.time ++ [C.time last] := by
      rw [← List.map_singleton (f := C.time), ← List.map_append, dropLast_append_of_getLast? hl]
    cases hp : place C I cells c with
    | start =>
      rw [place_eq_start.mp hp]
      exact List.nil_prefix
    | replace =>
      rw [offer_replace hp, List.map_append, List.map_singleton, ((place_eq_replace hl).mp hp).1, e]
    | follow =>
      rw [offer_follow hp hl, List.map_append, List.map_append, List.map_singleton, C.time_finish, e]
      exact List.prefix_append _ _
    | overlap => rw [offer_overlap hp]
    | gap => rw [offer_gap hp]

/-- A cell keeps its place and time under an offer; it is finished or, where it is the
last one, replaced by the offered cell. -/
theorem offer_cell (pre : List α) (cell : α) (more : List α) (c : α) :
    ∃ cell' more', offer C I (pre ++ cell :: more) c = pre ++ cell' :: more' ∧
      C.time cell' = C.time cell ∧ (C.final cell = true → C.final cell' = true) ∧
      (cell' = cell ∨ cell' = C.finish cell ∨ cell' = c) := by
  by_cases hm : more = []
  · subst hm
    have hl : (pre ++ [cell]).getLast? = some cell := List.getLast?_concat
    cases hp : place C I (pre ++ [cell]) c with
    | start => exact absurd (place_eq_start.mp hp) (by simp)
    | replace =>
      obtain ⟨ht, hf⟩ := (place_eq_replace hl).mp hp
      refine ⟨c, [], ?_, ht, fun hcell => ?_, .inr (.inr rfl)⟩
      · rw [offer_replace hp, List.dropLast_concat]
      · simpa [hcell] using hf
    | follow =>
      refine ⟨C.finish cell, [c], ?_, C.time_finish cell, fun _ => C.final_finish cell,
        .inr (.inl rfl)⟩
      rw [offer_follow hp hl, List.dropLast_concat, List.append_assoc]
      rfl
    | overlap => exact ⟨cell, [], offer_overlap hp, rfl, id, .inl rfl⟩
    | gap => exact ⟨cell, [], offer_gap hp, rfl, id, .inl rfl⟩
  · -- A cell that is not the last one stays.
    obtain ⟨rest, hrest⟩ := (dropLast_prefix_offer (C := C) (I := I) (pre ++ cell :: more) c).trans
      (List.dropLast_prefix _)
    rw [List.dropLast_append_of_ne_nil (List.cons_ne_nil _ _), List.dropLast_cons_of_ne_nil hm,
      List.append_assoc] at hrest
    exact ⟨cell, _, hrest.symm, rfl, id, .inl rfl⟩

theorem offer_final (h : ∀ a ∈ cells.dropLast, C.final a = true) (c : α) :
    ∀ a ∈ (offer C I cells c).dropLast, C.final a = true := by
  unfold offer
  split
  · simp
  · rwa [List.dropLast_concat]
  · rw [List.dropLast_concat]
    intro a ha
    rcases List.mem_append.mp ha with ha | ha
    · exact h a ha
    · obtain ⟨last, -, rfl⟩ := Option.mem_map.mp (Option.mem_toList.mp ha)
      exact C.final_finish last
  · exact h
  · exact h

theorem offer_spaced (hI : 0 < I) (h : Spaced I (cells.map C.time)) (c : α) :
    Spaced I ((offer C I cells c).map C.time) := by
  cases hl : cells.getLast? with
  | none =>
    rw [offer_start (place_eq_start.mpr (List.getLast?_eq_none_iff.mp hl))]
    exact .singleton _
  | some last =>
    rw [← dropLast_append_of_getLast? hl, List.map_append] at h
    cases hp : place C I cells c with
    | start =>
      rw [offer_start hp]
      exact .singleton _
    | overlap => rwa [offer_overlap hp, ← dropLast_append_of_getLast? hl, List.map_append]
    | gap => rwa [offer_gap hp, ← dropLast_append_of_getLast? hl, List.map_append]
    | replace =>
      rw [offer_replace hp, List.map_append, List.map_singleton, ((place_eq_replace hl).mp hp).1]
      exact h
    | follow =>
      rw [offer_follow hp hl, List.map_append, List.map_append, List.map_singleton,
        List.map_singleton, C.time_finish, (place_eq_follow hI hl).mp hp]
      apply Spaced.concat h
      intro s hs
      simp only [List.map_singleton, List.getLast?_append, List.getLast?_singleton,
        Option.some_or, Option.mem_def, Option.some.injEq] at hs
      rw [hs]

/-! ## Runs of final cells -/

theorem offer_next (hI : 0 < I) (hl : cells.getLast? = some last) (hf : C.final last = true)
    (ht : C.time c = C.time last + I) : offer C I cells c = cells ++ [c] := by
  rw [offer_follow ((place_eq_follow hI hl).mpr ht) hl, C.finish_of_final last hf,
    dropLast_append_of_getLast? hl]

/-! ## Offers in turn -/

/-- A tape after offers up to the first gap, whether there was one, and whether a cell entered. -/
structure Fed (α : Type*) where
  cells : List α
  gap : Bool := false
  entered : Bool := false

variable (C I) in
def feed (cells : List α) : List α → Fed α
  | [] => { cells := cells }
  | c :: cs =>
    if place C I cells c = .gap then { cells := cells, gap := true }
    else
      let rest := feed (offer C I cells c) cs
      { rest with entered := (place C I cells c).enters || rest.entered }

variable (C I) in
/-- The offered cell takes the place of the last one or follows it. -/
def Touches (last c : α) : Prop :=
  C.time c = C.time last + I ∨
    C.time c = C.time last ∧ ¬ (C.final last = true ∧ C.final c = false)

/-- What one offer does to the last cell. -/
theorem place_cases (hI : 0 < I) (h : cells.getLast? = some last) (c : α) :
    (place C I cells c = .gap ∧ C.time last + I < C.time c) ∨
    (place C I cells c = .overlap ∧ C.time c < C.time last + I ∧ ¬ Touches C I last c) ∨
    ((place C I cells c).enters = true ∧ place C I cells c ≠ .gap ∧ Touches C I last c) := by
  cases hp : place C I cells c with
  | start => rw [place_eq_start.mp hp] at h; cases h
  | replace => exact .inr (.inr ⟨rfl, by decide, .inr ((place_eq_replace h).mp hp)⟩)
  | follow => exact .inr (.inr ⟨rfl, by decide, .inl ((place_eq_follow hI h).mp hp)⟩)
  | gap => exact .inl ⟨rfl, (place_eq_gap hI h).mp hp⟩
  | overlap =>
    have hr := mt (place_eq_replace (C := C) (I := I) (c := c) h).mpr (by rw [hp]; decide)
    have hf := mt (place_eq_follow (C := C) (c := c) hI h).mpr (by rw [hp]; decide)
    have hg := mt (place_eq_gap (C := C) (c := c) hI h).mpr (by rw [hp]; decide)
    exact .inr (.inl ⟨rfl, by omega, not_or.mpr ⟨hf, hr⟩⟩)

section Feed

variable {cs : List α}

theorem feed_gap (h : place C I cells c = .gap) :
    feed C I cells (c :: cs) = { cells := cells, gap := true } := by
  rw [feed, if_pos h]

theorem feed_overlap (h : place C I cells c = .overlap) :
    feed C I cells (c :: cs) = feed C I cells cs := by
  rw [feed, if_neg (by rw [h]; decide), offer_overlap h, h]
  rfl

theorem feed_enters (h : (place C I cells c).enters = true) :
    feed C I cells (c :: cs) = { feed C I (offer C I cells c) cs with entered := true } := by
  have hg : place C I cells c ≠ .gap := fun e => by rw [e] at h; cases h
  rw [feed, if_neg hg, h]
  rfl

theorem getLast?_offer_enters (h : (place C I cells c).enters = true) :
    (offer C I cells c).getLast? = some c := by
  rw [getLast?_offer, if_pos h]

/-- Of cells in order one enters exactly if one touches the last cell. -/
theorem feed_entered_iff (hI : 0 < I) (hl : cells.getLast? = some last)
    (hs : cs.Pairwise fun a b => C.time a ≤ C.time b) :
    (feed C I cells cs).entered = true ↔ ∃ c ∈ cs, Touches C I last c := by
  induction cs with
  | nil => simp [feed]
  | cons c cs ih =>
    obtain ⟨hle, hs⟩ := List.pairwise_cons.mp hs
    rcases place_cases hI hl c with ⟨hp, hlt⟩ | ⟨hp, -, hnot⟩ | ⟨hp, -, ht⟩
    · rw [feed_gap hp]
      refine iff_of_false Bool.false_ne_true ?_
      rintro ⟨d, hd, ht⟩
      have hcd : C.time c ≤ C.time d := by
        rcases List.mem_cons.mp hd with rfl | hd
        · exact le_rfl
        · exact hle d hd
      unfold Touches at ht
      omega
    · rw [feed_overlap hp, ih hs]
      simp [hnot]
    · rw [feed_enters hp]
      exact iff_of_true rfl ⟨c, List.mem_cons_self, ht⟩

/-- The last cell after offers in turn has the time of the one before, or of an offered cell. -/
theorem feed_last_mem (hI : 0 < I) (hl : cells.getLast? = some last) (cs : List α) :
    ∃ last', (feed C I cells cs).cells.getLast? = some last' ∧ C.time last ≤ C.time last' ∧
      (C.time last' = C.time last ∨ ∃ c ∈ cs, C.time c = C.time last') := by
  induction cs generalizing cells last with
  | nil => exact ⟨last, hl, le_rfl, .inl rfl⟩
  | cons c cs ih =>
    rcases place_cases hI hl c with ⟨hp, -⟩ | ⟨hp, -⟩ | ⟨hp, -, ht⟩
    · rw [feed_gap hp]
      exact ⟨last, hl, le_rfl, .inl rfl⟩
    · rw [feed_overlap hp]
      obtain ⟨last', h, hle, hmem⟩ := ih hl
      exact ⟨last', h, hle, hmem.imp_right fun ⟨d, hd, e⟩ => ⟨d, List.mem_cons_of_mem _ hd, e⟩⟩
    · rw [feed_enters hp]
      obtain ⟨last', h, hle, hmem⟩ := ih (getLast?_offer_enters hp)
      refine ⟨last', h, ?_, ?_⟩
      · unfold Touches at ht
        omega
      · right
        rcases hmem with e | ⟨d, hd, e⟩
        · exact ⟨c, List.mem_cons_self, e.symm⟩
        · exact ⟨d, List.mem_cons_of_mem _ hd, e⟩

/-- Cells in order at grid times leave a gap exactly if the one a step before a later one is not
among them. -/
theorem feed_gap_iff (hI : 0 < I) (hl : cells.getLast? = some last) (hd : I ∣ C.time last)
    (hds : ∀ c ∈ cs, I ∣ C.time c) (hs : cs.Pairwise fun a b => C.time a ≤ C.time b) :
    (feed C I cells cs).gap = true ↔
      ∃ c ∈ cs, C.time last + I < C.time c ∧ ∀ d ∈ cs, C.time d ≠ C.time c - I := by
  induction cs generalizing cells last with
  | nil => simp [feed]
  | cons c cs ih =>
    obtain ⟨hle, hs⟩ := List.pairwise_cons.mp hs
    obtain ⟨hdc, hds⟩ := List.forall_mem_cons.mp hds
    rcases place_cases hI hl c with ⟨hp, hlt⟩ | ⟨hp, hlt, -⟩ | ⟨hp, -, ht⟩
    · rw [feed_gap hp]
      refine iff_of_true rfl ⟨c, List.mem_cons_self, hlt, fun d hd => ?_⟩
      rcases List.mem_cons.mp hd with rfl | hd
      · omega
      · have := hle d hd
        omega
    · have hcl := le_of_lt_add hdc hd hlt
      rw [feed_overlap hp, ih hl hd hds hs]
      constructor
      · rintro ⟨e, he, hlate, hne⟩
        refine ⟨e, List.mem_cons_of_mem _ he, hlate, List.forall_mem_cons.mpr ⟨?_, hne⟩⟩
        omega
      · rintro ⟨e, he, hlate, hne⟩
        refine ⟨e, (List.mem_cons.mp he).resolve_left ?_, hlate,
          fun d hd => hne d (List.mem_cons_of_mem _ hd)⟩
        rintro rfl
        omega
    · rw [feed_enters hp]
      dsimp only
      rw [ih (getLast?_offer_enters hp) hdc hds hs]
      -- The new last cell is `c`, at the time of the old one or a step later.
      have hc : C.time c = C.time last ∨ C.time c = C.time last + I := by
        unfold Touches at ht
        omega
      constructor
      · rintro ⟨e, he, hlate, hne⟩
        refine ⟨e, List.mem_cons_of_mem _ he, by omega, List.forall_mem_cons.mpr ⟨?_, hne⟩⟩
        omega
      · rintro ⟨e, he, hlate, hne⟩
        have hce := hne c List.mem_cons_self
        have hmem : e ∈ cs := (List.mem_cons.mp he).resolve_left (by rintro rfl; omega)
        have hstep := add_le_of_lt hdc (hds e hmem) (by omega)
        exact ⟨e, hmem, by omega, fun d hd => hne d (List.mem_cons_of_mem _ hd)⟩

/-- Without a gap the last cell is as late as every offered one. -/
theorem le_feed_last (hI : 0 < I) (hl : cells.getLast? = some last) (hd : I ∣ C.time last)
    (hds : ∀ c ∈ cs, I ∣ C.time c) (hgap : (feed C I cells cs).gap = false) :
    ∀ last' ∈ (feed C I cells cs).cells.getLast?, ∀ c ∈ cs, C.time c ≤ C.time last' := by
  induction cs generalizing cells last with
  | nil => exact fun _ _ c hc => absurd hc List.not_mem_nil
  | cons c cs ih =>
    obtain ⟨hdc, hds⟩ := List.forall_mem_cons.mp hds
    intro last' hlast'
    rcases place_cases hI hl c with ⟨hp, -⟩ | ⟨hp, hlt, -⟩ | ⟨hp, -, -⟩
    · rw [feed_gap hp] at hgap
      cases hgap
    · rw [feed_overlap hp] at hgap hlast'
      refine List.forall_mem_cons.mpr ⟨?_, ih hl hd hds hgap last' hlast'⟩
      obtain ⟨last'', h, hle, -⟩ := feed_last_mem hI hl cs
      obtain rfl := Option.some.inj (h.symm.trans hlast')
      exact (le_of_lt_add hdc hd hlt).trans hle
    · rw [feed_enters hp] at hgap hlast'
      have hl' := getLast?_offer_enters hp
      refine List.forall_mem_cons.mpr ⟨?_, ih hl' hdc hds hgap last' hlast'⟩
      obtain ⟨last'', h, hle, -⟩ := feed_last_mem hI hl' cs
      obtain rfl := Option.some.inj (h.symm.trans hlast')
      exact hle

theorem feed_ne_nil (hI : 0 < I) (h : cells ≠ [] ∨ (feed C I cells cs).gap = true) :
    (feed C I cells cs).cells ≠ [] := by
  have hlast : ∀ {cells' : List α}, cells' ≠ [] → ∀ cs', (feed C I cells' cs').cells ≠ [] := by
    intro cells' hne cs'
    obtain ⟨last', h, -⟩ := feed_last_mem (C := C) hI (List.getLast?_eq_some_getLast hne) cs'
    exact fun e => by rw [e] at h; cases h
  by_cases hnil : cells = []
  · subst hnil
    cases cs with
    | nil => exact absurd h (by simp [feed])
    | cons c cs =>
      have hp : place C I [] c = .start := rfl
      rw [feed_enters (by rw [hp]; rfl), offer_start hp]
      exact hlast (List.cons_ne_nil c []) cs
  · exact hlast hnil cs

/-- A flag that a gap sets and a cell that enters clears, set as long as the last cell is before a
limit. -/
theorem feed_flag_iff (hI : 0 < I) (hl : cells.getLast? = some last) (hds : ∀ c ∈ cs, I ∣ C.time c)
    (hs : cs.Pairwise fun a b => C.time a ≤ C.time b) {flag : Bool} {limit : Int}
    (hflag : C.time last < limit → flag = true) :
    (∀ last' ∈ (feed C I cells cs).cells.getLast?, C.time last' < limit →
        ((feed C I cells cs).gap || !(feed C I cells cs).entered && flag) = true) ↔
      (C.time last < limit → (∃ c ∈ cs, Touches C I last c) →
        (∃ c ∈ cs, limit ≤ C.time c) ∨
          ∃ c ∈ cs, C.time last + I < C.time c ∧ ∀ d ∈ cs, C.time d ≠ C.time c - I) := by
  obtain ⟨last', hl', hle, hmem⟩ := feed_last_mem (C := C) hI hl cs
  have hentered := feed_entered_iff (C := C) hI hl hs
  -- A cell that is touched lies on the grid.
  have hgrid : (∃ c ∈ cs, Touches C I last c) → I ∣ C.time last := by
    rintro ⟨c, hc, ht⟩
    have := hds c hc
    rcases ht with e | ⟨e, -⟩
    · rw [e] at this
      exact (Int.dvd_add_left (Int.dvd_refl I)).mp this
    · rwa [e] at this
  simp only [hl', Option.mem_some_iff, forall_eq']
  constructor
  · intro h hlt htouch
    by_contra hcon
    obtain ⟨hshort, hhole⟩ := not_or.mp hcon
    have hgap := mt (feed_gap_iff hI hl (hgrid htouch) hds hs).mp hhole
    have hlast' : C.time last' < limit := by
      rcases hmem with e | ⟨c, hc, e⟩
      · omega
      · by_contra hge
        exact hshort ⟨c, hc, by omega⟩
    have := h hlast'
    simp [hgap, hentered.mpr htouch] at this
  · intro h hlt'
    cases hgap : (feed C I cells cs).gap with
    | true => rfl
    | false =>
      cases hen : (feed C I cells cs).entered with
      | false => simp [hflag (by omega)]
      | true =>
        have htouch := hentered.mp hen
        rcases h (by omega) htouch with ⟨c, hc, hlimit⟩ | hhole
        · have := le_feed_last hI hl (hgrid htouch) hds hgap last' hl' c hc
          omega
        · rw [(feed_gap_iff hI hl (hgrid htouch) hds hs).mpr hhole] at hgap
          cases hgap

end Feed

end Lib.Tape
