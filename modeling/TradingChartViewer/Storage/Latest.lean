import TradingChartViewer.Storage.Contiguous

/-!
# Reading candles

`PriceDataTimeSeriesRepository::getLatest`, and how its series moves as candles
are appended; `getRange`, and what it reads again later.

* `times_appendOrReplace`: a candle leaves the times alone or adds one at
  the end;
* `Advances`: neither end of a series moves back;
* `getLatest_advances`: what one candle does to the latest candles;
* `Grows`: what runs of the writing operations leave; `older_of_grows`: the candles
  before one that was there stay as they are.
-/

namespace TCV.Storage

open TCV.Domain Lib.Grid

/-- `getLatest`, which always succeeds. -/
def Repository.getLatest (r : Repository) (count : Nat) : CandleSeries :=
  let series : CandleSeries := { interval := r.interval }
  if r.candles.isEmpty then series
  else
    let start := if r.candles.length ≤ count then 0 else r.candles.length - count
    let data := r.candles.drop start
    match data.head?, data.getLast? with
    | some front, some back =>
      { series with data := data, firstOpen := front.openTime, lastOpen := back.openTime }
    | _, _ => { series with data := data }

/-- The loop of `getRange`. -/
def rangeLoop (range : TimeRange) : List Candle → List Candle
  | [] => []
  | candle :: rest =>
    if candle.openTime < range.start then rangeLoop range rest
    else if range.end_ < candle.openTime then []
    else candle :: rangeLoop range rest

/-- `getRange`, which always succeeds. -/
def Repository.getRange (r : Repository) (range : TimeRange) : CandleSeries :=
  if range.empty || r.candles.isEmpty then { interval := r.interval }
  else
    let data := rangeLoop range r.candles
    { interval := r.interval
      data := data
      firstOpen := (data.head?.map Candle.openTime).getD 0
      lastOpen := (data.getLast?.map Candle.openTime).getD 0 }

def Repository.lastClosedOpenTime (r : Repository) : Int :=
  ((r.candles.reverse.find? Candle.isClosed).map Candle.openTime).getD r.metadata.maxOpen

/-- The times of the last `count` candles. -/
def latestTimes (times : List Int) (count : Nat) : List Int := times.drop (times.length - count)

def Repository.times (r : Repository) : List Int := r.candles.map Candle.openTime

section

variable {r r' : Repository} {count : Nat}

theorem getLatest_eq (r : Repository) (count : Nat) :
    r.getLatest count =
      { interval := r.interval
        data := r.candles.drop (r.candles.length - count)
        firstOpen := (latestTimes r.times count).head?.getD 0
        lastOpen := (latestTimes r.times count).getLast?.getD 0 } := by
  have hstart : (if r.candles.length ≤ count then 0 else r.candles.length - count) =
      r.candles.length - count := by
    split <;> omega
  unfold Repository.getLatest latestTimes Repository.times
  rw [List.length_map, ← List.map_drop, List.head?_map, List.getLast?_map]
  split
  · rename_i h
    rw [List.isEmpty_iff.mp h]
    simp
  · dsimp only
    rw [hstart]
    cases h : r.candles.drop (r.candles.length - count) with
    | nil => rfl
    | cons c cs =>
      rw [List.head?_cons, List.getLast?_cons]
      rfl

theorem latestTimes_eq (r : Repository) (count : Nat) :
    (r.getLatest count).data.map Candle.openTime = latestTimes r.times count := by
  rw [getLatest_eq, latestTimes, Repository.times, List.length_map, List.map_drop]

/-! ## Appending -/

theorem times_appendOrReplace [TimeUtils] (h : r.Sound) (c : Candle) :
    (r.appendOrReplace c).2.times = r.times ∨
      ∃ t, (r.appendOrReplace c).2.times = r.times ++ [t] := by
  have out := outcome_appendOrReplace h c
  unfold Repository.times
  generalize r.appendOrReplace c = res at out ⊢
  cases out with
  | ignored => exact .inl rfl
  | unchanged _ candles => exact .inl (by rw [candles])
  | started n _ before after => exact .inr ⟨n.openTime, by rw [before, after]; rfl⟩
  | replaced pre last n _ before after time =>
    exact .inl (by rw [before, after]; simp [time])
  | appended pre last n _ before after =>
    exact .inr ⟨n.openTime, by rw [before, after]; simp [Candle.sealed]⟩

/-- Neither end of the second series lies before that of the first, and it is not
empty if the first is not. -/
structure Advances (s t : CandleSeries) : Prop where
  lastOpen : s.lastOpen ≤ t.lastOpen
  firstOpen : s.data ≠ [] → t.data ≠ [] ∧ s.firstOpen ≤ t.firstOpen

theorem Advances.refl (s : CandleSeries) : Advances s s := ⟨le_rfl, fun h => ⟨h, le_rfl⟩⟩

theorem Advances.trans {s t u : CandleSeries} (h : Advances s t) (h' : Advances t u) :
    Advances s u :=
  ⟨h.lastOpen.trans h'.lastOpen, fun hs =>
    have ⟨ht, h₁⟩ := h.firstOpen hs
    have ⟨hu, h₂⟩ := h'.firstOpen ht
    ⟨hu, h₁.trans h₂⟩⟩

/-- One more time at the end of an ascending list of positive times. -/
theorem latestTimes_concat {times : List Int} {t : Int}
    (hs : (times ++ [t]).Pairwise (· < ·)) (hpos : ∀ x ∈ times ++ [t], 0 < x) (count : Nat) :
    (latestTimes times count).getLast?.getD 0 ≤
      (latestTimes (times ++ [t]) count).getLast?.getD 0 ∧
    (latestTimes times count ≠ [] → latestTimes (times ++ [t]) count ≠ [] ∧
      (latestTimes times count).head?.getD 0 ≤
        (latestTimes (times ++ [t]) count).head?.getD 0) := by
  have hlt : ∀ x ∈ times, x < t := fun x hx =>
    (List.pairwise_append.mp hs).2.2 x hx t (List.mem_singleton_self t)
  have hlen : (times ++ [t]).length = times.length + 1 := by simp
  unfold latestTimes
  cases count with
  | zero =>
    rw [Nat.sub_zero, Nat.sub_zero, List.drop_length, List.drop_length]
    exact ⟨le_rfl, fun h => absurd rfl h⟩
  | succ count =>
    have hle : (times ++ [t]).length - (count + 1) ≤ times.length := by omega
    have e : (times ++ [t]).drop ((times ++ [t]).length - (count + 1)) =
        times.drop ((times ++ [t]).length - (count + 1)) ++ [t] :=
      List.drop_append_of_le_length hle
    refine ⟨?_, fun hne => ⟨?_, ?_⟩⟩
    · rw [e, List.getLast?_concat]
      cases hl : (times.drop (times.length - (count + 1))).getLast? with
      | none => exact (hpos t (by simp)).le
      | some x => exact (hlt x (List.drop_subset _ _ (List.mem_of_getLast? hl))).le
    · rw [e]
      simp
    · have hlen' : times.length - (count + 1) < times.length := by
        by_contra h
        exact hne (List.drop_eq_nil_of_le (by omega))
      have h₁ : times.length - (count + 1) < (times ++ [t]).length := by omega
      have h₂ : (times ++ [t]).length - (count + 1) < (times ++ [t]).length := by omega
      have hleft : (times ++ [t])[times.length - (count + 1)]? =
          times[times.length - (count + 1)]? := List.getElem?_append_left hlen'
      rw [List.head?_drop, List.head?_drop, ← hleft, List.getElem?_eq_getElem h₁,
        List.getElem?_eq_getElem h₂]
      -- The window starts at the same time or at the one after it.
      exact (hs.imp le_of_lt).rel_get_of_le (a := ⟨_, h₁⟩) (b := ⟨_, h₂⟩)
        (Fin.mk_le_mk.mpr (by omega))

theorem advances_iff {r' : Repository} :
    Advances (r.getLatest count) (r'.getLatest count) ↔
      (latestTimes r.times count).getLast?.getD 0 ≤
        (latestTimes r'.times count).getLast?.getD 0 ∧
      (latestTimes r.times count ≠ [] → latestTimes r'.times count ≠ [] ∧
        (latestTimes r.times count).head?.getD 0 ≤
          (latestTimes r'.times count).head?.getD 0) := by
  have hne : ∀ q : Repository, (q.getLatest count).data ≠ [] ↔ latestTimes q.times count ≠ [] :=
    fun q => by rw [← latestTimes_eq, ne_eq, ne_eq, List.map_eq_nil_iff]
  constructor
  · rintro ⟨h₁, h₂⟩
    rw [hne, hne] at h₂
    rw [getLatest_eq, getLatest_eq] at h₁ h₂
    exact ⟨h₁, h₂⟩
  · rintro ⟨h₁, h₂⟩
    refine ⟨?_, ?_⟩
    · rw [getLatest_eq, getLatest_eq]
      exact h₁
    · rw [hne, hne, getLatest_eq, getLatest_eq]
      exact h₂

theorem Repository.Contiguous.times_ascend (h : r.Contiguous) :
    r.times.Pairwise (· < ·) ∧ ∀ t ∈ r.times, 0 < t := by
  refine ⟨h.spaced.pairwise h.interval_pos, fun t ht => ?_⟩
  obtain ⟨c, hc, rfl⟩ := List.mem_map.mp ht
  exact (h.onGrid c hc).1

/-- What one candle does to the latest candles. -/
theorem getLatest_advances [TimeUtils] (h : r.Contiguous) (c : Candle) (count : Nat) :
    Advances (r.getLatest count) ((r.appendOrReplace c).2.getLatest count) := by
  have h' := (h.appendOrReplace c).times_ascend
  rw [advances_iff]
  obtain e | ⟨t, e⟩ := times_appendOrReplace h.toSound c
  · rw [e]
    exact ⟨le_rfl, fun hne => ⟨hne, le_rfl⟩⟩
  · rw [e] at h' ⊢
    exact latestTimes_concat h'.1 h'.2 count

theorem getLatest_firstOpen_pos (h : r.Contiguous) (hne : (r.getLatest count).data ≠ []) :
    0 < (r.getLatest count).firstOpen := by
  have hne' : latestTimes r.times count ≠ [] := by
    rwa [← latestTimes_eq, ne_eq, List.map_eq_nil_iff]
  obtain ⟨t, rest, ht⟩ := List.exists_cons_of_ne_nil hne'
  have hmem : t ∈ r.times := List.drop_subset _ _ (ht ▸ List.mem_cons_self)
  rw [getLatest_eq, ht]
  exact h.times_ascend.2 t hmem

/-! ## Growing -/

theorem times_sealOpenTailIfAny [TimeUtils] (h : r.Sound) :
    r.sealOpenTailIfAny.2.times = r.times := by
  unfold Repository.times
  obtain e | ⟨pre, last, e, e'⟩ := candles_sealOpenTailIfAny h
  · rw [e]
  · rw [e, e', List.map_append, List.map_append]
    rfl

/-- What the writing operations leave of a repository: every candle but the last one,
every time, and what stands in its records. -/
structure Grows (r r' : Repository) : Prop where
  candles : r.candles.dropLast <+: r'.candles.dropLast
  times : r.times <+: r'.times
  format : r'.format = r.format

theorem Grows.refl (r : Repository) : Grows r r := ⟨List.prefix_rfl, List.prefix_rfl, rfl⟩

theorem call_grows [TimeUtils] (h : r.Contiguous) (sort : StdSort) (c : Call) :
    (r.call sort c).Contiguous ∧ Grows r (r.call sort c) := by
  refine call_induction (P := fun r' => r'.Contiguous ∧ Grows r r') ?_ ?_ ⟨h, .refl r⟩ c
  · rintro r' c ⟨h', g⟩
    refine ⟨h'.appendOrReplace c,
      g.candles.trans (dropLast_prefix_appendOrReplace h'.toSound c), g.times.trans ?_,
      (appendOrReplace_format h'.toSound c).trans g.format⟩
    obtain e | ⟨t, e⟩ := times_appendOrReplace h'.toSound c
    · rw [e]
    · rw [e]
      exact List.prefix_append _ _
  · rintro r' ⟨h', g⟩
    exact ⟨h'.sealOpenTailIfAny,
      g.candles.trans (dropLast_prefix_sealOpenTailIfAny h'.toSound),
      g.times.trans (times_sealOpenTailIfAny h'.toSound ▸ List.prefix_rfl),
      (sealOpenTailIfAny_format h'.toSound).trans g.format⟩

/-- The candles before a time. -/
def Repository.older (r : Repository) (t : Int) : List Candle := r.candles.filter (·.openTime < t)

/-- The candles before one of a repository are neither the last one nor new. -/
theorem older_of_grows (h' : r'.Contiguous) (g : Grows r r') {t : Int} (ht : t ∈ r.times) :
    r'.older t = r.candles.dropLast.filter (·.openTime < t) := by
  obtain ⟨times, etimes⟩ := g.times
  have hpre : r.candles.dropLast <+: r'.candles := g.candles.trans (List.dropLast_prefix _)
  obtain ⟨rest, erest⟩ := hpre
  have hne : r.times ≠ [] := List.ne_nil_of_mem ht
  -- What follows are the times of the last candle and of the new ones.
  have hrest : rest.map Candle.openTime = r.times.getLast hne :: times := by
    have e : r'.times = r.candles.dropLast.map Candle.openTime ++ rest.map Candle.openTime := by
      rw [Repository.times, ← erest, List.map_append]
    have e' : r.times = r.candles.dropLast.map Candle.openTime ++ [r.times.getLast hne] := by
      rw [List.map_dropLast]
      exact (List.dropLast_append_getLast hne).symm
    rw [← etimes, e', List.append_assoc] at e
    exact (List.append_cancel_left e).symm
  have hge : ∀ c ∈ rest, ¬ c.openTime < t := by
    intro c hc hlt
    have hasc := h'.times_ascend.1
    rw [← etimes] at hasc
    have hle : t ≤ r.times.getLast hne := by
      rw [← List.dropLast_append_getLast hne] at ht hasc
      rcases List.mem_append.mp ht with ht | ht
      · exact ((List.pairwise_append.mp (List.pairwise_append.mp hasc).1).2.2 t ht _
          (List.mem_singleton_self _)).le
      · exact (List.mem_singleton.mp ht).le
    have hc := List.mem_map_of_mem (f := Candle.openTime) hc
    rw [hrest] at hc
    rcases List.mem_cons.mp hc with hc | hc
    · omega
    · have := (List.pairwise_append.mp hasc).2.2 _ (List.getLast_mem hne) _ hc
      omega
  rw [Repository.older, ← erest, List.filter_append, List.append_right_eq_self,
    List.filter_eq_nil_iff]
  simpa using hge

theorem rangeLoop_eq {cs : List Candle} (h : (cs.map Candle.openTime).Pairwise (· < ·))
    (range : TimeRange) (hne : range.empty = false) :
    rangeLoop range cs =
      cs.filter fun c => range.start ≤ c.openTime && c.openTime ≤ range.end_ := by
  have hlt : range.start < range.end_ := by simpa [TimeRange.empty] using hne
  induction cs with
  | nil => rfl
  | cons c cs ih =>
    rw [List.map_cons, List.pairwise_cons] at h
    rw [rangeLoop]
    split
    · rw [List.filter_cons_of_neg (by simp; omega), ih h.2]
    · split
      · rename_i hend
        symm
        rw [List.filter_eq_nil_iff]
        intro d hd
        have : c.openTime ≤ d.openTime := by
          rcases List.mem_cons.mp hd with rfl | hd
          · exact le_rfl
          · exact (h.1 _ (List.mem_map_of_mem hd)).le
        simp
        omega
      · rw [List.filter_cons_of_pos (by simp; omega), ih h.2]

/-- A range that ends before a candle reads from the candles before it. -/
theorem getRange_data (h : r.Contiguous) {range : TimeRange} {t : Int} (ht : range.end_ < t) :
    (r.getRange range).data =
      if range.empty then []
      else (r.older t).filter fun c => range.start ≤ c.openTime && c.openTime ≤ range.end_ := by
  unfold Repository.getRange Repository.older
  cases he : range.empty with
  | true => rfl
  | false =>
    cases hc : r.candles with
    | nil => rfl
    | cons c cs =>
      rw [← hc, if_neg (by simp [hc]), rangeLoop_eq h.times_ascend.1 range he, if_neg nofun,
        List.filter_filter]
      apply List.filter_congr
      intro d _
      by_cases hd : d.openTime < t
      · simp [hd]
      · simp [hd]
        omega

end

end TCV.Storage
