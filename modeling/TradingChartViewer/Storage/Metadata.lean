import TradingChartViewer.Storage.Latest

/-!
# The metadata

The repository keeps its metadata beside its candles and refreshes them where a candle is saved.

* `recomputed`: what a fresh look at the candles gives, whatever their order;
* `Repository.Chronological`: the candles are in order, in every repository;
* `metadata_recomputed`: after every call the metadata are the recomputed ones, and
  `lastClosedOpenTime` agrees with them.
-/

namespace TCV.Storage

open TCV.Domain

/-- The number, the first and the last time of the closed candles; zeros where there are none. -/
def recomputed (candles : List Candle) : RepoMetadata :=
  let times := (closedOf candles).map Candle.openTime
  { count := times.length, minOpen := times.min?.getD 0, maxOpen := times.max?.getD 0 }

/-- The candles do not descend in time. -/
def Repository.Chronological (r : Repository) : Prop := r.times.Pairwise (· ≤ ·)

section

variable {r : Repository}

theorem min?_of_ascending {l : List Int} (h : l.Pairwise (· ≤ ·)) : l.min? = l.head? :=
  List.min?_eq_head? (h.imp min_eq_left)

theorem max?_of_ascending {l : List Int} (h : l.Pairwise (· ≤ ·)) : l.max? = l.getLast? := by
  cases hl : l.getLast? with
  | none => rw [List.getLast?_eq_none_iff.mp hl, List.max?_nil]
  | some t =>
    obtain ⟨init, rfl⟩ := List.getLast?_eq_some_iff.mp hl
    refine List.max?_eq_some_iff.mpr ⟨by simp, fun s hs => ?_⟩
    rcases List.mem_append.mp hs with hs | hs
    · exact (List.pairwise_append.mp h).2.2 s hs t (List.mem_singleton_self t)
    · rw [List.mem_singleton.mp hs]

/-- The loop over candles in order finds the first and the last time. -/
theorem metadataOf_eq_recomputed (h : r.Chronological) :
    metadataOf r.candles = recomputed r.candles := by
  have hclosed : ((closedOf r.candles).map Candle.openTime).Pairwise (· ≤ ·) :=
    h.sublist (List.filter_sublist.map _)
  rw [metadataOf_eq, recomputed, min?_of_ascending hclosed, max?_of_ascending hclosed,
    List.head?_map, List.getLast?_map, List.length_map]

/-- The newest closed candle has the last time. -/
theorem lastClosedOpenTime_eq (h : r.Sound) : r.lastClosedOpenTime = r.metadata.maxOpen := by
  rw [Repository.lastClosedOpenTime, h.metadata, metadataOf_eq, closedOf, List.getLast?_filter]
  cases r.candles.reverse.find? Candle.isClosed <;> rfl

/-! ## The order of the candles -/

theorem construct_chronological (sort : StdSort) (file : DataFile) (symbol : List Char)
    (interval : Interval) : (Repository.construct sort file symbol interval).Chronological := by
  unfold Repository.construct Repository.loadHistoricalLocked Repository.refreshMetadataLocked
  dsimp only
  generalize List.foldl Repository.loadRecord _ _ = r
  show (Repository.times _).Pairwise (· ≤ ·)
  unfold Repository.times
  split <;> exact List.pairwise_map.mpr (sort.sorted r.candles)

theorem Repository.Chronological.appendOrReplace [TimeUtils] (hs : r.Sound) (h : r.Chronological)
    (c : Candle) : (r.appendOrReplace c).2.Chronological := by
  have hI := hs.interval_pos
  have out := outcome_appendOrReplace hs c
  unfold Repository.Chronological Repository.times at h ⊢
  generalize r.appendOrReplace c = res at out ⊢
  cases out with
  | ignored => exact h
  | unchanged _ candles => rwa [candles]
  | started n _ before after =>
    rw [after]
    exact List.pairwise_singleton _ _
  | replaced pre last n _ before after time =>
    rw [before, List.map_append] at h
    rw [after, List.map_append, List.map_singleton, time]
    exact h
  | appended pre last n _ before after time =>
    -- The new candle comes after the last one, and so after all.
    rw [before, List.map_append, List.map_singleton] at h
    rw [after, List.map_append]
    obtain ⟨hpre, -, hle⟩ := List.pairwise_append.mp h
    refine List.pairwise_append.mpr ⟨hpre, ?_, fun s hs' t ht => ?_⟩
    · simp only [List.map_cons, List.map_nil, List.pairwise_cons, Candle.sealed]
      simp [time]
      omega
    · have := hle s hs' last.openTime (List.mem_singleton_self _)
      simp only [List.map_cons, List.map_nil, List.mem_cons, Candle.sealed, time] at ht
      simp at ht
      omega

theorem Repository.Chronological.sealOpenTailIfAny [TimeUtils] (hs : r.Sound)
    (h : r.Chronological) : r.sealOpenTailIfAny.2.Chronological := by
  unfold Repository.Chronological Repository.times at h ⊢
  obtain e | ⟨pre, last, e, e'⟩ := candles_sealOpenTailIfAny hs
  · rwa [e]
  · rw [e, List.map_append] at h
    rw [e', List.map_append]
    exact h

end

/-- After every run on any file the metadata are those that the candles have, and the last closed
time is the greatest of theirs. -/
theorem metadata_recomputed [TimeUtils] (sort : StdSort) (file : DataFile) (symbol : List Char)
    (interval : Interval) (cs : List Call) :
    let r := (Repository.construct sort file symbol interval).calls sort cs
    r.metadata = recomputed r.candles ∧ r.lastClosedOpenTime = r.metadata.maxOpen := by
  intro r
  have h : r.Sound ∧ r.Chronological := calls_induction (P := fun r => r.Sound ∧ r.Chronological)
    (fun _ c h => ⟨appendOrReplace_sound h.1 c, h.2.appendOrReplace h.1 c⟩)
    (fun _ h => ⟨sealOpenTailIfAny_sound h.1, h.2.sealOpenTailIfAny h.1⟩)
    ⟨construct_sound sort file symbol interval,
      construct_chronological sort file symbol interval⟩ cs
  exact ⟨h.1.metadata.trans (metadataOf_eq_recomputed h.2), lastClosedOpenTime_eq h.1⟩

end TCV.Storage
