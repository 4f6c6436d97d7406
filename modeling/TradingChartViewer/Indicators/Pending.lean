import TradingChartViewer.Indicators.IndicatorCoordinator

/-!
# Marked slots

A call that may be answered later marks the slot of its series with its version, so that other
calls for the version wait.

* `Coordinator.pending`, `Coordinator.Running`: the mark of a slot, and a scheduled computation that
  has not stored its result;
* `Coordinator.NotStuck`: behind every mark there is such a computation, and so every later call is
  answered, waits for one, or schedules one;
* `Coordinator.MarksRunning`: a call does not mark a slot for which nothing runs;
* `pending_iff`: the slots of a run are not stuck exactly if none of its calls does.
-/

namespace TCV.Indicators

open TCV.Domain TCV.Storage Lib.Run

/-! ## Marks -/

def Coordinator.pending (s : Coordinator) (key : CacheKey) : Option SeriesVersion :=
  (s.cache key).bind fun slot => slot.pendingVersion

/-- A computation was scheduled for the key and version, and has not stored its result. -/
def Coordinator.Running (s : Coordinator) (key : CacheKey) (version : SeriesVersion) : Prop :=
  ∃ c ∈ s.computations, c.key = key ∧ c.version = version ∧ c.detached = true ∧ c.finished = false

instance (s : Coordinator) (key : CacheKey) (version : SeriesVersion) :
    Decidable (s.Running key version) :=
  inferInstanceAs (Decidable (∃ c ∈ s.computations, _ ∧ _))

/-- Behind every mark a computation is running; and a later call with candles enough finds a series,
waits for one, or schedules one. -/
structure Coordinator.NotStuck (s : Coordinator) : Prop where
  running : ∀ key version, s.pending key = some version → s.Running key version
  served : ∀ repo seriesId candles version params, candles.data ≠ [] →
    sizeOfInt params.period ≤ candles.data.length →
    (s.cached ⟨seriesId, params⟩ version candles.data.length).isSome = true ∨
    s.Running ⟨seriesId, params⟩ version ∨
    ∃ c, (s.getEMA repo seriesId candles version params true).computations = s.computations ++ [c] ∧
      c.key = ⟨seriesId, params⟩ ∧ c.version = version ∧ c.detached = true ∧ c.finished = false

/-- A call that marks a slot has candles enough for the average, or a computation for its key and
version is running already. -/
def Coordinator.MarksRunning (s : Coordinator) (e : CoordinatorEvent) : Prop :=
  ∀ repo seriesId candles version params, e = .getEMA repo seriesId candles version params true →
    candles.data ≠ [] → s.cached ⟨seriesId, params⟩ version candles.data.length = none →
    s.pending ⟨seriesId, params⟩ ≠ some version →
    sizeOfInt params.period ≤ candles.data.length ∨ s.Running ⟨seriesId, params⟩ version

theorem marksRunning_getEMA (s : Coordinator) (repo : Repository) (seriesId : String)
    (candles : CandleSeries) (version : SeriesVersion) (params : EmaParams) :
    s.MarksRunning (.getEMA repo seriesId candles version params true) ↔
      (candles.data ≠ [] → s.cached ⟨seriesId, params⟩ version candles.data.length = none →
        s.pending ⟨seriesId, params⟩ ≠ some version →
        sizeOfInt params.period ≤ candles.data.length ∨ s.Running ⟨seriesId, params⟩ version) := by
  constructor
  · exact fun hm => hm repo seriesId candles version params rfl
  · intro hm _ _ _ _ _ he
    cases he
    exact hm

instance (s : Coordinator) (e : CoordinatorEvent) : Decidable (s.MarksRunning e) :=
  match e with
  | .getEMA repo seriesId candles version params true =>
    decidable_of_iff _ (marksRunning_getEMA s repo seriesId candles version params).symm
  | .getEMA _ _ _ _ _ false => .isTrue fun _ _ _ _ _ he => by cases he
  | .finish _ => .isTrue fun _ _ _ _ _ he => by cases he
  | .invalidate _ => .isTrue fun _ _ _ _ _ he => by cases he

section

variable {s t : Coordinator} {repo : Repository} {seriesId : String} {candles : CandleSeries}
  {version : SeriesVersion} {params : EmaParams} {key : CacheKey}

/-! ## One step -/

@[simp] theorem pending_put (s : Coordinator) (key k : CacheKey) (slot : CachedIndicator) :
    (s.put key slot).pending k = if k = key then slot.pendingVersion else s.pending k := by
  unfold Coordinator.pending Coordinator.put
  dsimp only
  by_cases hk : k = key
  · rw [if_pos hk, hk, Function.update_self, Option.bind_some]
  · rw [if_neg hk, Function.update_of_ne hk]

theorem pending_eq (s : Coordinator) (key : CacheKey) :
    ((s.cache key).getD {}).pendingVersion = s.pending key := by
  unfold Coordinator.pending
  cases s.cache key <;> rfl

/-- More computations. -/
theorem Coordinator.Running.append (h : s.Running key version)
    (hc : ∃ more, t.computations = s.computations ++ more) : t.Running key version := by
  obtain ⟨more, hc⟩ := hc
  obtain ⟨c, hmem, hrest⟩ := h
  exact ⟨c, hc ▸ List.mem_append_left more hmem, hrest⟩

theorem length_le_prepareSeriesWithWarmup (repo : Repository) (candles : CandleSeries)
    (params : EmaParams) :
    candles.data.length ≤ (prepareSeriesWithWarmup repo candles params).view.data.length := by
  unfold prepareSeriesWithWarmup
  split
  · exact le_rfl
  · dsimp only
    split
    · exact le_rfl
    · rw [List.length_append]
      omega

/-- With candles enough, the schedule path does not return early. -/
theorem scheduleEmaCompute_eq (s : Coordinator) (repo : Repository) (hne : candles.data ≠ [])
    (henough : sizeOfInt params.period ≤ candles.data.length) (version : SeriesVersion)
    (detached : Bool) :
    let c : Computation :=
      { key := ⟨seriesId, params⟩, candles := candles
        prepared := prepareSeriesWithWarmup repo candles params, version := version
        detached := detached }
    s.scheduleEmaCompute_ c = s.compute c := by
  intro c
  have hle := length_le_prepareSeriesWithWarmup repo candles params
  have hpos := List.length_pos_of_ne_nil hne
  unfold Coordinator.scheduleEmaCompute_
  dsimp only
  rw [if_neg, if_neg (by show ¬ _ < _; dsimp only [c]; omega)]
  rw [List.isEmpty_iff]
  intro hnil
  dsimp only [c] at hnil
  rw [hnil, List.length_nil] at hle
  omega

/-- What an asynchronous call does that finds no series for its version. -/
theorem getEMA_async (hne : candles.data ≠ [])
    (hcached : s.cached ⟨seriesId, params⟩ version candles.data.length = none) :
    let key : CacheKey := ⟨seriesId, params⟩
    let marked := s.put key { (s.cache key).getD {} with pendingVersion := some version }
    s.getEMA repo seriesId candles version params true =
      if s.pending key = some version then s
      else if candles.data.length < sizeOfInt params.period then marked
      else marked.compute
        { key := key, candles := candles, prepared := prepareSeriesWithWarmup repo candles params,
          version := version, detached := true } := by
  intro key marked
  unfold Coordinator.getEMA
  dsimp only
  rw [if_neg (by simpa using hne), hcached]
  dsimp only
  rw [if_pos rfl, pending_eq]
  split
  · rfl
  · split
    · rfl
    · rename_i henough
      exact scheduleEmaCompute_eq _ repo hne (Nat.not_lt.mp henough) version true

/-- Behind every mark a computation is running: that is all there is to show. -/
theorem notStuck_of_running
    (h : ∀ key version, s.pending key = some version → s.Running key version) : s.NotStuck := by
  refine ⟨h, fun repo seriesId candles version params hne henough => ?_⟩
  cases hcached : s.cached ⟨seriesId, params⟩ version candles.data.length with
  | some found => exact .inl rfl
  | none =>
    rw [getEMA_async hne hcached, if_neg (show ¬ candles.data.length < _ by omega)]
    by_cases hp : s.pending ⟨seriesId, params⟩ = some version
    · exact .inr (.inl (h _ _ hp))
    · rw [if_neg hp]
      exact .inr (.inr ⟨_, rfl, rfl, rfl, rfl, rfl⟩)

/-- No more marks, and no fewer computations. -/
theorem Coordinator.NotStuck.of_pending (h : s.NotStuck)
    (hp : ∀ key version, t.pending key = some version → s.pending key = some version)
    (hc : ∃ more, t.computations = s.computations ++ more) : t.NotStuck :=
  notStuck_of_running fun key version hk => (h.running key version (hp key version hk)).append hc

/-- The mark of an asynchronous call. -/
theorem notStuck_getEMA_async_iff (h : s.NotStuck) (repo : Repository) (hne : candles.data ≠ [])
    (hcached : s.cached ⟨seriesId, params⟩ version candles.data.length = none) :
    (s.getEMA repo seriesId candles version params true).NotStuck ↔
      (s.pending ⟨seriesId, params⟩ ≠ some version →
        sizeOfInt params.period ≤ candles.data.length ∨ s.Running ⟨seriesId, params⟩ version) := by
  rw [getEMA_async hne hcached]
  by_cases hp : s.pending ⟨seriesId, params⟩ = some version
  · rw [if_pos hp]
    exact iff_of_true h fun hne => absurd hp hne
  · -- The marks of the other slots stay.
    have hothers {t : Coordinator} (hpending : ∀ k, t.pending k =
        if k = ⟨seriesId, params⟩ then some version else s.pending k)
        (hc : ∃ more, t.computations = s.computations ++ more)
        (hown : t.Running ⟨seriesId, params⟩ version) : t.NotStuck := by
      refine notStuck_of_running fun k v hk => ?_
      rw [hpending k] at hk
      split at hk
      · rename_i hkey
        rw [hkey, ← Option.some.inj hk]
        exact hown
      · exact (h.running k v hk).append hc
    rw [if_neg hp]
    split
    · rename_i hfew
      constructor
      · intro ht _
        exact .inr (ht.running ⟨seriesId, params⟩ version (by simp))
      · intro hrun
        exact hothers (fun k => by simp) ⟨[], (List.append_nil _).symm⟩
          ((hrun hp).resolve_left (by omega))
    · rename_i henough
      refine iff_of_true (hothers (fun k => ?_) ⟨_, rfl⟩ ?_) fun _ => .inl (Nat.not_lt.mp henough)
      · exact (pending_put _ _ k _).trans (by simp)
      · exact ⟨_, List.mem_append_right _ (List.mem_singleton_self _), rfl, rfl, rfl, rfl⟩

/-- A synchronous call takes the mark of its slot away. -/
theorem notStuck_getEMA_sync (h : s.NotStuck) (repo : Repository) (seriesId : String)
    (candles : CandleSeries) (version : SeriesVersion) (params : EmaParams) :
    (s.getEMA repo seriesId candles version params false).NotStuck := by
  unfold Coordinator.getEMA
  dsimp only
  split
  · exact h
  · split
    · exact h.of_pending (fun _ _ hk => hk) ⟨[], (List.append_nil _).symm⟩
    · rw [if_neg (by decide)]
      refine h.of_pending (fun k v hk => ?_) ⟨_, rfl⟩
      have hk := (pending_put _ _ k _).symm.trans hk
      split at hk
      · cases hk
      · exact hk

/-- A step leaves no slot stuck exactly if it marks none for which nothing runs. -/
theorem notStuck_getEMA_iff (h : s.NotStuck) (repo : Repository) (seriesId : String)
    (candles : CandleSeries) (version : SeriesVersion) (params : EmaParams) (async : Bool) :
    (s.getEMA repo seriesId candles version params async).NotStuck ↔
      s.MarksRunning (.getEMA repo seriesId candles version params async) := by
  cases async with
  | false =>
    refine iff_of_true (notStuck_getEMA_sync h repo seriesId candles version params) ?_
    intro _ _ _ _ _ he
    cases he
  | true =>
    rw [marksRunning_getEMA]
    by_cases hne : candles.data = []
    · refine iff_of_true ?_ fun hc => absurd hne hc
      rw [Coordinator.getEMA, hne]
      exact h
    · cases hcached : s.cached ⟨seriesId, params⟩ version candles.data.length with
      | none =>
        rw [notStuck_getEMA_async_iff h repo hne hcached]
        simp [hne]
      | some found =>
        refine iff_of_true ?_ nofun
        unfold Coordinator.getEMA
        dsimp only
        rw [if_neg (by simpa using hne), hcached]
        exact h.of_pending (fun _ _ hk => hk) ⟨[], (List.append_nil _).symm⟩

/-- A result takes the mark of its slot away, and no other computation ends. -/
theorem notStuck_finish (h : s.NotStuck) {n : Nat} (hf : s.finish n = some t) : t.NotStuck := by
  refine notStuck_of_running fun k v hk => ?_
  unfold Coordinator.finish at hf
  split at hf
  · cases hf
  · rename_i c hc
    split at hf
    · cases hf
    · obtain rfl := Option.some.inj hf
      have hk := (pending_put _ _ k _).symm.trans hk
      split at hk
      · cases hk
      · rename_i hne
        obtain ⟨d, hd, hkey, hrest⟩ := h.running k v hk
        obtain ⟨m, hm⟩ := List.getElem?_of_mem hd
        have hnm : n ≠ m := by
          rintro rfl
          rw [hc] at hm
          exact hne (hkey ▸ congrArg Computation.key (Option.some.inj hm).symm)
        exact ⟨d, List.mem_of_getElem? ((List.getElem?_set_ne hnm).trans hm), hkey, hrest⟩

theorem notStuck_invalidate (h : s.NotStuck) (seriesId : String) :
    (s.invalidate seriesId).NotStuck := by
  refine notStuck_of_running fun k v hk => ?_
  unfold Coordinator.pending Coordinator.invalidate at hk
  dsimp only at hk
  split at hk
  · cases hk
  · obtain ⟨c, hc, hrest⟩ := h.running k v hk
    exact ⟨_, List.mem_map_of_mem hc, hrest⟩

/-- A step leaves no slot stuck exactly if it marks none for which nothing runs. -/
theorem notStuck_step_iff (h : s.NotStuck) {e : CoordinatorEvent} (hs : s.step e = some t) :
    t.NotStuck ↔ s.MarksRunning e := by
  cases e with
  | getEMA repo seriesId candles version params async =>
    obtain rfl := Option.some.inj hs
    exact notStuck_getEMA_iff h repo seriesId candles version params async
  | finish n =>
    refine iff_of_true (notStuck_finish h hs) fun _ _ _ _ _ he => ?_
    cases he
  | invalidate seriesId =>
    obtain rfl := Option.some.inj hs
    refine iff_of_true (notStuck_invalidate h seriesId) fun _ _ _ _ _ he => ?_
    cases he

end

/-! ## Runs -/

/-- No slot is stuck in any state of a run exactly if no call of the run marks a slot for which
nothing runs and nothing is scheduled. -/
theorem pending_iff (es : List CoordinatorEvent) (s : Coordinator)
    (hrun : run Coordinator.step {} es = some s) :
    (∀ pre, pre <+: es → ∀ t, run Coordinator.step {} pre = some t → t.NotStuck) ↔
      Along Coordinator.step Coordinator.MarksRunning {} es :=
  always_iff_along (J := fun _ => True) (fun _ _ _ _ _ => trivial)
    (fun _ _ _ _ h hs => notStuck_step_iff h hs) trivial
    (notStuck_of_running fun _ _ hk => nomatch hk) hrun

/-- The average of two candles, asked for with `n` of them. -/
def callOfTwo (n : Nat) : CoordinatorEvent :=
  .getEMA (Repository.construct .insertion {} ['B'] ⟨60000⟩) "B"
    ⟨⟨60000⟩, (List.replicate n (flatCandle 60000 true)), 60000, 60000⟩ ⟨60000, 1⟩ ⟨2⟩ true

/-- With two candles it is computed. -/
theorem pending_iff_two :
    (run Coordinator.step {} [callOfTwo 2, callOfTwo 2, .finish 0]).isSome = true ∧
    ∀ pre, pre <+: [callOfTwo 2, callOfTwo 2, .finish 0] →
      ∀ t, run Coordinator.step {} pre = some t → t.NotStuck := by
  have hrun : (run Coordinator.step {} [callOfTwo 2, callOfTwo 2, .finish 0]).isSome = true := by
    decide +kernel
  obtain ⟨s, hs⟩ := Option.isSome_iff_exists.mp hrun
  exact ⟨hrun, (pending_iff _ s hs).mpr (by decide +kernel)⟩

/-- With one candle the slot is marked and nothing is scheduled; nor is it for two candles then. -/
theorem pending_stuck : ∃ s, run Coordinator.step {} [callOfTwo 1] = some s ∧ ¬ s.NotStuck ∧
    (s.step (callOfTwo 2)).map Coordinator.computations = some [] := by
  refine ⟨_, rfl, fun h => ?_, by decide +kernel⟩
  have := h.running ⟨"B", ⟨2⟩⟩ ⟨60000, 1⟩ (by decide +kernel)
  revert this
  decide +kernel

end TCV.Indicators
