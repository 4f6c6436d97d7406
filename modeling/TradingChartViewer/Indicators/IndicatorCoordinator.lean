import TradingChartViewer.Indicators.IndicatorEngine
import TradingChartViewer.Lib.Deferred
import TradingChartViewer.Storage.Latest

/-!
# The indicator coordinator

`IndicatorCoordinator`: the cache of averages, by series and parameters, and the
computations that fill it. A synchronous call looks its slot up and stores its
result in two critical sections, like a detached thread in its only one; whatever
happens between them, a computation here finishes at any later time. The log lines
are left out, and with them the incremental update: `getEMA` drops the series it
would start from.

* `prepareSeriesWithWarmup`, `trimWarmup`, `getEMA`, `finish`, `invalidate`;
* `Coordinator.Keeps`, `Coordinator.InOrder`; `completions_iff`: when no result
  replaces a later one or comes back after `invalidate`.
-/

namespace TCV.Indicators

open TCV.Domain TCV.Storage Lib.Run

/-! ## The warm-up -/

structure PreparedSeries where
  view : CandleSeries
  warmup : Nat := 0
  deriving DecidableEq, Repr

/-- The range `prepareSeriesWithWarmup` asks the repository for. -/
def warmupTimes (repo : Repository) (candles : CandleSeries) (params : EmaParams) :
    Option TimeRange :=
  if params.period ≤ 1 || candles.data.isEmpty then none
  else
    let intervalMs := if candles.interval.valid then candles.interval.ms else repo.getIntervalMs
    let warmupCount := params.period - 1
    let meta_ := repo.metadata
    let requiredStart := candles.firstOpen - warmupCount * intervalMs
    let clampedStart := max meta_.minOpen requiredStart
    let warmupEnd := candles.firstOpen - intervalMs
    if intervalMs ≤ 0 then none
    else if warmupCount = 0 || candles.firstOpen ≤ 0 then none
    else if meta_.count = 0 || meta_.minOpen ≤ 0 then none
    else if candles.firstOpen ≤ requiredStart then none
    else if candles.firstOpen ≤ clampedStart then none
    else if warmupEnd < clampedStart then none
    else some { start := clampedStart, end_ := warmupEnd }

/-- `getRange` does not fail. -/
def prepareSeriesWithWarmup (repo : Repository) (candles : CandleSeries) (params : EmaParams) :
    PreparedSeries :=
  match warmupTimes repo candles params with
  | none => { view := candles }
  | some range =>
    let warmup := (repo.getRange range).data
    if warmup.isEmpty then { view := candles }
    else
      let data := warmup ++ candles.data
      { view := {
          interval := if candles.interval.valid then candles.interval else ⟨repo.getIntervalMs⟩
          data := data
          firstOpen := (data.head?.map Candle.openTime).getD 0
          lastOpen := (data.getLast?.map Candle.openTime).getD 0 }
        warmup := warmup.length }

def trimWarmup (series : IndicatorSeries) (warmup targetSize : Nat) : IndicatorSeries :=
  if series.values.length ≤ warmup then
    { id := series.id, values := List.replicate targetSize none }
  else
    let copied := (series.values.drop warmup).take targetSize
    { id := series.id, values := copied ++ List.replicate (targetSize - copied.length) none }

/-! ## The cache -/

structure CacheKey where
  seriesId : String
  params : EmaParams
  deriving DecidableEq, Repr

/-- `computation` is the number of the one that made `series`, which the source does
not keep. -/
structure CachedIndicator where
  version : SeriesVersion := {}
  series : Option IndicatorSeries := none
  pendingVersion : Option SeriesVersion := none
  computation : Nat := 0
  deriving DecidableEq, Repr

/-- A computation for the candles a call of `getEMA` passed: a detached thread, or the
call itself. `invalidated` says whether `invalidate` was called for its series since,
which the source does not keep. -/
structure Computation where
  key : CacheKey
  candles : CandleSeries
  prepared : PreparedSeries
  version : SeriesVersion
  detached : Bool
  finished : Bool := false
  invalidated : Bool := false
  deriving DecidableEq, Repr

/-- What a computation stores. -/
def Computation.result (c : Computation) : IndicatorSeries :=
  trimWarmup (computeEMA c.prepared.view c.key.params) c.prepared.warmup c.candles.data.length

/-- A series that `getEMA` returned for the candles. -/
structure Answer where
  candles : CandleSeries
  params : EmaParams
  series : IndicatorSeries
  deriving DecidableEq, Repr

/-- `returned` is what the calls returned so far. -/
structure Coordinator where
  cache : CacheKey → Option CachedIndicator := fun _ => none
  computations : List Computation := []
  returned : List Answer := []

def Coordinator.put (s : Coordinator) (key : CacheKey) (slot : CachedIndicator) : Coordinator :=
  { s with cache := Function.update s.cache key (some slot) }

def Coordinator.compute (s : Coordinator) (c : Computation) : Coordinator :=
  { s with computations := s.computations ++ [c] }

def Coordinator.scheduleEmaCompute_ (s : Coordinator) (c : Computation) : Coordinator :=
  let candles := c.prepared.view
  if candles.data.isEmpty then s
  else if candles.data.length < sizeOfInt c.key.params.period then s
  else s.compute c

/-- The series the slot of `key` holds for the version and size. -/
def Coordinator.cached (s : Coordinator) (key : CacheKey) (version : SeriesVersion)
    (targetSize : Nat) : Option (IndicatorSeries × Nat) :=
  (s.cache key).bind fun slot =>
    slot.series.bind fun series =>
      if slot.version = version && series.values.length = targetSize then
        some (series, slot.computation)
      else none

/-- `getEMA` up to the end of its first critical section, and its return but for a
synchronous computation. -/
def Coordinator.getEMA (s : Coordinator) (repo : Repository) (seriesId : String)
    (candles : CandleSeries) (version : SeriesVersion) (params : EmaParams)
    (allowAsyncRecompute : Bool) : Coordinator :=
  let key : CacheKey := { seriesId := seriesId, params := params }
  let targetSize := candles.data.length
  if targetSize = 0 then s
  else
    let prepared := prepareSeriesWithWarmup repo candles params
    let computation : Computation :=
      { key := key, candles := candles, prepared := prepared, version := version,
        detached := allowAsyncRecompute }
    match s.cached key version targetSize with
    | some (series, _) =>
      { s with returned := s.returned ++ [{ candles := candles, params := params, series := series }] }
    | none =>
      let slot := (s.cache key).getD {}
      if allowAsyncRecompute then
        if slot.pendingVersion = some version then s
        else
          let s := s.put key { slot with pendingVersion := some version }
          if targetSize < sizeOfInt params.period then s else s.scheduleEmaCompute_ computation
      else (s.put key { slot with pendingVersion := none }).compute computation

/-- Computation `n` stores its result; if it is the call itself, it returns it. -/
def Coordinator.finish (s : Coordinator) (n : Nat) : Option Coordinator :=
  match s.computations[n]? with
  | none => none
  | some c =>
    if c.finished then none
    else
      let slot : CachedIndicator :=
        { version := c.version, series := some c.result, pendingVersion := none, computation := n }
      let s := s.put c.key slot
      some { s with
        computations := s.computations.set n { c with finished := true }
        returned :=
          if c.detached then s.returned
          else s.returned ++
            [{ candles := c.candles, params := c.key.params, series := c.result }] }

def Coordinator.invalidate (s : Coordinator) (seriesId : String) : Coordinator :=
  { s with
    cache := fun key => if key.seriesId = seriesId then none else s.cache key
    computations := s.computations.map fun c =>
      { c with invalidated := c.invalidated || c.key.seriesId = seriesId } }

inductive CoordinatorEvent
  | getEMA (repo : Repository) (seriesId : String) (candles : CandleSeries)
    (version : SeriesVersion) (params : EmaParams) (allowAsyncRecompute : Bool)
  | finish (n : Nat)
  | invalidate (seriesId : String)

def Coordinator.step (s : Coordinator) : CoordinatorEvent → Option Coordinator
  | .getEMA repo seriesId candles version params allowAsyncRecompute =>
    some (s.getEMA repo seriesId candles version params allowAsyncRecompute)
  | .finish n => s.finish n
  | .invalidate seriesId => some (s.invalidate seriesId)

/-! ## Completions -/

/-- The series in the slot of `key`, and the computation that made it. -/
def Coordinator.stored (s : Coordinator) (key : CacheKey) : Option (IndicatorSeries × Nat) :=
  (s.cache key).bind fun slot => slot.series.map fun series => (series, slot.computation)

def Coordinator.holds (s : Coordinator) (key : CacheKey) : Option Nat :=
  (s.stored key).map Prod.snd

/-- A completion does not replace the series of a later computation, and puts none
back for a series that was invalidated since it was scheduled. -/
def Coordinator.Keeps (s : Coordinator) (e : CoordinatorEvent) : Prop :=
  ∀ n c, e = .finish n → s.computations[n]? = some c → ∀ t, s.step e = some t →
    (∀ m, s.holds c.key = some m → n < m → t.holds c.key = some m) ∧
    (c.invalidated = true → t.holds c.key ≠ some n)

/-- A completion comes after no completion of a later computation of its key, and
after no `invalidate` of its series since it was scheduled. -/
def Coordinator.InOrder (s : Coordinator) (e : CoordinatorEvent) : Prop :=
  ∀ n c, e = .finish n → s.computations[n]? = some c → c.invalidated = false ∧
    ∀ m, n < m → ∀ d, s.computations[m]? = some d → d.key = c.key → d.finished = false

/-- What is said of a completion can be evaluated. -/
instance decidableCompletion (s : Coordinator) (e : CoordinatorEvent)
    (P : Nat → Computation → Prop) [∀ n c, Decidable (P n c)] :
    Decidable (∀ n c, e = .finish n → s.computations[n]? = some c → P n c) :=
  match e with
  | .getEMA .. => .isTrue fun _ _ he => CoordinatorEvent.noConfusion he
  | .invalidate _ => .isTrue fun _ _ he => CoordinatorEvent.noConfusion he
  | .finish n =>
    decidable_of_iff (∀ c ∈ s.computations[n]?, P n c)
      ⟨fun h _ c he hc => CoordinatorEvent.finish.inj he ▸ h c (CoordinatorEvent.finish.inj he ▸ hc),
        fun h c hc => h n c rfl hc⟩

instance (s : Coordinator) (e : CoordinatorEvent) : Decidable (s.Keeps e) :=
  have (n : Nat) (c : Computation) : Decidable (∀ t, s.step e = some t →
      (∀ m, s.holds c.key = some m → n < m → t.holds c.key = some m) ∧
      (c.invalidated = true → t.holds c.key ≠ some n)) :=
    have (t : Coordinator) : Decidable (∀ m, s.holds c.key = some m → n < m →
        t.holds c.key = some m) :=
      inferInstanceAs (Decidable (∀ m ∈ s.holds c.key, n < m → t.holds c.key = some m))
    inferInstanceAs (Decidable (∀ t ∈ s.step e, _ ∧ _))
  decidableCompletion s e _

instance (s : Coordinator) (e : CoordinatorEvent) : Decidable (s.InOrder e) :=
  have (n : Nat) (c : Computation) : Decidable (∀ m, n < m → ∀ d, s.computations[m]? = some d →
      d.key = c.key → d.finished = false) :=
    decidable_of_iff (∀ m ∈ List.range s.computations.length, n < m →
        ∀ d ∈ s.computations[m]?, d.key = c.key → d.finished = false)
      ⟨fun h m hlt d hd =>
          h m (List.mem_range.mpr (List.getElem?_eq_some_iff.mp hd).1) hlt d hd,
        fun h m _ hlt d hd => h m hlt d hd⟩
  decidableCompletion s e _

section

variable {s t : Coordinator} {repo : Repository} {seriesId : String} {candles : CandleSeries}
  {version : SeriesVersion} {params : EmaParams} {async : Bool}

/-- All that a call can do in its first critical section. -/
theorem getEMA_cases (s : Coordinator) (repo : Repository) (seriesId : String)
    (candles : CandleSeries) (version : SeriesVersion) (params : EmaParams) (async : Bool) :
    let key : CacheKey := { seriesId := seriesId, params := params }
    s.getEMA repo seriesId candles version params async = s ∨
    (∃ series n, candles.data ≠ [] ∧
      s.cached key version candles.data.length = some (series, n) ∧
      s.getEMA repo seriesId candles version params async =
        { s with returned := s.returned ++
          [{ candles := candles, params := params, series := series }] }) ∨
    ∃ pending, s.getEMA repo seriesId candles version params async =
        s.put key { (s.cache key).getD {} with pendingVersion := pending } ∨
      candles.data ≠ [] ∧ s.getEMA repo seriesId candles version params async =
        (s.put key { (s.cache key).getD {} with pendingVersion := pending }).compute
          { key := key, candles := candles
            prepared := prepareSeriesWithWarmup repo candles params
            version := version, detached := async } := by
  intro key
  unfold Coordinator.getEMA Coordinator.scheduleEmaCompute_
  dsimp only
  split
  · exact .inl rfl
  rename_i hsize
  have hne : candles.data ≠ [] := fun h => hsize (by rw [h]; rfl)
  split
  · rename_i series n hc
    exact .inr (.inl ⟨series, n, hne, hc, rfl⟩)
  cases async with
  | false => exact .inr (.inr ⟨none, .inr ⟨hne, rfl⟩⟩)
  | true =>
    simp only [if_true]
    split_ifs
    · exact .inl rfl
    · exact .inr (.inr ⟨some version, .inl rfl⟩)
    · exact .inr (.inr ⟨some version, .inl rfl⟩)
    · exact .inr (.inr ⟨some version, .inl rfl⟩)
    · exact .inr (.inr ⟨some version, .inr ⟨hne, rfl⟩⟩)

/-- Another pending version. -/
theorem stored_put_pending (s : Coordinator) (key : CacheKey) (pending : Option SeriesVersion) :
    (s.put key { (s.cache key).getD {} with pendingVersion := pending }).stored = s.stored := by
  funext k
  unfold Coordinator.stored Coordinator.put
  dsimp only
  by_cases hk : k = key
  · subst hk
    rw [Function.update_self]
    cases s.cache k <;> rfl
  · rw [Function.update_of_ne hk]

theorem stored_of_cached {key : CacheKey} {size : Nat} {p : IndicatorSeries × Nat}
    (h : s.cached key version size = some p) : s.stored key = some p := by
  unfold Coordinator.cached at h
  unfold Coordinator.stored
  obtain ⟨slot, hslot, h⟩ := Option.bind_eq_some_iff.mp h
  obtain ⟨series, hseries, h⟩ := Option.bind_eq_some_iff.mp h
  split at h
  · rw [hslot, Option.bind_some, hseries, ← h]
    rfl
  · cases h

theorem finish_eq {n : Nat} (h : s.finish n = some t) : ∃ c, s.computations[n]? = some c ∧
    t.stored = Function.update s.stored c.key (some (c.result, n)) ∧
    t.computations = s.computations.set n { c with finished := true } ∧
    t.returned = if c.detached then s.returned
      else s.returned ++ [{ candles := c.candles, params := c.key.params, series := c.result }] := by
  unfold Coordinator.finish at h
  split at h
  · cases h
  · rename_i c hc
    split at h
    · cases h
    · obtain rfl := Option.some.inj h
      refine ⟨c, hc, ?_, rfl, rfl⟩
      funext k
      unfold Coordinator.stored Coordinator.put
      dsimp only
      by_cases hk : k = c.key
      · subst hk
        rw [Function.update_self, Function.update_self]
        rfl
      · rw [Function.update_of_ne hk, Function.update_of_ne hk]

theorem stored_invalidate (s : Coordinator) (seriesId : String) (key : CacheKey) :
    (s.invalidate seriesId).stored key =
      if key.seriesId = seriesId then none else s.stored key := by
  unfold Coordinator.stored Coordinator.invalidate
  dsimp only
  split <;> rfl

def Computation.job (c : Computation) : Lib.Deferred.Job CacheKey :=
  { key := c.key, finished := c.finished, dropped := c.invalidated }

/-- The coordinator as slots filled by jobs. -/
def Coordinator.view (s : Coordinator) : Lib.Deferred.View CacheKey :=
  { held := s.holds, jobs := s.computations.map Computation.job }

def CoordinatorEvent.finishes : CoordinatorEvent → Option Nat
  | .finish n => some n
  | _ => none

theorem step_moves (s : Coordinator) (e : CoordinatorEvent) (t : Coordinator)
    (h : s.step e = some t) : Lib.Deferred.Moves s.view e.finishes t.view := by
  cases e with
  | getEMA repo seriesId candles version params async =>
    obtain rfl := Option.some.inj h
    let key : CacheKey := { seriesId := seriesId, params := params }
    have hview : ∀ pending more,
        Coordinator.view { s.put key { (s.cache key).getD {} with pendingVersion := pending } with
          computations := s.computations ++ more } =
        { held := s.holds, jobs := s.computations.map Computation.job ++ more.map Computation.job } := by
      intro pending more
      rw [Coordinator.view, List.map_append]
      congr 1
      funext k
      exact congrArg (Option.map Prod.snd) (congrFun (stored_put_pending s key pending) k)
    rcases getEMA_cases s repo seriesId candles version params async with
      e | ⟨series, n, -, -, e⟩ | ⟨pending, e | ⟨-, e⟩⟩ <;> rw [e]
    · exact .stay
    · exact .stay
    · have := hview pending []
      rw [List.append_nil, List.map_nil, List.append_nil] at this
      exact this ▸ .stay
    · exact hview pending [_] ▸ .start key
  | finish n =>
    obtain ⟨c, hc, hstored, hcomp, -⟩ := finish_eq h
    have hview : t.view =
        { held := Function.update s.holds c.key (some n)
          jobs := (s.computations.map Computation.job).set n { c.job with finished := true } } := by
      rw [Coordinator.view, hcomp, List.map_set]
      congr 1
      funext k
      unfold Coordinator.holds
      rw [hstored]
      by_cases hk : k = c.key
      · rw [hk, Function.update_self, Function.update_self]
        rfl
      · rw [Function.update_of_ne hk, Function.update_of_ne hk]
    rw [hview]
    have hjob : s.view.jobs[n]? = some c.job := by
      rw [Coordinator.view, List.getElem?_map, hc]
      rfl
    exact .finish hjob
  | invalidate seriesId =>
    obtain rfl := Option.some.inj h
    have hview : (s.invalidate seriesId).view =
        { held := fun key => if key.seriesId = seriesId then none else s.view.held key
          jobs := s.view.jobs.map fun job =>
            { job with dropped := job.dropped || job.key.seriesId = seriesId } } := by
      rw [Coordinator.view, Coordinator.view, Coordinator.invalidate, List.map_map, List.map_map]
      congr 1
      funext key
      apply (congrArg (Option.map Prod.snd) (stored_invalidate s seriesId key)).trans
      split <;> rfl
    rw [hview]
    exact .drop fun key : CacheKey => key.seriesId = seriesId

theorem finishes_eq {e : CoordinatorEvent} {n : Nat} : e.finishes = some n ↔ e = .finish n := by
  cases e <;> simp [CoordinatorEvent.finishes]

theorem forall_job {P : Lib.Deferred.Job CacheKey → Prop} {n : Nat} :
    (∀ job, s.view.jobs[n]? = some job → P job) ↔
      ∀ c, s.computations[n]? = some c → P c.job := by
  rw [Coordinator.view, List.getElem?_map]
  constructor
  · exact fun h c hc => h _ (by rw [hc]; rfl)
  · intro h job hj
    obtain ⟨c, hc, rfl⟩ := Option.map_eq_some_iff.mp hj
    exact h c hc

theorem keeps_iff (s : Coordinator) (e : CoordinatorEvent) :
    s.Keeps e ↔ Lib.Deferred.KeepsAt Coordinator.step Coordinator.view CoordinatorEvent.finishes s e := by
  unfold Coordinator.Keeps Lib.Deferred.KeepsAt Lib.Deferred.Keeps
  simp only [finishes_eq, forall_job]
  constructor
  · exact fun h n t he ht c hc => h n c he hc t ht
  · exact fun h n c he hc t ht => h n t he ht c hc

theorem inOrder_iff (s : Coordinator) (e : CoordinatorEvent) :
    s.InOrder e ↔ Lib.Deferred.InOrderAt Coordinator.view CoordinatorEvent.finishes s e := by
  unfold Coordinator.InOrder Lib.Deferred.InOrderAt Lib.Deferred.InOrder
  simp only [finishes_eq, forall_job]
  constructor
  · exact fun h n he c hc => h n c he hc
  · exact fun h n c he hc => h n he c hc

end

/-- Over every run, completions in the order of the calls, each before the next
`invalidate` of its series, are exactly those after which the cache keeps what it
should. -/
theorem completions_iff (es : List CoordinatorEvent) (s : Coordinator)
    (hrun : run Coordinator.step {} es = some s) :
    Along Coordinator.step Coordinator.Keeps {} es ↔
      Along Coordinator.step Coordinator.InOrder {} es := by
  have h := Lib.Deferred.along_keeps_iff step_moves rfl (fun _ => rfl) hrun
  rwa [← funext₂ fun s e => propext (keeps_iff s e), ← funext₂ fun s e => propext (inOrder_iff s e)] at h

/-- A call for the average of one candle. -/
def call (candleCount : Nat) : CoordinatorEvent :=
  .getEMA (Repository.construct .insertion {} ['B'] ⟨60000⟩) "B"
    ⟨⟨60000⟩, [flatCandle 60000 true], 60000, 60000⟩ ⟨60000, candleCount⟩ ⟨1⟩ true

/-- Two computations that finish in order, and then an `invalidate`. -/
theorem completions_iff_two :
    (run Coordinator.step {} [call 1, call 2, .finish 0, .finish 1, .invalidate "B"]).isSome ∧
    Along Coordinator.step Coordinator.Keeps {}
      [call 1, call 2, .finish 0, .finish 1, .invalidate "B"] := by
  have hrun : (run Coordinator.step {}
    [call 1, call 2, .finish 0, .finish 1, .invalidate "B"]).isSome := by decide +kernel
  obtain ⟨s, hs⟩ := Option.isSome_iff_exists.mp hrun
  exact ⟨hrun, (completions_iff _ s hs).mpr (by decide +kernel)⟩

/-- The second computation finishes first and its series is replaced; a computation
finishes after an `invalidate` and its series is back. -/
theorem completions_replaced :
    ¬ Along Coordinator.step Coordinator.Keeps {} [call 1, call 2, .finish 1, .finish 0] ∧
    ¬ Along Coordinator.step Coordinator.Keeps {} [call 1, .invalidate "B", .finish 0] := by
  decide +kernel

end TCV.Indicators
