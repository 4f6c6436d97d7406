import TradingChartViewer.Lib.Announce
import TradingChartViewer.Storage.Interleaving

/-!
# The announced price limits

`actualize`, calls of `updateWithNewData` and calls of `addPriceLimitObserver`, each locked
section and each callback of an observer one step. The limits change under the lock, and the
observers are called after it is released.

* `latestRecords`, `applyLatest`: the two locked sections of `rebuildCacheFromHistorical`;
* `LimitSystem.step`: the steps; `LimitSystem.moves`: what each does to the announced values;
* `LimitSystem.InTime`: a callback is made while one with the current limit is to be made;
* `limits_upToDate`: if so, every observer has the limits when no call is in progress.
-/

namespace TCV.Storage

open TCV.Domain Lib.TimeMap Lib.Run Lib.Announce

/-! ## Limits -/

inductive Limit
  | max
  | min
  deriving DecidableEq, Repr

/-- `onMaxPriceLimitChanged` or `onMinPriceLimitChanged` of an observer. -/
abbrev PriceCallback := Callback Nat Limit Price

/-- The callbacks of one call: first all of the maximum, then all of the minimum. -/
def callbacks (priceObserversCopy : List Nat) (maxChanged minChanged : Option Price) :
    List PriceCallback :=
  (maxChanged.elim [] fun value => priceObserversCopy.map (⟨·, .max, value⟩)) ++
    minChanged.elim [] fun value => priceObserversCopy.map (⟨·, .min, value⟩)

/-- The value of a limit among the two. -/
def Limit.pick (changed : Option Price × Option Price) : Limit → Option Price
  | .max => changed.1
  | .min => changed.2

theorem mem_callbacks {observers : List Nat} {maxChanged minChanged : Option Price}
    {c : PriceCallback} : c ∈ callbacks observers maxChanged minChanged ↔
      c.observer ∈ observers ∧ c.topic.pick (maxChanged, minChanged) = some c.value := by
  obtain ⟨o, k, v⟩ := c
  cases k <;> cases maxChanged <;> cases minChanged <;> simp [callbacks, Limit.pick, eq_comm]

theorem mem_flatten_set {α : Type*} {l : List (List α)} {i : Nat} {c : α} {rest : List α}
    (h : l[i]? = some (c :: rest)) (d : α) :
    d ∈ l.flatten ↔ d = c ∨ d ∈ (l.set i rest).flatten := by
  induction l generalizing i with
  | nil => simp at h
  | cons a l ih =>
    cases i with
    | zero =>
      obtain rfl := Option.some.inj h
      simp
    | succ i =>
      rw [List.getElem?_cons_succ] at h
      simp only [List.set_cons_succ, List.flatten_cons, List.mem_append, ih h]
      exact or_left_comm

section

variable [TimeUtils]

/-- A limit that was ever set. -/
def DatabaseEngine.limit (e : DatabaseEngine) : Limit → Option Price
  | .max => e.currentMaxPrice
  | .min => e.currentMinPrice

/-- The first locked section of `rebuildCacheFromHistorical`. -/
def latestRecords (e : DatabaseEngine) : List MinuteRecord :=
  (values e.historicalData).reverse.take cacheSize

/-- The second one, with `maxChanged` and `minChanged`. -/
def applyLatest (e : DatabaseEngine) (latest : List MinuteRecord) :
    DatabaseEngine × Option Price × Option Price :=
  let maxPrice := latest.foldl (fun maxPrice record => max maxPrice (record.highPrice : WithBot Price)) ⊥
  let minPrice := latest.foldl (fun minPrice record => min minPrice (record.lowPrice : WithTop Price)) ⊤
  match latest with
  | [] => ({ e with cache := [] }, none, none)
  | front :: _ =>
    ({ e with
        cache := latest
        previousTimestamp := front.openTime
        currentMaxPrice := maxPrice
        currentMinPrice := minPrice },
      if maxPrice ≠ e.currentMaxPrice then (maxPrice : Option Price) else none,
      if minPrice ≠ e.currentMinPrice then (minPrice : Option Price) else none)

theorem applyLatest_latestRecords (e : DatabaseEngine) :
    (applyLatest e (latestRecords e)).1 = rebuildCacheFromHistorical e := by
  unfold applyLatest rebuildCacheFromHistorical latestRecords
  dsimp only
  generalize (values e.historicalData).reverse.take cacheSize = latest
  cases latest <;> rfl

/-- `maxChanged` and `minChanged` of `updateWithNewData`. -/
def limitChanges (e : DatabaseEngine) (normalized : MinuteRecord) : Option Price × Option Price :=
  match e.cache with
  | front :: _ =>
    if normalized.openTime < front.openTime then (none, none)
    else
      (if e.currentMaxPrice < normalized.highPrice then some normalized.highPrice else none,
        if normalized.lowPrice < e.currentMinPrice then some normalized.lowPrice else none)
  | [] => (some normalized.highPrice, some normalized.lowPrice)

theorem foldl_max_coe (l : List MinuteRecord) (q : Price) :
    ∃ p : Price, l.foldl (fun m record => max m (record.highPrice : WithBot Price)) ↑q = ↑p := by
  induction l generalizing q with
  | nil => exact ⟨q, rfl⟩
  | cons r l ih => exact ih (max q r.highPrice)

theorem foldl_min_coe (l : List MinuteRecord) (q : Price) :
    ∃ p : Price, l.foldl (fun m record => min m (record.lowPrice : WithTop Price)) ↑q = ↑p := by
  induction l generalizing q with
  | nil => exact ⟨q, rfl⟩
  | cons r l ih => exact ih (min q r.lowPrice)

/-- A limit is what it has changed to, or else what it was. -/
theorem limit_applyLatest (e : DatabaseEngine) (latest : List MinuteRecord) (k : Limit) :
    (applyLatest e latest).1.limit k = (k.pick (applyLatest e latest).2).or (e.limit k) := by
  cases latest with
  | nil => cases k <;> rfl
  | cons front rest =>
    obtain ⟨p, hp⟩ := foldl_max_coe rest front.highPrice
    obtain ⟨q, hq⟩ := foldl_min_coe rest front.lowPrice
    have hp : (front :: rest).foldl (fun m r => max m (r.highPrice : WithBot Price)) ⊥ = ↑p := by
      rw [List.foldl_cons, bot_sup_eq, hp]
    have hq : (front :: rest).foldl (fun m r => min m (r.lowPrice : WithTop Price)) ⊤ = ↑q := by
      rw [List.foldl_cons, top_inf_eq, hq]
    unfold applyLatest
    simp only [hp, hq]
    cases k with
    | max =>
      show some p = (if (p : WithBot Price) ≠ e.currentMaxPrice then some p else none).or e.currentMaxPrice
      by_cases h : (p : WithBot Price) = e.currentMaxPrice
      · rw [if_neg (not_not.mpr h), ← h]
        rfl
      · rw [if_pos h]
        rfl
    | min =>
      show some q = (if (q : WithTop Price) ≠ e.currentMinPrice then some q else none).or e.currentMinPrice
      by_cases h : (q : WithTop Price) = e.currentMinPrice
      · rw [if_neg (not_not.mpr h), ← h]
        rfl
      · rw [if_pos h]
        rfl

theorem limit_updatePrices (e : DatabaseEngine) (r : MinuteRecord) (k : Limit) :
    (updatePrices e r).limit k =
      (k.pick (if e.currentMaxPrice < r.highPrice then some r.highPrice else none,
        if r.lowPrice < e.currentMinPrice then some r.lowPrice else none)).or (e.limit k) := by
  cases k with
  | max =>
    show max e.currentMaxPrice (r.highPrice : WithBot Price) =
      (if e.currentMaxPrice < r.highPrice then some r.highPrice else none).or e.currentMaxPrice
    split
    · rename_i h
      exact max_eq_right h.le
    · rename_i h
      exact max_eq_left (not_lt.mp h)
  | min =>
    show min e.currentMinPrice (r.lowPrice : WithTop Price) =
      (if r.lowPrice < e.currentMinPrice then some r.lowPrice else none).or e.currentMinPrice
    split
    · rename_i h
      exact min_eq_right h.le
    · rename_i h
      exact min_eq_left (not_lt.mp h)

theorem limit_updateCache {e e' : DatabaseEngine} {r : MinuteRecord} {closed : Option MinuteRecord}
    (h : updateCache e r = some (e', closed)) (k : Limit) :
    e'.limit k = (k.pick (limitChanges e r)).or (e.limit k) := by
  unfold updateCache at h
  unfold limitChanges
  cases hcache : e.cache with
  | nil =>
    rw [hcache] at h
    cases h
    cases k <;> rfl
  | cons front rest =>
    rw [hcache] at h
    dsimp only at h ⊢
    split at h
    · rename_i hlt
      cases h
      rw [if_neg (by omega), ← limit_updatePrices]
      cases k <;> rfl
    · split at h
      · rename_i heq
        cases h
        rw [if_neg (by omega), ← limit_updatePrices]
        cases k <;> rfl
      · cases h

/-! ## The steps -/

/-- The next step of `actualize`: a callback first if there is one, or the second section of a
rebuild. -/
inductive WorkerStage
  | idle
  | next (worker : Worker) (callbacks : List PriceCallback)
  | applying (latest : List MinuteRecord) (worker : Worker)
  deriving DecidableEq

def WorkerStage.callbacks : WorkerStage → List PriceCallback
  | .next _ callbacks => callbacks
  | .idle | .applying _ _ => []

/-- The engine with its observers and the calls in progress. The call of `updateWithNewData` makes
`liveCallbacks` when the record is stored; `registrations` are the calls of
`addPriceLimitObserver`, each with its callbacks. -/
structure LimitSystem where
  engine : DatabaseEngine
  priceLimitObservers : List Nat := []
  worker : WorkerStage := .idle
  live : Live := .idle
  liveCallbacks : List PriceCallback := []
  registrations : List (List PriceCallback) := []
  received : Nat → Limit → Option Price := fun _ _ => none

inductive LimitEvent
  | actualize
  | fetch (now : Int)
  | work
  | update (data : PriceData)
  | live
  | addPriceLimitObserver (observer : Nat)
  | announce (registration : Nat)
  deriving DecidableEq, Repr

def LimitSystem.notify (s : LimitSystem) (c : PriceCallback) : LimitSystem :=
  { s with received := receive s.received c }

def LimitSystem.workStep (s : LimitSystem) : Option LimitSystem :=
  match s.worker with
  | .idle => none
  | .next worker (c :: rest) => some { s.notify c with worker := .next worker rest }
  | .next (.rebuilding page) [] => some { s with
      worker := .applying (latestRecords s.engine)
        (if page.records.length < 1000 then .finishing else .fetching) }
  | .next .finishing [] => some { s with worker := .applying (latestRecords s.engine) .done }
  | .next worker [] => (System.workStep { engine := s.engine, worker := worker }).map fun t =>
      { s with engine := t.engine, worker := .next t.worker [] }
  | .applying latest worker =>
    let applied := applyLatest s.engine latest
    some { s with
      engine := applied.1
      worker := .next worker (Storage.callbacks s.priceLimitObservers applied.2.1 applied.2.2) }

/-- `updateWithNewData` up to the end of its locked section. -/
def LimitSystem.updateStep (s : LimitSystem) (data : PriceData) : Option LimitSystem :=
  match s.live, s.liveCallbacks with
  | .idle, [] =>
    match normalizedRecord? data with
    | none => some s
    | some normalized =>
      match updateCache s.engine normalized with
      | none => some s
      | some (engine, closedCandle) =>
        let changes := limitChanges s.engine normalized
        some { s with
          engine := engine
          live := match closedCandle with
            | some closedCandle => .saving closedCandle normalized
            | none => .ingesting normalized
          liveCallbacks := Storage.callbacks s.priceLimitObservers changes.1 changes.2 }
  | _, _ => none

/-- The rest of `updateWithNewData`. -/
def LimitSystem.liveStep (s : LimitSystem) : Option LimitSystem :=
  match s.live with
  | .idle =>
    match s.liveCallbacks with
    | [] => none
    | c :: rest => some { s.notify c with liveCallbacks := rest }
  | live => (System.liveStep { engine := s.engine, live := live }).map fun t =>
      { s with engine := t.engine, live := t.live }

/-- The next callback of a call of `addPriceLimitObserver`. -/
def LimitSystem.announceStep (s : LimitSystem) (registration : Nat) : Option LimitSystem :=
  match s.registrations[registration]? with
  | some (c :: rest) => some { s.notify c with
      registrations := s.registrations.set registration rest }
  | _ => none

def LimitSystem.step (fetcher : Int → Int → List PriceData) (s : LimitSystem) :
    LimitEvent → Option LimitSystem
  | .actualize =>
    match s.worker with
    | .idle => some { s with worker := .next .fetching [] }
    | _ => none
  | .fetch now =>
    match s.worker with
    | .next .fetching [] => some { s with
        worker := .next (System.fetchStep fetcher { engine := s.engine } now).worker [] }
    | _ => none
  | .work => s.workStep
  | .update data => s.updateStep data
  | .live => s.liveStep
  | .addPriceLimitObserver observer => some { s with
      priceLimitObservers := s.priceLimitObservers ++ [observer]
      registrations := s.registrations ++
        [Storage.callbacks [observer] (s.engine.limit .max) (s.engine.limit .min)] }
  | .announce registration => s.announceStep registration

/-- Before any call. -/
def LimitSystem.start (engine : DatabaseEngine) : LimitSystem := { engine := engine }

/-- The callbacks still to be made. -/
def LimitSystem.pending (s : LimitSystem) : List PriceCallback :=
  s.worker.callbacks ++ s.liveCallbacks ++ s.registrations.flatten

/-- The callback that an event makes. -/
def LimitSystem.callback (s : LimitSystem) : LimitEvent → Option PriceCallback
  | .work => s.worker.callbacks.head?
  | .live => if s.live = .idle then s.liveCallbacks.head? else none
  | .announce registration => s.registrations[registration]?.bind List.head?
  | _ => none

/-- What a step does, by the callback that it makes. -/
inductive LimitSystem.Moves (s t : LimitSystem) : Option PriceCallback → Prop
  | stay (hlimit : t.engine.limit = s.engine.limit) (hcache : t.engine.cache = s.engine.cache)
      (hpending : t.pending = s.pending)
      (hobservers : t.priceLimitObservers = s.priceLimitObservers)
      (hreceived : t.received = s.received) : Moves s t none
  | rebuild (latest : List MinuteRecord) (hengine : t.engine = (applyLatest s.engine latest).1)
      (hpending : ∀ c, c ∈ t.pending ↔ c ∈ s.pending ∨ c ∈ callbacks s.priceLimitObservers
        (applyLatest s.engine latest).2.1 (applyLatest s.engine latest).2.2)
      (hobservers : t.priceLimitObservers = s.priceLimitObservers)
      (hreceived : t.received = s.received) : Moves s t none
  | accept (r : MinuteRecord) (closed : Option MinuteRecord)
      (hengine : updateCache s.engine r = some (t.engine, closed))
      (hpending : ∀ c, c ∈ t.pending ↔ c ∈ s.pending ∨ c ∈ callbacks s.priceLimitObservers
        (limitChanges s.engine r).1 (limitChanges s.engine r).2)
      (hobservers : t.priceLimitObservers = s.priceLimitObservers)
      (hreceived : t.received = s.received) : Moves s t none
  | register (observer : Nat) (hengine : t.engine = s.engine)
      (hpending : ∀ c, c ∈ t.pending ↔
        c ∈ s.pending ∨ c ∈ callbacks [observer] (s.engine.limit .max) (s.engine.limit .min))
      (hobservers : t.priceLimitObservers = s.priceLimitObservers ++ [observer])
      (hreceived : t.received = s.received) : Moves s t none
  | notify (c : PriceCallback) (hengine : t.engine = s.engine)
      (hpending : ∀ d, d ∈ s.pending ↔ d = c ∨ d ∈ t.pending)
      (hobservers : t.priceLimitObservers = s.priceLimitObservers)
      (hreceived : t.received = receive s.received c) : Moves s t (some c)

section Steps

variable {fetcher : Int → Int → List PriceData} {s t : LimitSystem} {e : LimitEvent}

theorem limit_ingestRecords (e : DatabaseEngine) (records : List PriceData) :
    (ingestRecords e records).limit = e.limit ∧ (ingestRecords e records).cache = e.cache := by
  unfold ingestRecords
  dsimp only
  split <;> exact ⟨rfl, rfl⟩

/-- The other steps of `actualize` leave the limits alone. -/
theorem limit_workStep {engine : DatabaseEngine} {worker : Worker} {u : System}
    (h : System.workStep { engine := engine, worker := worker } = some u)
    (hr : ∀ page, worker ≠ .rebuilding page) (hf : worker ≠ .finishing) :
    u.engine.limit = engine.limit ∧ u.engine.cache = engine.cache := by
  unfold System.workStep at h
  dsimp only at h
  split at h
  · cases h
  · obtain rfl := Option.some.inj h
    exact ⟨rfl, rfl⟩
  · obtain rfl := Option.some.inj h
    exact ⟨rfl, rfl⟩
  · obtain rfl := Option.some.inj h
    exact limit_ingestRecords _ _
  · exact absurd rfl (hr _)
  · exact absurd rfl hf
  · cases h

theorem limit_liveStep {engine : DatabaseEngine} {live : Live} {u : System}
    (h : System.liveStep { engine := engine, live := live } = some u) :
    u.engine.limit = engine.limit ∧ u.engine.cache = engine.cache := by
  unfold System.liveStep at h
  dsimp only at h
  split at h
  · cases h
  · obtain rfl := Option.some.inj h
    exact ⟨rfl, rfl⟩
  · obtain rfl := Option.some.inj h
    exact limit_ingestRecords _ _

theorem work_moves (h : s.workStep = some t) : s.Moves t (s.callback .work) := by
  unfold LimitSystem.workStep at h
  split at h
  · cases h
  · rename_i worker c rest hw
    obtain rfl := Option.some.inj h
    simp only [LimitSystem.callback, hw, WorkerStage.callbacks, List.head?_cons]
    refine .notify c rfl ?_ rfl rfl
    simp [LimitSystem.pending, LimitSystem.notify, hw, WorkerStage.callbacks]
  · rename_i page hw
    obtain rfl := Option.some.inj h
    simp only [LimitSystem.callback, hw, WorkerStage.callbacks, List.head?_nil]
    refine .stay rfl rfl ?_ rfl rfl
    simp [LimitSystem.pending, hw, WorkerStage.callbacks]
  · rename_i hw
    obtain rfl := Option.some.inj h
    simp only [LimitSystem.callback, hw, WorkerStage.callbacks, List.head?_nil]
    refine .stay rfl rfl ?_ rfl rfl
    simp [LimitSystem.pending, hw, WorkerStage.callbacks]
  · rename_i worker hr hf hw
    obtain ⟨u, hu, rfl⟩ := Option.map_eq_some_iff.mp h
    obtain ⟨hlimit, hcache⟩ := limit_workStep hu hr hf
    simp only [LimitSystem.callback, hw, WorkerStage.callbacks, List.head?_nil]
    refine .stay hlimit hcache ?_ rfl rfl
    simp [LimitSystem.pending, hw, WorkerStage.callbacks]
  · rename_i latest worker hw
    obtain rfl := Option.some.inj h
    simp only [LimitSystem.callback, hw, WorkerStage.callbacks, List.head?_nil]
    refine .rebuild latest rfl ?_ rfl rfl
    simp [LimitSystem.pending, hw, WorkerStage.callbacks, or_comm, or_left_comm]

theorem update_moves {data : PriceData} (h : s.updateStep data = some t) : s.Moves t none := by
  unfold LimitSystem.updateStep at h
  split at h
  · rename_i hlive hcalls
    split at h
    · obtain rfl := Option.some.inj h
      exact .stay rfl rfl rfl rfl rfl
    · rename_i r hr
      split at h
      · obtain rfl := Option.some.inj h
        exact .stay rfl rfl rfl rfl rfl
      · rename_i engine closed hc
        obtain rfl := Option.some.inj h
        refine .accept r closed hc (fun c => ?_) rfl rfl
        simp only [LimitSystem.pending, hcalls, List.mem_append, List.append_nil]
        tauto
  · cases h

theorem live_moves (h : s.liveStep = some t) : s.Moves t (s.callback .live) := by
  unfold LimitSystem.liveStep at h
  split at h
  · rename_i hlive
    split at h
    · cases h
    · rename_i c rest hcalls
      obtain rfl := Option.some.inj h
      simp only [LimitSystem.callback, hlive, hcalls, if_true, List.head?_cons]
      refine .notify c rfl ?_ rfl rfl
      simp [LimitSystem.pending, LimitSystem.notify, hcalls, or_left_comm]
  · rename_i hlive
    obtain ⟨u, hu, rfl⟩ := Option.map_eq_some_iff.mp h
    obtain ⟨hlimit, hcache⟩ := limit_liveStep hu
    simp only [LimitSystem.callback, if_neg hlive]
    exact .stay hlimit hcache rfl rfl rfl

theorem announce_moves {i : Nat} (h : s.announceStep i = some t) : s.Moves t (s.callback (.announce i)) := by
  unfold LimitSystem.announceStep at h
  split at h
  · rename_i c rest hi
    obtain rfl := Option.some.inj h
    simp only [LimitSystem.callback, hi, Option.bind_some, List.head?_cons]
    refine .notify c rfl (fun d => ?_) rfl rfl
    simp only [LimitSystem.pending, LimitSystem.notify, List.mem_append, mem_flatten_set hi]
    tauto
  · cases h

/-- A stage without callbacks after another. -/
theorem stage_moves {worker : WorkerStage} (hw : s.worker.callbacks = [])
    (hworker : worker.callbacks = []) : s.Moves { s with worker := worker } none :=
  .stay rfl rfl (by rw [LimitSystem.pending, LimitSystem.pending, hw, hworker]) rfl rfl

theorem LimitSystem.moves (h : s.step fetcher e = some t) : s.Moves t (s.callback e) := by
  unfold LimitSystem.step at h
  split at h
  · split at h
    · rename_i hw
      obtain rfl := Option.some.inj h
      exact stage_moves (by rw [hw]; rfl) rfl
    · cases h
  · split at h
    · rename_i hw
      obtain rfl := Option.some.inj h
      exact stage_moves (by rw [hw]; rfl) rfl
    · cases h
  · exact work_moves h
  · exact update_moves h
  · exact live_moves h
  · rename_i observer
    obtain rfl := Option.some.inj h
    refine .register observer rfl ?_ rfl rfl
    simp [LimitSystem.pending, or_assoc]
  · exact announce_moves h

end Steps

/-! ## The invariant -/

/-- The limits as they are announced. -/
def LimitSystem.board (s : LimitSystem) : Board Nat Limit Price :=
  { value := s.engine.limit
    observers := {o | o ∈ s.priceLimitObservers}
    pending := {c | c ∈ s.pending}
    received := s.received }

/-- A callback is made while one with the current limit is to be made to the same observer. -/
def LimitSystem.InTime (s : LimitSystem) (e : LimitEvent) : Prop :=
  ∀ c ∈ s.callback e, ∀ v ∈ s.engine.limit c.topic, ⟨c.observer, c.topic, v⟩ ∈ s.pending

instance (s : LimitSystem) (e : LimitEvent) : Decidable (s.InTime e) :=
  inferInstanceAs (Decidable (∀ c ∈ s.callback e, ∀ v ∈ s.engine.limit c.topic, _))

/-- A ring with records has both limits. -/
def DatabaseEngine.Priced (e : DatabaseEngine) : Prop :=
  e.cache ≠ [] → ∀ k, e.limit k ≠ none

structure LimitSystem.Announced (s : LimitSystem) : Prop where
  fresh : s.board.Fresh
  priced : s.engine.Priced

section Invariant

variable {fetcher : Int → Int → List PriceData} {s t : LimitSystem} {made : Option PriceCallback}
  {e : DatabaseEngine}

theorem priced_applyLatest (e : DatabaseEngine) (latest : List MinuteRecord) :
    (applyLatest e latest).1.Priced := by
  cases latest with
  | nil => exact fun h => absurd rfl h
  | cons front rest =>
    intro _ k
    obtain ⟨p, hp⟩ := foldl_max_coe rest front.highPrice
    obtain ⟨q, hq⟩ := foldl_min_coe rest front.lowPrice
    cases k with
    | max =>
      show rest.foldl _ (max ⊥ (front.highPrice : WithBot Price)) ≠ ⊥
      rw [bot_sup_eq, hp]
      exact WithBot.coe_ne_bot
    | min =>
      show rest.foldl _ (min ⊤ (front.lowPrice : WithTop Price)) ≠ ⊤
      rw [top_inf_eq, hq]
      exact WithTop.coe_ne_top

theorem priced_updateCache (h : e.Priced) {r : MinuteRecord} {e' : DatabaseEngine}
    {closed : Option MinuteRecord} (hc : updateCache e r = some (e', closed)) : e'.Priced := by
  intro _ k
  rw [limit_updateCache hc]
  cases hcache : e.cache with
  | nil =>
    unfold limitChanges
    rw [hcache]
    cases k <;> nofun
  | cons front rest =>
    intro hnone
    exact h (by simp [hcache]) k (Option.or_eq_none_iff.mp hnone).2

theorem LimitSystem.Moves.board (h : s.Moves t made) : s.board.Moves made t.board := by
  cases h with
  | stay hlimit hcache hpending hobservers hreceived =>
    have hmoves : s.board.Moves none { s.board with value := s.board.value } :=
      .change (fun _ => none) (fun _ => Option.none_or.symm) (by simp)
    unfold LimitSystem.board at hmoves ⊢
    rwa [hlimit, hpending, hobservers, hreceived]
  | rebuild latest hengine hpending hobservers hreceived =>
    have hmoves : s.board.Moves none { s.board with
        value := t.engine.limit, pending := {c | c ∈ t.pending} } := by
      refine .change (fun k => k.pick (applyLatest s.engine latest).2) (fun k => ?_) fun c => ?_
      · rw [hengine]
        exact limit_applyLatest s.engine latest k
      · exact (hpending c).trans (or_congr_right mem_callbacks)
    unfold LimitSystem.board at hmoves ⊢
    rwa [hobservers, hreceived]
  | accept r closed hengine hpending hobservers hreceived =>
    have hmoves : s.board.Moves none { s.board with
        value := t.engine.limit, pending := {c | c ∈ t.pending} } := by
      refine .change (fun k => k.pick (limitChanges s.engine r)) (limit_updateCache hengine) fun c => ?_
      exact (hpending c).trans (or_congr_right mem_callbacks)
    unfold LimitSystem.board at hmoves ⊢
    rwa [hobservers, hreceived]
  | register observer hengine hpending hobservers hreceived =>
    have hmoves : s.board.Moves none { s.board with
        observers := {o | o ∈ t.priceLimitObservers}, pending := {c | c ∈ t.pending} } := by
      refine .register observer (fun p => ?_) fun c => (hpending c).trans (or_congr_right ?_)
      · show p ∈ t.priceLimitObservers ↔ p ∈ s.priceLimitObservers ∨ p = observer
        simp [hobservers]
      · rw [mem_callbacks, List.mem_singleton]
        exact and_congr_right fun _ => by cases c.topic <;> rfl
    unfold LimitSystem.board at hmoves ⊢
    rwa [hengine, hreceived]
  | notify c hengine hpending hobservers hreceived =>
    have hmoves : s.board.Moves (some c) { s.board with
        pending := {d | d ∈ t.pending}, received := receive s.board.received c } :=
      .deliver c hpending
    unfold LimitSystem.board at hmoves ⊢
    rwa [hengine, hobservers, hreceived]

theorem LimitSystem.Moves.priced (h : s.Moves t made) (hp : s.engine.Priced) : t.engine.Priced := by
  cases h with
  | stay hlimit hcache =>
    unfold DatabaseEngine.Priced
    rwa [hlimit, hcache]
  | rebuild latest hengine => exact hengine ▸ priced_applyLatest s.engine latest
  | accept r closed hengine => exact priced_updateCache hp hengine
  | register observer hengine => exact hengine ▸ hp
  | notify c hengine => exact hengine ▸ hp

theorem LimitSystem.Announced.step {e : LimitEvent} (h : s.Announced) (hc : s.InTime e)
    (ht : s.step fetcher e = some t) : t.Announced :=
  ⟨h.fresh.moves (LimitSystem.moves ht).board hc, (LimitSystem.moves ht).priced h.priced⟩

theorem announced_start (file : DataFile) (uninitialised : Int) :
    (LimitSystem.start (.opened file uninitialised)).Announced := by
  refine ⟨⟨fun o ho => ?_, fun c hc => ?_⟩, ?_⟩
  · cases ho
  · cases hc
  · show (rebuildCacheFromHistorical _).Priced
    rw [← applyLatest_latestRecords]
    exact priced_applyLatest _ _

end Invariant

/-! ## Between the calls -/

/-- No call of the engine is in progress. -/
structure LimitSystem.Quiet (s : LimitSystem) : Prop where
  worker : s.worker = .idle ∨ s.worker = .next .done []
  live : s.live = .idle
  liveCallbacks : s.liveCallbacks = []
  registrations : ∀ callbacks ∈ s.registrations, callbacks = []

theorem LimitSystem.Quiet.pending {s : LimitSystem} (h : s.Quiet) (c : PriceCallback) :
    c ∉ s.pending := by
  have hworker : s.worker.callbacks = [] := by
    rcases h.worker with hw | hw <;> rw [hw] <;> rfl
  rw [LimitSystem.pending, hworker, h.liveCallbacks]
  simp only [List.nil_append, List.mem_flatten]
  rintro ⟨callbacks, hmem, hc⟩
  rw [h.registrations callbacks hmem] at hc
  cases hc

/-- In every run whose callbacks are all in time: when no call is in progress and the ring has
records, what each observer received last are the limits. -/
theorem limits_upToDate (fetcher : Int → Int → List PriceData) (file : DataFile)
    (uninitialised : Int) (events : List LimitEvent)
    (hintime : Along (LimitSystem.step fetcher) LimitSystem.InTime
      (.start (.opened file uninitialised)) events)
    (s : LimitSystem)
    (hrun : run (LimitSystem.step fetcher) (.start (.opened file uninitialised)) events = some s)
    (hquiet : s.Quiet) (hcache : s.engine.cache ≠ []) :
    ∃ maxPrice minPrice : Price,
      s.engine.currentMaxPrice = maxPrice ∧ s.engine.currentMinPrice = minPrice ∧
      ∀ o ∈ s.priceLimitObservers,
        s.received o .max = some maxPrice ∧ s.received o .min = some minPrice := by
  have h : s.Announced := inv_of_along (fun _ _ _ h hc ht => h.step hc ht)
    (announced_start file uninitialised) hintime hrun
  obtain ⟨maxPrice, hmax⟩ := Option.ne_none_iff_exists'.mp (h.priced hcache .max)
  obtain ⟨minPrice, hmin⟩ := Option.ne_none_iff_exists'.mp (h.priced hcache .min)
  exact ⟨maxPrice, minPrice, hmax, hmin, fun o ho =>
    ⟨h.fresh.received_eq hquiet.pending ho hmax, h.fresh.received_eq hquiet.pending ho hmin⟩⟩

/-- A callback that is late leaves its observer with another value than the limit, whatever
callbacks are made after it. -/
theorem limits_behind {fetcher : Int → Int → List PriceData} {s t u : LimitSystem} {e : LimitEvent}
    (h : s.Announced) (hlate : ¬ s.InTime e) (ht : s.step fetcher e = some t)
    {events : List LimitEvent}
    (hcallbacks : Along (LimitSystem.step fetcher) (fun s e => (s.callback e).isSome = true) t events)
    (hrun : run (LimitSystem.step fetcher) t events = some u) :
    ∃ o ∈ u.priceLimitObservers, ∃ k v, u.engine.limit k = some v ∧ u.received o k ≠ some v := by
  unfold LimitSystem.InTime at hlate
  push Not at hlate
  obtain ⟨c, hc, v, hv, hnot⟩ := hlate
  have hm := (LimitSystem.moves ht).board
  rw [hc] at hm
  have hbehind := h.fresh.behind hm fun hin => hnot (hin v hv)
  have hstep : ∀ (s : LimitSystem) e t, s.board.Behind c.observer c.topic →
      (s.callback e).isSome = true → s.step fetcher e = some t →
        t.board.Behind c.observer c.topic := by
    intro s e t hs hsome hst
    obtain ⟨d, hd⟩ := Option.isSome_iff_exists.mp hsome
    have hm := (LimitSystem.moves hst).board
    rw [hd] at hm
    exact hs.moves hm
  obtain ⟨ho, v, hv, hne, -⟩ := inv_of_along hstep hbehind hcallbacks hrun
  exact ⟨c.observer, ho, c.topic, v, hv, hne⟩

end

/-- An exchange without records. -/
def noRecords (_now _startTime : Int) : List PriceData := []

/-- The live record raises the maximum after `actualize` has read the store; its callback comes
last. -/
def lateCallback : List LimitEvent :=
  [.addPriceLimitObserver 7, .update (flatRecord 60000 1), .live, .live, .live, .actualize, .fetch 0,
    .work, .update (flatRecord 60000 5), .work, .work, .live, .live]

/-- The observer is left with the maximum that the rebuild has taken back. -/
theorem limits_lateCallback :
    ∃ s, run (LimitSystem.step noRecords) (.start (.opened {} 0)) lateCallback = some s ∧
      s.Quiet ∧ s.engine.cache ≠ [] ∧ 7 ∈ s.priceLimitObservers ∧
      s.engine.currentMaxPrice = ((1 : Price) : WithBot Price) ∧ s.received 7 .max = some 5 := by
  have hrun : (run (LimitSystem.step noRecords) (.start (.opened {} 0)) lateCallback).map (fun s =>
      decide ((s.worker = .next .done [] ∧ s.live = .idle ∧ s.liveCallbacks = [] ∧
          s.registrations = [[]]) ∧
        s.engine.cache ≠ [] ∧ 7 ∈ s.priceLimitObservers ∧
        s.engine.currentMaxPrice = ((1 : Price) : WithBot Price) ∧ s.received 7 .max = some 5)) = some true := by
    decide +kernel
  obtain ⟨s, hs, hlate⟩ := Option.map_eq_some_iff.mp hrun
  obtain ⟨⟨hworker, hlive, hcallbacks, hregistrations⟩, hlate⟩ := of_decide_eq_true hlate
  refine ⟨s, hs, ⟨.inr hworker, hlive, hcallbacks, ?_⟩, hlate⟩
  rw [hregistrations]
  exact fun _ hc => List.mem_singleton.mp hc

/-- The same with the callback of the live record before the rebuild. -/
def promptCallback : List LimitEvent :=
  [.addPriceLimitObserver 7, .update (flatRecord 60000 1), .live, .live, .live, .actualize, .fetch 0,
    .work, .update (flatRecord 60000 5), .live, .live, .work, .work]

theorem limits_promptCallback :
    ∃ s, run (LimitSystem.step noRecords) (.start (.opened {} 0)) promptCallback = some s ∧
      ∃ maxPrice minPrice : Price,
        s.engine.currentMaxPrice = maxPrice ∧ s.engine.currentMinPrice = minPrice ∧
        ∀ o ∈ s.priceLimitObservers,
          s.received o .max = some maxPrice ∧ s.received o .min = some minPrice := by
  have hrun : (run (LimitSystem.step noRecords) (.start (.opened {} 0)) promptCallback).map (fun s =>
      decide ((s.worker = .next .done [] ∧ s.live = .idle ∧ s.liveCallbacks = [] ∧
        s.registrations = [[]]) ∧ s.engine.cache ≠ [])) = some true := by
    decide +kernel
  have hintime : Along (LimitSystem.step noRecords) LimitSystem.InTime (.start (.opened {} 0))
      promptCallback := by decide +kernel
  obtain ⟨s, hs, hquiet⟩ := Option.map_eq_some_iff.mp hrun
  obtain ⟨⟨hworker, hlive, hcallbacks, hregistrations⟩, hcache⟩ := of_decide_eq_true hquiet
  refine ⟨s, hs, limits_upToDate noRecords {} 0 promptCallback hintime s hs
    ⟨.inr hworker, hlive, hcallbacks, ?_⟩ hcache⟩
  rw [hregistrations]
  exact fun _ hc => List.mem_singleton.mp hc

end TCV.Storage
