import TradingChartViewer.App.Publishing

/-!
# The threads of the orchestrator

`SyncOrchestrator` as its threads run it: the worker (`runBackfill`), the live
callbacks, the paging threads of `requestBackfillOlder`, and the owner, who calls
`start`, `stop` and `requestBackfillOlder`. A step is what a thread does between
two accesses to something shared; `fetchRange` may return anything. Nothing
throws, and the log lines are left out.

* `jobStep`: the appends of a page and the repair after a `Gap`;
* `workerStep`, `liveStep`, `pagingStep`, `ownerStep`: the threads;
* `step_publishing`: what a step does to the repository, the cache and the bus
  is a step of `Publishing`;
* `Threads.Ok`, `Threads.Stopped`: the invariants; `stop_quiet`.
-/

namespace TCV.App

open TCV.Domain TCV.Storage Lib.Run

/-! ## The threads -/

structure ThreadsConfig extends SyncConfig where
  publishCandles : Nat := 120
  deriving DecidableEq, Repr

def kLiveThrottleMs : Int := 75

inductive ThreadId
  | worker
  | live (n : Nat)
  | paging (n : Nat)
  deriving DecidableEq, Repr

/-- The appends of a page: candle by candle up to a `Gap`, then `repairGap`. -/
inductive Job
  | page (batch rest : List Candle)
  | repairGap (gap : AppendResult) (batch : List Candle)
  | fetchMissing (gap : AppendResult) (batch : List Candle)
  | missing (gap : AppendResult) (batch rest : List Candle)
  | retry (rest : List Candle)
  deriving DecidableEq, Repr

def Job.isPage : Job → Bool
  | .page .. => true
  | _ => false

/-- The local variables of `runBackfill`, with `widenedOnce_`. -/
structure WorkerVars where
  window : BackfillWindow
  nextFetch : Int
  fetchedAny : Bool := false
  widenedOnce : Bool := false
  deriving DecidableEq, Repr

/-- What the worker does next. -/
inductive WorkerPc
  | begin_
  | setup
  | head (v : WorkerVars)
  | fetch (v : WorkerVars)
  | fetched (v : WorkerVars) (candles : List Candle)
  | append (v : WorkerVars) (count : Nat) (job : Job)
  | publish (v : WorkerVars) (count : Nat) (gapDetected : Bool)
  | metadata (v : WorkerVars) (count : Nat) (gapDetected : Bool)
  | next (v : WorkerVars) (morePages : Bool)
  | finish
  | checkLive
  | startLiveStream
  | live
  | stopLiveStream
  | resetBackfilling
  | resetRunning
  | ended
  deriving DecidableEq, Repr

/-- What a live callback does next. -/
inductive LivePc
  | begin_ (live : LiveCandle)
  | append (live : LiveCandle)
  | throttle (live : LiveCandle)
  | publish
  deriving DecidableEq, Repr

/-- What a paging thread does next. -/
inductive PagingPc
  | fetch (startOpen : Int) (candles : Nat)
  | append (job : Job)
  | publish
  | resetPaging
  deriving DecidableEq, Repr

/-- What the owner does next: nothing, join the worker in `start` or in `stop`, or
look at a flag in `requestBackfillOlder`. -/
inductive OwnerPc
  | idle
  | start
  | stop
  | loadRunning (startOpen : Int) (candles : Nat)
  | loadBackfilling (startOpen : Int) (candles : Nat)
  | exchangePaging (startOpen : Int) (candles : Nat)
  deriving DecidableEq, Repr

/-- `worker` is `none` where `worker_` is not joinable; `subscribed` says whether
`liveSubscription_` is set. A callback or a paging thread that ended is `none`. -/
structure Threads where
  pub : Publishing ThreadId
  running : Bool := false
  backfilling : Bool := false
  pagingBackfill : Bool := false
  repairing : Bool := false
  subscribed : Bool := false
  lastLivePublish : Option Int := none
  worker : Option WorkerPc := none
  callbacks : List (Option LivePc) := []
  paging : List (Option PagingPc) := []
  owner : OwnerPc := .idle

/-! ## The steps -/

section

variable [TimeUtils]

def Threads.append (s : Threads) (candle : Candle) : AppendResult × Threads :=
  let (result, pub) := s.pub.append candle
  (result, { s with pub := pub })

/-- One step of a job; it ends with `none`. A fetch returns `fetched`. -/
def Threads.jobStep (cfg : SyncConfig) (fetched : List Candle) (s : Threads) :
    Job → Threads × Option Job
  | .page _ [] => (s, none)
  | .page batch (candle :: rest) =>
    let (result, s) := s.append candle
    if result.state = .gap then (s, some (.repairGap result batch))
    else (s, some (.page batch rest))
  | .repairGap gap batch =>
    if s.repairing then (s, none)
    else if clampIntervalMs cfg ≤ 0 then (s, none)
    else if gap.expectedTo ≤ gap.expectedFrom then (s, none)
    else ({ s with repairing := true }, some (.fetchMissing gap batch))
  | .fetchMissing gap batch => (s, some (.missing gap batch fetched))
  | .missing gap batch [] =>
    let retry := batch.filter fun candle =>
      gap.expectedTo ≤ alignDownMs candle.openTime (clampIntervalMs cfg)
    (s, some (.retry retry))
  | .missing gap batch (candle :: rest) =>
    let (result, s) := s.append candle
    (s, some (.missing gap batch (if result.state = .gap then [] else rest)))
  | .retry [] => ({ s with repairing := false }, none)
  | .retry (candle :: rest) =>
    let (result, s) := s.append candle
    if result.state = .gap then ({ s with repairing := false }, none)
    else (s, some (.retry rest))

/-- The thread calls `publishSnapshot`. -/
def Threads.callPublish (cfg : ThreadsConfig) (s : Threads) (t : ThreadId) (lastClosed : Bool) :
    Option Threads :=
  (s.pub.step cfg.publishCandles (.call t lastClosed)).map fun pub => { s with pub := pub }

/-- A thread in `publishSnapshot` goes on with it, and with `next` when it has
returned. -/
def Threads.publishThen (cfg : ThreadsConfig) (s : Threads) (t : ThreadId) (next : Threads) :
    Option Threads :=
  if (s.pub.calls t).isSome then
    (s.pub.step cfg.publishCandles (.step t)).map fun pub => { s with pub := pub }
  else some next

/-- The thread function of `start`. `fetched`, `now` and `subscribes` are what a
fetch, the clock and `streamLive` return. -/
def Threads.workerStep (cfg : ThreadsConfig) (s : Threads) (fetched : List Candle) (now : Int)
    (subscribes : Bool) : Option Threads :=
  let goto (s : Threads) (pc : WorkerPc) : Threads := { s with worker := some pc }
  let finish (s : Threads) := (goto s .finish).callPublish cfg .worker true
  match s.worker with
  | none | some .ended => none
  | some .begin_ => some (goto { s with backfilling := true } .setup)
  | some .setup =>
    if clampIntervalMs cfg.toSyncConfig ≤ 0 then some (goto s .resetBackfilling)
    else
      let (window, nextFetch) := backfillWindow cfg.toSyncConfig s.pub.repo now
      some (goto s (.head { window := window, nextFetch := nextFetch }))
  | some (.head v) =>
    if !s.running then finish s
    else if (backfillRequest cfg.toSyncConfig v.window v.nextFetch).isNone then finish s
    else some (goto s (.fetch v))
  | some (.fetch v) => some (goto s (.fetched v fetched))
  | some (.fetched v candles) =>
    if !s.running then finish s
    else if candles.isEmpty then
      if !v.fetchedAny && v.window.repoEmpty && !v.widenedOnce && 0 < v.window.widenAmount then
        some (goto s (.head { v with
          widenedOnce := true, nextFetch := max 0 (v.nextFetch - v.window.widenAmount) }))
      else finish s
    else some (goto s (.append { v with fetchedAny := true } candles.length (.page candles candles)))
  | some (.append v count job) =>
    match s.jobStep cfg.toSyncConfig fetched job with
    | (s, some job) => some (goto s (.append v count job))
    | (s, none) => (goto s (.publish v count !job.isPage)).callPublish cfg .worker true
  | some (.publish v count gapDetected) =>
    s.publishThen cfg .worker (goto s (.metadata v count gapDetected))
  | some (.metadata v count gapDetected) =>
    let meta_ := s.pub.repo.metadata
    if meta_.count = 0 then some (goto s (.head v))
    else
      some (goto s (.next { v with nextFetch := meta_.maxOpen + v.window.intervalMs }
        !(count < batchLimit cfg.toSyncConfig && !gapDetected)))
  | some (.next v morePages) =>
    if !s.running || !morePages then finish s else some (goto s (.head v))
  | some .finish => s.publishThen cfg .worker (goto s .checkLive)
  | some .checkLive =>
    some (goto s (if s.running then .startLiveStream else .resetBackfilling))
  | some .startLiveStream =>
    if s.subscribed then some (goto s .live)
    else some (goto { s with lastLivePublish := none, subscribed := subscribes } .live)
  | some .live => some (goto s (if s.running then .live else .stopLiveStream))
  | some .stopLiveStream =>
    -- `SubscriptionHandle::stop` returns when no callback is under way.
    if s.callbacks.all Option.isNone then some (goto { s with subscribed := false } .resetBackfilling)
    else none
  | some .resetBackfilling => some (goto { s with backfilling := false } .resetRunning)
  | some .resetRunning => some (goto { s with running := false } .ended)

/-- `handleLiveCandle` in callback `n`. -/
def Threads.liveStep (cfg : ThreadsConfig) (s : Threads) (n : Nat) (now : Int) : Option Threads :=
  let goto (s : Threads) (pc : Option LivePc) : Threads :=
    { s with callbacks := s.callbacks.set n pc }
  match s.callbacks[n]? with
  | none | some none => none
  | some (some (.begin_ live)) => some (goto s (if s.running then some (.append live) else none))
  | some (some (.append live)) => some (goto (s.append live.candle).2 (some (.throttle live)))
  | some (some (.throttle live)) =>
    let closed := live.isFinal && live.candle.isClosed
    if !closed && s.lastLivePublish.any (now - · < kLiveThrottleMs) then some (goto s none)
    else (goto { s with lastLivePublish := some now } (some .publish)).callPublish cfg (.live n) closed
  | some (some .publish) => s.publishThen cfg (.live n) (goto s none)

/-- The paging thread `n`. -/
def Threads.pagingStep (sort : StdSort) (cfg : ThreadsConfig) (s : Threads) (n : Nat)
    (fetched : List Candle) : Option Threads :=
  let goto (s : Threads) (pc : Option PagingPc) : Threads := { s with paging := s.paging.set n pc }
  match s.paging[n]? with
  | none | some none => none
  | some (some (.fetch _ _)) =>
    if clampIntervalMs cfg.toSyncConfig ≤ 0 || fetched.isEmpty then
      some (goto s (some .resetPaging))
    else some (goto s (some (.append (.page (sort.run fetched) (sort.run fetched)))))
  | some (some (.append job)) =>
    match s.jobStep cfg.toSyncConfig fetched job with
    | (s, some job) => some (goto s (some (.append job)))
    | (s, none) => (goto s (some .publish)).callPublish cfg (.paging n) true
  | some (some .publish) => s.publishThen cfg (.paging n) (goto s (some .resetPaging))
  | some (some .resetPaging) => some (goto { s with pagingBackfill := false } none)

/-- The owner goes on with a call. A thread that is joined has ended. -/
def Threads.ownerStep (s : Threads) : Option Threads :=
  match s.owner with
  | .idle => none
  | .start =>
    if s.worker = none ∨ s.worker = some .ended then
      some { s with worker := some .begin_, owner := .idle }
    else none
  | .stop =>
    if s.worker = none ∨ s.worker = some .ended then
      some { s with worker := none, owner := .idle }
    else none
  | .loadRunning startOpen candles =>
    some { s with owner := if s.running then .loadBackfilling startOpen candles else .idle }
  | .loadBackfilling startOpen candles =>
    some { s with owner := if s.backfilling then .idle else .exchangePaging startOpen candles }
  | .exchangePaging startOpen candles =>
    if s.pagingBackfill then some { s with owner := .idle }
    else
      some { s with
        pagingBackfill := true
        paging := s.paging ++ [some (.fetch startOpen candles)]
        owner := .idle }

/-- A thread takes a step, the stream calls back, or the owner makes a call. -/
inductive ThreadEvent
  | worker (fetched : List Candle) (now : Int) (subscribes : Bool)
  | callback (live : LiveCandle)
  | live (n : Nat) (now : Int)
  | paging (n : Nat) (fetched : List Candle)
  | start
  | stop
  | requestBackfillOlder (startOpen : Int) (candles : Nat)
  | owner
  deriving DecidableEq, Repr

def Threads.step (sort : StdSort) (cfg : ThreadsConfig) (s : Threads) :
    ThreadEvent → Option Threads
  | .worker fetched now subscribes => s.workerStep cfg fetched now subscribes
  | .callback live =>
    if s.subscribed then some { s with callbacks := s.callbacks ++ [some (.begin_ live)] } else none
  | .live n now => s.liveStep cfg n now
  | .paging n fetched => s.pagingStep sort cfg n fetched
  | .start =>
    if s.owner ≠ .idle then none
    else if s.running then some s
    else some { s with running := true, owner := .start }
  | .stop =>
    if s.owner ≠ .idle then none else some { s with running := false, owner := .stop }
  | .requestBackfillOlder startOpen candles =>
    if s.owner ≠ .idle then none
    else if candles = 0 then some s
    else some { s with owner := .loadRunning startOpen candles }
  | .owner => s.ownerStep

end

/-! ## What the steps do -/

section

variable [TimeUtils] {cfg : ThreadsConfig} {s s' : Threads} {pub pub' : Publishing ThreadId}

/-- One state of `Publishing` leads to another. -/
def PubReaches (cfg : ThreadsConfig) (pub pub' : Publishing ThreadId) : Prop :=
  ∃ es, run (Publishing.step cfg.publishCandles) pub es = some pub'

theorem PubReaches.refl (pub : Publishing ThreadId) : PubReaches cfg pub pub := ⟨[], rfl⟩

theorem PubReaches.single {e : PublishEvent ThreadId} (h : pub.step cfg.publishCandles e = some pub') :
    PubReaches cfg pub pub' := ⟨[e], by rw [run_cons, h]; rfl⟩

theorem PubReaches.trans {pub'' : Publishing ThreadId} (h : PubReaches cfg pub pub')
    (h' : PubReaches cfg pub' pub'') : PubReaches cfg pub pub'' := by
  obtain ⟨es, he⟩ := h
  obtain ⟨fs, hf⟩ := h'
  exact ⟨es ++ fs, by rw [run_append, he, Option.bind_some, hf]⟩

theorem pubReaches_append (pub : Publishing ThreadId) (candle : Candle) :
    PubReaches cfg pub (pub.append candle).2 := .single (e := .append candle) rfl

/-- A job changes the repository, the log and `repairing_`. -/
theorem jobStep_eq (cfg : ThreadsConfig) (fetched : List Candle) (s : Threads) (job : Job) :
    ∃ pub repairing, (s.jobStep cfg.toSyncConfig fetched job).1 =
      { s with pub := pub, repairing := repairing } ∧ PubReaches cfg s.pub pub := by
  cases job with
  | page batch rest =>
    cases rest with
    | nil => exact ⟨_, _, rfl, .refl _⟩
    | cons candle rest =>
      unfold Threads.jobStep
      dsimp only
      split <;> exact ⟨_, _, rfl, pubReaches_append _ candle⟩
  | repairGap gap batch =>
    unfold Threads.jobStep
    dsimp only
    split_ifs <;> exact ⟨_, _, rfl, .refl _⟩
  | fetchMissing gap batch => exact ⟨_, _, rfl, .refl _⟩
  | missing gap batch rest =>
    cases rest with
    | nil => exact ⟨_, _, rfl, .refl _⟩
    | cons candle rest => exact ⟨_, _, rfl, pubReaches_append _ candle⟩
  | retry rest =>
    cases rest with
    | nil => exact ⟨_, _, rfl, .refl _⟩
    | cons candle rest =>
      unfold Threads.jobStep
      dsimp only
      split <;> exact ⟨_, _, rfl, pubReaches_append _ candle⟩

theorem callPublish_eq {t : ThreadId} {lastClosed : Bool}
    (h : s.callPublish cfg t lastClosed = some s') :
    ∃ pub, s' = { s with pub := pub } ∧ PubReaches cfg s.pub pub := by
  obtain ⟨pub, hp, rfl⟩ := Option.map_eq_some_iff.mp h
  exact ⟨pub, rfl, .single hp⟩

theorem publishThen_eq {t : ThreadId} {next : Threads} (h : s.publishThen cfg t next = some s') :
    (∃ pub, s' = { s with pub := pub } ∧ PubReaches cfg s.pub pub) ∨ s' = next := by
  unfold Threads.publishThen at h
  split at h
  · obtain ⟨pub, hp, rfl⟩ := Option.map_eq_some_iff.mp h
    exact .inl ⟨pub, rfl, .single hp⟩
  · exact .inr (Option.some.inj h).symm

/-- What the worker does to the subscription: it starts it and stays with it, or
ends it when no callback is under way. -/
inductive Subscription (s s' : Threads) : Prop
  | kept (subscribed : s'.subscribed = s.subscribed)
    (stays : s.worker = some .live → s'.worker = some .live ∨ s'.worker = some .stopLiveStream)
    (before : s.worker ≠ some .stopLiveStream)
  | started (before : s.subscribed = false) (worker : s'.worker = some .live)
  | ended (callbacks : s.callbacks.all Option.isNone = true) (subscribed : s'.subscribed = false)

/-- What a step of the worker does. -/
structure WorkerFrame (cfg : ThreadsConfig) (s s' : Threads) : Prop where
  pub : PubReaches cfg s.pub s'.pub
  callbacks : s'.callbacks = s.callbacks
  paging : s'.paging = s.paging
  owner : s'.owner = s.owner
  running : s.running = false → s'.running = false
  subscription : Subscription s s'

/-- A step where the worker is not subscribed. -/
theorem WorkerFrame.plain {pc : WorkerPc} (hw : s.worker = some pc) (hl : pc ≠ .live)
    (hs : pc ≠ .stopLiveStream) (hp : PubReaches cfg s.pub pub) (worker : Option WorkerPc)
    (backfilling repairing : Bool) :
    WorkerFrame cfg s { s with
      pub := pub, worker := worker, backfilling := backfilling, repairing := repairing } :=
  ⟨hp, rfl, rfl, rfl, id, .kept rfl (fun h => absurd (Option.some.inj (hw.symm.trans h)) hl)
    fun h => hs (Option.some.inj (hw.symm.trans h))⟩

theorem workerStep_frame {fetched : List Candle} {now : Int} {subscribes : Bool}
    (h : s.workerStep cfg fetched now subscribes = some s') : WorkerFrame cfg s s' := by
  unfold Threads.workerStep at h
  cases hw : s.worker with
  | none => simp only [hw] at h; cases h
  | some pc =>
    have finish : pc ≠ .live → pc ≠ .stopLiveStream →
        ({ s with worker := some .finish } : Threads).callPublish cfg .worker true = some s' →
        WorkerFrame cfg s s' := fun hl hs hf => by
      obtain ⟨pub, rfl, hp⟩ := callPublish_eq hf
      exact .plain hw hl hs hp _ _ _
    rw [hw] at h
    cases pc with
    | begin_ =>
      obtain rfl := Option.some.inj h
      exact .plain hw nofun nofun (.refl _) _ _ _
    | setup =>
      dsimp only at h
      split at h
      · obtain rfl := Option.some.inj h
        exact .plain hw nofun nofun (.refl _) _ _ _
      · obtain rfl := Option.some.inj h
        exact .plain hw nofun nofun (.refl _) _ _ _
    | head v =>
      dsimp only at h
      split_ifs at h
      · exact finish nofun nofun h
      · exact finish nofun nofun h
      · obtain rfl := Option.some.inj h
        exact .plain hw nofun nofun (.refl _) _ _ _
    | fetch v =>
      obtain rfl := Option.some.inj h
      exact .plain hw nofun nofun (.refl _) _ _ _
    | fetched v candles =>
      dsimp only at h
      split_ifs at h
      · exact finish nofun nofun h
      · obtain rfl := Option.some.inj h
        exact .plain hw nofun nofun (.refl _) _ _ _
      · exact finish nofun nofun h
      · obtain rfl := Option.some.inj h
        exact .plain hw nofun nofun (.refl _) _ _ _
    | append v count job =>
      obtain ⟨pub, repairing, e, hp⟩ := jobStep_eq cfg fetched s job
      rcases hj : s.jobStep cfg.toSyncConfig fetched job with ⟨s₁, _ | job'⟩ <;>
        rw [hj] at e <;> simp only [hj] at h <;> dsimp only at e <;> subst e
      · obtain ⟨pub', rfl, hp'⟩ := callPublish_eq h
        exact .plain hw nofun nofun (hp.trans hp') _ _ _
      · obtain rfl := Option.some.inj h
        exact .plain hw nofun nofun hp _ _ _
    | publish v count gapDetected =>
      obtain ⟨pub, rfl, hp⟩ | rfl := publishThen_eq h
      · exact .plain hw nofun nofun hp _ _ _
      · exact .plain hw nofun nofun (.refl _) _ _ _
    | metadata v count gapDetected =>
      dsimp only at h
      split_ifs at h <;> obtain rfl := Option.some.inj h <;>
        exact .plain hw nofun nofun (.refl _) _ _ _
    | next v morePages =>
      dsimp only at h
      split_ifs at h
      · exact finish nofun nofun h
      · obtain rfl := Option.some.inj h
        exact .plain hw nofun nofun (.refl _) _ _ _
    | finish =>
      obtain ⟨pub, rfl, hp⟩ | rfl := publishThen_eq h
      · exact .plain hw nofun nofun hp _ _ _
      · exact .plain hw nofun nofun (.refl _) _ _ _
    | checkLive =>
      obtain rfl := Option.some.inj h
      exact .plain hw nofun nofun (.refl _) _ _ _
    | startLiveStream =>
      dsimp only at h
      split_ifs at h
      · obtain rfl := Option.some.inj h
        exact .plain hw nofun nofun (.refl _) _ _ _
      · rename_i hsub
        obtain rfl := Option.some.inj h
        exact ⟨.refl _, rfl, rfl, rfl, id, .started (Bool.not_eq_true _ ▸ hsub) rfl⟩
    | live =>
      obtain rfl := Option.some.inj h
      refine ⟨.refl _, rfl, rfl, rfl, id, .kept rfl (fun _ => ?_) (by rw [hw]; nofun)⟩
      dsimp only
      split
      · exact .inl rfl
      · exact .inr rfl
    | stopLiveStream =>
      dsimp only at h
      split_ifs at h with hc
      obtain rfl := Option.some.inj h
      exact ⟨.refl _, rfl, rfl, rfl, id, .ended hc rfl⟩
    | resetBackfilling =>
      obtain rfl := Option.some.inj h
      exact .plain hw nofun nofun (.refl _) _ _ _
    | resetRunning =>
      obtain rfl := Option.some.inj h
      exact ⟨.refl _, rfl, rfl, rfl, fun _ => rfl, .kept rfl
        (fun hl => by rw [hw] at hl; cases hl) (by rw [hw]; nofun)⟩
    | ended => cases h

/-- A callback changes nothing but itself, the repository, the log and
`lastLivePublish_`. -/
theorem liveStep_frame {n : Nat} {now : Int} (h : s.liveStep cfg n now = some s') :
    (∃ pc, s.callbacks[n]? = some (some pc)) ∧ ∃ pub lastLivePublish callbacks,
      PubReaches cfg s.pub pub ∧ s' = { s with
        pub := pub, lastLivePublish := lastLivePublish, callbacks := callbacks } := by
  unfold Threads.liveStep at h
  cases hc : s.callbacks[n]? with
  | none => simp only [hc] at h; cases h
  | some cell =>
    rw [hc] at h
    cases cell with
    | none => cases h
    | some pc =>
      refine ⟨⟨pc, rfl⟩, ?_⟩
      cases pc with
      | begin_ live =>
        obtain rfl := Option.some.inj h
        exact ⟨_, _, _, .refl _, rfl⟩
      | append live =>
        obtain rfl := Option.some.inj h
        exact ⟨_, _, _, pubReaches_append _ live.candle, rfl⟩
      | throttle live =>
        dsimp only at h
        split at h
        · obtain rfl := Option.some.inj h
          exact ⟨_, _, _, .refl _, rfl⟩
        · obtain ⟨pub, rfl, hp⟩ := callPublish_eq h
          exact ⟨_, _, _, hp, rfl⟩
      | publish =>
        obtain ⟨pub, rfl, hp⟩ | rfl := publishThen_eq h
        · exact ⟨_, _, _, hp, rfl⟩
        · exact ⟨_, _, _, .refl _, rfl⟩

/-- A paging thread changes nothing but itself, the repository, the log, its flag
and `repairing_`. -/
theorem pagingStep_frame {sort : StdSort} {n : Nat} {fetched : List Candle}
    (h : s.pagingStep sort cfg n fetched = some s') :
    (∃ pc, s.paging[n]? = some (some pc)) ∧ ∃ pub repairing pagingBackfill paging,
      PubReaches cfg s.pub pub ∧ s' = { s with
        pub := pub, repairing := repairing, pagingBackfill := pagingBackfill, paging := paging } := by
  unfold Threads.pagingStep at h
  cases hc : s.paging[n]? with
  | none => simp only [hc] at h; cases h
  | some cell =>
    rw [hc] at h
    cases cell with
    | none => cases h
    | some pc =>
      refine ⟨⟨pc, rfl⟩, ?_⟩
      cases pc with
      | fetch startOpen candles =>
        dsimp only at h
        split at h <;> obtain rfl := Option.some.inj h <;> exact ⟨_, _, _, _, .refl _, rfl⟩
      | append job =>
        obtain ⟨pub, repairing, e, hp⟩ := jobStep_eq cfg fetched s job
        rcases hj : s.jobStep cfg.toSyncConfig fetched job with ⟨s₁, _ | job'⟩ <;>
          rw [hj] at e <;> simp only [hj] at h <;> dsimp only at e <;> subst e
        · obtain ⟨pub', rfl, hp'⟩ := callPublish_eq h
          exact ⟨_, _, _, _, hp.trans hp', rfl⟩
        · obtain rfl := Option.some.inj h
          exact ⟨_, _, _, _, hp, rfl⟩
      | publish =>
        obtain ⟨pub, rfl, hp⟩ | rfl := publishThen_eq h
        · exact ⟨_, _, _, _, hp, rfl⟩
        · exact ⟨_, _, _, _, .refl _, rfl⟩
      | resetPaging =>
        obtain rfl := Option.some.inj h
        exact ⟨_, _, _, _, .refl _, rfl⟩

/-- What the owner's step does. -/
inductive OwnerStep (s : Threads) : Threads → Prop
  | start (owner : s.owner = .start) (ended : s.worker = none ∨ s.worker = some .ended) :
    OwnerStep s { s with worker := some .begin_, owner := .idle }
  | stop (owner : s.owner = .stop) (ended : s.worker = none ∨ s.worker = some .ended) :
    OwnerStep s { s with worker := none, owner := .idle }
  | ignored (owner : s.owner ≠ .stop) : OwnerStep s { s with owner := .idle }
  | load (startOpen : Int) (candles : Nat) (owner : s.owner = .loadRunning startOpen candles)
    (running : s.running = true) :
    OwnerStep s { s with owner := .loadBackfilling startOpen candles }
  | exchange (startOpen : Int) (candles : Nat) (owner : s.owner = .loadBackfilling startOpen candles) :
    OwnerStep s { s with owner := .exchangePaging startOpen candles }
  | spawn (startOpen : Int) (candles : Nat) (owner : s.owner = .exchangePaging startOpen candles) :
    OwnerStep s { s with
      pagingBackfill := true
      paging := s.paging ++ [some (.fetch startOpen candles)]
      owner := .idle }

omit [TimeUtils] in
theorem ownerStep_cases (h : s.ownerStep = some s') : OwnerStep s s' := by
  unfold Threads.ownerStep at h
  cases ho : s.owner with
  | idle => simp only [ho] at h; cases h
  | start =>
    simp only [ho] at h
    split_ifs at h with he
    exact Option.some.inj h ▸ .start ho he
  | stop =>
    simp only [ho] at h
    split_ifs at h with he
    exact Option.some.inj h ▸ .stop ho he
  | loadRunning startOpen candles =>
    simp only [ho] at h
    obtain rfl := Option.some.inj h
    split
    · exact .load startOpen candles ho ‹_›
    · exact .ignored (by rw [ho]; nofun)
  | loadBackfilling startOpen candles =>
    simp only [ho] at h
    obtain rfl := Option.some.inj h
    split
    · exact .ignored (by rw [ho]; nofun)
    · exact .exchange startOpen candles ho
  | exchangePaging startOpen candles =>
    simp only [ho] at h
    split_ifs at h
    · exact Option.some.inj h ▸ .ignored (by rw [ho]; nofun)
    · exact Option.some.inj h ▸ .spawn startOpen candles ho

/-- What a step does to the repository, the cache and the bus is a run of
`Publishing`. -/
theorem step_publishing {sort : StdSort} {e : ThreadEvent} (h : s.step sort cfg e = some s') :
    PubReaches cfg s.pub s'.pub := by
  cases e with
  | worker fetched now subscribes => exact (workerStep_frame h).pub
  | callback live =>
    rw [Threads.step] at h
    split_ifs at h
    exact Option.some.inj h ▸ .refl _
  | live n now =>
    obtain ⟨-, pub, _, _, hp, rfl⟩ := liveStep_frame h
    exact hp
  | paging n fetched =>
    obtain ⟨-, pub, _, _, _, hp, rfl⟩ := pagingStep_frame h
    exact hp
  | start =>
    rw [Threads.step] at h
    split_ifs at h <;> exact Option.some.inj h ▸ .refl _
  | stop =>
    rw [Threads.step] at h
    split_ifs at h
    exact Option.some.inj h ▸ .refl _
  | requestBackfillOlder startOpen candles =>
    rw [Threads.step] at h
    split_ifs at h <;> exact Option.some.inj h ▸ .refl _
  | owner => cases ownerStep_cases h <;> exact .refl _

/-! ## The invariant -/

/-- Callbacks run while the worker is in its live phase; `stop` has cleared
`running_` before it joins. -/
structure Threads.Ok (s : Threads) : Prop where
  live : s.subscribed = true → s.worker = some .live ∨ s.worker = some .stopLiveStream
  callbacks : ∀ (n : Nat) pc, s.callbacks[n]? = some (some pc) → s.subscribed = true
  stopping : s.owner = .stop → s.running = false

omit [TimeUtils] in
/-- A worker that has ended, or was never started, is not subscribed. -/
theorem Threads.Ok.not_subscribed (h : s.Ok) (hw : s.worker = none ∨ s.worker = some .ended) :
    s.subscribed = false := by
  by_contra hsub
  rw [Bool.not_eq_false] at hsub
  rcases hw with hw | hw <;> rcases h.live hsub with hl | hl <;> rw [hw] at hl <;> cases hl

theorem worker_ok (h : s.Ok) (hf : WorkerFrame cfg s s') : s'.Ok := by
  have stopping : s'.owner = .stop → s'.running = false := fun ho =>
    hf.running (h.stopping (hf.owner ▸ ho))
  cases hf.subscription with
  | kept subscribed stays before =>
    refine ⟨fun hsub => ?_, fun n pc hc => ?_, stopping⟩
    · exact stays ((h.live (subscribed ▸ hsub)).resolve_right before)
    · rw [subscribed]
      exact h.callbacks n pc (hf.callbacks ▸ hc)
  | started before worker =>
    refine ⟨fun _ => .inl worker, fun n pc hc => ?_, stopping⟩
    have := h.callbacks n pc (hf.callbacks ▸ hc)
    exact absurd (before.symm.trans this) nofun
  | ended callbacks subscribed =>
    refine ⟨fun hsub => absurd (subscribed.symm.trans hsub) nofun, fun n pc hc => ?_, stopping⟩
    have := List.all_eq_true.mp callbacks _ (List.mem_of_getElem? (hf.callbacks ▸ hc))
    cases this

theorem threads_ok {sort : StdSort} (h : s.Ok) {e : ThreadEvent} (hs : s.step sort cfg e = some s') :
    s'.Ok := by
  cases e with
  | worker fetched now subscribes => exact worker_ok h (workerStep_frame hs)
  | callback live =>
    rw [Threads.step] at hs
    split_ifs at hs with hsub
    exact Option.some.inj hs ▸ ⟨h.live, fun _ _ _ => hsub, h.stopping⟩
  | live n now =>
    obtain ⟨⟨pc, hc⟩, pub, _, _, -, rfl⟩ := liveStep_frame hs
    exact ⟨h.live, fun _ _ _ => h.callbacks n pc hc, h.stopping⟩
  | paging n fetched =>
    obtain ⟨-, pub, _, _, _, -, rfl⟩ := pagingStep_frame hs
    exact ⟨h.live, h.callbacks, h.stopping⟩
  | start =>
    rw [Threads.step] at hs
    split_ifs at hs
    · exact Option.some.inj hs ▸ h
    · exact Option.some.inj hs ▸ ⟨h.live, h.callbacks, nofun⟩
  | stop =>
    rw [Threads.step] at hs
    split_ifs at hs
    exact Option.some.inj hs ▸ ⟨h.live, h.callbacks, fun _ => rfl⟩
  | requestBackfillOlder startOpen candles =>
    rw [Threads.step] at hs
    split_ifs at hs
    · exact Option.some.inj hs ▸ h
    · exact Option.some.inj hs ▸ ⟨h.live, h.callbacks, nofun⟩
  | owner =>
    cases ownerStep_cases hs with
    | start owner ended =>
      have hsub := h.not_subscribed ended
      exact ⟨fun h => absurd (hsub.symm.trans h) nofun, h.callbacks, nofun⟩
    | stop owner ended =>
      have hsub := h.not_subscribed ended
      exact ⟨fun h => absurd (hsub.symm.trans h) nofun, h.callbacks, nofun⟩
    | _ => exact ⟨h.live, h.callbacks, nofun⟩

/-! ## After `stop` -/

/-- Paging thread `n` has made all its calls: it has still to release the mutex, or
only to reset its flag. -/
def Threads.Leaving (s : Threads) (n : Nat) : PagingPc → Prop
  | .resetPaging => True
  | .publish => ∀ call, s.pub.calls (.paging n) = some call → call.2 = .unlock
  | _ => False

/-- Nothing runs but paging threads that have made all their calls. -/
structure Threads.Stopped (s : Threads) : Prop where
  running : s.running = false
  worker : s.worker = none
  subscribed : s.subscribed = false
  callbacks : ∀ (n : Nat) pc, s.callbacks[n]? ≠ some (some pc)
  paging : ∀ (n : Nat) pc, s.paging[n]? = some (some pc) → s.Leaving n pc
  owner : s.owner = .idle ∨ s.owner = .stop ∨
    ∃ startOpen candles, s.owner = .loadRunning startOpen candles

omit [TimeUtils] in
theorem stopped_of_stop (h : s.Ok) (ho : s.owner = .stop)
    (hpaging : ∀ (n : Nat) pc, s.paging[n]? = some (some pc) → s.Leaving n pc)
    (hs : s.ownerStep = some s') : s'.Stopped := by
  cases ownerStep_cases hs with
  | stop owner ended =>
    have hsub := h.not_subscribed ended
    exact ⟨h.stopping ho, rfl, hsub,
      fun n pc hc => absurd (hsub.symm.trans (h.callbacks n pc hc)) nofun, hpaging, .inl rfl⟩
  | ignored owner => exact absurd ho owner
  | start owner | load _ _ owner | exchange _ _ owner | spawn _ _ owner => rw [ho] at owner; cases owner

omit [TimeUtils] in
/-- A list of threads after a change to one of them. -/
theorem getElem?_set_some {α : Type} {l : List (Option α)} {n m : Nat} {cell : Option α} {a : α}
    (h : (l.set n cell)[m]? = some (some a)) :
    m = n ∧ cell = some a ∨ m ≠ n ∧ l[m]? = some (some a) := by
  rw [List.getElem?_set] at h
  split_ifs at h with h₁ h₂
  · exact .inl ⟨h₁.symm, Option.some.inj h⟩
  · exact .inr ⟨fun e => h₁ e.symm, h⟩

omit [TimeUtils] in
/-- A thread goes on to reset its flag, or ends. -/
theorem Threads.Stopped.set (h : s.Stopped) (n : Nat) (pagingBackfill : Bool)
    {cell : Option PagingPc} (hcell : ∀ pc, cell = some pc → pc = .resetPaging) :
    ({ s with pagingBackfill := pagingBackfill, paging := s.paging.set n cell } :
      Threads).Stopped := by
  refine ⟨h.running, h.worker, h.subscribed, h.callbacks, fun m pc hm => ?_, h.owner⟩
  obtain ⟨-, e⟩ | ⟨-, hm⟩ := getElem?_set_some hm
  · rw [hcell pc e]
    trivial
  · exact h.paging m pc hm

/-- A leaving thread makes no call. -/
theorem paging_stopped {sort : StdSort} (h : s.Stopped) {n : Nat} {fetched : List Candle}
    (hs : s.pagingStep sort cfg n fetched = some s') : s'.Stopped ∧ s'.pub.log = s.pub.log := by
  obtain ⟨⟨pc, hc⟩, -⟩ := pagingStep_frame hs
  have hleaving := h.paging n pc hc
  unfold Threads.pagingStep at hs
  rw [hc] at hs
  cases pc with
  | fetch startOpen candles => exact hleaving.elim
  | append job => exact hleaving.elim
  | publish =>
    simp only [Threads.publishThen] at hs
    split_ifs at hs
    · obtain ⟨pub, hstep, rfl⟩ := Option.map_eq_some_iff.mp hs
      cases publishStep_cases hstep with
      | unlock lastClosed call =>
        refine ⟨⟨h.running, h.worker, h.subscribed, h.callbacks, fun m pc' hm => ?_, h.owner⟩, rfl⟩
        have hm' := h.paging m pc' hm
        cases pc' with
        | fetch startOpen candles => exact hm'
        | append job => exact hm'
        | publish =>
          intro call hcall
          obtain ⟨-, e⟩ | ⟨-, hcall⟩ := calls_goto_eq hcall
          · cases e
          · exact hm' call hcall
        | resetPaging => trivial
      | lock _ call | read _ call | update _ _ call | announce _ _ call => cases hleaving _ call
    · obtain rfl := Option.some.inj hs
      exact ⟨h.set n _ fun _ e => (Option.some.inj e).symm, rfl⟩
  | resetPaging =>
    obtain rfl := Option.some.inj hs
    exact ⟨h.set n _ nofun, rfl⟩

theorem stopped_step {sort : StdSort} (h : s.Stopped) {e : ThreadEvent} (he : e ≠ .start)
    (hs : s.step sort cfg e = some s') : s'.Stopped ∧ s'.pub.log = s.pub.log := by
  cases e with
  | worker fetched now subscribes =>
    rw [Threads.step, Threads.workerStep, h.worker] at hs
    cases hs
  | callback live =>
    rw [Threads.step, h.subscribed] at hs
    cases hs
  | live n now =>
    obtain ⟨⟨pc, hc⟩, -⟩ := liveStep_frame hs
    exact absurd hc (h.callbacks n pc)
  | paging n fetched => exact paging_stopped h hs
  | start => exact absurd rfl he
  | stop =>
    rw [Threads.step] at hs
    split_ifs at hs
    obtain rfl := Option.some.inj hs
    exact ⟨⟨rfl, h.worker, h.subscribed, h.callbacks, h.paging, .inr (.inl rfl)⟩, rfl⟩
  | requestBackfillOlder startOpen candles =>
    rw [Threads.step] at hs
    split_ifs at hs
    · exact Option.some.inj hs ▸ ⟨h, rfl⟩
    · obtain rfl := Option.some.inj hs
      exact ⟨⟨h.running, h.worker, h.subscribed, h.callbacks, h.paging, .inr (.inr ⟨_, _, rfl⟩)⟩, rfl⟩
  | owner =>
    cases ownerStep_cases hs with
    | stop owner ended =>
      exact ⟨⟨h.running, rfl, h.subscribed, h.callbacks, h.paging, .inl rfl⟩, rfl⟩
    | ignored owner =>
      exact ⟨⟨h.running, h.worker, h.subscribed, h.callbacks, h.paging, .inl rfl⟩, rfl⟩
    | load _ _ _ running => exact absurd (h.running.symm.trans running) nofun
    | start owner | exchange _ _ owner | spawn _ _ owner =>
      rcases h.owner with ho | ho | ⟨_, _, ho⟩ <;> rw [ho] at owner <;> cases owner

theorem stopped_run {sort : StdSort} (h : s.Stopped) {es : List ThreadEvent}
    (he : ThreadEvent.start ∉ es) (hr : run (Threads.step sort cfg) s es = some s') :
    s'.pub.log = s.pub.log := by
  have hstep : ∀ (t : Threads) (e : ThreadEvent) (u : Threads),
      (t.Stopped ∧ t.pub.log = s.pub.log) → e ≠ .start → t.step sort cfg e = some u →
        (u.Stopped ∧ u.pub.log = s.pub.log) := by
    rintro t e u ⟨ht, hlog⟩ hne hstep
    obtain ⟨hu, hlog'⟩ := stopped_step ht hne hstep
    exact ⟨hu, hlog'.trans hlog⟩
  have halong : Along (Threads.step sort cfg) (fun _ e => e ≠ .start) s es :=
    along_of_mem fun e hmem _ heq => he (heq ▸ hmem)
  exact (inv_of_along hstep ⟨h, rfl⟩ halong hr).2

end

/-- The orchestrator before the first call. -/
def Threads.init (repo : Repository) : Threads := { pub := { repo := repo } }

theorem init_ok (repo : Repository) : (Threads.init repo).Ok :=
  ⟨nofun, fun n pc h => by simp [Threads.init] at h, nofun⟩

/-- In every run, from the return of a `stop` on no thread appends a candle, hands a
series to the cache or publishes an event until `start` is called again, where no
paging thread has such a call still to make when that `stop` returns. -/
theorem stop_quiet [TimeUtils] (sort : StdSort) (cfg : ThreadsConfig) (repo : Repository)
    (before after : List ThreadEvent) (s t u : Threads)
    (hbefore : run (Threads.step sort cfg) (Threads.init repo) before = some s)
    (hstop : s.owner = .stop) (hreturn : s.step sort cfg .owner = some t)
    (hpaging : ∀ (n : Nat) pc, s.paging[n]? = some (some pc) → s.Leaving n pc)
    (hafter : run (Threads.step sort cfg) t after = some u) (hstart : ThreadEvent.start ∉ after) :
    u.pub.log = t.pub.log := by
  have hok : s.Ok := inv_of_along (P := fun _ _ => True) (fun _ _ _ h _ hs => threads_ok h hs)
    (init_ok repo) (along_of_forall fun _ _ => trivial) hbefore
  exact stopped_run (stopped_of_stop hok hstop hpaging hreturn) hstart hafter

/-- A run whose last event but those of `after` is the owner's return from `stop`. -/
theorem run_stop {sort : StdSort} {cfg : ThreadsConfig} {s₀ u : Threads}
    {before after : List ThreadEvent} [TimeUtils]
    (h : run (Threads.step sort cfg) s₀ (before ++ .owner :: after) = some u) :
    ∃ s t, run (Threads.step sort cfg) s₀ before = some s ∧ s.step sort cfg .owner = some t ∧
      run (Threads.step sort cfg) t after = some u := by
  rw [run_append, Option.bind_eq_some_iff] at h
  obtain ⟨s, hs, h⟩ := h
  rw [run_cons, Option.bind_eq_some_iff] at h
  obtain ⟨t, ht, h⟩ := h
  exact ⟨s, t, hs, ht, h⟩

/-- A worker that ends at once: its twelve steps after `stop`. -/
def workerSteps : List ThreadEvent := List.replicate 12 (.worker [] 0 false)

theorem stop_quiet_request :
    ∃ s t u, run (Threads.step .insertion {}) (Threads.init (Repository.construct .insertion {} ['B']
        ⟨60000⟩)) ([.start, .owner, .stop] ++ workerSteps) = some s ∧
      s.step .insertion {} .owner = some t ∧
      run (Threads.step .insertion {}) t [.requestBackfillOlder 0 1, .owner] = some u ∧
      u.pub.log = t.pub.log := by
  have hu : (run (Threads.step .insertion {}) (Threads.init (Repository.construct .insertion {} ['B']
      ⟨60000⟩)) ([.start, .owner, .stop] ++ workerSteps ++
        .owner :: [.requestBackfillOlder 0 1, .owner])).isSome = true := by decide +kernel
  have hs : (run (Threads.step .insertion {}) (Threads.init (Repository.construct .insertion {} ['B']
      ⟨60000⟩)) ([.start, .owner, .stop] ++ workerSteps)).map (fun s => (s.owner, s.paging)) =
      some (.stop, []) := by decide +kernel
  obtain ⟨u, hu⟩ := Option.isSome_iff_exists.mp hu
  obtain ⟨s, t, hbefore, hreturn, hafter⟩ := run_stop hu
  rw [hbefore] at hs
  obtain ⟨hstop, hpaging⟩ := Prod.mk.inj (Option.some.inj hs)
  exact ⟨s, t, u, hbefore, hreturn, hafter, stop_quiet _ _ _ _ _ s t u hbefore hstop hreturn
    (fun n pc hc => by rw [hpaging] at hc; cases hc) hafter (by decide)⟩

/-- A paging thread that has not fetched yet when `stop` returns appends its candle
afterwards. -/
theorem stop_not_quiet_paging :
    ∃ s t u, run (Threads.step .insertion {}) (Threads.init (Repository.construct .insertion {} ['B']
        ⟨60000⟩)) ([.start, .owner, .requestBackfillOlder 60000 1, .owner, .owner, .owner, .stop] ++
          workerSteps) = some s ∧
      s.owner = .stop ∧ s.step .insertion {} .owner = some t ∧
      run (Threads.step .insertion {}) t
        [.paging 0 [flatCandle 60000 true], .paging 0 []] = some u ∧
      u.pub.log = t.pub.log ++ [.appendOrReplace (flatCandle 60000 true)] := by
  have hlog : (run (Threads.step .insertion {}) (Threads.init (Repository.construct .insertion {} ['B']
      ⟨60000⟩)) ([.start, .owner, .requestBackfillOlder 60000 1, .owner, .owner, .owner, .stop] ++
        workerSteps ++ .owner :: [.paging 0 [flatCandle 60000 true], .paging 0 []])).map
        (·.pub.log) =
      some [.update ⟨⟨60000⟩, [], 0, 0⟩, .publishSeriesUpdated ⟨0, 0, 0, true⟩,
        .appendOrReplace (flatCandle 60000 true)] := by decide +kernel
  have hs : (run (Threads.step .insertion {}) (Threads.init (Repository.construct .insertion {} ['B']
      ⟨60000⟩)) ([.start, .owner, .requestBackfillOlder 60000 1, .owner, .owner, .owner, .stop] ++
        workerSteps)).map (fun s => (s.owner, (s.step .insertion {} .owner).map (·.pub.log))) =
      some (.stop, some [.update ⟨⟨60000⟩, [], 0, 0⟩, .publishSeriesUpdated ⟨0, 0, 0, true⟩]) := by
    decide +kernel
  obtain ⟨u, hu, hlog⟩ := Option.map_eq_some_iff.mp hlog
  obtain ⟨s, t, hbefore, hreturn, hafter⟩ := run_stop hu
  rw [hbefore] at hs
  obtain ⟨hstop, ht⟩ := Prod.mk.inj (Option.some.inj hs)
  rw [hreturn] at ht
  have htlog : t.pub.log = _ := Option.some.inj ht
  exact ⟨s, t, u, hbefore, hstop, hreturn, hafter, by rw [hlog, htlog]; rfl⟩

end TCV.App
