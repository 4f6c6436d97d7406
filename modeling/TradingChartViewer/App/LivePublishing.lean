import TradingChartViewer.App.Threads
import TradingChartViewer.Lib.Throttle

/-!
# Publishing what the live stream brings

`handleLiveCandle` publishes a closed candle at once and an open one only if the last live
publication is `kLiveThrottleMs` ago. What the cache holds, and how often it is updated, in the
runs of the threads of the orchestrator.

* `Threads.watch`: what comes to the throttle; `run_throttled`: the runs obey it;
* `Threads.Owes`: a thread has still to publish; `Effect`: what a step does to that;
* `live_publications_le`: how often the live stream publishes;
* `cache_follows`: the cache holds the latest candles, or the throttle holds them back.
-/

namespace TCV.App

open TCV.Domain TCV.Storage Lib.Run Lib.Throttle

/-! ## What comes to the throttle -/

/-- A callback that reads the clock, and whether it goes on to publish; the start of the stream,
which clears `lastLivePublish_`. -/
def Threads.watch (s : Threads) (e : ThreadEvent) (t : Threads) : Option (Item Int) :=
  match e with
  | .live n now =>
    match s.callbacks[n]? with
    | some (some (.throttle live)) =>
      some (.offer now (live.isFinal && live.candle.isClosed)
        (t.callbacks[n]? = some (some .publish)))
    | _ => none
  | .worker .. =>
    if s.worker = some .startLiveStream ∧ s.subscribed = false then some .reset else none
  | _ => none

/-- What came to the throttle in a run. -/
def watched [TimeUtils] (sort : StdSort) (cfg : ThreadsConfig) (s : Threads)
    (es : List ThreadEvent) : List (Item Int) := seen (Threads.step sort cfg) Threads.watch s es

/-- The thread that takes the step. -/
def ThreadEvent.thread : ThreadEvent → Option ThreadId
  | .worker .. => some .worker
  | .live n _ => some (.live n)
  | .paging n _ => some (.paging n)
  | _ => none

/-! ## Who has still to publish -/

/-- Where a thread stands: it is between its appends and its call of `publishSnapshot`, in that
call, or neither. -/
inductive Duty
  | rest
  | owes
  | publishing
  deriving DecidableEq, Repr

def WorkerPc.duty : WorkerPc → Duty
  | .append .. => .owes
  | .publish .. | .finish => .publishing
  | _ => .rest

def LivePc.duty : LivePc → Duty
  | .throttle _ => .owes
  | .publish => .publishing
  | _ => .rest

def PagingPc.duty : PagingPc → Duty
  | .append _ => .owes
  | .publish => .publishing
  | _ => .rest

def Threads.duty (s : Threads) : ThreadId → Duty
  | .worker => s.worker.elim .rest WorkerPc.duty
  | .live n => (s.callbacks[n]?.getD none).elim .rest LivePc.duty
  | .paging n => (s.paging[n]?.getD none).elim .rest PagingPc.duty

/-- A call of `publishSnapshot` has not read the repository yet. -/
def Publishing.Reads (s : Publishing ThreadId) : Prop :=
  ∃ th lastClosed, s.calls th = some (lastClosed, .lock) ∨ s.calls th = some (lastClosed, .read)

/-- A thread will read the repository and publish what it finds. -/
def Threads.Owes (s : Threads) : Prop := (∃ th, s.duty th = .owes) ∨ s.pub.Reads

/-- The series that was read last, while the holder of the mutex is at `pc`: the one that is to
be handed over, or the last that was. -/
def Publishing.readAt (s : Publishing ThreadId) : PublishPc → Option CandleSeries
  | .update series => some series
  | _ => s.published.getLast?

def Publishing.lastRead (s : Publishing ThreadId) : Option CandleSeries :=
  match s.inside with
  | some (some pc) => s.readAt pc
  | _ => s.published.getLast?

/-- What a step means to the cache and to the throttle. -/
inductive Effect (cfg : ThreadsConfig) (s : Threads) (e : ThreadEvent) (t : Threads) : Prop
  | other (watch : s.watch e t = none) (last : t.lastLivePublish = s.lastLivePublish)
    (pub : t.pub = s.pub) (duty : ∀ u, t.duty u = s.duty u)
  | kept (watch : s.watch e t = none) (last : t.lastLivePublish = s.lastLivePublish)
    (pub : t.pub = s.pub) (th : ThreadId) (others : ∀ u, u ≠ th → t.duty u = s.duty u)
    (before : s.duty th = .rest ∨ s.duty th = .publishing ∧ s.pub.calls th = none)
  | append (watch : s.watch e t = none) (last : t.lastLivePublish = s.lastLivePublish)
    (th : ThreadId) (thread : e.thread = some th) (others : ∀ u, u ≠ th → t.duty u = s.duty u)
    (before : s.duty th ≠ .publishing) (calls : t.pub.calls = s.pub.calls)
    (read : t.pub.lastRead = s.pub.lastRead) (after : t.duty th = .owes)
  | call (watch : s.watch e t = none) (last : t.lastLivePublish = s.lastLivePublish)
    (th : ThreadId) (others : ∀ u, u ≠ th → t.duty u = s.duty u) (after : t.duty th = .publishing)
    (calls : ∀ u, u ≠ th → t.pub.calls u = s.pub.calls u) (reads : t.pub.Reads)
  | publish (watch : s.watch e t = none) (th : ThreadId) (before : s.duty th = .publishing)
    (pub : Publishing ThreadId) (step : PublishStep cfg.publishCandles s.pub th pub)
    (same : t = { s with pub := pub })
  | restart (watch : s.watch e t = some .reset) (last : t.lastLivePublish = none)
    (pub : t.pub = s.pub) (duty : ∀ u, t.duty u = s.duty u)
  | passed (now : Int) (closed : Bool) (watch : s.watch e t = some (.offer now closed true))
    (last : t.lastLivePublish = some now)
    (passes : (closed || !s.lastLivePublish.any (now - · < kLiveThrottleMs)) = true)
    (th : ThreadId) (others : ∀ u, u ≠ th → t.duty u = s.duty u) (after : t.duty th = .publishing)
    (calls : ∀ u, u ≠ th → t.pub.calls u = s.pub.calls u) (reads : t.pub.Reads)
  | held (now : Int) (watch : s.watch e t = some (.offer now false false))
    (last : t.lastLivePublish = s.lastLivePublish)
    (early : s.lastLivePublish.any (now - · < kLiveThrottleMs) = true) (pub : t.pub = s.pub)
    (th : ThreadId) (thread : e.thread = some th) (others : ∀ u, u ≠ th → t.duty u = s.duty u)
    (before : s.duty th = .owes)

section

variable {cfg : ThreadsConfig} {s t : Threads} {e : ThreadEvent} {pub : Publishing ThreadId}

/-- A thread that calls `publishSnapshot`. -/
theorem callPublish_reads [TimeUtils] {th : ThreadId} {lastClosed : Bool}
    (h : s.callPublish cfg th lastClosed = some t) :
    ∃ pub : Publishing ThreadId, t = { s with pub := pub } ∧ pub.Reads ∧
      ∀ u, u ≠ th → pub.calls u = s.pub.calls u := by
  obtain ⟨pub, hp, rfl⟩ := Option.map_eq_some_iff.mp h
  rw [Publishing.step] at hp
  split_ifs at hp
  obtain rfl := Option.some.inj hp
  exact ⟨_, rfl, ⟨th, lastClosed, .inl (calls_goto_self ..)⟩, fun u hu => calls_goto_of_ne hu _⟩

/-- A thread in `publishSnapshot` goes on with it, or with what follows. -/
theorem publishThen_steps [TimeUtils] {th : ThreadId} {next : Threads}
    (h : s.publishThen cfg th next = some t) :
    (∃ pub, PublishStep cfg.publishCandles s.pub th pub ∧ t = { s with pub := pub }) ∨
      t = next ∧ s.pub.calls th = none := by
  unfold Threads.publishThen at h
  split at h
  · obtain ⟨pub, hp, rfl⟩ := Option.map_eq_some_iff.mp h
    exact .inl ⟨pub, publishStep_cases hp, rfl⟩
  · rename_i hc
    exact .inr ⟨(Option.some.inj h).symm, Option.not_isSome_iff_eq_none.mp hc⟩

/-- An append is no step of a call. -/
theorem lastRead_append [TimeUtils] (pub : Publishing ThreadId) (candle : Candle) :
    (pub.append candle).2.calls = pub.calls ∧ (pub.append candle).2.lastRead = pub.lastRead := by
  have hp := published_append pub candle
  have hinside : (pub.append candle).2.inside = pub.inside := rfl
  refine ⟨rfl, ?_⟩
  unfold Publishing.lastRead Publishing.readAt
  rw [hp, hinside]

theorem jobStep_same [TimeUtils] (cfg : ThreadsConfig) (s : Threads) (fetched : List Candle)
    (job : Job) :
    (s.jobStep cfg.toSyncConfig fetched job).1.pub.calls = s.pub.calls ∧
      (s.jobStep cfg.toSyncConfig fetched job).1.pub.lastRead = s.pub.lastRead := by
  cases job with
  | page batch rest | missing gap batch rest | retry rest =>
    cases rest with
    | nil => exact ⟨rfl, rfl⟩
    | cons candle rest =>
      unfold Threads.jobStep
      dsimp only
      try split
      all_goals exact lastRead_append s.pub candle
  | repairGap gap batch =>
    unfold Threads.jobStep
    dsimp only
    split_ifs <;> exact ⟨rfl, rfl⟩
  | fetchMissing gap batch => exact ⟨rfl, rfl⟩

/-! ### The worker -/

theorem watch_worker {pc : WorkerPc} (hw : s.worker = some pc) (hpc : pc ≠ .startLiveStream)
    (fetched : List Candle) (now : Int) (subscribes : Bool) :
    s.watch (.worker fetched now subscribes) t = none :=
  if_neg fun h => hpc (Option.some.inj (hw.symm.trans h.1))

theorem duty_worker {pc : WorkerPc} (hw : s.worker = some pc) : s.duty .worker = pc.duty := by
  rw [Threads.duty, hw]
  rfl

theorem others_worker (hcallbacks : t.callbacks = s.callbacks) (hpaging : t.paging = s.paging) :
    ∀ u, u ≠ .worker → t.duty u = s.duty u := by
  intro u hu
  cases u with
  | worker => exact absurd rfl hu
  | live n => rw [Threads.duty, hcallbacks]; rfl
  | paging n => rw [Threads.duty, hpaging]; rfl

/-- The worker goes on from where it neither owes a publication nor publishes. -/
theorem Effect.of_worker {pc : WorkerPc} (hw : s.worker = some pc) (hpc : pc ≠ .startLiveStream)
    (hrest : pc.duty = .rest) {fetched : List Candle} {now : Int} {subscribes : Bool}
    (worker : Option WorkerPc) (running backfilling subscribed : Bool) :
    Effect cfg s (.worker fetched now subscribes) { s with
      worker := worker, running := running, backfilling := backfilling,
      subscribed := subscribed } :=
  .kept (watch_worker hw hpc ..) rfl rfl .worker (others_worker rfl rfl)
    (.inl ((duty_worker hw).trans hrest))

variable [TimeUtils]

theorem worker_effect {fetched : List Candle} {now : Int} {subscribes : Bool}
    (h : s.workerStep cfg fetched now subscribes = some t) :
    Effect cfg s (.worker fetched now subscribes) t := by
  unfold Threads.workerStep at h
  cases hw : s.worker with
  | none => simp only [hw] at h; cases h
  | some pc =>
    have hduty := duty_worker hw
    have finish (hpc : pc ≠ .startLiveStream)
        (hf : ({ s with worker := some .finish } : Threads).callPublish cfg .worker true = some t) :
        Effect cfg s (.worker fetched now subscribes) t := by
      obtain ⟨pub, rfl, hreads, hcalls⟩ := callPublish_reads hf
      exact .call (watch_worker hw hpc ..) rfl .worker (others_worker rfl rfl) rfl hcalls hreads
    have goOn (hpc : pc ≠ .startLiveStream) (hpub : pc.duty = .publishing)
        {worker : Option WorkerPc}
        (hf : s.publishThen cfg .worker { s with worker := worker } = some t) :
        Effect cfg s (.worker fetched now subscribes) t := by
      obtain ⟨pub, hstep, rfl⟩ | ⟨rfl, hnone⟩ := publishThen_steps hf
      · exact .publish (watch_worker hw hpc ..) .worker (hduty.trans hpub) pub hstep rfl
      · exact .kept (watch_worker hw hpc ..) rfl rfl .worker (others_worker rfl rfl)
          (.inr ⟨hduty.trans hpub, hnone⟩)
    rw [hw] at h
    cases pc with
    | begin_ | fetch | checkLive | live | resetBackfilling | resetRunning =>
      obtain rfl := Option.some.inj h
      exact .of_worker hw nofun rfl ..
    | setup =>
      dsimp only at h
      split at h <;> obtain rfl := Option.some.inj h <;> exact .of_worker hw nofun rfl ..
    | head v =>
      dsimp only at h
      split_ifs at h
      · exact finish nofun h
      · exact finish nofun h
      · obtain rfl := Option.some.inj h
        exact .of_worker hw nofun rfl ..
    | fetched v candles =>
      dsimp only at h
      split_ifs at h
      · exact finish nofun h
      · obtain rfl := Option.some.inj h
        exact .of_worker hw nofun rfl ..
      · exact finish nofun h
      · obtain rfl := Option.some.inj h
        exact .of_worker hw nofun rfl ..
    | append v count job =>
      have hbefore : s.duty .worker ≠ .publishing := by rw [hduty]; nofun
      obtain ⟨hcalls, hread⟩ := jobStep_same cfg s fetched job
      obtain ⟨pub, repairing, e, -⟩ := jobStep_eq cfg fetched s job
      rcases hj : s.jobStep cfg.toSyncConfig fetched job with ⟨s₁, _ | job'⟩ <;>
        rw [hj] at e hcalls hread <;> simp only [hj] at h <;> dsimp only at e hcalls hread <;>
        subst e
      · obtain ⟨pub', rfl, hreads, hcalls'⟩ := callPublish_reads h
        exact .call (watch_worker hw nofun ..) rfl .worker (others_worker rfl rfl) rfl
          (fun u hu => (hcalls' u hu).trans (congrFun hcalls u)) hreads
      · obtain rfl := Option.some.inj h
        exact .append (watch_worker hw nofun ..) rfl .worker rfl (others_worker rfl rfl) hbefore
          hcalls hread rfl
    | publish v count gapDetected => exact goOn nofun rfl h
    | metadata v count gapDetected =>
      dsimp only at h
      split_ifs at h <;> obtain rfl := Option.some.inj h <;> exact .of_worker hw nofun rfl ..
    | next v morePages =>
      dsimp only at h
      split_ifs at h
      · exact finish nofun h
      · obtain rfl := Option.some.inj h
        exact .of_worker hw nofun rfl ..
    | finish => exact goOn nofun rfl h
    | startLiveStream =>
      dsimp only at h
      split_ifs at h with hsub
      · obtain rfl := Option.some.inj h
        have hwatch : s.watch (.worker fetched now subscribes)
            { s with worker := some .live } = none :=
          if_neg fun h => Bool.false_ne_true (h.2.symm.trans hsub)
        exact .kept hwatch rfl rfl .worker (others_worker rfl rfl) (.inl hduty)
      · obtain rfl := Option.some.inj h
        refine .restart (if_pos ⟨hw, Bool.not_eq_true _ ▸ hsub⟩) rfl rfl fun u => ?_
        cases u with
        | worker => exact hduty.symm
        | _ => rfl
    | stopLiveStream =>
      dsimp only at h
      split_ifs at h
      obtain rfl := Option.some.inj h
      exact .of_worker hw nofun rfl ..
    | ended => cases h

/-! ### The callbacks and the paging threads -/

omit [TimeUtils] in
theorem watch_live {n : Nat} {now : Int} {pc : LivePc} (hc : s.callbacks[n]? = some (some pc))
    (hpc : pc.duty ≠ .owes) : s.watch (.live n now) t = none := by
  simp only [Threads.watch, hc]
  cases pc with
  | throttle live => exact absurd rfl hpc
  | _ => rfl

omit [TimeUtils] in
theorem others_live {n : Nat} {cell : Option LivePc} (hworker : t.worker = s.worker)
    (hcallbacks : t.callbacks = s.callbacks.set n cell) (hpaging : t.paging = s.paging) :
    ∀ u, u ≠ .live n → t.duty u = s.duty u := by
  intro u hu
  cases u with
  | worker => rw [Threads.duty, hworker]; rfl
  | live m =>
    have hm : n ≠ m := fun h => hu (h ▸ rfl)
    rw [Threads.duty, hcallbacks, List.getElem?_set_ne hm]
    rfl
  | paging m => rw [Threads.duty, hpaging]; rfl

omit [TimeUtils] in
theorem others_paging {n : Nat} {cell : Option PagingPc} (hworker : t.worker = s.worker)
    (hcallbacks : t.callbacks = s.callbacks) (hpaging : t.paging = s.paging.set n cell) :
    ∀ u, u ≠ .paging n → t.duty u = s.duty u := by
  intro u hu
  cases u with
  | worker => rw [Threads.duty, hworker]; rfl
  | live m => rw [Threads.duty, hcallbacks]; rfl
  | paging m =>
    have hm : n ≠ m := fun h => hu (h ▸ rfl)
    rw [Threads.duty, hpaging, List.getElem?_set_ne hm]
    rfl

omit [TimeUtils] in
theorem duty_live {n : Nat} {pc : LivePc} (hc : s.callbacks[n]? = some (some pc)) :
    s.duty (.live n) = pc.duty := by
  rw [Threads.duty, hc]
  rfl

omit [TimeUtils] in
theorem duty_paging {n : Nat} {pc : PagingPc} (hc : s.paging[n]? = some (some pc)) :
    s.duty (.paging n) = pc.duty := by
  rw [Threads.duty, hc]
  rfl

omit [TimeUtils] in
theorem self_live {n : Nat} (pc : LivePc) (hlt : n < s.callbacks.length)
    (hcallbacks : t.callbacks = s.callbacks.set n (some pc)) : t.duty (.live n) = pc.duty :=
  duty_live (by rw [hcallbacks, List.getElem?_set_self hlt])

omit [TimeUtils] in
theorem self_paging {n : Nat} (pc : PagingPc) (hlt : n < s.paging.length)
    (hpaging : t.paging = s.paging.set n (some pc)) : t.duty (.paging n) = pc.duty :=
  duty_paging (by rw [hpaging, List.getElem?_set_self hlt])

theorem live_effect {n : Nat} {now : Int} (h : s.liveStep cfg n now = some t) :
    Effect cfg s (.live n now) t := by
  obtain ⟨⟨pc, hc⟩, -⟩ := liveStep_frame h
  have hlt : n < s.callbacks.length := (List.getElem?_eq_some_iff.mp hc).1
  have hduty := duty_live hc
  unfold Threads.liveStep at h
  rw [hc] at h
  cases pc with
  | begin_ live =>
    obtain rfl := Option.some.inj h
    exact .kept (watch_live hc nofun) rfl rfl (.live n) (others_live rfl rfl rfl) (.inl hduty)
  | append live =>
    obtain rfl := Option.some.inj h
    obtain ⟨hcalls, hread⟩ := lastRead_append s.pub live.candle
    exact .append (watch_live hc nofun) rfl (.live n) rfl (others_live rfl rfl rfl)
      (by rw [hduty]; nofun) hcalls hread (self_live (.throttle live) hlt rfl)
  | throttle live =>
    dsimp only at h
    have hwatch (t : Threads) : s.watch (.live n now) t =
        some (.offer now (live.isFinal && live.candle.isClosed)
          (t.callbacks[n]? = some (some .publish))) := by
      simp only [Threads.watch, hc]
    split_ifs at h with hearly
    · obtain rfl := Option.some.inj h
      obtain ⟨hopen, hearly⟩ := Bool.and_eq_true_iff.mp hearly
      rw [Bool.not_eq_true'] at hopen
      refine .held now ?_ rfl hearly rfl (.live n) rfl (others_live rfl rfl rfl) hduty
      rw [hwatch, hopen, List.getElem?_set_self hlt]
      rfl
    · obtain ⟨pub, rfl, hreads, hcalls⟩ := callPublish_reads h
      refine .passed now (live.isFinal && live.candle.isClosed) ?_ rfl ?_ (.live n)
        (others_live rfl rfl rfl) (self_live .publish hlt rfl) hcalls hreads
      · rw [hwatch, List.getElem?_set_self hlt]
        simp
      · rw [Bool.not_eq_true, Bool.and_eq_false_imp] at hearly
        cases hclosed : live.isFinal && live.candle.isClosed with
        | true => rfl
        | false => rw [hearly (by rw [hclosed]; rfl)]; rfl
  | publish =>
    obtain ⟨pub, hstep, rfl⟩ | ⟨rfl, hnone⟩ := publishThen_steps h
    · exact .publish (watch_live hc nofun) (.live n) hduty pub hstep rfl
    · exact .kept (watch_live hc nofun) rfl rfl (.live n) (others_live rfl rfl rfl)
        (.inr ⟨hduty, hnone⟩)

theorem paging_effect {sort : StdSort} {n : Nat} {fetched : List Candle}
    (h : s.pagingStep sort cfg n fetched = some t) : Effect cfg s (.paging n fetched) t := by
  obtain ⟨⟨pc, hc⟩, -⟩ := pagingStep_frame h
  have hlt : n < s.paging.length := (List.getElem?_eq_some_iff.mp hc).1
  have hduty := duty_paging hc
  unfold Threads.pagingStep at h
  rw [hc] at h
  cases pc with
  | fetch startOpen candles =>
    dsimp only at h
    split at h <;> obtain rfl := Option.some.inj h <;>
      exact .kept rfl rfl rfl (.paging n) (others_paging rfl rfl rfl) (.inl hduty)
  | append job =>
    obtain ⟨hcalls, hread⟩ := jobStep_same cfg s fetched job
    obtain ⟨pub, repairing, e, -⟩ := jobStep_eq cfg fetched s job
    rcases hj : s.jobStep cfg.toSyncConfig fetched job with ⟨s₁, _ | job'⟩ <;>
      rw [hj] at e hcalls hread <;> simp only [hj] at h <;> dsimp only at e hcalls hread <;>
      subst e
    · obtain ⟨pub', rfl, hreads, hcalls'⟩ := callPublish_reads h
      exact .call rfl rfl (.paging n) (others_paging rfl rfl rfl) (self_paging .publish hlt rfl)
        (fun u hu => (hcalls' u hu).trans (congrFun hcalls u)) hreads
    · obtain rfl := Option.some.inj h
      exact .append rfl rfl (.paging n) rfl (others_paging rfl rfl rfl) (by rw [hduty]; nofun)
        hcalls hread (self_paging (.append job') hlt rfl)
  | publish =>
    obtain ⟨pub, hstep, rfl⟩ | ⟨rfl, hnone⟩ := publishThen_steps h
    · exact .publish rfl (.paging n) hduty pub hstep rfl
    · exact .kept rfl rfl rfl (.paging n) (others_paging rfl rfl rfl) (.inr ⟨hduty, hnone⟩)
  | resetPaging =>
    obtain rfl := Option.some.inj h
    exact .kept rfl rfl rfl (.paging n) (others_paging rfl rfl rfl) (.inl hduty)

/-! ### The owner and the stream -/

omit [TimeUtils] in
/-- A thread that is started has nothing to publish. -/
theorem duty_concat {α : Type} {duty : α → Duty} {cells : List (Option α)} {a : α}
    (ha : duty a = .rest) (n : Nat) : ((cells ++ [some a])[n]?.getD none).elim .rest duty =
      (cells[n]?.getD none).elim .rest duty := by
  rcases Nat.lt_trichotomy n cells.length with hn | rfl | hn
  · rw [List.getElem?_append_left hn]
  · rw [List.getElem?_concat_length, List.getElem?_eq_none le_rfl]
    exact ha
  · rw [List.getElem?_eq_none (by rw [List.length_append]; exact hn), List.getElem?_eq_none hn.le]

omit [TimeUtils] in
theorem owner_duty (h : s.ownerStep = some t) (u : ThreadId) : t.duty u = s.duty u := by
  cases ownerStep_cases h with
  | start owner ended | stop owner ended =>
    cases u with
    | worker => rcases ended with e | e <;> rw [Threads.duty, Threads.duty, e] <;> rfl
    | _ => rfl
  | spawn startOpen candles owner =>
    cases u with
    | paging n => exact duty_concat rfl n
    | _ => rfl
  | _ => rfl

theorem step_effect {sort : StdSort} (h : s.step sort cfg e = some t) : Effect cfg s e t := by
  cases e with
  | worker fetched now subscribes => exact worker_effect h
  | live n now => exact live_effect h
  | paging n fetched => exact paging_effect h
  | callback live =>
    rw [Threads.step] at h
    split_ifs at h
    obtain rfl := Option.some.inj h
    refine .other rfl rfl rfl fun u => ?_
    cases u with
    | live n => exact duty_concat rfl n
    | _ => rfl
  | start | stop | requestBackfillOlder =>
    rw [Threads.step] at h
    split_ifs at h <;> obtain rfl := Option.some.inj h <;> exact .other rfl rfl rfl fun _ => rfl
  | owner =>
    refine .other rfl ?_ ?_ (owner_duty h) <;> cases ownerStep_cases h <;> rfl

/-! ## The throttle -/

omit [TimeUtils] in
theorem Effect.throttled (h : Effect cfg s e t) :
    Throttled kLiveThrottleMs s.lastLivePublish (s.watch e t).toList ∧
      final s.lastLivePublish (s.watch e t).toList = t.lastLivePublish := by
  cases h with
  | other watch last | kept watch last | append watch last | call watch last =>
    rw [watch, last]
    exact ⟨trivial, rfl⟩
  | publish watch th before pub step same =>
    rw [watch, same]
    exact ⟨trivial, rfl⟩
  | restart watch last =>
    rw [watch, last]
    exact ⟨trivial, rfl⟩
  | passed now closed watch last passes =>
    rw [watch, last]
    exact ⟨⟨passes.symm, trivial⟩, rfl⟩
  | held now watch last early =>
    rw [watch, last]
    refine ⟨⟨?_, trivial⟩, rfl⟩
    rw [early]
    rfl

/-- What comes to the throttle in a run. -/
theorem run_throttled {sort : StdSort} {es : List ThreadEvent}
    (hr : run (Threads.step sort cfg) s es = some t) :
    Throttled kLiveThrottleMs s.lastLivePublish (watched sort cfg s es) ∧
      final s.lastLivePublish (watched sort cfg s es) = t.lastLivePublish := by
  induction es generalizing s with
  | nil =>
    obtain rfl := Option.some.inj hr
    exact ⟨trivial, rfl⟩
  | cons e es ih =>
    rw [run_cons, Option.bind_eq_some_iff] at hr
    obtain ⟨u, hu, hr⟩ := hr
    obtain ⟨hthrottled, hfinal⟩ := (step_effect hu).throttled
    obtain ⟨ih, hlast⟩ := ih hr
    rw [watched, seen_cons hu, throttled_append, final_append, hfinal]
    exact ⟨⟨hthrottled, ih⟩, hlast⟩

end

/-- In every part of every run of the threads, every closed candle that the live stream brings is
published, and of the open ones no more than one for each `kLiveThrottleMs` of the clock, one for
each start of the stream, and one. -/
theorem live_publications_le [TimeUtils] (sort : StdSort) (cfg : ThreadsConfig) (s t : Threads)
    (es : List ThreadEvent) (hrun : run (Threads.step sort cfg) s es = some t) (a b : Int)
    (hab : a ≤ b) (hclock : Within a b (watched sort cfg s es)) :
    (∀ now passed, .offer now true passed ∈ watched sort cfg s es → passed = true) ∧
    kLiveThrottleMs * (watched sort cfg s es).countP Item.isPassed ≤
      kLiveThrottleMs * ((watched sort cfg s es).countP Item.isFree + 1) + (b - a) := by
  obtain ⟨hthrottled, -⟩ := run_throttled hrun
  refine ⟨fun now passed h => hthrottled.passed_of_forced h, ?_⟩
  exact (hthrottled.spent (by decide) hab hclock).1

/-- A stream that brings an open candle, closes it 30 ms later, and brings the next one after
another 30 ms. -/
def threeCandles : List ThreadEvent :=
  [.start, .owner] ++ List.replicate 16 (.worker [] 0 true) ++
    [.callback ⟨flatCandle 60000 false, false⟩] ++ List.replicate 9 (.live 0 1000) ++
    [.callback ⟨flatCandle 60000 true, true⟩] ++ List.replicate 9 (.live 1 1030) ++
    [.callback ⟨flatCandle 120000 false, false⟩] ++ List.replicate 3 (.live 2 1060)

def emptyMinutes : Repository := Repository.construct .insertion {} ['B'] ⟨60000⟩

theorem watched_threeCandles : watched .insertion {} (.init emptyMinutes) threeCandles =
    [.reset, .offer 1000 false true, .offer 1030 true true, .offer 1060 false false] := by
  decide +kernel

theorem exists_threeCandles :
    ∃ s, run (Threads.step .insertion {}) (.init emptyMinutes) threeCandles = some s :=
  Option.isSome_iff_exists.mp (by decide +kernel)

theorem live_publications_le_three :
    (∀ now passed, .offer now true passed ∈
      watched .insertion {} (.init emptyMinutes) threeCandles → passed = true) ∧
    kLiveThrottleMs *
        (watched .insertion {} (.init emptyMinutes) threeCandles).countP Item.isPassed ≤
      kLiveThrottleMs *
        ((watched .insertion {} (.init emptyMinutes) threeCandles).countP Item.isFree + 1) +
          (1060 - 1000) := by
  obtain ⟨s, hs⟩ := exists_threeCandles
  refine live_publications_le .insertion {} _ s _ hs 1000 1060 (by decide) ?_
  rw [watched_threeCandles]
  exact ⟨by decide, by decide⟩

/-! ## The cache -/

section

variable {n : Nat} {pub pub' : Publishing ThreadId} {cfg : ThreadsConfig} {s t : Threads}

def Publishing.Unchanged (s : Publishing ThreadId) : Prop :=
  ∀ candle, Output.appendOrReplace candle ∉ s.log

theorem lastRead_of_holder {th : ThreadId} {lastClosed : Bool} {pc : PublishPc}
    (hh : pub.holder = some th) (hc : pub.calls th = some (lastClosed, pc)) :
    pub.lastRead = pub.readAt pc := by
  rw [Publishing.lastRead, Publishing.inside, hh, Option.map_some, hc]
  rfl

theorem lastRead_goto {th : ThreadId} (hh : pub.holder = some th) (lastClosed : Bool)
    (pc : PublishPc) : (pub.goto th (some (lastClosed, pc))).lastRead = pub.readAt pc := by
  rw [Publishing.lastRead, inside_goto_self hh]
  cases pc <;> rfl

theorem lastRead_of_free (hh : pub.holder = none) : pub.lastRead = pub.published.getLast? := by
  rw [Publishing.lastRead, Publishing.inside, hh]
  rfl

/-- The calls before their read, after a step of a call that is past it. -/
theorem Publishing.Reads.goto {th : ThreadId} {lastClosed : Bool} {pc : PublishPc}
    (h : pub.Reads) (hc : pub.calls th = some (lastClosed, pc)) (hlock : pc ≠ .lock)
    (hread : pc ≠ .read) (hcalls : pub'.calls = pub.calls) (call : Option (Bool × PublishPc)) :
    (pub'.goto th call).Reads := by
  obtain ⟨u, b, hu⟩ := h
  have hne : u ≠ th := by
    rintro rfl
    rw [hc] at hu
    obtain hu | hu := hu
    · exact hlock (Prod.mk.inj (Option.some.inj hu)).2
    · exact hread (Prod.mk.inj (Option.some.inj hu)).2
  refine ⟨u, b, ?_⟩
  rwa [calls_goto_of_ne hne, hcalls]

/-- A call reads the repository, or changes nothing of this. -/
theorem publishStep_reads {th : ThreadId} (hok : pub.Ok n) (h : PublishStep n pub th pub') :
    pub'.repo = pub.repo ∧ (pub.Unchanged → pub'.Unchanged) ∧
      (pub'.lastRead = some (pub.repo.getLatest n) ∨
        pub'.lastRead = pub.lastRead ∧ (pub.Reads → pub'.Reads)) := by
  have emit {output : Output} (hout : ∀ candle, output ≠ .appendOrReplace candle)
      (h : pub.Unchanged) : (pub.emit output).Unchanged := fun candle hc =>
    (List.mem_append.mp hc).elim (h candle) fun hc => hout candle (List.mem_singleton.mp hc).symm
  cases h with
  | lock lastClosed call free =>
    refine ⟨rfl, id, .inr ⟨?_, fun _ => ⟨_, lastClosed, .inr (calls_goto_self ..)⟩⟩⟩
    rw [lastRead_of_free free, lastRead_goto rfl]
    rfl
  | read lastClosed call =>
    obtain ⟨hh, -⟩ := hok.inside_eq call nofun
    exact ⟨rfl, id, .inl (lastRead_goto hh ..)⟩
  | update lastClosed series call =>
    obtain ⟨hh, -⟩ := hok.inside_eq call nofun
    refine ⟨rfl, emit nofun, .inr ⟨?_, fun h => h.goto call nofun nofun rfl _⟩⟩
    have hh' : (pub.emit (.update series)).holder = some th := hh
    rw [lastRead_of_holder hh call, lastRead_goto hh']
    show (pub.emit _).published.getLast? = some series
    rw [published_emit]
    exact List.getLast?_concat
  | announce lastClosed series call =>
    obtain ⟨hh, -⟩ := hok.inside_eq call nofun
    refine ⟨rfl, emit nofun, .inr ⟨?_, fun h => h.goto call nofun nofun rfl _⟩⟩
    have hh' : (pub.emit (.publishSeriesUpdated (seriesUpdated lastClosed series))).holder =
      some th := hh
    rw [lastRead_of_holder hh call, lastRead_goto hh']
    show (pub.emit _).published.getLast? = pub.published.getLast?
    rw [published_emit]
    exact congrArg List.getLast? (List.append_nil _)
  | unlock lastClosed call =>
    obtain ⟨hh, -⟩ := hok.inside_eq call nofun
    refine ⟨rfl, id, .inr ⟨?_, fun h => h.goto call nofun nofun rfl _⟩⟩
    rw [lastRead_of_holder hh call, lastRead_of_free rfl]
    rfl

theorem publishStep_others {th u : ThreadId} (h : PublishStep n pub th pub') (hu : u ≠ th) :
    pub'.calls u = pub.calls u := by
  cases h <;> exact calls_goto_of_ne hu _

/-- Only threads that are in `publishSnapshot` have a call of it. -/
def Threads.Callers (s : Threads) : Prop := ∀ th, s.pub.calls th ≠ none → s.duty th = .publishing

theorem Effect.callers (h : Effect cfg s e t) (hcallers : s.Callers) : t.Callers := by
  intro u hu
  cases h with
  | other watch last pub duty =>
    rw [pub] at hu
    exact (duty u).trans (hcallers u hu)
  | kept watch last pub th others before =>
    rw [pub] at hu
    have hne : u ≠ th := by
      rintro rfl
      obtain hrest | ⟨-, hnone⟩ := before
      · rw [hcallers u hu] at hrest
        cases hrest
      · exact hu hnone
    exact (others u hne).trans (hcallers u hu)
  | append watch last th thread others before calls read after =>
    rw [calls] at hu
    have hne : u ≠ th := fun h => before (h ▸ hcallers u hu)
    exact (others u hne).trans (hcallers u hu)
  | call watch last th others after calls reads
  | passed now closed watch last passes th others after calls reads =>
    by_cases hne : u = th
    · exact hne ▸ after
    · exact (others u hne).trans (hcallers u (calls u hne ▸ hu))
  | publish watch th before pub step same =>
    subst same
    by_cases hne : u = th
    · exact hne ▸ before
    · rw [publishStep_others step hne] at hu
      exact hcallers u hu
  | restart watch last pub duty =>
    rw [pub] at hu
    exact (duty u).trans (hcallers u hu)
  | held now watch last early pub th thread others before =>
    rw [pub] at hu
    have hne : u ≠ th := by
      rintro rfl
      rw [hcallers u hu] at before
      cases before
    exact (others u hne).trans (hcallers u hu)

/-- The cache has, or will have, what the repository has now, unless the throttle held it back. -/
def Follows (n : Nat) (items : List (Item Int)) (s : Threads) : Prop :=
  s.pub.Unchanged ∨ s.pub.lastRead = some (s.pub.repo.getLatest n) ∨ s.Owes ∨
    HeldBack kLiveThrottleMs items

theorem Follows.mono {items items' : List (Item Int)} (h : Follows n items s)
    (hpub : t.pub = s.pub) (howes : s.Owes → t.Owes)
    (hitems : HeldBack kLiveThrottleMs items → HeldBack kLiveThrottleMs items') :
    Follows n items' t := by
  rw [Follows, hpub]
  exact h.imp_right (Or.imp_right (Or.imp howes hitems))

theorem Effect.follows {items : List (Item Int)} (h : Effect cfg s e t)
    (hok : s.pub.Ok cfg.publishCandles) (hfollows : Follows cfg.publishCandles items s)
    (hitems : Throttled kLiveThrottleMs none items) (hlast : final none items = s.lastLivePublish) :
    Follows cfg.publishCandles (items ++ (s.watch e t).toList) t := by
  have same (pub : t.pub = s.pub) (duty : ∀ u, t.duty u = s.duty u) (howes : s.Owes) : t.Owes := by
    obtain ⟨u, hu⟩ | hreads := howes
    · exact .inl ⟨u, (duty u).trans hu⟩
    · exact .inr (pub ▸ hreads)
  cases h with
  | other watch last pub duty =>
    rw [watch, Option.toList_none, List.append_nil]
    exact hfollows.mono pub (same pub duty) id
  | kept watch last pub th others before =>
    rw [watch, Option.toList_none, List.append_nil]
    refine hfollows.mono pub (fun howes => ?_) id
    obtain ⟨u, hu⟩ | hreads := howes
    · have hne : u ≠ th := by
        rintro rfl
        obtain hrest | ⟨hpub, -⟩ := before
        · rw [hu] at hrest
          cases hrest
        · rw [hu] at hpub
          cases hpub
      exact .inl ⟨u, (others u hne).trans hu⟩
    · exact .inr (pub ▸ hreads)
  | append watch last th thread others before calls read after =>
    exact .inr (.inr (.inl (.inl ⟨th, after⟩)))
  | call watch last th others after calls reads => exact .inr (.inr (.inl (.inr reads)))
  | publish watch th before pub step same =>
    rw [watch, Option.toList_none, List.append_nil, same]
    obtain ⟨hrepo, hunchanged, hread | ⟨hread, hreads⟩⟩ := publishStep_reads hok step
    · rw [← hrepo] at hread
      exact .inr (.inl hread)
    · refine hfollows.imp hunchanged (Or.imp (fun h => ?_) (Or.imp_left (Or.imp_right hreads)))
      show pub.lastRead = some (pub.repo.getLatest _)
      rw [hread, hrepo, h]
  | restart watch last pub duty =>
    rw [watch]
    exact hfollows.mono pub (same pub duty) HeldBack.reset
  | passed now closed watch last passes th others after calls reads =>
    exact .inr (.inr (.inl (.inr reads)))
  | held now watch last early pub th thread others before =>
    rw [watch]
    obtain ⟨t, ht, hnow⟩ := (Option.any_eq_true ..).mp early
    rw [← hlast] at ht
    exact .inr (.inr (.inr (hitems.heldBack ht (of_decide_eq_true hnow))))

variable [TimeUtils]

theorem run_follows {sort : StdSort} {repo : Repository} (hrepo : repo.Contiguous)
    {es : List ThreadEvent} (hr : run (Threads.step sort cfg) (.init repo) es = some s) :
    s.pub.Ok cfg.publishCandles ∧ s.Callers ∧
      Follows cfg.publishCandles (watched sort cfg (.init repo) es) s := by
  refine run_induction (P := fun es s => s.pub.Ok cfg.publishCandles ∧ s.Callers ∧
    Follows cfg.publishCandles (watched sort cfg (.init repo) es) s) ?_ ?_ hr
  · have hinitial : (Threads.init repo).pub.Initial := ⟨hrepo, rfl, fun _ => rfl, rfl⟩
    exact ⟨hinitial.ok, fun u hu => absurd rfl hu, .inl fun candle h => absurd h List.not_mem_nil⟩
  · intro es e t u hr ih hs
    obtain ⟨hok, hcallers, hfollows⟩ := ih
    obtain ⟨hthrottled, hlast⟩ := run_throttled hr
    obtain ⟨fs, hfs⟩ := step_publishing hs
    refine ⟨inv_of_along (P := fun _ _ => True) (fun _ _ _ hok _ hs => step_ok hok hs) hok
      (along_of_forall fun _ _ => trivial) hfs, (step_effect hs).callers hcallers, ?_⟩
    rw [watched, seen_concat hr hs]
    exact (step_effect hs).follows hok hfollows hthrottled hlast

end

/-! ## What was appended -/

section Since

variable [TimeUtils] {sort : StdSort} {cfg : ThreadsConfig} {v u t : Threads} {th : ThreadId}
  {mid : List ThreadEvent}

/-- In the run `es` from `v` there is a moment at which the repository had the series. -/
def ReadSince (sort : StdSort) (cfg : ThreadsConfig) (v : Threads) (es : List ThreadEvent)
    (series : Option CandleSeries) : Prop :=
  ∃ pre w, pre <+: es ∧ run (Threads.step sort cfg) v pre = some w ∧
    series = some (w.pub.repo.getLatest cfg.publishCandles)

/-- In the run `es` from `v` the throttle holds back the candle of callback `n`. -/
def HeldSince (sort : StdSort) (cfg : ThreadsConfig) (v : Threads) (es : List ThreadEvent)
    (n : Nat) : Prop :=
  ∃ pre now w x, pre ++ [.live n now] <+: es ∧ run (Threads.step sort cfg) v pre = some w ∧
    w.step sort cfg (.live n now) = some x ∧
    w.watch (.live n now) x = some (.offer now false false)

/-- What became of an append that `th` made before the run: it was read, a call will read it, the
thread has still to publish it, or it was held back. -/
def Since (sort : StdSort) (cfg : ThreadsConfig) (v : Threads) (th : ThreadId)
    (es : List ThreadEvent) (u : Threads) : Prop :=
  ReadSince sort cfg v es u.pub.lastRead ∨ u.pub.Reads ∨ u.duty th = .owes ∨
    ∃ n, th = .live n ∧ HeldSince sort cfg v es n

theorem ReadSince.concat {series : Option CandleSeries} (h : ReadSince sort cfg v mid series)
    (e : ThreadEvent) : ReadSince sort cfg v (mid ++ [e]) series := by
  obtain ⟨pre, w, hpre, h⟩ := h
  exact ⟨pre, w, hpre.trans (List.prefix_append mid [e]), h⟩

theorem HeldSince.concat {n : Nat} (h : HeldSince sort cfg v mid n) (e : ThreadEvent) :
    HeldSince sort cfg v (mid ++ [e]) n := by
  obtain ⟨pre, now, w, x, hpre, h⟩ := h
  exact ⟨pre, now, w, x, hpre.trans (List.prefix_append mid [e]), h⟩

omit [TimeUtils] in
/-- Only a callback makes an offer. -/
theorem live_of_offer {e : ThreadEvent} {now : Int} {closed passed : Bool}
    (h : u.watch e t = some (.offer now closed passed)) : ∃ n, e = .live n now := by
  cases e with
  | live n now' =>
    simp only [Threads.watch] at h
    split at h
    · obtain ⟨rfl, -, -⟩ := Item.offer.inj (Option.some.inj h)
      exact ⟨n, rfl⟩
    · cases h
  | worker =>
    simp only [Threads.watch] at h
    split_ifs at h
    cases h
  | _ => cases h

/-- A step that starts no call and reads nothing. -/
theorem Since.mono (h : Since sort cfg v th mid u) {e : ThreadEvent}
    (hread : t.pub.lastRead = u.pub.lastRead) (hreads : u.pub.Reads → t.pub.Reads)
    (howes : u.duty th = .owes →
      t.duty th = .owes ∨ ∃ n, th = .live n ∧ HeldSince sort cfg v (mid ++ [e]) n) :
    Since sort cfg v th (mid ++ [e]) t := by
  rcases h with h | h | h | ⟨n, hn, h⟩
  · exact .inl (hread ▸ h.concat e)
  · exact .inr (.inl (hreads h))
  · exact .inr (.inr (howes h))
  · exact .inr (.inr (.inr ⟨n, hn, h.concat e⟩))

theorem Since.step (h : Since sort cfg v th mid u) (hok : u.pub.Ok cfg.publishCandles)
    (hr : run (Threads.step sort cfg) v mid = some u) {e : ThreadEvent}
    (hs : u.step sort cfg e = some t) : Since sort cfg v th (mid ++ [e]) t := by
  have same {w : Publishing ThreadId} (hw : t.pub = w) (hreads : w.Reads) : t.pub.Reads :=
    hw ▸ hreads
  cases step_effect hs with
  | other watch last pub duty | restart watch last pub duty =>
    exact h.mono (by rw [pub]) (same pub) fun howes => .inl ((duty th).trans howes)
  | kept watch last pub th' others before =>
    refine h.mono (by rw [pub]) (same pub) fun howes => .inl ?_
    have hne : th ≠ th' := by
      rintro rfl
      rw [howes] at before
      rcases before with hrest | ⟨hpub, -⟩
      · cases hrest
      · cases hpub
    exact (others th hne).trans howes
  | append watch last th' thread others before calls read after =>
    refine h.mono read (fun ⟨w, b, hw⟩ => ⟨w, b, calls ▸ hw⟩) fun howes => .inl ?_
    by_cases hne : th = th'
    · exact hne ▸ after
    · exact (others th hne).trans howes
  | call watch last th' others after calls reads => exact .inr (.inl reads)
  | passed now closed watch last passes th' others after calls reads => exact .inr (.inl reads)
  | publish watch th' before pub step same =>
    subst same
    obtain ⟨hrepo, -, hread | ⟨hread, hreads⟩⟩ := publishStep_reads hok step
    · exact .inl ⟨mid, u, List.prefix_append mid [e], hr, hread⟩
    · exact h.mono hread hreads .inl
  | held now watch last early pub th' thread others before =>
    refine h.mono (by rw [pub]) (same pub) fun howes => ?_
    by_cases hne : th = th'
    · -- the offer is that of the thread
      subst hne
      obtain ⟨n, rfl⟩ := live_of_offer watch
      obtain rfl := Option.some.inj thread
      exact .inr ⟨n, rfl, mid, now, u, t, List.prefix_rfl, hr, hs, watch⟩
    · exact .inl ((others th hne).trans howes)

/-- Right after an append. -/
theorem since_append {e : ThreadEvent} (hs : u.step sort cfg e = some v) {candle : Candle}
    (happend : v.pub.log = u.pub.log ++ [.appendOrReplace candle]) :
    ∃ th, Since sort cfg v th [] v ∧ ∀ n, th = .live n → e.thread = some (.live n) := by
  have hnew : v.pub ≠ u.pub := fun h => by simp [h] at happend
  cases step_effect hs with
  | other watch last pub | kept watch last pub | restart watch last pub => exact absurd pub hnew
  | held now watch last early pub => exact absurd pub hnew
  | append watch last th thread others before calls read after =>
    exact ⟨th, .inr (.inr (.inl after)), fun n hn => hn ▸ thread⟩
  | call watch last th others after calls reads
  | passed now closed watch last passes th others after calls reads =>
    exact ⟨.worker, .inr (.inl reads), nofun⟩
  | publish watch th before pub step same =>
    subst same
    cases step <;> simp [Publishing.goto, Publishing.emit] at happend

end Since

/-- In every run of the threads, whenever none of them is between an append and the end of its
publication, the cache has been handed the latest candles of the repository, unless nothing was
appended, or the last candles of the live stream were open and came less than
`kLiveThrottleMs` after its last publication. Also then it has been handed what the repository had
after any append, but that of a callback whose candle was held back. -/
theorem cache_follows [TimeUtils] (sort : StdSort) (cfg : ThreadsConfig) (repo : Repository)
    (hrepo : repo.Contiguous) (es : List ThreadEvent) (s : Threads)
    (hrun : run (Threads.step sort cfg) (.init repo) es = some s)
    (hrest : ∀ th, s.duty th = .rest) :
    ((∀ candle, Output.appendOrReplace candle ∉ s.pub.log) ∨
      s.pub.published.getLast? = some (s.pub.repo.getLatest cfg.publishCandles) ∨
      HeldBack kLiveThrottleMs (watched sort cfg (.init repo) es)) ∧
    ∀ pre e post u v candle, es = pre ++ e :: post →
      run (Threads.step sort cfg) (.init repo) pre = some u → u.step sort cfg e = some v →
      v.pub.log = u.pub.log ++ [.appendOrReplace candle] →
      ReadSince sort cfg v post s.pub.published.getLast? ∨
        ∃ n, e.thread = some (.live n) ∧ HeldSince sort cfg v post n := by
  obtain ⟨-, hcallers, hfollows⟩ := run_follows hrepo hrun
  have hnone (th : ThreadId) : s.pub.calls th = none := by
    by_contra hcall
    have := hcallers th hcall
    rw [hrest] at this
    cases this
  have hreads : ¬ s.pub.Reads := by
    rintro ⟨th, b, h | h⟩ <;> rw [hnone] at h <;> cases h
  have howes (th : ThreadId) : s.duty th ≠ .owes := by
    rw [hrest]
    decide
  have hread : s.pub.lastRead = s.pub.published.getLast? := by
    rw [Publishing.lastRead, Publishing.inside]
    cases s.pub.holder with
    | none => rfl
    | some th => rw [Option.map_some, hnone]; rfl
  rw [Follows, hread] at hfollows
  refine ⟨hfollows.imp_right (Or.imp_right (Or.resolve_left · ?_)), ?_⟩
  · exact not_or.mpr ⟨not_exists.mpr howes, hreads⟩
  · rintro pre e post u v candle rfl hu hv happend
    obtain ⟨th, hstart, hthread⟩ := since_append hv happend
    have hpre : run (Threads.step sort cfg) (.init repo) (pre ++ [e]) = some v := by
      rw [run_append, hu, Option.bind_some, run_cons, hv]
      rfl
    have hpost : run (Threads.step sort cfg) v post = some s := by
      rw [run_append, hu, Option.bind_some, run_cons, hv, Option.bind_some] at hrun
      exact hrun
    have hsince : Since sort cfg v th post s := by
      refine run_induction (P := fun mid t => Since sort cfg v th mid t) hstart
        (fun mid f t t' hmid hsince hf => hsince.step ?_ hmid hf) hpost
      have hrun : run (Threads.step sort cfg) (.init repo) ((pre ++ [e]) ++ mid) = some t := by
        rw [run_append, hpre]
        exact hmid
      exact (run_follows hrepo hrun).1
    rcases hsince with h | h | h | ⟨n, hn, h⟩
    · exact .inl (hread ▸ h)
    · exact absurd h hreads
    · exact absurd h (howes th)
    · exact .inr ⟨n, hthread n hn, h⟩

theorem cache_follows_three :
    ∃ s, run (Threads.step .insertion {}) (.init emptyMinutes) threeCandles = some s ∧
      s.pub.published.map (·.data.map Candle.openTime) = [[], [60000], [60000]] ∧
      (s.pub.repo.getLatest 120).data.map Candle.openTime = [60000, 120000] ∧
      ((∀ candle, Output.appendOrReplace candle ∉ s.pub.log) ∨
        s.pub.published.getLast? = some (s.pub.repo.getLatest 120) ∨
        HeldBack kLiveThrottleMs (watched .insertion {} (.init emptyMinutes) threeCandles)) ∧
      ∀ pre e post u v candle, threeCandles = pre ++ e :: post →
        run (Threads.step .insertion {}) (.init emptyMinutes) pre = some u →
        u.step .insertion {} e = some v → v.pub.log = u.pub.log ++ [.appendOrReplace candle] →
        ReadSince .insertion {} v post s.pub.published.getLast? ∨
          ∃ n, e.thread = some (.live n) ∧ HeldSince .insertion {} v post n := by
  have hthreads : (run (Threads.step .insertion {}) (.init emptyMinutes) threeCandles).map
      (fun s => (s.worker, s.callbacks, s.paging)) =
      some (some .live, [none, none, none], []) := by decide +kernel
  have hseries : (run (Threads.step .insertion {}) (.init emptyMinutes) threeCandles).map
      (fun s => (s.pub.published.map (·.data.map Candle.openTime),
        (s.pub.repo.getLatest 120).data.map Candle.openTime)) =
      some ([[], [60000], [60000]], [60000, 120000]) := by decide +kernel
  obtain ⟨s, hs⟩ := exists_threeCandles
  rw [hs] at hthreads hseries
  obtain ⟨hworker, hrest⟩ := Prod.mk.inj (Option.some.inj hthreads)
  obtain ⟨hcallbacks, hpaging⟩ := Prod.mk.inj hrest
  obtain ⟨hpublished, hlatest⟩ := Prod.mk.inj (Option.some.inj hseries)
  refine ⟨s, hs, hpublished, hlatest, cache_follows .insertion {} _
    (construct_contiguous .insertion rfl ['B'] (by decide)) _ s hs fun th => ?_⟩
  cases th with
  | worker => exact duty_worker hworker
  | live n =>
    rw [Threads.duty, hcallbacks]
    match n with
    | 0 | 1 | 2 | _ + 3 => rfl
  | paging n =>
    rw [Threads.duty, hpaging]
    rfl

end TCV.App
