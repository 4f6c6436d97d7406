import Mathlib.Data.Prod.Lex
import TradingChartViewer.App.Appending
import TradingChartViewer.App.LivePublishing

/-!
# How `stop` returns

`SyncOrchestrator::stop` clears `running_` and joins the worker, which may be anywhere: in a page or
a repair, in `publishSnapshot` behind another thread, or in the live phase with callbacks under way.
It does not wait for ever: wherever the threads are, they have steps to take after which it returns.

* `callEnds`, `Quiet.returned`: a call of `publishSnapshot` comes to its end;
* `callback_ends`, `callbacks_end`: so do the callbacks, for which the worker waits;
* `Job.work`, `jobStep_work`: and the appends of a page with its repair;
* `canEnd`: so the worker ends, from wherever it is; `stop_returns`.

A fetch, the clock and `streamLive` answer what they like, each time anew.
-/

namespace TCV.App

open TCV.Domain TCV.Storage Lib.Run

/-- What a fetch, the clock and `streamLive` return in a step. -/
structure Answer where
  fetched : List Candle
  now : Int
  subscribes : Bool

/-- The step of a thread. -/
def ThreadId.event : ThreadId → Answer → ThreadEvent
  | .worker, answer => .worker answer.fetched answer.now answer.subscribes
  | .live n, answer => .live n answer.now
  | .paging n, answer => .paging n answer.fetched

/-- The threads can go on to `G`, whatever they are answered. -/
abbrev Threads.CanReach [TimeUtils] (sort : StdSort) (cfg : ThreadsConfig) (G : Threads → Prop)
    (s : Threads) : Prop := Forces (Threads.step sort cfg) ThreadId.event G s

/-- The owner waits in `stop`. -/
structure Threads.Stopping (n : Nat) (s : Threads) : Prop where
  pub : s.pub.Ok n
  callers : s.Callers
  running : s.running = false
  owner : s.owner = .stop

/-- No thread holds the mutex. -/
structure Threads.Quiet (n : Nat) (s : Threads) : Prop extends s.Stopping n where
  free : s.pub.holder = none

/-! ## A call of `publishSnapshot` -/

section

variable {n : Nat} {th : ThreadId} {pub pub' : Publishing ThreadId}

/-- The call of a thread can come to its end, and the mutex is free then. -/
def CallEnds (n : Nat) (th : ThreadId) (pub : Publishing ThreadId) : Prop :=
  ∃ pub', RunsBy (fun pub (_ : Unit) => pub.publishStep n th) (fun _ => True) pub pub' ∧
    pub'.holder = none ∧ pub'.calls th = none

theorem CallEnds.head (hs : pub.publishStep n th = some pub') (h : CallEnds n th pub') :
    CallEnds n th pub := by
  obtain ⟨pub'', hr, hend⟩ := h
  exact ⟨pub'', .head (e := ()) trivial hs hr, hend⟩

/-- A call that is past the mutex, or finds it free. -/
theorem callEnds {lastClosed : Bool} {pc : PublishPc} (hc : pub.calls th = some (lastClosed, pc))
    (hfree : pc = .lock → pub.holder = none) : CallEnds n th pub := by
  have unlock (pub : Publishing ThreadId) (hc : pub.calls th = some (lastClosed, .unlock)) :
      CallEnds n th pub := by
    have hs : pub.publishStep n th =
        some (({ pub with holder := none } : Publishing ThreadId).goto th none) := by
      rw [Publishing.publishStep, hc]
    exact ⟨_, .single (e := ()) trivial hs, rfl, calls_goto_self ..⟩
  have announce (pub : Publishing ThreadId) (series : CandleSeries)
      (hc : pub.calls th = some (lastClosed, .announce series)) : CallEnds n th pub :=
    .head (by rw [Publishing.publishStep, hc]) (unlock _ (calls_goto_self ..))
  have update (pub : Publishing ThreadId) (series : CandleSeries)
      (hc : pub.calls th = some (lastClosed, .update series)) : CallEnds n th pub :=
    .head (by rw [Publishing.publishStep, hc]) (announce _ series (calls_goto_self ..))
  have read (pub : Publishing ThreadId) (hc : pub.calls th = some (lastClosed, .read)) :
      CallEnds n th pub :=
    .head (by rw [Publishing.publishStep, hc]) (update _ _ (calls_goto_self ..))
  cases pc with
  | lock =>
    have hs : pub.publishStep n th = some (({ pub with holder := some th } :
        Publishing ThreadId).goto th (some (lastClosed, .read))) := by
      rw [Publishing.publishStep, hc]
      exact if_neg (by simp [hfree rfl])
    exact .head hs (read _ (calls_goto_self ..))
  | read => exact read pub hc
  | update series => exact update pub series hc
  | announce series => exact announce pub series hc
  | unlock => exact unlock pub hc

/-- The thread that holds the mutex is in its call. -/
theorem Publishing.Ok.holder_calls (h : pub.Ok n) (hh : pub.holder = some th) :
    ∃ lastClosed pc, pub.calls th = some (lastClosed, pc) ∧ pc ≠ .lock := by
  have hstage := h.stage
  rw [Publishing.inside, hh, Option.map_some] at hstage
  cases hc : pub.calls th with
  | none =>
    rw [hc] at hstage
    exact hstage.elim
  | some call =>
    refine ⟨call.1, call.2, rfl, fun hlock => ?_⟩
    rw [hc, Option.map_some, hlock] at hstage
    exact hstage

end

section

variable [TimeUtils] {sort : StdSort} {cfg : ThreadsConfig} {s t : Threads} {th : ThreadId}
  {G : Threads → Prop}

theorem Threads.Stopping.step (h : s.Stopping cfg.publishCandles) {answer : Answer}
    (hs : s.step sort cfg (th.event answer) = some t) : t.Stopping cfg.publishCandles := by
  obtain ⟨fs, hfs⟩ := step_publishing hs
  have hok : t.pub.Ok cfg.publishCandles := inv_of_along (P := fun _ _ => True)
    (fun _ _ _ hok _ hs => step_ok hok hs) h.pub (along_of_forall fun _ _ => trivial) hfs
  have hcallers := (step_effect hs).callers h.callers
  cases th with
  | worker =>
    have hf := workerStep_frame hs
    exact ⟨hok, hcallers, hf.running h.running, hf.owner.trans h.owner⟩
  | live m =>
    obtain ⟨-, _, _, _, -, rfl⟩ := liveStep_frame hs
    exact ⟨hok, hcallers, h.running, h.owner⟩
  | paging m =>
    obtain ⟨-, _, _, _, _, -, rfl⟩ := pagingStep_frame hs
    exact ⟨hok, hcallers, h.running, h.owner⟩

variable (sort cfg) in
/-- The step of a thread in its call. -/
theorem publish_event (hd : s.duty th = .publishing) (answer : Answer)
    {pub : Publishing ThreadId} (hc : (pub.calls th).isSome = true) :
    ({ s with pub := pub } : Threads).step sort cfg (th.event answer) =
      (pub.publishStep cfg.publishCandles th).map fun pub' => { s with pub := pub' } := by
  cases th with
  | worker =>
    rw [Threads.duty] at hd
    cases hw : s.worker with
    | none =>
      rw [hw] at hd
      cases hd
    | some pc =>
      rw [hw] at hd
      cases pc with
      | publish v count gapDetected => exact if_pos hc
      | finish => exact if_pos hc
      | _ => cases hd
  | live m =>
    rw [Threads.duty] at hd
    rcases hm : s.callbacks[m]? with _ | _ | pc <;> rw [hm] at hd
    · cases hd
    · cases hd
    · rw [ThreadId.event, Threads.step, Threads.liveStep, hm]
      cases pc with
      | publish => exact if_pos hc
      | _ => cases hd
  | paging m =>
    rw [Threads.duty] at hd
    rcases hm : s.paging[m]? with _ | _ | pc <;> rw [hm] at hd
    · cases hd
    · cases hd
    · rw [ThreadId.event, Threads.step, Threads.pagingStep, hm]
      cases pc with
      | publish => exact if_pos hc
      | _ => cases hd

/-- A thread goes through its call. -/
theorem canReach_call (hd : s.duty th = .publishing) {pub pub' : Publishing ThreadId}
    (h : RunsBy (fun pub (_ : Unit) => pub.publishStep cfg.publishCandles th) (fun _ => True)
      pub pub') (hG : G { s with pub := pub' }) :
    ({ s with pub := pub } : Threads).CanReach sort cfg G := by
  obtain ⟨es, -, hr⟩ := h
  induction es generalizing pub with
  | nil => exact .here (Option.some.inj hr ▸ hG)
  | cons _ es ih =>
    rw [run_cons, Option.bind_eq_some_iff] at hr
    obtain ⟨pub₁, h₁, hr⟩ := hr
    have hsome : (pub.calls th).isSome = true := by
      cases hc : pub.calls th with
      | none =>
        rw [Publishing.publishStep, hc] at h₁
        cases h₁
      | some call => rfl
    exact .move th (fun a => (publish_event sort cfg hd a hsome).trans (by rw [h₁]; rfl))
      fun _ => ih hr

/-- The call of `th` is over, and nothing else has changed. -/
def Threads.Returned (n : Nat) (s : Threads) (th : ThreadId) (t : Threads) : Prop :=
  t.Quiet n ∧ ∃ pub : Publishing ThreadId, t = { s with pub := pub } ∧ pub.calls th = none

/-- A thread in `publishSnapshot` that holds the mutex, or finds it free, comes to its end. -/
theorem Threads.Stopping.returned (h : s.Stopping cfg.publishCandles)
    (hd : s.duty th = .publishing) {lastClosed : Bool} {pc : PublishPc}
    (hc : s.pub.calls th = some (lastClosed, pc)) (hfree : pc = .lock → s.pub.holder = none) :
    s.CanReach sort cfg (s.Returned cfg.publishCandles th) := by
  obtain ⟨pub, hr, hholder, hcalls⟩ := callEnds (n := cfg.publishCandles) hc hfree
  have hreach : s.CanReach sort cfg (· = { s with pub := pub }) := canReach_call hd hr rfl
  refine (hreach.inv (fun _ _ _ _ h hs => h.step hs) h).mono ?_
  rintro _ ⟨rfl, hstopping⟩
  exact ⟨⟨hstopping, hholder⟩, pub, rfl, hcalls⟩

/-- The same where the mutex is free; the call may have ended already. -/
theorem Threads.Quiet.returned (h : s.Quiet cfg.publishCandles) (hd : s.duty th = .publishing) :
    s.CanReach sort cfg (s.Returned cfg.publishCandles th) := by
  cases hc : s.pub.calls th with
  | none => exact .here ⟨h, s.pub, rfl, hc⟩
  | some call => exact h.toStopping.returned hd hc fun _ => h.free

omit [TimeUtils] in
theorem Threads.Stopping.calls_none (h : s.Stopping cfg.publishCandles)
    (hd : s.duty th ≠ .publishing) : s.pub.calls th = none := by
  by_contra hc
  exact hd (h.callers th hc)

omit [TimeUtils] in
theorem Threads.Stopping.worker_calls_none (h : s.Stopping cfg.publishCandles) {pc : WorkerPc}
    (hw : s.worker = some pc) (hpc : pc.duty ≠ .publishing) : s.pub.calls .worker = none :=
  h.calls_none (by rwa [Threads.duty, hw])

theorem callPublish_of_none (h : s.pub.calls th = none) (lastClosed : Bool) :
    s.callPublish cfg th lastClosed =
      some { s with pub := s.pub.goto th (some (lastClosed, .lock)) } := by
  rw [Threads.callPublish, Publishing.step, h]
  rfl

/-- A step of `th`, which is answered. -/
theorem Threads.Quiet.next (h : s.Quiet cfg.publishCandles) (th : ThreadId)
    {next : Answer → Threads} (hs : ∀ a, s.step sort cfg (th.event a) = some (next a))
    (hfree : ∀ a, (next a).pub.holder = none)
    (hG : ∀ a, (next a).Quiet cfg.publishCandles → (next a).CanReach sort cfg G) :
    s.CanReach sort cfg G :=
  .move th hs fun a => hG a ⟨h.toStopping.step (hs a), hfree a⟩

/-! ## The callbacks -/

/-- A callback comes to its end. -/
theorem callback_ends (h : s.Quiet cfg.publishCandles) {k : Nat} {pc : LivePc}
    (hc : s.callbacks[k]? = some (some pc)) :
    s.CanReach sort cfg fun t => t.Quiet cfg.publishCandles ∧ t.worker = s.worker ∧
      t.callbacks = s.callbacks.set k none := by
  have hset {u : Threads} {pc : LivePc} (hc : u.callbacks[k]? = some (some pc))
      (cell : Option LivePc) : (u.callbacks.set k cell)[k]? = some cell :=
    List.getElem?_set_self (List.getElem?_eq_some_iff.mp hc).1
  have publish (u : Threads) (hu : u.Quiet cfg.publishCandles)
      (hc : u.callbacks[k]? = some (some .publish)) :
      u.CanReach sort cfg fun t => t.Quiet cfg.publishCandles ∧ t.worker = u.worker ∧
        t.callbacks = u.callbacks.set k none := by
    have hd : u.duty (.live k) = .publishing := by
      rw [Threads.duty, hc]
      rfl
    refine (hu.returned hd).bind ?_
    rintro _ ⟨hq, pub, rfl, hnone⟩
    have hs (a : Answer) : ({ u with pub := pub } : Threads).step sort cfg (.live k a.now) =
        some { u with pub := pub, callbacks := u.callbacks.set k none } := by
      rw [Threads.step, Threads.liveStep]
      dsimp only
      rw [hc]
      exact if_neg (by simp [hnone])
    exact hq.next (.live k) hs (fun _ => hq.free) fun _ hq' => .here ⟨hq', rfl, rfl⟩
  have throttle (u : Threads) (hu : u.Quiet cfg.publishCandles) (live : LiveCandle)
      (hc : u.callbacks[k]? = some (some (.throttle live))) :
      u.CanReach sort cfg fun t => t.Quiet cfg.publishCandles ∧ t.worker = u.worker ∧
        t.callbacks = u.callbacks.set k none := by
    have howes : Duty.owes ≠ .publishing := by decide
    have hcalls : u.pub.calls (.live k) = none := hu.calls_none (by rwa [Threads.duty, hc])
    -- The clock says whether the offer is held back.
    have hs (a : Answer) : u.step sort cfg (.live k a.now) = some
        (if (!(live.isFinal && live.candle.isClosed) &&
          u.lastLivePublish.any fun last => a.now - last < kLiveThrottleMs) = true then
        { u with callbacks := u.callbacks.set k none }
      else { u with
        lastLivePublish := some a.now
        callbacks := u.callbacks.set k (some .publish)
        pub := u.pub.goto (.live k) (some (live.isFinal && live.candle.isClosed, .lock)) }) := by
      rw [Threads.step, Threads.liveStep, hc, apply_ite some]
      refine if_congr Iff.rfl rfl ?_
      exact callPublish_of_none (s := { u with
        lastLivePublish := some a.now, callbacks := u.callbacks.set k (some .publish) }) hcalls _
    refine hu.next (.live k) hs (fun a => ?_) fun a => ?_
    · split <;> exact hu.free
    · split <;> intro hq
      · exact .here ⟨hq, rfl, rfl⟩
      · refine (publish _ hq (hset hc _)).mono fun t ht => ⟨ht.1, ht.2.1, ?_⟩
        exact ht.2.2.trans (List.set_set ..)
  cases pc with
  | begin_ live =>
    have hs (a : Answer) : s.step sort cfg (.live k a.now) =
        some { s with callbacks := s.callbacks.set k none } := by
      rw [Threads.step, Threads.liveStep, hc]
      simp [h.running]
    exact h.next (.live k) hs (fun _ => h.free) fun _ hq => .here ⟨hq, rfl, rfl⟩
  | append live =>
    have hs (a : Answer) : s.step sort cfg (.live k a.now) =
        some { (s.append live.candle).2 with
          callbacks := s.callbacks.set k (some (.throttle live)) } := by
      rw [Threads.step, Threads.liveStep, hc]
      rfl
    refine h.next (.live k) hs (fun _ => h.free) fun _ hq => ?_
    refine (throttle _ hq live (hset hc _)).mono fun t ht => ⟨ht.1, ht.2.1, ?_⟩
    exact ht.2.2.trans (List.set_set ..)
  | throttle live => exact throttle s h live hc
  | publish => exact publish s h hc

/-- All callbacks come to their ends, one after the other. -/
theorem callbacks_end (h : s.Quiet cfg.publishCandles) :
    s.CanReach sort cfg fun t => t.Quiet cfg.publishCandles ∧ t.worker = s.worker ∧
      t.callbacks.all Option.isNone = true := by
  have hfirst (k : Nat) : s.CanReach sort cfg fun t => t.Quiet cfg.publishCandles ∧
      t.worker = s.worker ∧ t.callbacks.length = s.callbacks.length ∧
      ∀ (j : Nat) pc, t.callbacks[j]? = some (some pc) → k ≤ j := by
    induction k with
    | zero => exact .here ⟨h, rfl, rfl, fun j _ _ => Nat.zero_le j⟩
    | succ k ih =>
      refine ih.bind fun t ⟨hq, hw, hlen, hle⟩ => ?_
      by_cases hk : ∃ pc, t.callbacks[k]? = some (some pc)
      · obtain ⟨pc, hk⟩ := hk
        refine (callback_ends hq hk).mono fun u ⟨hq', hw', hcb⟩ =>
          ⟨hq', hw'.trans hw, by rw [hcb, List.length_set, hlen], ?_⟩
        intro j pc hj
        rw [hcb] at hj
        obtain ⟨-, hnone⟩ | ⟨hne, hj⟩ := getElem?_set_some hj
        · cases hnone
        · have := hle j pc hj
          omega
      · refine .here ⟨hq, hw, hlen, fun j pc hj => ?_⟩
        have := hle j pc hj
        have hne : j ≠ k := fun hjk => hk ⟨pc, hjk ▸ hj⟩
        omega
  refine (hfirst s.callbacks.length).mono fun t ⟨hq, hw, hlen, hle⟩ => ⟨hq, hw, ?_⟩
  refine List.all_eq_true.mpr fun cell hcell => ?_
  obtain ⟨j, hj⟩ := List.mem_iff_getElem?.mp hcell
  cases cell with
  | none => rfl
  | some pc =>
    have hlt := (List.getElem?_eq_some_iff.mp hj).1
    have := hle j pc hj
    omega

/-! ## The worker -/

/-- The threads can go on until the worker has ended. -/
def Threads.CanEnd (sort : StdSort) (cfg : ThreadsConfig) (s : Threads) : Prop :=
  s.CanReach sort cfg fun t => t.Quiet cfg.publishCandles ∧ t.worker = some .ended

/-- The worker has a step that leads on to its end. -/
def Threads.LeadsOn (sort : StdSort) (cfg : ThreadsConfig) (s : Threads) (a : Answer) : Prop :=
  ∃ t, s.step sort cfg (ThreadId.worker.event a) = some t ∧ t.pub.holder = none ∧
    (t.Quiet cfg.publishCandles → t.CanEnd sort cfg)

theorem Threads.Quiet.canEnd (h : s.Quiet cfg.publishCandles)
    (hs : ∀ a, s.LeadsOn sort cfg a) : s.CanEnd sort cfg := by
  refine .of_step .worker fun a => ?_
  obtain ⟨t, hs, hfree, ht⟩ := hs a
  exact ⟨t, hs, ht ⟨h.toStopping.step hs, hfree⟩⟩

theorem canEnd_resetRunning (h : s.Quiet cfg.publishCandles)
    (hw : s.worker = some .resetRunning) : s.CanEnd sort cfg := by
  have hs (a : Answer) : s.step sort cfg (ThreadId.worker.event a) =
      some { s with running := false, worker := some .ended } := by
    rw [ThreadId.event, Threads.step, Threads.workerStep, hw]
  exact h.canEnd fun a => ⟨_, hs a, h.free, fun hq => .here ⟨hq, rfl⟩⟩

theorem canEnd_resetBackfilling (h : s.Quiet cfg.publishCandles)
    (hw : s.worker = some .resetBackfilling) : s.CanEnd sort cfg := by
  have hs (a : Answer) : s.step sort cfg (ThreadId.worker.event a) =
      some { s with backfilling := false, worker := some .resetRunning } := by
    rw [ThreadId.event, Threads.step, Threads.workerStep, hw]
  exact h.canEnd fun a => ⟨_, hs a, h.free, fun hq => canEnd_resetRunning hq rfl⟩

/-- The end of the live phase waits for the callbacks. -/
theorem canEnd_stopLiveStream (h : s.Quiet cfg.publishCandles)
    (hw : s.worker = some .stopLiveStream) : s.CanEnd sort cfg := by
  refine (callbacks_end h).bind fun t ⟨hq, hw', hnone⟩ => ?_
  have hs (a : Answer) : t.step sort cfg (ThreadId.worker.event a) =
      some { t with subscribed := false, worker := some .resetBackfilling } := by
    rw [ThreadId.event, Threads.step, Threads.workerStep, hw', hw]
    exact if_pos hnone
  exact hq.canEnd fun a => ⟨_, hs a, hq.free, fun hq' => canEnd_resetBackfilling hq' rfl⟩

theorem canEnd_live (h : s.Quiet cfg.publishCandles) (hw : s.worker = some .live) :
    s.CanEnd sort cfg := by
  have hs (a : Answer) : s.step sort cfg (ThreadId.worker.event a) =
      some { s with worker := some .stopLiveStream } := by
    rw [ThreadId.event, Threads.step, Threads.workerStep, hw]
    simp [h.running]
  exact h.canEnd fun a => ⟨_, hs a, h.free, fun hq => canEnd_stopLiveStream hq rfl⟩

theorem canEnd_startLiveStream (h : s.Quiet cfg.publishCandles)
    (hw : s.worker = some .startLiveStream) : s.CanEnd sort cfg := by
  cases hsub : s.subscribed with
  | true =>
    have hs (a : Answer) : s.step sort cfg (ThreadId.worker.event a) =
        some { s with worker := some .live } := by
      rw [ThreadId.event, Threads.step, Threads.workerStep, hw]
      exact if_pos hsub
    exact h.canEnd fun a => ⟨_, hs a, h.free, fun hq => canEnd_live hq rfl⟩
  | false =>
    have hs (a : Answer) : s.step sort cfg (ThreadId.worker.event a) = some { s with
        lastLivePublish := none, subscribed := a.subscribes, worker := some .live } := by
      rw [ThreadId.event, Threads.step, Threads.workerStep, hw]
      exact if_neg (by simp [hsub])
    exact h.canEnd fun a => ⟨_, hs a, h.free, fun hq => canEnd_live hq rfl⟩

theorem canEnd_checkLive (h : s.Quiet cfg.publishCandles) (hw : s.worker = some .checkLive) :
    s.CanEnd sort cfg := by
  have hs (a : Answer) : s.step sort cfg (ThreadId.worker.event a) =
      some { s with worker := some .resetBackfilling } := by
    rw [ThreadId.event, Threads.step, Threads.workerStep, hw]
    simp [h.running]
  exact h.canEnd fun a => ⟨_, hs a, h.free, fun hq => canEnd_resetBackfilling hq rfl⟩

/-- The worker goes on to `after` from a call of `publishSnapshot`. -/
theorem canEnd_call {pc after : WorkerPc} (h : s.Quiet cfg.publishCandles)
    (hw : s.worker = some pc) (hpc : pc.duty = .publishing)
    (hs : ∀ (pub : Publishing ThreadId) (a : Answer), pub.calls .worker = none →
      ({ s with pub := pub, worker := some pc } : Threads).step sort cfg
        (ThreadId.worker.event a) = some { s with pub := pub, worker := some after })
    (hafter : ∀ t : Threads, t.Quiet cfg.publishCandles → t.worker = some after →
      t.CanEnd sort cfg) : s.CanEnd sort cfg := by
  have hd : s.duty .worker = .publishing := by
    rw [Threads.duty, hw]
    exact hpc
  refine (h.returned hd).bind ?_
  rintro _ ⟨hq, pub, rfl, hnone⟩
  have hstep (a : Answer) : ({ s with pub := pub } : Threads).step sort cfg
      (ThreadId.worker.event a) = some { s with pub := pub, worker := some after } := by
    have hstep := hs pub a hnone
    rw [← hw] at hstep
    exact hstep
  exact hq.canEnd fun a => ⟨_, hstep a, hq.free, fun hq' => hafter _ hq' rfl⟩

theorem canEnd_finish (h : s.Quiet cfg.publishCandles) (hw : s.worker = some .finish) :
    s.CanEnd sort cfg :=
  canEnd_call h hw rfl (fun pub _ hnone => if_neg (by simp [hnone])) fun _ => canEnd_checkLive

/-- The worker calls `publishSnapshot` and is at `pc` then. -/
theorem leadsOn_callPublish {pc : WorkerPc} {a : Answer}
    (hs : s.step sort cfg (ThreadId.worker.event a) =
      ({ t with worker := some pc } : Threads).callPublish cfg .worker true)
    (hcalls : t.pub.calls .worker = none) (hfree : t.pub.holder = none)
    (hpc : ∀ u : Threads, u.Quiet cfg.publishCandles → u.worker = some pc →
      u.CanEnd sort cfg) : s.LeadsOn sort cfg a :=
  ⟨_, hs.trans (callPublish_of_none (s := { t with worker := some pc }) hcalls true), hfree,
    fun hq => hpc _ hq rfl⟩

/-- The worker leaves the loop. -/
theorem canEnd_leave {pc : WorkerPc} (h : s.Quiet cfg.publishCandles) (hw : s.worker = some pc)
    (hpc : pc.duty = .rest)
    (hs : ∀ a, s.step sort cfg (ThreadId.worker.event a) =
      ({ s with worker := some .finish } : Threads).callPublish cfg .worker true) :
    s.CanEnd sort cfg :=
  h.canEnd fun a => leadsOn_callPublish (hs a) (h.worker_calls_none hw (by rw [hpc]; decide))
    h.free fun _ => canEnd_finish

theorem canEnd_head {v : WorkerVars} (h : s.Quiet cfg.publishCandles)
    (hw : s.worker = some (.head v)) : s.CanEnd sort cfg := by
  refine canEnd_leave h hw rfl fun a => ?_
  rw [ThreadId.event, Threads.step, Threads.workerStep, hw]
  exact if_pos (by simp [h.running])

theorem canEnd_next {v : WorkerVars} {morePages : Bool} (h : s.Quiet cfg.publishCandles)
    (hw : s.worker = some (.next v morePages)) : s.CanEnd sort cfg := by
  refine canEnd_leave h hw rfl fun a => ?_
  rw [ThreadId.event, Threads.step, Threads.workerStep, hw]
  exact if_pos (by simp [h.running])

theorem canEnd_metadata {v : WorkerVars} {count : Nat} {gapDetected : Bool}
    (h : s.Quiet cfg.publishCandles) (hw : s.worker = some (.metadata v count gapDetected)) :
    s.CanEnd sort cfg := by
  by_cases hcount : s.pub.repo.metadata.count = 0
  · have hs (a : Answer) : s.step sort cfg (ThreadId.worker.event a) =
        some { s with worker := some (.head v) } := by
      rw [ThreadId.event, Threads.step, Threads.workerStep, hw]
      exact if_pos hcount
    exact h.canEnd fun a => ⟨_, hs a, h.free, fun hq => canEnd_head hq rfl⟩
  · have hs (a : Answer) : s.step sort cfg (ThreadId.worker.event a) =
        some { s with worker := some (.next
          { v with nextFetch := s.pub.repo.metadata.maxOpen + v.window.intervalMs }
          !(count < batchLimit cfg.toSyncConfig && !gapDetected)) } := by
      rw [ThreadId.event, Threads.step, Threads.workerStep, hw]
      exact if_neg hcount
    exact h.canEnd fun a => ⟨_, hs a, h.free, fun hq => canEnd_next hq rfl⟩

theorem canEnd_publish {v : WorkerVars} {count : Nat} {gapDetected : Bool}
    (h : s.Quiet cfg.publishCandles) (hw : s.worker = some (.publish v count gapDetected)) :
    s.CanEnd sort cfg :=
  canEnd_call h hw rfl (fun pub _ hnone => if_neg (by simp [hnone])) fun _ => canEnd_metadata

/-- The stages of a job, and what is left of the candles in each. -/
def Job.work : Job → ℕ ×ₗ ℕ
  | .page _ rest => toLex (4, rest.length)
  | .repairGap .. => toLex (3, 0)
  | .fetchMissing .. => toLex (2, 0)
  | .missing _ _ rest => toLex (1, rest.length)
  | .retry rest => toLex (0, rest.length)

/-- A step of a job leads to a later stage, whatever a fetch returns, or uses up a candle. -/
theorem jobStep_work (cfg : SyncConfig) (fetched : List Candle) (s : Threads) (job : Job) :
    (s.jobStep cfg fetched job).1.pub.holder = s.pub.holder ∧
      ∀ job', (s.jobStep cfg fetched job).2 = some job' → job'.work < job.work := by
  cases job with
  | page batch rest =>
    cases rest with
    | nil => exact ⟨rfl, nofun⟩
    | cons candle rest =>
      unfold Threads.jobStep
      dsimp only
      split <;> refine ⟨rfl, fun job' hj => ?_⟩ <;> obtain rfl := Option.some.inj hj <;>
        simp [Job.work, Prod.Lex.toLex_lt_toLex]
  | repairGap gap batch =>
    unfold Threads.jobStep
    dsimp only
    split_ifs
    · exact ⟨rfl, nofun⟩
    · exact ⟨rfl, nofun⟩
    · exact ⟨rfl, nofun⟩
    · refine ⟨rfl, fun job' hj => ?_⟩
      obtain rfl := Option.some.inj hj
      exact Prod.Lex.toLex_lt_toLex.mpr (.inl (by decide))
  | fetchMissing gap batch =>
    refine ⟨rfl, fun job' hj => ?_⟩
    obtain rfl := Option.some.inj hj
    exact Prod.Lex.toLex_lt_toLex.mpr (.inl Nat.one_lt_two)
  | missing gap batch rest =>
    cases rest with
    | nil =>
      refine ⟨rfl, fun job' hj => ?_⟩
      obtain rfl := Option.some.inj hj
      exact Prod.Lex.toLex_lt_toLex.mpr (.inl Nat.zero_lt_one)
    | cons candle rest =>
      have hle (p : Prop) [Decidable p] :
          (if p then ([] : List Candle) else rest).length ≤ rest.length := by
        split
        · exact Nat.zero_le _
        · exact le_rfl
      refine ⟨rfl, fun job' hj => ?_⟩
      obtain ⟨rest', rfl, hrest⟩ : ∃ rest', job' = .missing gap batch rest' ∧
          rest'.length ≤ rest.length := ⟨_, (Option.some.inj hj).symm, hle _⟩
      exact Prod.Lex.toLex_lt_toLex.mpr (.inr ⟨rfl, Nat.lt_succ_of_le hrest⟩)
  | retry rest =>
    cases rest with
    | nil => exact ⟨rfl, nofun⟩
    | cons candle rest =>
      unfold Threads.jobStep
      dsimp only
      split
      · exact ⟨rfl, nofun⟩
      · refine ⟨rfl, fun job' hj => ?_⟩
        obtain rfl := Option.some.inj hj
        exact Prod.Lex.toLex_lt_toLex.mpr (.inr ⟨rfl, Nat.lt_succ_self _⟩)

theorem canEnd_append {v : WorkerVars} {count : Nat} {job : Job} (h : s.Quiet cfg.publishCandles)
    (hw : s.worker = some (.append v count job)) : s.CanEnd sort cfg := by
  induction hn : job.work using WellFoundedLT.induction generalizing s job with
  | ind n ih =>
    refine h.canEnd fun a => ?_
    obtain ⟨hholder, hwork⟩ := jobStep_work cfg.toSyncConfig a.fetched s job
    have hcalls := (jobStep_same cfg s a.fetched job).1
    have howes : Duty.owes ≠ .publishing := by decide
    have hnone : s.pub.calls .worker = none := h.worker_calls_none hw howes
    rcases hj : s.jobStep cfg.toSyncConfig a.fetched job with ⟨s₁, _ | job'⟩ <;>
      rw [hj] at hholder hwork hcalls
    · have hs : s.step sort cfg (ThreadId.worker.event a) =
          ({ s₁ with worker := some (.publish v count !job.isPage) } :
            Threads).callPublish cfg .worker true := by
        rw [ThreadId.event, Threads.step, Threads.workerStep, hw]
        simp only [hj]
      exact leadsOn_callPublish hs ((congrFun hcalls _).trans hnone) (hholder.trans h.free)
        fun _ => canEnd_publish
    · have hs : s.step sort cfg (ThreadId.worker.event a) =
          some { s₁ with worker := some (.append v count job') } := by
        rw [ThreadId.event, Threads.step, Threads.workerStep, hw]
        simp only [hj]
      exact ⟨_, hs, hholder.trans h.free, fun hq =>
        ih _ (hn ▸ hwork job' rfl) hq rfl rfl⟩

/-- The worker ends, from wherever it is. -/
theorem canEnd {pc : WorkerPc} (h : s.Quiet cfg.publishCandles) (hw : s.worker = some pc) :
    s.CanEnd sort cfg := by
  have fetched (u : Threads) (v : WorkerVars) (candles : List Candle)
      (hq : u.Quiet cfg.publishCandles) (hw : u.worker = some (.fetched v candles)) :
      u.CanEnd sort cfg := by
    refine canEnd_leave hq hw rfl fun a => ?_
    rw [ThreadId.event, Threads.step, Threads.workerStep, hw]
    exact if_pos (by simp [hq.running])
  have setup (u : Threads) (hq : u.Quiet cfg.publishCandles) (hw : u.worker = some .setup) :
      u.CanEnd sort cfg := by
    have hs (a : Answer) : u.step sort cfg (ThreadId.worker.event a) =
        some { u with worker := some (.head
          { window := (backfillWindow cfg.toSyncConfig u.pub.repo a.now).1
            nextFetch := (backfillWindow cfg.toSyncConfig u.pub.repo a.now).2 }) } := by
      rw [ThreadId.event, Threads.step, Threads.workerStep, hw]
      exact if_neg (not_le.mpr (clampIntervalMs_pos cfg.toSyncConfig))
    exact hq.canEnd fun a => ⟨_, hs a, hq.free, fun hq' => canEnd_head hq' rfl⟩
  cases pc with
  | begin_ =>
    have hs (a : Answer) : s.step sort cfg (ThreadId.worker.event a) =
        some { s with backfilling := true, worker := some .setup } := by
      rw [ThreadId.event, Threads.step, Threads.workerStep, hw]
    exact h.canEnd fun a => ⟨_, hs a, h.free, fun hq => setup _ hq rfl⟩
  | setup => exact setup s h hw
  | head v => exact canEnd_head h hw
  | fetch v =>
    have hs (a : Answer) : s.step sort cfg (ThreadId.worker.event a) =
        some { s with worker := some (.fetched v a.fetched) } := by
      rw [ThreadId.event, Threads.step, Threads.workerStep, hw]
    exact h.canEnd fun a => ⟨_, hs a, h.free, fun hq => fetched _ v a.fetched hq rfl⟩
  | fetched v candles => exact fetched s v candles h hw
  | append v count job => exact canEnd_append h hw
  | publish v count gapDetected => exact canEnd_publish h hw
  | metadata v count gapDetected => exact canEnd_metadata h hw
  | next v morePages => exact canEnd_next h hw
  | finish => exact canEnd_finish h hw
  | checkLive => exact canEnd_checkLive h hw
  | startLiveStream => exact canEnd_startLiveStream h hw
  | live => exact canEnd_live h hw
  | stopLiveStream => exact canEnd_stopLiveStream h hw
  | resetBackfilling => exact canEnd_resetBackfilling h hw
  | resetRunning => exact canEnd_resetRunning h hw
  | ended => exact .here ⟨h, hw⟩

end

/-- `stop` does not wait for ever: in every state of every run in which the owner waits in it, and
whatever the source, the clock and the stream answer from then on, each time after all that has
happened, the threads have steps to take after which it returns, with no worker, no subscription
and no callback left. -/
theorem stop_returns [TimeUtils] (sort : StdSort) (cfg : ThreadsConfig) (repo : Repository)
    (hrepo : repo.Contiguous) (es : List ThreadEvent) (s : Threads)
    (hrun : run (Threads.step sort cfg) (.init repo) es = some s) (hstop : s.owner = .stop)
    (answers : List ThreadEvent → Answer) :
    ∃ threads t u,
      run (Threads.step sort cfg) s (played ThreadId.event answers threads) = some t ∧
      t.step sort cfg .owner = some u ∧ u.owner = .idle ∧ u.running = false ∧ u.worker = none ∧
      u.subscribed = false ∧ ∀ (k : Nat) pc, u.callbacks[k]? ≠ some (some pc) := by
  have hok : s.Ok := inv_of_along (P := fun _ _ => True) (fun _ _ _ h _ hs => threads_ok h hs)
    (init_ok repo) (along_of_forall fun _ _ => trivial) hrun
  obtain ⟨hpub, hcallers, -⟩ := run_follows hrepo hrun
  have hstopping : s.Stopping cfg.publishCandles := ⟨hpub, hcallers, hok.stopping hstop, hstop⟩
  -- The thread that holds the mutex goes first.
  have hfree : s.CanReach sort cfg fun q => q.Quiet cfg.publishCandles := by
    cases hh : s.pub.holder with
    | none => exact .here ⟨hstopping, hh⟩
    | some th =>
      obtain ⟨lastClosed, pc, hc, hpc⟩ := hpub.holder_calls hh
      have hd : s.duty th = .publishing := hcallers th (hc ▸ Option.some_ne_none _)
      exact (hstopping.returned hd hc fun hlock => absurd hlock hpc).mono fun _ => And.left
  have hend : s.CanReach sort cfg fun t =>
      t.Quiet cfg.publishCandles ∧ (t.worker = none ∨ t.worker = some .ended) := by
    refine hfree.bind fun q hq => ?_
    cases hw : q.worker with
    | none => exact .here ⟨hq, .inl hw⟩
    | some pc => exact (canEnd hq hw).mono fun t ht => ⟨ht.1, .inr ht.2⟩
  obtain ⟨threads, t, hr, ht, hw⟩ := hend.run answers
  have htok : t.Ok := inv_of_along (P := fun _ _ => True) (fun _ _ _ h _ hs => threads_ok h hs)
    hok (along_of_forall fun _ _ => trivial) hr
  have hsub := htok.not_subscribed hw
  have hs : t.step sort cfg .owner = some { t with worker := none, owner := .idle } := by
    rw [Threads.step, Threads.ownerStep, ht.owner]
    exact if_pos hw
  exact ⟨threads, t, _, hr, hs, rfl, ht.running, rfl, hsub,
    fun k pc hk => Bool.false_ne_true (hsub.symm.trans (htok.callbacks k pc hk))⟩

/-- `stop` is called while a callback holds the mutex; the clock ticks with every step. -/
theorem stop_returns_live : ∃ s,
    run (Threads.step .insertion {}) (.init emptyMinutes) (threeCandles ++
      .callback ⟨flatCandle 120000 true, true⟩ :: (List.replicate 4 (.live 3 1100) ++ [.stop])) =
      some s ∧
    (s.owner, s.worker, s.pub.holder) = (.stop, some .live, some (.live 3)) ∧
    ∃ threads t u, run (Threads.step .insertion {}) s (played ThreadId.event
        (fun past => ⟨[flatCandle 180000 true], 1100 + past.length, true⟩) threads) = some t ∧
      t.step .insertion {} .owner = some u ∧ u.owner = .idle := by
  obtain ⟨s, hs, hstate⟩ : ∃ s, run (Threads.step .insertion {}) (.init emptyMinutes)
      (threeCandles ++ .callback ⟨flatCandle 120000 true, true⟩ ::
        (List.replicate 4 (.live 3 1100) ++ [.stop])) = some s ∧
      (s.owner, s.worker, s.pub.holder) = (.stop, some .live, some (.live 3)) :=
    Option.map_eq_some_iff.mp (by decide +kernel)
  obtain ⟨threads, t, u, hr, hu, howner, -⟩ := stop_returns .insertion {} emptyMinutes
    (construct_contiguous .insertion rfl ['B'] (by decide)) _ s hs (Prod.mk.inj hstate).1
    fun past => ⟨[flatCandle 180000 true], 1100 + past.length, true⟩
  exact ⟨s, hs, hstate, threads, t, u, hr, hu, howner⟩

end TCV.App
