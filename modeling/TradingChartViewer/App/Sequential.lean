import TradingChartViewer.App.Jobs

/-!
# The orchestrator under one thread

The threads of the orchestrator one at a time: a thread that no other comes
between does what the function of `Orchestrator` does that models it alone.

* `runsBy_backfill`: the worker and `backfillBody`;
* `runsBy_requestBackfillOlder`: a paging thread and `requestBackfillOlder`;
* `runsBy_handleLiveCandle`: a live callback and `handleLiveCandle`.
-/

namespace TCV.App

open TCV.Domain TCV.Storage Lib.Loop Lib.Run

/-! ## The worker -/

def workerSlot : Slot WorkerPc where
  put pc s := { s with worker := some pc }
  put_put _ _ _ := rfl
  pub_put _ _ := rfl
  repairing_put _ _ := rfl
  put_pub _ _ _ := rfl
  put_repairing _ _ _ := rfl

/-- A step of the worker. -/
def IsWorker : ThreadEvent → Prop
  | .worker .. => True
  | _ => False

/-- The worker is at `pc` and in no call, and the state is that of the loop of one
thread. -/
structure WorkerAt (pc : WorkerPc) (b : BackfillState) (s : Threads) : Prop where
  worker : s.worker = some pc
  sync : s.sequential b.sync.widenedOnce = b.sync
  free : s.pub.Free .worker

/-- At the head of an iteration. -/
abbrev AtHead (w : BackfillWindow) (b : BackfillState) (s : Threads) : Prop :=
  WorkerAt (.head ⟨w, b.nextFetch, b.fetchedAny, b.sync.widenedOnce⟩) b s

section

variable [TimeUtils] (sort : StdSort) (cfg : ThreadsConfig) (market : Market)
  {w : BackfillWindow} {b b' : BackfillState} {s : Threads}

/-- The worker leaves the loop and publishes. -/
theorem runsBy_finish {e : ThreadEvent} (he : IsWorker e) (hfree : s.pub.Free .worker)
    (hsync : s.sequential b.sync.widenedOnce = b.sync) {pc : WorkerPc}
    (hstep : (workerSlot.put pc s).step sort cfg e =
      (workerSlot.put .finish s).callPublish cfg .worker true) :
    ∃ t, RunsBy (Threads.step sort cfg) IsWorker (workerSlot.put pc s) t ∧ WorkerAt .checkLive b t := by
  have hpublish : ∀ s, (workerSlot.put .finish s).step sort cfg (.worker [] 0 false) =
      (workerSlot.put .finish s).publishThen cfg .worker (workerSlot.put .checkLive s) :=
    fun _ => rfl
  have hworker : IsWorker (.worker [] 0 false) := trivial
  obtain ⟨s₁, log, hcall, hrun⟩ := runsBy_publish workerSlot hworker hpublish hfree true
  exact ⟨_, .head he (hstep.trans hcall) hrun, rfl, hsync, ⟨hfree.calls, hfree.holder⟩⟩

/-- The worker appends a page and publishes. -/
theorem runsBy_workerPage (hfree : s.pub.Free .worker) (v : WorkerVars) (candles : List Candle)
    (widened : Bool) :
    ∃ log, RunsBy (Threads.step sort cfg) IsWorker
      (workerSlot.put (.append v candles.length (.page candles candles)) s)
      (workerSlot.put (.metadata v candles.length
          (appendPage cfg.toSyncConfig market (s.sequential widened) candles).1)
        (s.stored (appendPage cfg.toSyncConfig market (s.sequential widened) candles).2.repo
          log)) :=
  runsBy_page workerSlot (.append v candles.length) (.publish v candles.length)
    (.metadata v candles.length) (fun _ _ fetched => ⟨.worker fetched 0 false, trivial, rfl⟩)
    (fun _ => ⟨.worker [] 0 false, trivial, fun _ => rfl⟩) market hfree candles widened

/-- The part of an iteration after a page has come. -/
theorem runsBy_paged (hsync : s.sequential b.sync.widenedOnce = b.sync) (hfree : s.pub.Free .worker)
    (hr : s.running = true) (candles : List Candle) :
    ∃ t, RunsBy (Threads.step sort cfg) IsWorker (workerSlot.put (.append
        ⟨w, b.nextFetch, true, b.sync.widenedOnce⟩ candles.length (.page candles candles)) s) t ∧
      match
        let (gapDetected, sync) := appendPage cfg.toSyncConfig market b.sync candles
        let metadata := sync.repo.metadata
        if metadata.count = 0 then
          Sum.inl { b with sync := sync, metadata := metadata, fetchedAny := true }
        else
          let s : BackfillState :=
            { sync := sync, metadata := metadata, nextFetch := metadata.maxOpen + w.intervalMs,
              fetchedAny := true }
          let morePages := !(candles.length < batchLimit cfg.toSyncConfig && !gapDetected)
          if morePages then .inl s else .inr s with
      | .inl b' => AtHead w b' t
      | .inr b' => WorkerAt .checkLive b' t := by
  obtain ⟨log, hrun⟩ := runsBy_workerPage sort cfg market hfree
    ⟨w, b.nextFetch, true, b.sync.widenedOnce⟩ candles b.sync.widenedOnce
  have hsame := appendPage_eq_repo cfg.toSyncConfig market b.sync candles
  rw [hsync] at hrun
  obtain ⟨⟨gapDetected, sync⟩, hpage⟩ : ∃ page, page = appendPage cfg.toSyncConfig market b.sync candles :=
    ⟨_, rfl⟩
  rw [← hpage] at hrun hsame ⊢
  dsimp only at hrun hsame ⊢
  have hsync' : (s.stored sync.repo log).sequential sync.widenedOnce = sync := by
    rw [hsame, ← hsync]
    rfl
  have hwidened : b.sync.widenedOnce = sync.widenedOnce := by rw [hsame]
  have hfree' : (s.stored sync.repo log).pub.Free .worker := ⟨hfree.calls, hfree.holder⟩
  have hwork : IsWorker (.worker [] 0 false) := trivial
  rw [hwidened] at hrun ⊢
  by_cases hcount : sync.repo.metadata.count = 0
  · rw [if_pos hcount]
    exact ⟨_, hrun.trans (.single hwork (if_pos hcount)), rfl, hsync', hfree'⟩
  rw [if_neg hcount]
  have hnext : RunsBy (Threads.step sort cfg) IsWorker _ _ := hrun.trans
    (.single (e := .worker [] 0 false) trivial (if_neg hcount))
  by_cases hmore : (!(decide (candles.length < batchLimit cfg.toSyncConfig) && !gapDetected)) = true
  · rw [if_pos hmore]
    refine ⟨_, hnext.trans (.single hwork (if_neg ?_)), rfl, hsync', hfree'⟩
    simp [hmore, workerSlot, Threads.stored, hr]
  · rw [if_neg hmore]
    have hstop : (workerSlot.put (.next ⟨w, sync.repo.metadata.maxOpen + w.intervalMs, true,
        sync.widenedOnce⟩ (!(decide (candles.length < batchLimit cfg.toSyncConfig) && !gapDetected)))
        (s.stored sync.repo log)).step sort cfg (.worker [] 0 false) =
        (workerSlot.put .finish (s.stored sync.repo log)).callPublish cfg .worker true :=
      if_pos (by simp [hmore])
    obtain ⟨t, ht, hleft⟩ := runsBy_finish sort cfg
      (b := ⟨sync, sync.repo.metadata, sync.repo.metadata.maxOpen + w.intervalMs, true⟩) hwork hfree'
      hsync' hstop
    exact ⟨t, hnext.trans ht, hleft⟩

/-- An iteration of the loop. -/
theorem runsBy_iteration (h : AtHead w b s) :
    ∃ t, RunsBy (Threads.step sort cfg) IsWorker s t ∧
      match backfillBody cfg.toSyncConfig market w b with
      | .inl b' => AtHead w b' t
      | .inr b' => WorkerAt .checkLive b' t := by
  obtain ⟨hworker, hsync, hfree⟩ := h
  have hput : workerSlot.put (.head ⟨w, b.nextFetch, b.fetchedAny, b.sync.widenedOnce⟩) s = s := by
    simp only [workerSlot, ← hworker]
  suffices h : ∃ t, RunsBy (Threads.step sort cfg) IsWorker
      (workerSlot.put (.head ⟨w, b.nextFetch, b.fetchedAny, b.sync.widenedOnce⟩) s) t ∧
      match backfillBody cfg.toSyncConfig market w b with
      | .inl b' => AtHead w b' t
      | .inr b' => WorkerAt .checkLive b' t by rwa [hput] at h
  have hrunning : b.sync.running = s.running := by rw [← hsync]; rfl
  have hwork : IsWorker (.worker [] 0 false) := trivial
  have hhead : (workerSlot.put (.head ⟨w, b.nextFetch, b.fetchedAny, b.sync.widenedOnce⟩) s).step
      sort cfg (.worker [] 0 false) =
      if !s.running then (workerSlot.put .finish s).callPublish cfg .worker true
      else if (backfillRequest cfg.toSyncConfig w b.nextFetch).isNone then
        (workerSlot.put .finish s).callPublish cfg .worker true
      else some (workerSlot.put (.fetch ⟨w, b.nextFetch, b.fetchedAny, b.sync.widenedOnce⟩) s) := by
    rfl
  unfold backfillBody
  rw [hrunning]
  cases hr : s.running with
  | false =>
    rw [hr] at hhead
    exact runsBy_finish sort cfg hwork hfree hsync hhead
  | true =>
    rw [hr] at hhead
    cases hreq : backfillRequest cfg.toSyncConfig w b.nextFetch with
    | none =>
      rw [hreq] at hhead
      exact runsBy_finish sort cfg hwork hfree hsync hhead
    | some range =>
      rw [hreq] at hhead
      dsimp only [Bool.not_true, Bool.false_eq_true, if_false]
      obtain ⟨candles, hcandles⟩ : ∃ candles, candles = market range (batchLimit cfg.toSyncConfig) :=
        ⟨_, rfl⟩
      rw [← hcandles]
      have hfetch : RunsBy (Threads.step sort cfg) IsWorker _ (workerSlot.put
          (.fetched ⟨w, b.nextFetch, b.fetchedAny, b.sync.widenedOnce⟩ candles) s) :=
        .head hwork hhead (.single (e := .worker candles 0 false) trivial rfl)
      have hfetched : (workerSlot.put (.fetched ⟨w, b.nextFetch, b.fetchedAny, b.sync.widenedOnce⟩
            candles) s).step sort cfg (.worker [] 0 false) =
          if candles.isEmpty then
            if !b.fetchedAny && w.repoEmpty && !b.sync.widenedOnce && 0 < w.widenAmount then
              some (workerSlot.put
                (.head ⟨w, max 0 (b.nextFetch - w.widenAmount), b.fetchedAny, true⟩) s)
            else (workerSlot.put .finish s).callPublish cfg .worker true
          else some (workerSlot.put (.append ⟨w, b.nextFetch, true, b.sync.widenedOnce⟩
            candles.length (.page candles candles)) s) := by
        rw [Threads.step, Threads.workerStep]
        exact if_neg (by simp [workerSlot, hr])
      by_cases hempty : candles.isEmpty = true
      · rw [if_pos hempty] at hfetched ⊢
        by_cases hwiden : (!b.fetchedAny && w.repoEmpty && !b.sync.widenedOnce &&
            decide (0 < w.widenAmount)) = true
        · rw [if_pos hwiden] at hfetched ⊢
          refine ⟨_, hfetch.trans (.single hwork hfetched), rfl, ?_, hfree⟩
          rw [← hsync]
          rfl
        · rw [if_neg hwiden] at hfetched ⊢
          obtain ⟨t, ht, hleft⟩ := runsBy_finish sort cfg hwork hfree hsync hfetched
          exact ⟨t, hfetch.trans ht, hleft⟩
      · rw [if_neg hempty] at hfetched ⊢
        obtain ⟨t, ht, hend⟩ := runsBy_paged sort cfg market hsync hfree hr candles
        exact ⟨t, hfetch.trans (.head hwork hfetched ht), hend⟩

/-- The loop, from the head of an iteration. -/
theorem runsBy_loop (h : AtHead w b s) (hends : Ends (backfillBody cfg.toSyncConfig market w) b b') :
    ∃ t, RunsBy (Threads.step sort cfg) IsWorker s t ∧ WorkerAt .checkLive b' t := by
  obtain ⟨last, hreaches, hlast⟩ := hends.exit
  obtain ⟨u, hu, hhead⟩ := RunsBy.of_reaches (R := AtHead w) (fun a c u hu hc => by
    have := runsBy_iteration sort cfg market hu
    rwa [hc] at this) hreaches h
  obtain ⟨t, ht, hleft⟩ := runsBy_iteration sort cfg market hhead
  rw [hlast] at hleft
  exact ⟨t, hu.trans ht, hleft⟩

/-- The worker with nothing between its steps backfills as `backfillBody` says. -/
theorem runsBy_backfill (hworker : s.worker = some .begin_) (hfree : s.pub.Free .worker)
    (widened : Bool) (nowMs : Int)
    (hends : Ends (backfillBody cfg.toSyncConfig market
        (backfillWindow cfg.toSyncConfig s.pub.repo nowMs).1)
      (loopStart cfg.toSyncConfig (s.sequential widened) nowMs) b') :
    ∃ t, RunsBy (Threads.step sort cfg) IsWorker s t ∧ WorkerAt .checkLive b' t := by
  have hbegin : s.step sort cfg (.worker [] nowMs false) =
      some { s with backfilling := true, worker := some .setup } := by
    rw [Threads.step, Threads.workerStep, hworker]
  have hsetup : ({ s with backfilling := true, worker := some .setup } : Threads).step sort cfg
      (.worker [] nowMs false) = some { s with
        backfilling := true
        worker := some (.head ⟨(backfillWindow cfg.toSyncConfig s.pub.repo nowMs).1,
          (backfillWindow cfg.toSyncConfig s.pub.repo nowMs).2, false, false⟩) } :=
    if_neg (not_le.mpr (clampIntervalMs_pos cfg.toSyncConfig))
  have hhead : AtHead (backfillWindow cfg.toSyncConfig s.pub.repo nowMs).1
      (loopStart cfg.toSyncConfig (s.sequential widened) nowMs) { s with
        backfilling := true
        worker := some (.head ⟨(backfillWindow cfg.toSyncConfig s.pub.repo nowMs).1,
          (backfillWindow cfg.toSyncConfig s.pub.repo nowMs).2, false, false⟩) } := ⟨rfl, rfl, hfree⟩
  obtain ⟨t, ht, hleft⟩ := runsBy_loop sort cfg market hhead hends
  have hwork : IsWorker (.worker [] nowMs false) := trivial
  exact ⟨t, .head hwork hbegin (.head hwork hsetup ht), hleft⟩

theorem runsBy_startLiveStream (hworker : s.worker = some .begin_) (hfree : s.pub.Free .worker)
    (widened : Bool) (nowMs : Int)
    (hstarts : StartsLiveStream cfg.toSyncConfig market (s.sequential widened) nowMs) :
    ∃ t, RunsBy (Threads.step sort cfg) IsWorker s t ∧ t.worker = some .startLiveStream := by
  obtain ⟨b', hends, hrunning⟩ := hstarts
  obtain ⟨t, ht, hat⟩ := runsBy_backfill sort cfg market hworker hfree widened nowMs hends
  have hr : t.running = true := by rw [← hrunning, ← hat.sync]; rfl
  have hlive : t.step sort cfg (.worker [] 0 false) =
      some { t with worker := some .startLiveStream } := by
    rw [Threads.step, Threads.workerStep, hat.worker]
    dsimp only
    rw [if_pos hr]
  have hwork : IsWorker (.worker [] 0 false) := trivial
  exact ⟨_, ht.trans (.single hwork hlive), rfl⟩

end

/-! ## A paging thread -/

/-- A thread after those of `before` and before those of `after`. -/
def pagingSlot (before after : List (Option PagingPc)) : Slot PagingPc where
  put pc s := { s with paging := before ++ some pc :: after }
  put_put _ _ _ := rfl
  pub_put _ _ := rfl
  repairing_put _ _ := rfl
  put_pub _ _ _ := rfl
  put_repairing _ _ _ := rfl

/-- A step of `requestBackfillOlder` or of its thread. -/
def IsPaging (n : Nat) : ThreadEvent → Prop
  | .requestBackfillOlder .. | .owner => True
  | .paging m _ => m = n
  | _ => False

section

variable [TimeUtils] (sort : StdSort) (cfg : ThreadsConfig)

theorem pagingStep_put (before after : List (Option PagingPc)) (pc : PagingPc) (s : Threads)
    (fetched : List Candle) :
    ((pagingSlot before after).put pc s).step sort cfg (.paging before.length fetched) =
      match pc with
      | .fetch _ _ => if fetched.isEmpty then some ((pagingSlot before after).put .resetPaging s)
        else some ((pagingSlot before after).put
          (.append (.page (sort.run fetched) (sort.run fetched))) s)
      | .append job =>
        match ((pagingSlot before after).put (.append job) s).jobStep cfg.toSyncConfig fetched job with
        | (s, some job) => some ((pagingSlot before after).put (.append job) s)
        | (s, none) => ((pagingSlot before after).put .publish s).callPublish cfg
            (.paging before.length) true
      | .publish => ((pagingSlot before after).put .publish s).publishThen cfg
          (.paging before.length) ((pagingSlot before after).put .resetPaging s)
      | .resetPaging =>
        some { s with pagingBackfill := false, paging := before ++ none :: after } := by
  have hget : (before ++ some pc :: after)[before.length]? = some (some pc) := by simp
  have hset : ∀ cell, (before ++ some pc :: after).set before.length cell = before ++ cell :: after :=
    fun cell => by simp
  have hpaging : ((pagingSlot before after).put pc s).paging = before ++ some pc :: after := rfl
  rw [Threads.step, Threads.pagingStep]
  dsimp only
  rw [hpaging, hget]
  cases pc with
  | fetch startOpen candles =>
    have hI : decide (clampIntervalMs cfg.toSyncConfig ≤ 0) = false :=
      decide_eq_false (not_le.mpr (clampIntervalMs_pos _))
    simp only [hset, hI, Bool.false_or]
    rfl
  | append job =>
    have hput : ∀ s, ((pagingSlot before after).put (.append job) s).paging =
        before ++ some (.append job) :: after := fun _ => rfl
    dsimp only
    rw [Slot.jobStep]
    rcases s.jobStep cfg.toSyncConfig fetched job with ⟨s', _ | job'⟩
    · dsimp only
      rw [hput, hset]
      rfl
    · dsimp only
      rw [hput, hset]
      rfl
  | publish =>
    simp only [hset]
    rfl
  | resetPaging =>
    simp only [hset]
    rfl

variable (market : Market)

/-- A page is appended whether or not `pagingBackfill_` is set. -/
theorem appendPage_pagingBackfill (o : Orchestrator) (pagingBackfill : Bool) (batch : List Candle) :
    (appendPage cfg.toSyncConfig market { o with pagingBackfill := pagingBackfill } batch).2.repo =
      (appendPage cfg.toSyncConfig market o batch).2.repo := by
  unfold appendPage
  rcases appendUntilGap o.repo batch with ⟨_ | gap, repo⟩
  · rfl
  · unfold repairGap
    dsimp only
    split_ifs <;> rfl

/-- A paging thread with nothing between its steps. -/
theorem runsBy_pagingThread (before after : List (Option PagingPc)) {s : Threads}
    (hfree : s.pub.Free (.paging before.length)) (startOpen : Int) (candles : Nat)
    (fetched : List Candle) (widened : Bool) :
    ∃ log, RunsBy (Threads.step sort cfg) (IsPaging before.length)
      ((pagingSlot before after).put (.fetch startOpen candles) s)
      { s.stored (if fetched.isEmpty then s.pub.repo
          else (appendPage cfg.toSyncConfig market (s.sequential widened)
            (sort.run fetched)).2.repo) log with
        pagingBackfill := false
        paging := before ++ none :: after } := by
  have hfetch := pagingStep_put sort cfg before after (.fetch startOpen candles) s fetched
  have hpaging : ∀ fetched, IsPaging before.length (.paging before.length fetched) := fun _ => rfl
  by_cases hempty : fetched.isEmpty = true
  · rw [if_pos hempty]
    exact ⟨s.pub.log, .head (hpaging _) (hfetch.trans (if_pos hempty))
      (.single (hpaging []) (pagingStep_put sort cfg before after .resetPaging s []))⟩
  · rw [if_neg hempty]
    obtain ⟨log, hrun⟩ := runsBy_page (pagingSlot before after) .append (fun _ => .publish)
      (fun _ => .resetPaging)
      (fun s job fetched => ⟨_, hpaging fetched, pagingStep_put sort cfg before after (.append job) s fetched⟩)
      (fun _ => ⟨_, hpaging [], fun s => pagingStep_put sort cfg before after .publish s []⟩) market hfree
      (sort.run fetched) widened
    exact ⟨log, .head (hpaging _) (hfetch.trans (if_neg hempty)) (hrun.trans
      (.single (hpaging []) (pagingStep_put sort cfg before after .resetPaging _ [])))⟩

/-- A call of `requestBackfillOlder` and its thread with nothing between their steps. -/
theorem runsBy_requestBackfillOlder {s : Threads} (hidle : s.owner = .idle)
    (hfree : s.pub.Free (.paging s.paging.length)) (startOpen : Int) (candles : Nat)
    (widened : Bool) :
    ∃ t, RunsBy (Threads.step sort cfg) (IsPaging s.paging.length) s t ∧ t.owner = .idle ∧
      t.sequential widened =
        requestBackfillOlder sort cfg.toSyncConfig market (s.sequential widened) startOpen
          candles := by
  unfold requestBackfillOlder
  by_cases hcandles : candles = 0
  · rw [if_pos hcandles]
    exact ⟨s, .refl s, hidle, rfl⟩
  rw [if_neg hcandles]
  have hcall : s.step sort cfg (.requestBackfillOlder startOpen candles) =
      some { s with owner := .loadRunning startOpen candles } :=
    (if_neg (not_not.mpr hidle)).trans (if_neg hcandles)
  have howner : IsPaging s.paging.length .owner := trivial
  have hrequest : IsPaging s.paging.length (.requestBackfillOlder startOpen candles) := trivial
  have hrunning : ({ s with owner := .loadRunning startOpen candles } : Threads).step sort cfg .owner =
      some { s with owner := if s.running then .loadBackfilling startOpen candles else .idle } := rfl
  have hbackfilling :
      ({ s with owner := .loadBackfilling startOpen candles } : Threads).step sort cfg .owner =
      some { s with owner := if s.backfilling then .idle else .exchangePaging startOpen candles } :=
    rfl
  have hpaging : ({ s with owner := .exchangePaging startOpen candles } : Threads).step sort cfg .owner =
      if s.pagingBackfill then some { s with owner := .idle }
      else some ((pagingSlot s.paging []).put (.fetch startOpen candles)
        { s with pagingBackfill := true, owner := .idle }) := rfl
  by_cases hr : s.running = true
  swap
  · rw [if_neg hr] at hrunning
    refine ⟨_, .head hrequest hcall (.single howner hrunning), rfl, ?_⟩
    exact (if_pos (by simp [Threads.sequential, hr])).symm
  rw [if_pos hr] at hrunning
  by_cases hb : s.backfilling = true
  · rw [if_pos hb] at hbackfilling
    refine ⟨_, .head hrequest hcall (.head howner hrunning (.single howner hbackfilling)), rfl, ?_⟩
    exact (if_pos (by simp [Threads.sequential, hb])).symm
  rw [if_neg hb] at hbackfilling
  rw [if_neg (by simp [Threads.sequential, hr, hb])]
  by_cases hp : s.pagingBackfill = true
  · rw [if_pos hp] at hpaging
    refine ⟨_, .head hrequest hcall (.head howner hrunning (.head howner hbackfilling
      (.single howner hpaging))), rfl, ?_⟩
    exact (if_pos hp).symm
  rw [if_neg hp] at hpaging
  have hspawn := RunsBy.head hrequest hcall (.head howner hrunning (.head howner hbackfilling
    (.single howner hpaging)))
  dsimp only
  rw [if_neg (show ¬ (s.sequential widened).pagingBackfill = true from hp),
    if_neg (not_le.mpr (clampIntervalMs_pos cfg.toSyncConfig))]
  generalize market _ candles = fetched
  obtain ⟨log, hrun⟩ := runsBy_pagingThread sort cfg market s.paging []
    (s := { s with pagingBackfill := true, owner := .idle }) ⟨hfree.calls, hfree.holder⟩ startOpen
    candles fetched widened
  have hflag : s.pagingBackfill = false := Bool.not_eq_true _ ▸ hp
  refine ⟨_, hspawn.trans hrun, rfl, ?_⟩
  by_cases hempty : fetched.isEmpty = true
  · rw [if_pos hempty, if_pos hempty]
    simp only [Threads.sequential, Threads.stored, hflag]
  · have hpage := appendPage_pagingBackfill cfg market (s.sequential widened) true (sort.run fetched)
    rw [if_neg hempty, if_neg hempty]
    refine Eq.trans ?_ (appendPage_eq_repo cfg.toSyncConfig market _ _).symm
    rw [← hpage]
    simp only [Threads.sequential, Threads.stored, hflag]

end

/-! ## A live callback -/

/-- A callback after those of `before` and before those of `after`. -/
def liveSlot (before after : List (Option LivePc)) : Slot (Option LivePc) where
  put cell s := { s with callbacks := before ++ cell :: after }
  put_put _ _ _ := rfl
  pub_put _ _ := rfl
  repairing_put _ _ := rfl
  put_pub _ _ _ := rfl
  put_repairing _ _ _ := rfl

/-- A step of a callback. -/
def IsLive (n : Nat) : ThreadEvent → Prop
  | .live m _ => m = n
  | _ => False

section

variable [TimeUtils] (sort : StdSort) (cfg : ThreadsConfig)

theorem liveStep_put (before after : List (Option LivePc)) (pc : LivePc) (s : Threads) (now : Int) :
    ((liveSlot before after).put (some pc) s).step sort cfg (.live before.length now) =
      match pc with
      | .begin_ live =>
        some ((liveSlot before after).put (if s.running then some (.append live) else none) s)
      | .append live =>
        some ((liveSlot before after).put (some (.throttle live)) (s.append live.candle).2)
      | .throttle live =>
        if !(live.isFinal && live.candle.isClosed) && s.lastLivePublish.any (now - · < kLiveThrottleMs) then
          some ((liveSlot before after).put none s)
        else
          ((liveSlot before after).put (some .publish)
            { s with lastLivePublish := some now }).callPublish cfg (.live before.length)
              (live.isFinal && live.candle.isClosed)
      | .publish => ((liveSlot before after).put (some .publish) s).publishThen cfg
          (.live before.length) ((liveSlot before after).put none s) := by
  have hget : (before ++ some pc :: after)[before.length]? = some (some pc) := by simp
  have hset : ∀ cell, (before ++ some pc :: after).set before.length cell = before ++ cell :: after :=
    fun cell => by simp
  have hcallbacks : ((liveSlot before after).put (some pc) s).callbacks =
      before ++ some pc :: after := rfl
  rw [Threads.step, Threads.liveStep]
  dsimp only
  rw [hcallbacks, hget]
  cases pc with
  | begin_ live =>
    simp only [hset]
    rfl
  | append live =>
    have hput : ∀ s, ((liveSlot before after).put (some (.append live)) s).callbacks =
        before ++ some (.append live) :: after := fun _ => rfl
    dsimp only
    rw [Slot.append]
    dsimp only
    rw [hput, hset]
    rfl
  | throttle live =>
    simp only [hset]
    rfl
  | publish =>
    simp only [hset]
    rfl

/-- A live callback with nothing between its steps. -/
theorem runsBy_handleLiveCandle {before after : List (Option LivePc)} {s : Threads} {live : LiveCandle}
    (hcallbacks : s.callbacks = before ++ some (.begin_ live) :: after)
    (hfree : s.pub.Free (.live before.length)) (widened : Bool) :
    ∃ t, RunsBy (Threads.step sort cfg) (IsLive before.length) s t ∧
      t.callbacks = before ++ none :: after ∧
      t.sequential widened = handleLiveCandle (s.sequential widened) live := by
  have hput : (liveSlot before after).put (some (.begin_ live)) s = s := by
    simp only [liveSlot, ← hcallbacks]
  have hlive : IsLive before.length (.live before.length 0) := rfl
  have hbegin := liveStep_put sort cfg before after (.begin_ live) s 0
  rw [hput] at hbegin
  unfold handleLiveCandle
  by_cases hr : s.running = true
  swap
  · dsimp only at hbegin
    rw [if_neg hr] at hbegin
    refine ⟨_, .single hlive hbegin, rfl, ?_⟩
    exact (if_pos (by simp [Threads.sequential, hr])).symm
  dsimp only at hbegin
  rw [if_pos hr] at hbegin
  have happend := RunsBy.head hlive hbegin
    (.single hlive (liveStep_put sort cfg before after (.append live) s 0))
  have hthrottle := liveStep_put sort cfg before after (.throttle live) (s.append live.candle).2 0
  rw [if_neg (by simp [Threads.sequential, hr])]
  dsimp only at hthrottle
  split at hthrottle
  · exact ⟨_, happend.trans (.single hlive hthrottle), rfl, rfl⟩
  · obtain ⟨s₁, log, hcall, hrun⟩ := runsBy_publish (liveSlot before after) hlive
      (fun s => liveStep_put sort cfg before after .publish s 0)
      (s := { (s.append live.candle).2 with lastLivePublish := some 0 })
      ⟨hfree.calls, hfree.holder⟩ (live.isFinal && live.candle.isClosed)
    exact ⟨_, happend.trans (.head hlive (hthrottle.trans hcall) hrun), rfl, rfl⟩

end

end TCV.App
