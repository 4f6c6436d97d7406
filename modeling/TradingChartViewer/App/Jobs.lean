import TradingChartViewer.App.Appending
import TradingChartViewer.App.Threads

/-!
# Jobs that run alone

What a thread of the orchestrator does to a page, and in `publishSnapshot`, when
no other thread comes between its steps.

* `Threads.sequential`: what the orchestrator of one thread sees of the threads;
* `jobBody`, `ends_job`: a job as a loop; it is `appendPage`;
* `runsBy_publishStep`: a call of `publishSnapshot` only calls the cache and the
  bus;
* `Slot`: where a thread keeps what it does next; `runsBy_publish` and
  `runsBy_page` are the two for any thread.
-/

namespace TCV.App

open TCV.Domain TCV.Storage Lib.Loop Lib.Run

/-- What the orchestrator of one thread sees. `widenedOnce_` is a variable of the
worker. -/
def Threads.sequential (s : Threads) (widenedOnce : Bool) : Orchestrator :=
  { repo := s.pub.repo
    running := s.running
    backfilling := s.backfilling
    pagingBackfill := s.pagingBackfill
    repairing := s.repairing
    widenedOnce := widenedOnce }

/-- The state after some appends. -/
def Threads.stored (s : Threads) (repo : Repository) (log : List Output) : Threads :=
  { s with pub := { s.pub with repo := repo, log := log } }

/-- `repairing_` is set for the time of the repair. -/
theorem stored_repaired {s : Threads} (h : s.repairing = false) (repo : Repository)
    (log : List Output) :
    ({ ({ s with repairing := true } : Threads).stored repo log with repairing := false } :
      Threads) = s.stored repo log := by
  unfold Threads.stored
  rw [h]

/-! ## Jobs -/

section

variable [TimeUtils] {cfg : SyncConfig} {market : Market}

/-- What the fetch of a job returns. -/
def Job.answer (cfg : SyncConfig) (market : Market) : Job → List Candle
  | .fetchMissing gap _ =>
    market ⟨gap.expectedFrom, gap.expectedTo - 1⟩ (repairLimit gap (clampIntervalMs cfg))
  | _ => []

/-- A job step by step, with its last step. -/
def jobBody (cfg : SyncConfig) (market : Market) (p : Threads × Job) :
    (Threads × Job) ⊕ (Threads × Job) :=
  match p.1.jobStep cfg (p.2.answer cfg market) p.2 with
  | (s, some job) => .inl (s, job)
  | (s, none) => .inr (s, p.2)

theorem append_stored (s : Threads) (candle : Candle) :
    s.append candle = ((s.pub.repo.appendOrReplace candle).1,
      s.stored (s.pub.repo.appendOrReplace candle).2
        (s.pub.log ++ [.appendOrReplace candle])) := rfl

theorem jobBody_next {s s' : Threads} {job job' : Job}
    (h : s.jobStep cfg (job.answer cfg market) job = (s', some job')) :
    jobBody cfg market (s, job) = .inl (s', job') := by
  simp only [jobBody, h]

theorem jobBody_done {s s' : Threads} {job : Job}
    (h : s.jobStep cfg (job.answer cfg market) job = (s', none)) :
    jobBody cfg market (s, job) = .inr (s', job) := by
  simp only [jobBody, h]

variable (cfg market)

/-- The candles of a page, up to a `Gap`. -/
theorem ends_page (batch rest : List Candle) (s : Threads) :
    ∃ log, match (appendUntilGap s.pub.repo rest).1 with
      | none => Ends (jobBody cfg market) (s, .page batch rest)
          (s.stored (appendUntilGap s.pub.repo rest).2 log, .page batch [])
      | some gap => Reaches (jobBody cfg market) (s, .page batch rest)
          (s.stored (appendUntilGap s.pub.repo rest).2 log, .repairGap gap batch) := by
  induction rest generalizing s with
  | nil => exact ⟨s.pub.log, ends_of_done rfl⟩
  | cons candle rest ih =>
    rw [appendUntilGap_cons]
    by_cases hgap : (s.pub.repo.appendOrReplace candle).1.state = .gap
    · rw [if_pos hgap]
      exact ⟨_, .single (jobBody_next (if_pos hgap))⟩
    · rw [if_neg hgap]
      have hb : jobBody cfg market (s, .page batch (candle :: rest)) =
          .inl ((s.append candle).2, .page batch rest) := jobBody_next (if_neg hgap)
      obtain ⟨log, h⟩ := ih (s.append candle).2
      refine ⟨log, ?_⟩
      rw [append_stored] at h
      change match (appendUntilGap (s.pub.repo.appendOrReplace candle).2 rest).1 with
        | none => Ends (jobBody cfg market) (_, .page batch rest) _
        | some gap => Reaches (jobBody cfg market) (_, .page batch rest) _ at h
      split at h
      · exact (ends_next_iff hb).mpr h
      · exact .head hb h

/-- The candles that were missing, up to another `Gap`. -/
theorem reaches_missing (gap : AppendResult) (batch rest : List Candle) (s : Threads) :
    ∃ log, Reaches (jobBody cfg market) (s, .missing gap batch rest)
      (s.stored (appendUntilGap s.pub.repo rest).2 log, .retry (batch.filter fun candle =>
        gap.expectedTo ≤ alignDownMs candle.openTime (clampIntervalMs cfg))) := by
  induction rest generalizing s with
  | nil => exact ⟨s.pub.log, .single (jobBody_next rfl)⟩
  | cons candle rest ih =>
    rw [appendUntilGap_cons]
    have hb : jobBody cfg market (s, .missing gap batch (candle :: rest)) = .inl
        ((s.append candle).2, .missing gap batch
          (if (s.pub.repo.appendOrReplace candle).1.state = .gap then [] else rest)) :=
      jobBody_next rfl
    by_cases hgap : (s.pub.repo.appendOrReplace candle).1.state = .gap
    · rw [if_pos hgap] at hb ⊢
      exact ⟨_, .head hb (.single (jobBody_next rfl))⟩
    · rw [if_neg hgap] at hb ⊢
      obtain ⟨log, h⟩ := ih (s.append candle).2
      exact ⟨log, .head hb h⟩

/-- The candles after the gap once more. -/
theorem ends_retry (rest : List Candle) (s : Threads) :
    ∃ log rest', Ends (jobBody cfg market) (s, .retry rest)
      ({ s.stored (appendUntilGap s.pub.repo rest).2 log with repairing := false },
        .retry rest') := by
  induction rest generalizing s with
  | nil => exact ⟨s.pub.log, [], ends_of_done (jobBody_done rfl)⟩
  | cons candle rest ih =>
    rw [appendUntilGap_cons]
    by_cases hgap : (s.pub.repo.appendOrReplace candle).1.state = .gap
    · rw [if_pos hgap]
      exact ⟨_, _, ends_of_done (jobBody_done (if_pos hgap))⟩
    · rw [if_neg hgap]
      have hb : jobBody cfg market (s, .retry (candle :: rest)) =
          .inl ((s.append candle).2, .retry rest) := jobBody_next (if_neg hgap)
      obtain ⟨log, rest', h⟩ := ih (s.append candle).2
      exact ⟨log, rest', (ends_next_iff hb).mpr h⟩

/-- The repair of a gap. -/
theorem ends_repairGap (gap : AppendResult) (batch : List Candle) (s : Threads) (widened : Bool) :
    ∃ log job, Ends (jobBody cfg market) (s, .repairGap gap batch)
      (s.stored (repairGap cfg market (s.sequential widened) gap batch).repo log, job) ∧
      job.isPage = false := by
  by_cases hr : s.repairing = true
  · rw [repairGap_of_repairing hr]
    exact ⟨s.pub.log, _, ends_of_done (jobBody_done (if_pos hr)), rfl⟩
  have hI : ¬ clampIntervalMs cfg ≤ 0 := not_le.mpr (clampIntervalMs_pos cfg)
  by_cases hgap : gap.expectedTo ≤ gap.expectedFrom
  · have e : repairGap cfg market (s.sequential widened) gap batch = s.sequential widened :=
      (if_neg hr).trans ((if_neg hI).trans (if_pos hgap))
    rw [e]
    exact ⟨s.pub.log, _, ends_of_done (jobBody_done
      ((if_neg hr).trans ((if_neg hI).trans (if_pos hgap)))), rfl⟩
  have hsame : s.repairing = false := Bool.eq_false_iff.mpr hr
  rw [repairGap_eq (s := s.sequential widened) hsame (not_le.mp hgap)]
  obtain ⟨missing, hmissing⟩ : ∃ missing, missing =
    market ⟨gap.expectedFrom, gap.expectedTo - 1⟩ (repairLimit gap (clampIntervalMs cfg)) := ⟨_, rfl⟩
  obtain ⟨retry, hretry⟩ : ∃ retry, retry = batch.filter fun candle =>
    gap.expectedTo ≤ alignDownMs candle.openTime (clampIntervalMs cfg) := ⟨_, rfl⟩
  rw [← hmissing, ← hretry]
  have hb : jobBody cfg market (s, .repairGap gap batch) =
      .inl ({ s with repairing := true }, .fetchMissing gap batch) :=
    jobBody_next ((if_neg hr).trans ((if_neg hI).trans (if_neg hgap)))
  have hb' : jobBody cfg market ({ s with repairing := true }, .fetchMissing gap batch) =
      .inl ({ s with repairing := true }, .missing gap batch missing) := by
    rw [hmissing]
    exact jobBody_next rfl
  obtain ⟨log, h₁⟩ := reaches_missing cfg market gap batch missing { s with repairing := true }
  obtain ⟨log', rest, h₂⟩ := ends_retry cfg market retry
    (Threads.stored { s with repairing := true } (appendUntilGap s.pub.repo missing).2 log)
  rw [← hretry] at h₁
  refine ⟨log', .retry rest, ?_, rfl⟩
  rw [ends_next_iff hb, ends_next_iff hb', Reaches.ends_iff h₁, ← stored_repaired hsame]
  exact h₂

/-- A page changes only the repository. -/
theorem appendPage_eq_repo (o : Orchestrator) (batch : List Candle) :
    (appendPage cfg market o batch).2 =
      { o with repo := (appendPage cfg market o batch).2.repo } := by
  obtain ⟨ds, e, -⟩ := appendPage_run cfg market o batch
  rw [e]

/-- A page with its repair, run by one thread. -/
theorem ends_job (batch : List Candle) (s : Threads) (widened : Bool) :
    ∃ log job, Ends (jobBody cfg market) (s, .page batch batch)
      (s.stored (appendPage cfg market (s.sequential widened) batch).2.repo log, job) ∧
      (!job.isPage) = (appendPage cfg market (s.sequential widened) batch).1 := by
  obtain ⟨log, h⟩ := ends_page cfg market batch batch s
  cases hgap : (appendUntilGap s.pub.repo batch).1 with
  | none =>
    rw [hgap] at h
    rw [appendPage_of_none (s := s.sequential widened) hgap]
    exact ⟨log, _, h, rfl⟩
  | some gap =>
    rw [hgap] at h
    rw [appendPage_of_some (s := s.sequential widened) hgap]
    obtain ⟨log', job, hends, hjob⟩ := ends_repairGap cfg market gap batch
      (s.stored (appendUntilGap s.pub.repo batch).2 log) widened
    exact ⟨log', job, (Reaches.ends_iff h).mpr hends, by rw [hjob]; rfl⟩

end

/-! ## `publishSnapshot` -/

section

variable {t : ThreadId} {n : Nat}

/-- No call of `t` is under way, and the mutex is free. -/
structure Publishing.Free (pub : Publishing ThreadId) (t : ThreadId) : Prop where
  calls : pub.calls t = none
  holder : pub.holder = none

/-- The step of a call at a given place. -/
theorem publishStep_goto (pub : Publishing ThreadId) (lastClosed : Bool) (pc : PublishPc) :
    (pub.goto t (some (lastClosed, pc))).publishStep n t = match pc with
      | .lock => if pub.holder.isSome then none
        else some (({ pub with holder := some t } : Publishing ThreadId).goto t
          (some (lastClosed, .read)))
      | .read => some (pub.goto t (some (lastClosed, .update (pub.repo.getLatest n))))
      | .update series =>
        some ((pub.emit (.update series)).goto t (some (lastClosed, .announce series)))
      | .announce series =>
        some ((pub.emit (.publishSeriesUpdated (seriesUpdated lastClosed series))).goto t
          (some (lastClosed, .unlock)))
      | .unlock => some (({ pub with holder := none } : Publishing ThreadId).goto t none) := by
  unfold Publishing.publishStep
  rw [calls_goto_self]
  cases pc <;> simp [Publishing.goto, Publishing.emit]

/-- A call of `publishSnapshot` that nothing comes between. -/
theorem runsBy_publishStep {pub : Publishing ThreadId} (h : pub.Free t) (lastClosed : Bool) :
    ∃ log, RunsBy (fun pub (_ : Unit) => pub.publishStep n t) (fun _ => True)
      (pub.goto t (some (lastClosed, .lock))) { pub with log := log } := by
  obtain ⟨hcalls, hholder⟩ := h
  have hsame : Function.update pub.calls t none = pub.calls := by
    rw [← hcalls, Function.update_eq_self]
  have hend : ∀ log, ({ pub with holder := none, log := log } : Publishing ThreadId).goto t none =
      { pub with log := log } := fun log => by simp only [Publishing.goto, hsame, hholder]
  refine ⟨pub.log ++ [.update (pub.repo.getLatest n)] ++ [.publishSeriesUpdated
    (seriesUpdated lastClosed (pub.repo.getLatest n))], ?_⟩
  rw [← hend]
  refine .head (e := ()) trivial ((publishStep_goto ..).trans (if_neg (by simp [hholder]))) ?_
  refine .head (e := ()) trivial (publishStep_goto ..) ?_
  refine .head (e := ()) trivial (publishStep_goto ..) ?_
  refine .head (e := ()) trivial (publishStep_goto ..) ?_
  exact .single (e := ()) trivial (publishStep_goto ..)

end

/-! ## A thread -/

/-- Where the state keeps what a thread does next; jobs and `publishSnapshot` look
elsewhere. -/
structure Slot (Pc : Type) where
  put : Pc → Threads → Threads
  put_put : ∀ pc pc' s, put pc (put pc' s) = put pc s
  pub_put : ∀ pc s, (put pc s).pub = s.pub
  repairing_put : ∀ pc s, (put pc s).repairing = s.repairing
  put_pub : ∀ pc s pub, { put pc s with pub := pub } = put pc { s with pub := pub }
  put_repairing : ∀ pc s repairing,
    { put pc s with repairing := repairing } = put pc { s with repairing := repairing }

section

variable [TimeUtils] {Pc : Type} (slot : Slot Pc)

theorem Slot.append (pc : Pc) (s : Threads) (candle : Candle) :
    (slot.put pc s).append candle = ((s.append candle).1, slot.put pc (s.append candle).2) := by
  unfold Threads.append
  rw [slot.pub_put]
  exact congrArg _ (slot.put_pub ..)

/-- A job is the same in every thread. -/
theorem Slot.jobStep (pc : Pc) (cfg : SyncConfig) (fetched : List Candle) (s : Threads)
    (job : Job) :
    (slot.put pc s).jobStep cfg fetched job =
      (slot.put pc (s.jobStep cfg fetched job).1, (s.jobStep cfg fetched job).2) := by
  cases job with
  | page batch rest =>
    cases rest with
    | nil => rfl
    | cons candle rest =>
      unfold Threads.jobStep
      dsimp only
      rw [slot.append]
      dsimp only
      split <;> rfl
  | repairGap gap batch =>
    unfold Threads.jobStep
    dsimp only
    rw [slot.repairing_put]
    split_ifs
    · rfl
    · rfl
    · rfl
    · exact congrArg (·, _) (slot.put_repairing ..)
  | fetchMissing gap batch => rfl
  | missing gap batch rest =>
    cases rest with
    | nil => rfl
    | cons candle rest =>
      unfold Threads.jobStep
      dsimp only
      rw [slot.append]
  | retry rest =>
    cases rest with
    | nil => exact congrArg (·, _) (slot.put_repairing ..)
    | cons candle rest =>
      unfold Threads.jobStep
      dsimp only
      rw [slot.append]
      dsimp only
      split
      · exact congrArg (·, _) (slot.put_repairing ..)
      · rfl

-- A thread `t` that takes its steps by the events `E`.
variable {sort : StdSort} {cfg : ThreadsConfig} {E : ThreadEvent → Prop} {t : ThreadId}

/-- A thread calls `publishSnapshot` and comes back from it. -/
theorem runsBy_publish {publishing after : Pc} {e : ThreadEvent} (he : E e)
    (hstep : ∀ s, (slot.put publishing s).step sort cfg e =
      (slot.put publishing s).publishThen cfg t (slot.put after s))
    {s : Threads} (h : s.pub.Free t) (lastClosed : Bool) :
    ∃ s₁ log, (slot.put publishing s).callPublish cfg t lastClosed = some s₁ ∧
      RunsBy (Threads.step sort cfg) E s₁ (slot.put after (s.stored s.pub.repo log)) := by
  obtain ⟨log, es, -, hr⟩ := runsBy_publishStep (n := cfg.publishCandles) h lastClosed
  have hcall : (slot.put publishing s).callPublish cfg t lastClosed =
      some (slot.put publishing { s with pub := s.pub.goto t (some (lastClosed, .lock)) }) := by
    rw [Threads.callPublish, Publishing.step, slot.pub_put, h.calls, Option.isSome_none,
      if_neg Bool.false_ne_true]
    exact congrArg some (slot.put_pub ..)
  have hnext : ∀ {pub pub' : Publishing ThreadId},
      pub.publishStep cfg.publishCandles t = some pub' →
      (slot.put publishing { s with pub := pub }).step sort cfg e =
        some (slot.put publishing { s with pub := pub' }) := by
    intro pub pub' hs
    have hsome : (pub.calls t).isSome = true := by
      cases hc : pub.calls t with
      | none =>
        rw [Publishing.publishStep, hc] at hs
        cases hs
      | some call => rfl
    rw [hstep, Threads.publishThen, slot.pub_put, if_pos hsome, Publishing.step, hs]
    exact congrArg some (slot.put_pub ..)
  have hrun : ∀ (es : List Unit) {pub pub' : Publishing ThreadId},
      run (fun pub (_ : Unit) => pub.publishStep cfg.publishCandles t) pub es = some pub' →
      RunsBy (Threads.step sort cfg) E (slot.put publishing { s with pub := pub })
        (slot.put publishing { s with pub := pub' }) := by
    intro es pub pub' hr
    induction es generalizing pub with
    | nil => exact Option.some.inj hr ▸ .refl _
    | cons _ es ih =>
      rw [run_cons, Option.bind_eq_some_iff] at hr
      obtain ⟨pub₁, h₁, hr⟩ := hr
      exact .head he (hnext h₁) (ih hr)
  have hreturn : (slot.put publishing (s.stored s.pub.repo log)).step sort cfg e =
      some (slot.put after (s.stored s.pub.repo log)) := by
    rw [hstep, Threads.publishThen, slot.pub_put]
    exact if_neg (by simp [Threads.stored, h.calls])
  exact ⟨_, log, hcall, (hrun es hr).trans (.single he hreturn)⟩

/-- A thread appends a page, repairs its gap, and publishes. -/
theorem runsBy_page (append : Job → Pc) (publishing after : Bool → Pc)
    (hjob : ∀ s job fetched, ∃ e, E e ∧ (slot.put (append job) s).step sort cfg e =
      match (slot.put (append job) s).jobStep cfg.toSyncConfig fetched job with
      | (s, some job) => some (slot.put (append job) s)
      | (s, none) => (slot.put (publishing !job.isPage) s).callPublish cfg t true)
    (hpublish : ∀ gap, ∃ e, E e ∧ ∀ s, (slot.put (publishing gap) s).step sort cfg e =
      (slot.put (publishing gap) s).publishThen cfg t
        (slot.put (after gap) (slot.put (publishing gap) s)))
    (market : Market) {s : Threads} (h : s.pub.Free t) (batch : List Candle) (widened : Bool) :
    ∃ log, RunsBy (Threads.step sort cfg) E (slot.put (append (.page batch batch)) s)
      (slot.put (after (appendPage cfg.toSyncConfig market (s.sequential widened) batch).1)
        (s.stored (appendPage cfg.toSyncConfig market (s.sequential widened) batch).2.repo log)) := by
  obtain ⟨log, job, hends, hgap⟩ := ends_job cfg.toSyncConfig market batch s widened
  obtain ⟨⟨s', job'⟩, hreaches, hlast⟩ := hends.exit
  -- The steps of the job are steps of the thread.
  have hrun : ∃ x, RunsBy (Threads.step sort cfg) E (slot.put (append (.page batch batch)) s) x ∧
      x = slot.put (append job') s' := by
    refine RunsBy.of_reaches (R := fun p x => x = slot.put (append p.2) p.1) ?_ hreaches rfl
    rintro ⟨s, job⟩ ⟨s', job'⟩ _ rfl hb
    obtain ⟨e, he, hstep⟩ := hjob s job (job.answer cfg.toSyncConfig market)
    refine ⟨_, .single he (hstep.trans ?_), rfl⟩
    rw [slot.jobStep]
    unfold jobBody at hb
    split at hb
    · rename_i hj
      rw [hj]
      cases hb
      exact congrArg some (slot.put_put ..)
    · cases hb
  obtain ⟨_, hrun, rfl⟩ := hrun
  obtain ⟨e, he, hstep⟩ := hjob s' job' (job'.answer cfg.toSyncConfig market)
  unfold jobBody at hlast
  split at hlast
  · cases hlast
  rename_i s'' hj
  obtain ⟨rfl, rfl⟩ := Prod.mk.inj (Sum.inr.inj hlast)
  rw [slot.jobStep, hj] at hstep
  dsimp only at hstep
  rw [slot.put_put] at hstep
  obtain ⟨e', he', hstep'⟩ := hpublish (!job'.isPage)
  obtain ⟨s₁, log', hcall, hreturn⟩ := runsBy_publish slot he'
    (fun s => (hstep' s).trans (by rw [slot.put_put]))
    (s := s.stored (appendPage cfg.toSyncConfig market (s.sequential widened) batch).2.repo log)
    ⟨h.calls, h.holder⟩ true
  refine ⟨log', hrun.trans (.head he (hstep.trans hcall) ?_)⟩
  rw [← hgap]
  exact hreturn

end

end TCV.App
