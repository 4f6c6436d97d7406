import TradingChartViewer.App.Completeness
import TradingChartViewer.App.Feeds
import TradingChartViewer.Exchange.FetchRange
import TradingChartViewer.Lib.Run
import TradingChartViewer.Storage.Restart

/-!
# Closed candles are final

The repository between an exchange whose candles change until they end, the
pages and live messages of that exchange, and restarts at any point. The events
are single calls, so that every interleaving of the threads is a run.

* `Exchange`, `System`, `System.step`: that system;
* `backfillBody_events`, `requestBackfillOlder_events`, `handleLiveCandle_events`:
  what the orchestrator does are runs of it;
* `System.Timely`: no candle is handed over as closed before it has ended, and
  none after an open one that lacks its final values;
* `System.Final`: the invariant; `closed_is_final`: it holds along timely runs.
-/

namespace TCV.App

open TCV.Domain TCV.Storage TCV.Exchange Lib.Tape Lib.Run

/-! ## The exchange -/

/-- The candle of an open time as the exchange shows it at a moment. It is fixed
once it has ended. -/
structure Exchange (I : Int) where
  quote : Int → Int → Candle
  openTime : ∀ t now, (quote t now).openTime = t
  closeTime : ∀ t now, (quote t now).closeTime = t + I - 1
  trades : ∀ t now, 0 ≤ (quote t now).trades ∧ (quote t now).trades < 2 ^ 31
  fixed : ∀ t now, t + I ≤ now → quote t now = quote t (t + I)

/-- The final candle. -/
def Exchange.final {I : Int} (x : Exchange I) (t : Int) : Candle := (x.quote t (t + I)).sealed

/-- The candle of a live message. -/
def Exchange.live {I : Int} (x : Exchange I) (t now : Int) (isFinal : Bool) : LiveCandle :=
  { candle := { x.quote t now with isClosed := isFinal }, isFinal := isFinal }

/-! ## The system -/

/-- The repository, the clock, and the candles of pages that some thread has
fetched, each with the time of its request. -/
structure System where
  repo : Repository
  now : Int := 0
  pages : List (Int × Candle) := []

inductive Event
  /-- Time passes. -/
  | tick (ms : Nat)
  /-- A page is fetched with the candle of an open time. -/
  | fetch (openTime : Int)
  /-- A thread hands a fetched candle to the repository. -/
  | append (requestTime : Int) (candle : Candle)
  /-- The live stream sends an update, the final one after the candle's end. -/
  | live (openTime : Int) (isFinal : Bool)
  /-- The process ends, and another one opens its file. -/
  | restart

section Step

variable {I : Int} (x : Exchange I) (sort : StdSort) (symbol : List Char) (interval : Interval)

def System.step [TimeUtils] (s : System) : Event → Option System
  | .tick ms => some { s with now := s.now + ms }
  | .fetch t =>
    if I ∣ t ∧ t ≤ s.now then
      match decodeEntry I (kline (x.quote t s.now)) with
      | some (some candle) => some { s with pages := (s.now, candle) :: s.pages }
      | _ => some s
    else none
  | .append requestTime candle =>
    if (requestTime, candle) ∈ s.pages then
      some { s with repo := (s.repo.appendOrReplace candle).2 }
    else none
  | .live t isFinal =>
    if I ∣ t ∧ t ≤ s.now ∧ (isFinal = true → t + I ≤ s.now) then
      some { s with repo := (s.repo.appendOrReplace (x.live t s.now isFinal).candle).2 }
    else none
  | .restart =>
    some { s with repo := .construct sort s.repo.file symbol interval, pages := [] }

/-- An open last candle right before `t` has its final values. -/
def System.Kept (s : System) (t : Int) : Prop :=
  ∀ last ∈ s.repo.candles.getLast?, last.isClosed = false → last.openTime + I = t →
    last.sealed = x.final last.openTime

/-- A candle of a page had ended when the page was requested, and no candle
closes an open one that lacks its final values. -/
def System.Timely (s : System) : Event → Prop
  | .append requestTime candle => candle.openTime + I ≤ requestTime ∧ s.Kept x candle.openTime
  | .live t _ => s.Kept x t
  | _ => True

instance (s : System) (t : Int) : Decidable (s.Kept x t) :=
  inferInstanceAs (Decidable (∀ last ∈ s.repo.candles.getLast?, last.isClosed = false →
    last.openTime + I = t → last.sealed = x.final last.openTime))

instance (s : System) : (e : Event) → Decidable (s.Timely x e)
  | .append requestTime candle => inferInstanceAs
      (Decidable (candle.openTime + I ≤ requestTime ∧ s.Kept x candle.openTime))
  | .live t _ => inferInstanceAs (Decidable (s.Kept x t))
  | .tick _ | .fetch _ | .restart => .isTrue trivial

/-- The system on an empty file. -/
def System.start : System where
  repo := .construct sort {} symbol interval

end Step

/-! ## The orchestrator's runs -/

section Runs

variable [TimeUtils] {I : Int} {x : Exchange I} {sort : StdSort} {symbol : List Char}
  {interval : Interval}
  {market : Market} {s : System} {ds : List Candle}

/-- The source answers with decoded rows of the exchange as of `now`. -/
def Exchange.Shows (x : Exchange I) (now : Int) (market : Market) : Prop :=
  ∀ range limit, ∀ c ∈ market range limit,
    ∃ t, I ∣ t ∧ t ≤ now ∧ decodeEntry I (kline (x.quote t now)) = some (some c)

/-- Candles the exchange shows, handed over in turn. -/
theorem appends_events (x : Exchange I) (sort : StdSort) (symbol : List Char) (interval : Interval)
    (hds : ∀ c ∈ ds, ∃ t, I ∣ t ∧ t ≤ s.now ∧
      decodeEntry I (kline (x.quote t s.now)) = some (some c)) :
    ∃ events s', run (System.step x sort symbol interval) s events = some s' ∧
      s'.repo = s.repo.appends ds ∧ s'.now = s.now := by
  induction ds generalizing s with
  | nil => exact ⟨[], s, rfl, rfl, rfl⟩
  | cons c cs ih =>
    obtain ⟨t, hd, hle, hrow⟩ := hds c List.mem_cons_self
    obtain ⟨events, s', hrun, hrepo, hnow⟩ := ih (s := { s with
        repo := (s.repo.appendOrReplace c).2, pages := (s.now, c) :: s.pages })
      fun d hd => hds d (List.mem_cons_of_mem _ hd)
    refine ⟨.fetch t :: .append s.now c :: events, s', ?_, hrepo, hnow⟩
    have hfetch : System.step x sort symbol interval s (.fetch t) =
        some { s with pages := (s.now, c) :: s.pages } := by
      simp only [System.step, hd, hle, and_self, if_true, hrow]
    have happend : System.step x sort symbol interval { s with pages := (s.now, c) :: s.pages }
        (.append s.now c) = some { s with
          repo := (s.repo.appendOrReplace c).2, pages := (s.now, c) :: s.pages } := by
      simp only [System.step, List.mem_cons_self, if_true]
    rw [run_cons, hfetch, Option.bind_some, run_cons, happend, Option.bind_some, hrun]

/-- An iteration of the paging loop is a run. -/
theorem backfillBody_events {cfg : SyncConfig} {w : BackfillWindow} {b t : BackfillState}
    (hshows : x.Shows s.now market) (hrepo : s.repo = b.sync.repo)
    (h : backfillBody cfg market w b = .inl t ∨ backfillBody cfg market w b = .inr t) :
    ∃ events s', run (System.step x sort symbol interval) s events = some s' ∧
      s'.repo = t.sync.repo ∧ s'.now = s.now := by
  have stay : t.sync.repo = b.sync.repo → ∃ events s',
      run (System.step x sort symbol interval) s events = some s' ∧ s'.repo = t.sync.repo ∧
        s'.now = s.now := fun e => ⟨[], s, rfl, hrepo.trans e.symm, rfl⟩
  have page : ∀ range, t = afterPage cfg market w b (market range (batchLimit cfg)) →
      ∃ events s', run (System.step x sort symbol interval) s events = some s' ∧
        s'.repo = t.sync.repo ∧ s'.now = s.now := by
    rintro range rfl
    obtain ⟨ds, e, hds⟩ := appendPage_run cfg market b.sync (market range (batchLimit cfg))
    have hshown : ∀ c ∈ ds, ∃ t, I ∣ t ∧ t ≤ s.now ∧
        decodeEntry I (kline (x.quote t s.now)) = some (some c) := fun c hc => by
      rcases hds c hc with hc | ⟨range, limit, hc⟩
      · exact hshows _ _ c hc
      · exact hshows _ _ c hc
    have key := appends_events x sort symbol interval hshown
    rw [hrepo] at key
    rwa [show (afterPage cfg market w b (market range (batchLimit cfg))).sync = _ from e]
  rcases h with h | h
  · obtain ⟨-, range, -, ⟨-, rfl⟩ | ⟨-, ht, -⟩⟩ := backfillBody_next h
    · exact stay rfl
    · exact page range ht
  · cases hrun : b.sync.running with
    | true =>
      obtain rfl | ⟨range, -, -, ht⟩ := backfillBody_done hrun h
      · exact stay rfl
      · exact page range ht
    | false =>
      rw [backfillBody, hrun, if_pos (by decide)] at h
      exact stay (congrArg (fun b => b.sync.repo) (Sum.inr.inj h)).symm

/-- A paging request is a run. -/
theorem requestBackfillOlder_events (cfg : SyncConfig) {o : Orchestrator} (startOpen : Int) (n : Nat)
    (hshows : x.Shows s.now market) (hrepo : s.repo = o.repo) :
    ∃ events s', run (System.step x sort symbol interval) s events = some s' ∧
      s'.repo = (requestBackfillOlder sort cfg market o startOpen n).repo ∧ s'.now = s.now := by
  obtain ⟨ds, e, hds⟩ := requestBackfillOlder_run sort cfg market o startOpen n
  rw [e, ← hrepo]
  apply appends_events x sort symbol interval
  intro c hc
  obtain ⟨range, limit, hc⟩ := hds c hc
  exact hshows range limit c hc

/-- A live message is one event. -/
theorem handleLiveCandle_events {o : Orchestrator} (hrun : o.running = true)
    (hrepo : s.repo = o.repo) {t : Int} {isFinal : Bool} (hd : I ∣ t) (hle : t ≤ s.now)
    (hfinal : isFinal = true → t + I ≤ s.now) :
    run (System.step x sort symbol interval) s [.live t isFinal] =
      some { s with repo := (handleLiveCandle o (x.live t s.now isFinal)).repo } := by
  rw [handleLiveCandle_eq hrun, ← hrepo, run_cons, System.step, if_pos ⟨hd, hle, hfinal⟩]
  rfl

end Runs

/-! ## The invariant -/

/-- The closed candles are final, and the pages hold what the exchange showed at
their request. -/
structure System.Final [TimeUtils] {interval : Interval} (x : Exchange interval.ms)
    (symbol : List Char) (s : System) : Prop where
  synced : s.repo.Synced symbol interval
  closed : ∀ c ∈ closedOf s.repo.candles, c = x.final c.openTime
  pages : ∀ p ∈ s.pages, interval.ms ∣ p.2.openTime ∧ p.2 = (x.quote p.2.openTime p.1).sealed

section Invariant

variable [TimeUtils] {interval : Interval} {x : Exchange interval.ms} {symbol : List Char}
  {sort : StdSort}
  {s t : System}

/-- A candle of the exchange, final if it is closed, and not right after an open
candle that lacks its final values. -/
theorem closed_appendOrReplace (h : s.Final x symbol) {c : Candle}
    (hd : interval.ms ∣ c.openTime) (hclose : c.closeTime = c.openTime + interval.ms - 1)
    (hfinal : c.isClosed = true → c = x.final c.openTime) (hkept : s.Kept x c.openTime) :
    ∀ d ∈ closedOf (s.repo.appendOrReplace c).2.candles, d = x.final d.openTime := by
  have hs := h.synced.toSound
  have hI := h.synced.interval_pos
  have hms := h.synced.intervalMs_eq
  unfold Repository.appendOrReplace
  cases ha : s.repo.accepts c with
  | false =>
    rw [appendOrReplaceLocked_of_not_accepts ha]
    exact h.closed
  | true =>
    have hpos := ((accepts_iff hI).mp ha).1
    have hn : s.repo.normalizeCandle c = c := by
      rw [normalizeCandle_openTime_of_dvd hI (hms ▸ hd)] at hpos
      rw [Repository.normalizeCandle, if_pos hI]
      dsimp only
      rw [hms, alignDownMs_of_dvd hd, if_pos hpos, ← hclose]
    rw [appendOrReplaceLocked_of_accepts hs ha, hn]
    intro d hmem
    rw [show closedOf _ = _ from closedOf_offer hI h.synced.ok c] at hmem
    rcases mem_foldl_store hmem with hmem | hmem
    · exact h.closed d hmem
    · obtain ⟨rfl, hc⟩ | ⟨last, hl, hopen, hnext, rfl⟩ := mem_closings hI hmem
      · exact hfinal hc
      · exact hkept last hl hopen (by rw [← hms]; exact hnext.symm)

variable (hM : kMillisPerMinute ∣ interval.ms) (hlabel : (intervalLabel interval).length ≤ 7)

include hM hlabel

/-- Every timely event keeps the invariant. -/
theorem System.Final.step (h : s.Final x symbol) {e : Event} (he : s.Timely x e)
    (hstep : System.step x sort symbol interval s e = some t) : t.Final x symbol := by
  cases e with
  | tick ms =>
    obtain rfl := Option.some.inj hstep
    exact ⟨h.synced, h.closed, h.pages⟩
  | fetch o =>
    rw [System.step] at hstep
    split at hstep
    · rename_i ho
      rw [decodeEntry_kline_eq (by rw [x.openTime]; exact ho.1)
        (by rw [x.openTime, x.closeTime]) (x.trades _ _)] at hstep
      by_cases hv : 0 < (x.quote o s.now).openTime ∧ validateCandle (x.quote o s.now) = true
      · rw [if_pos hv] at hstep
        obtain rfl := Option.some.inj hstep
        refine ⟨h.synced, h.closed, fun p hp => ?_⟩
        rcases List.mem_cons.mp hp with rfl | hp
        · have ht : (x.quote o s.now).sealed.openTime = o := x.openTime o s.now
          dsimp only
          rw [ht]
          exact ⟨ho.1, rfl⟩
        · exact h.pages p hp
      · rw [if_neg hv] at hstep
        obtain rfl := Option.some.inj hstep
        exact h
    · cases hstep
  | append τ c =>
    rw [System.step] at hstep
    split at hstep
    · rename_i hmem
      obtain rfl := Option.some.inj hstep
      obtain ⟨hd, hc⟩ := h.pages (τ, c) hmem
      obtain ⟨hended, hkept⟩ := he
      -- The candle had ended, so that its values are final.
      have hfinal : c = x.final c.openTime := by
        dsimp only at hc
        rw [x.fixed _ _ hended] at hc
        exact hc
      have hclose : c.closeTime = c.openTime + interval.ms - 1 := by
        rw [hfinal]
        exact (x.closeTime _ _).trans (by rw [← hfinal])
      have htrades : 0 ≤ c.trades := by
        rw [hfinal]
        exact (x.trades _ _).1
      exact ⟨h.synced.appendOrReplace hM htrades,
        closed_appendOrReplace h hd hclose (fun _ => hfinal) hkept, h.pages⟩
    · cases hstep
  | live o isFinal =>
    rw [System.step] at hstep
    split at hstep
    · rename_i ho
      obtain rfl := Option.some.inj hstep
      have ht : (x.live o s.now isFinal).candle.openTime = o := x.openTime o s.now
      refine ⟨h.synced.appendOrReplace hM (x.trades _ _).1, closed_appendOrReplace h
        (by rw [ht]; exact ho.1) ?_ (fun hc => ?_) (by rw [ht]; exact he), h.pages⟩
      · rw [ht]
        exact x.closeTime o s.now
      · have hc : isFinal = true := hc
        subst hc
        rw [ht, Exchange.final, ← x.fixed o s.now (ho.2.2 rfl)]
        rfl
    · cases hstep
  | restart =>
    obtain rfl := Option.some.inj hstep
    refine ⟨h.synced.restart hM hlabel sort, fun c hc => ?_, fun p hp => absurd hp List.not_mem_nil⟩
    dsimp only at hc
    rw [h.synced.reload hM hlabel sort] at hc
    exact h.closed c (mem_of_mem_closedOf hc)

end Invariant

theorem start_final [TimeUtils] (sort : StdSort) (symbol : List Char) {interval : Interval}
    (hI : 0 < interval.ms) (x : Exchange interval.ms) :
    (System.start sort symbol interval).Final x symbol := by
  refine ⟨construct_synced sort rfl rfl symbol hI, fun c hc => ?_, fun p hp => absurd hp List.not_mem_nil⟩
  rw [System.start, construct_of_records_nil sort rfl symbol hI] at hc
  cases hc

/-- In every state of a timely run every closed candle is the exchange's final
one, and so is every record, as the file keeps it. -/
theorem closed_is_final [TimeUtils] (sort : StdSort) (symbol : List Char) (interval : Interval)
    (hI : 0 < interval.ms) (hM : kMillisPerMinute ∣ interval.ms)
    (hlabel : (intervalLabel interval).length ≤ 7) (x : Exchange interval.ms) (events : List Event)
    (htimely : Along (System.step x sort symbol interval) (System.Timely x)
      (System.start sort symbol interval) events) (s : System)
    (hrun : run (System.step x sort symbol interval) (System.start sort symbol interval) events =
      some s) :
    (∀ c ∈ s.repo.candles, c.isClosed = true → c = x.final c.openTime) ∧
      ∀ p ∈ s.repo.file.records, p = s.repo.stored (x.final p.openTime) := by
  have hstep : ∀ s e t, System.Final x symbol s → System.Timely x s e →
      System.step x sort symbol interval s e = some t → System.Final x symbol t :=
    fun _ _ _ h he hstep => h.step hM hlabel he hstep
  have h := inv_of_along hstep (start_final sort symbol hI x) htimely hrun
  refine ⟨fun c hc hclosed => h.closed c (List.mem_filter.mpr ⟨hc, hclosed⟩), fun p hp => ?_⟩
  rw [h.synced.records] at hp
  obtain ⟨c, hc, rfl⟩ := List.mem_map.mp hp
  rw [stored_openTime (h.synced.intervalMs_eq ▸ hM) (h.synced.onGrid_candle (mem_of_mem_closedOf hc)),
    ← h.closed c hc]

/-- An exchange whose candles close at 2 after they stood at 1. -/
def movingExchange : Exchange 60000 where
  quote t now := ⟨t, t + 60000 - 1, 1, 2, 1, if now < t + 60000 then 1 else 2, 0, 0, 0, false⟩
  openTime _ _ := rfl
  closeTime _ _ := rfl
  trades _ _ := by simp
  fixed t now h := by simp [Int.not_lt.mpr h]

/-- What a page shows half a minute into the candle at 60000. -/
def formingPage : List Candle := [(movingExchange.quote 60000 90000).sealed]

/-- The backfill of that page keeps the forming candle as a closed one. -/
theorem not_final_forming :
    movingExchange.Shows 90000 (historyMarket formingPage) ∧
      ∃ t, Lib.Loop.Ends (backfillBody {} (historyMarket formingPage)
          (backfillWindow {} unfilled.repo 90000).1) (loopStart {} unfilled 90000) t ∧
        ¬ ∀ c ∈ t.sync.repo.candles, c.isClosed = true → c = movingExchange.final c.openTime := by
  refine ⟨fun range limit c hc => ⟨60000, by decide, by decide, ?_⟩, ?_⟩
  · rw [List.mem_singleton.mp (Lib.Page.mem_of_mem_page hc).1]
    rw [decodeEntry_kline_eq (by decide) (by decide) (by decide), if_pos (by decide +kernel)]
  · have hrun : (Lib.Loop.runFor (backfillBody {} (historyMarket formingPage)
        (backfillWindow {} unfilled.repo 90000).1) 1 (loopStart {} unfilled 90000)).map (fun t =>
          decide (∀ c ∈ t.sync.repo.candles, c.isClosed = true →
            c = movingExchange.final c.openTime)) = some false := by decide +kernel
    obtain ⟨t, ht, hfinal⟩ := Option.map_eq_some_iff.mp hrun
    exact ⟨t, ⟨1, ht⟩, of_decide_eq_false hfinal⟩

/-- A minute that is fetched after its end, then a live one, and a restart. -/
def endedRun : List Event :=
  [.tick 130000, .fetch 60000, .append 130000 (movingExchange.final 60000), .live 120000 false,
    .tick 60000, .live 120000 true, .restart]

theorem closed_is_final_ended :
    ∃ s, run (System.step movingExchange .insertion ['B'] ⟨60000⟩)
        (System.start .insertion ['B'] ⟨60000⟩) endedRun = some s ∧
      s.repo.candles.map Candle.openTime = [60000, 120000] ∧
      (∀ c ∈ s.repo.candles, c.isClosed = true → c = movingExchange.final c.openTime) ∧
      ∀ p ∈ s.repo.file.records, p = s.repo.stored (movingExchange.final p.openTime) := by
  have hrun : (run (System.step movingExchange .insertion ['B'] ⟨60000⟩)
      (System.start .insertion ['B'] ⟨60000⟩) endedRun).map
        (fun s => s.repo.candles.map Candle.openTime) = some [60000, 120000] := by decide +kernel
  have htimely : Along (System.step movingExchange .insertion ['B'] ⟨60000⟩)
      (System.Timely movingExchange) (System.start .insertion ['B'] ⟨60000⟩) endedRun := by
    decide +kernel
  obtain ⟨s, hs, hcandles⟩ := Option.map_eq_some_iff.mp hrun
  exact ⟨s, hs, hcandles, closed_is_final .insertion ['B'] ⟨60000⟩ (by decide) (by decide)
    (by decide) movingExchange endedRun htimely s hs⟩

end TCV.App
