import TradingChartViewer.App.Appending
import TradingChartViewer.Storage.Contiguous

/-!
# Live candles and older history

What the live handler and the paging thread can add to a repository: the one
candle right after the last, and nothing before the first.

* `lives`, `Caught`, `InStep`: runs of live candles, the candles that become
  the last one, and those that come in step;
* `caught_iff_inStep`, `lives_caught_iff`: the handler keeps up exactly with
  candles in step;
* `lives_of_late`: after one skipped candle it takes no more;
* `openTimes_prefix_appends`, `requestBackfillOlder_head`: paging never changes
  the first candle.
-/

namespace TCV.App

open TCV.Domain TCV.Storage Lib.Tape

/-! ## Live candles -/

/-- The orchestrator after a list of live candles. -/
def lives [TimeUtils] (s : Orchestrator) (cs : List LiveCandle) :
    Orchestrator := cs.foldl handleLiveCandle s

/-- A valid candle after the last one is the last one after the call, and the
series is contiguous. -/
def Caught [TimeUtils] (s : Orchestrator) (live : LiveCandle) : Prop :=
  s.repo.accepts live.candle = true →
    ∀ last ∈ s.repo.candles.getLast?,
      last.openTime < (s.repo.normalizeCandle live.candle).openTime →
      (∃ last' ∈ (handleLiveCandle s live).repo.candles.getLast?,
        last'.openTime = (s.repo.normalizeCandle live.candle).openTime) ∧
      (handleLiveCandle s live).repo.Contiguous

/-- A valid candle after the last one is the next one. -/
def InStep (s : Orchestrator) (live : LiveCandle) : Prop :=
  s.repo.accepts live.candle = true →
    ∀ last ∈ s.repo.candles.getLast?,
      last.openTime < (s.repo.normalizeCandle live.candle).openTime →
      (s.repo.normalizeCandle live.candle).openTime = last.openTime + s.repo.intervalMs

section Live

variable [TimeUtils] {s : Orchestrator} {live : LiveCandle}

theorem handleLiveCandle_eq (hrun : s.running = true) (live : LiveCandle) :
    handleLiveCandle s live = { s with repo := (s.repo.appendOrReplace live.candle).2 } := by
  rw [handleLiveCandle, hrun, if_neg (by decide)]

/-- A valid candle after the next one is refused. -/
theorem appendOrReplace_of_late {r : Repository} (hs : r.Sound) {c last : Candle}
    (ha : r.accepts c = true) (hl : r.candles.getLast? = some last)
    (hlate : last.openTime + r.intervalMs < (r.normalizeCandle c).openTime) :
    (r.appendOrReplace c).2.candles = r.candles := by
  unfold Repository.appendOrReplace
  rw [appendOrReplaceLocked_of_accepts hs ha]
  exact offer_gap ((place_eq_gap (C := candleCells) hs.interval_pos hl).mpr hlate)

theorem caught_iff_inStep (hrun : s.running = true) (hc : s.repo.Contiguous) (live : LiveCandle) :
    Caught s live ↔ InStep s live := by
  have hI := hc.interval_pos
  unfold Caught InStep
  rw [handleLiveCandle_eq hrun]
  refine forall_congr' fun ha => forall_congr' fun last => forall_congr' fun hl =>
    forall_congr' fun hlt => ?_
  have hl : s.repo.candles.getLast? = some last := hl
  constructor
  · rintro ⟨⟨last', hl', ht'⟩, -⟩
    by_contra hne
    -- A later candle leaves the last one as it is.
    have hd := (hc.onGrid last (List.mem_of_getLast? hl)).2.1
    have hle := Lib.Grid.add_le_of_lt hd (dvd_normalizeCandle hI live.candle) hlt
    dsimp only at hl'
    rw [appendOrReplace_of_late hc.toSound ha hl (by omega), hl] at hl'
    obtain rfl := Option.some.inj hl'
    omega
  · intro hnext
    refine ⟨?_, hc.appendOrReplace live.candle⟩
    have hm : s.repo.Moves live.candle := by
      refine ⟨ha, ?_⟩
      rw [tail_eq_some.mpr ⟨last, hl, rfl, rfl⟩]
      exact .inl hnext
    obtain ⟨last', hl', ht', -⟩ := tail_eq_some.mp (tail_of_moves hc.toSound hm)
    exact ⟨last', hl', ht'⟩

theorem lives_invariant (hrun : s.running = true) (hc : s.repo.Contiguous) (cs : List LiveCandle) :
    (lives s cs).running = true ∧ (lives s cs).repo.Contiguous := by
  induction cs generalizing s with
  | nil => exact ⟨hrun, hc⟩
  | cons live cs ih =>
    have e := handleLiveCandle_eq hrun live
    exact ih (by rw [e]; exact hrun) (by rw [e]; exact hc.appendOrReplace live.candle)

/-- In every run of live candles on a contiguous repository, the handler keeps
up at every step exactly if every candle comes in step. -/
theorem lives_caught_iff (hrun : s.running = true) (hc : s.repo.Contiguous)
    (cs : List LiveCandle) :
    (∀ pre live, pre ++ [live] <+: cs → Caught (lives s pre) live) ↔
      ∀ pre live, pre ++ [live] <+: cs → InStep (lives s pre) live := by
  refine forall_congr' fun pre => forall_congr' fun live => forall_congr' fun _ => ?_
  obtain ⟨hrun', hc'⟩ := lives_invariant hrun hc pre
  exact caught_iff_inStep hrun' hc' live

end Live

/-- A repository with the first minute, closed. -/
def firstMinute : Orchestrator where
  repo := (Repository.construct .insertion {} ['B'] ⟨60000⟩).calls .insertion
    [.appendOrReplace (flatCandle 60000 true)]
  running := true

theorem firstMinute_contiguous : firstMinute.repo.Contiguous :=
  ((construct_contiguous .insertion rfl ['B'] (by decide)).calls _ _).1

/-- The second minute comes in step. -/
theorem lives_caught_second :
    Caught (lives firstMinute []) ⟨flatCandle 120000 false, false⟩ := by
  refine (lives_caught_iff rfl firstMinute_contiguous [⟨flatCandle 120000 false, false⟩]).mpr ?_ []
    _ (List.prefix_append _ _)
  intro pre live hpre
  obtain ⟨rfl, rfl⟩ : pre = [] ∧ live = ⟨flatCandle 120000 false, false⟩ := by
    cases pre with
    | nil => simpa using hpre
    | cons a as => simpa using hpre.length_le
  unfold InStep
  decide +kernel

/-- The third minute, when the second was skipped, is not taken. -/
theorem not_caught_third : ¬ Caught firstMinute ⟨flatCandle 180000 false, false⟩ := by
  intro h
  have := (h (by decide +kernel) { flatCandle 60000 true with closeTime := 119999 }
    (by decide +kernel) (by decide +kernel)).1
  revert this
  decide +kernel

section Deaf

variable [TimeUtils] {s : Orchestrator}

/-- After one candle that skips the next one, no live candle gets in any more as
long as open times do not go back. -/
theorem lives_of_late (hrun : s.running = true) (hc : s.repo.Contiguous) {last : Candle}
    (hl : s.repo.candles.getLast? = some last) {t : Int}
    (hlate : last.openTime + s.repo.intervalMs < alignDownMs t s.repo.intervalMs)
    {cs : List LiveCandle} (hcs : ∀ live ∈ cs, t ≤ live.candle.openTime) :
    (lives s cs).repo.candles = s.repo.candles := by
  induction cs generalizing s with
  | nil => rfl
  | cons live cs ih =>
    have hI := hc.interval_pos
    have e := handleLiveCandle_eq hrun live
    have hc' := hc.appendOrReplace live.candle
    have hint : (s.repo.appendOrReplace live.candle).2.intervalMs = s.repo.intervalMs :=
      congrArg (·.2.2.1) (appendOrReplace_format hc.toSound live.candle)
    have hsame : (s.repo.appendOrReplace live.candle).2.candles = s.repo.candles := by
      cases ha : s.repo.accepts live.candle with
      | false => rw [Repository.appendOrReplace, appendOrReplaceLocked_of_not_accepts ha]
      | true =>
        apply appendOrReplace_of_late hc.toSound ha hl
        rw [normalizeCandle_openTime hI]
        rw [alignDownMs_eq hI] at hlate ⊢
        have := Lib.Grid.floorTo_mono hI (hcs live List.mem_cons_self)
        omega
    have step : (lives (handleLiveCandle s live) cs).repo.candles =
        (handleLiveCandle s live).repo.candles := by
      rw [e]
      exact ih hrun hc' (by rw [hsame]; exact hl) (by rw [hint]; exact hlate)
        fun l hl => hcs l (List.mem_cons_of_mem _ hl)
    exact step.trans (by rw [e]; exact hsame)

end Deaf

/-! ## Paging -/

/-- No candle changes the open time of one in the repository. -/
theorem openTimes_prefix_appendOrReplace [TimeUtils] {r : Repository} (hs : r.Sound) (c : Candle) :
    r.candles.map Candle.openTime <+: (r.appendOrReplace c).2.candles.map Candle.openTime := by
  unfold Repository.appendOrReplace
  cases ha : r.accepts c with
  | false => rw [appendOrReplaceLocked_of_not_accepts ha]
  | true =>
    rw [appendOrReplaceLocked_of_accepts hs ha]
    exact times_prefix_offer (C := candleCells) r.candles _

theorem openTimes_prefix_appends [TimeUtils] {r : Repository} (hs : r.Sound) (cs : List Candle) :
    r.candles.map Candle.openTime <+: (r.appends cs).candles.map Candle.openTime := by
  induction cs generalizing r with
  | nil => exact List.prefix_rfl
  | cons c cs ih =>
    exact (openTimes_prefix_appendOrReplace hs c).trans (ih (appendOrReplace_sound hs c))

/-- A paging request offers candles of the market to the repository and changes
nothing else. -/
theorem requestBackfillOlder_run [TimeUtils] (sort : StdSort) (cfg : SyncConfig) (market : Market)
    (s : Orchestrator) (startOpen : Int) (n : Nat) :
    ∃ ds, requestBackfillOlder sort cfg market s startOpen n =
        { s with repo := s.repo.appends ds } ∧
      ∀ c ∈ ds, ∃ range limit, c ∈ market range limit := by
  have page : ∀ range : TimeRange, ∃ ds,
      (appendPage cfg market s (sort.run (market range n))).2 =
        { s with repo := s.repo.appends ds } ∧
      ∀ c ∈ ds, ∃ range limit, c ∈ market range limit := by
    intro range
    obtain ⟨ds, e, hds⟩ := appendPage_run cfg market s (sort.run (market range n))
    refine ⟨ds, e, fun c hc => ?_⟩
    rcases hds c hc with hc | hc
    · exact ⟨range, n, (sort.perm _).mem_iff.mp hc⟩
    · exact hc
  unfold requestBackfillOlder
  dsimp only
  split_ifs
  all_goals first
    | exact ⟨[], rfl, fun c hc => absurd hc List.not_mem_nil⟩
    | exact page _

/-- No paging request for a time before the first candle, and no answer of the
market, brings the repository a candle of that time in front. -/
theorem requestBackfillOlder_head [TimeUtils] (sort : StdSort) (cfg : SyncConfig) (market : Market)
    (s : Orchestrator) (hc : s.repo.Contiguous) (startOpen : Int) (n : Nat) (first : Candle)
    (hfirst : s.repo.candles.head? = some first) (hstart : startOpen < first.openTime) :
    (requestBackfillOlder sort cfg market s startOpen n).repo.candles.head?.map Candle.openTime =
        some first.openTime ∧
      (requestBackfillOlder sort cfg market s startOpen n).repo.candles.head?.map Candle.openTime ≠
        some startOpen := by
  obtain ⟨ds, e, -⟩ := requestBackfillOlder_run sort cfg market s startOpen n
  have hhead : (requestBackfillOlder sort cfg market s startOpen n).repo.candles.head?.map
      Candle.openTime = some first.openTime := by
    obtain ⟨rest, hrest⟩ := openTimes_prefix_appends hc.toSound ds
    rw [e, ← List.head?_map, ← hrest]
    simp [hfirst]
  refine ⟨hhead, ?_⟩
  rw [hhead, ne_eq, Option.some.injEq]
  omega

/-- The market has the first minute, the repository only the second one. -/
def secondMinute : Orchestrator where
  repo := (Repository.construct .insertion {} ['B'] ⟨60000⟩).calls .insertion
    [.appendOrReplace (flatCandle 120000 true)]
  running := true

theorem requestBackfillOlder_second :
    (requestBackfillOlder .insertion {} (historyMarket [flatCandle 60000 true, flatCandle 120000 true])
      secondMinute 60000 1).repo.candles.head?.map Candle.openTime ≠ some 60000 :=
  (requestBackfillOlder_head .insertion {} _ secondMinute
    ((construct_contiguous .insertion rfl ['B'] (by decide)).calls _ _).1
    60000 1 _ rfl (by decide +kernel)).2

/-- The request for the first minute is accepted and answered, and the first
minute does not get in. -/
theorem not_older_second :
    let market := historyMarket [flatCandle 60000 true, flatCandle 120000 true]
    secondMinute.running = true ∧ secondMinute.backfilling = false ∧
      secondMinute.pagingBackfill = false ∧
      market ⟨60000, 119999⟩ 1 = [flatCandle 60000 true] ∧
      secondMinute.repo.candles.map Candle.openTime = [120000] ∧
      (requestBackfillOlder .insertion {} market secondMinute 60000 1).repo.candles.map
        Candle.openTime = [120000] := by
  decide +kernel

end TCV.App
