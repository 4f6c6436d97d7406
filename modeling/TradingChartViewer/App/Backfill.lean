import TradingChartViewer.App.Appending
import TradingChartViewer.Storage.Contiguous

/-!
# When backfill ends

The paging loop of `runBackfill` over a market source with a fixed history.
Every iteration moves the last candle of the repository, or the next request,
or widens the window, except at a barren page: one from which nothing gets in.

* `Barren`, `Stalled`: such a page, and the states from which the loop asks for
  it again;
* `appendPage_of_barren`, `potential_of_not_barren`: the two kinds of pages;
* `backfillBody_next`: what one iteration can do;
* `stalled_trap`, `measure_of_not_stalled`: a stalled loop stays stalled, and
  any other iteration decreases `loopMeasure`;
* `startsLiveStream_iff`: the loop ends exactly if it never stalls.
-/

namespace TCV.App

open TCV.Domain TCV.Storage Lib.Page Lib.Loop

/-! ## Barren pages -/

/-- No candle of the page moves the last candle, and when one comes after a gap
the history has none to fill it with. -/
def Barren (history : List Candle) (s : Orchestrator) (cs : List Candle) : Prop :=
  (∀ c ∈ cs, ¬ s.repo.Moves c) ∧
    ((∃ c ∈ cs, s.repo.Blocked c) → s.repairing = false → ∀ c ∈ history, ¬ s.repo.Follows c)

section Barren

variable {cfg : SyncConfig} {history cs : List Candle} {s : Orchestrator}

/-- A candle of the missing range can only be the next one. -/
theorem not_moves_of_missing {r : Repository} (hs : r.Sound) {t : Int} {closed : Bool}
    (ht : r.tail = some (t, closed)) {c : Candle} (hc : t + r.intervalMs ≤ c.openTime)
    (hf : ¬ r.Follows c) : ¬ r.Moves c := by
  rintro ⟨ha, hm⟩
  rw [ht] at hm
  have hI := hs.interval_pos
  rcases hm with hm | ⟨hm, rfl, -⟩
  · exact hf ⟨ha, by rw [ht]; exact hm⟩
  · -- An open last candle stands on the grid.
    obtain ⟨last, hl, rfl, hopen⟩ := tail_eq_some.mp ht
    have hd := (hs.tail last hl hopen).2.1
    have hle := Lib.Grid.floorTo_mono hI hc
    rw [Lib.Grid.floorTo_of_dvd (Int.dvd_add hd (Int.dvd_refl _))] at hle
    rw [normalizeCandle_openTime hI, alignDownMs_eq hI] at hm
    omega

/-- A gap that the history cannot fill and a batch that moves nothing. -/
theorem repairGap_of_barren [TimeUtils] (cfg : SyncConfig) (hs : s.repo.Sound)
    (hmoves : ∀ c ∈ cs, ¬ s.repo.Moves c)
    (hfollows : s.repairing = false → ∀ c ∈ history, ¬ s.repo.Follows c) {t : Int} {closed : Bool}
    (ht : s.repo.tail = some (t, closed)) {gap : AppendResult}
    (hfrom : gap.expectedFrom = t + s.repo.intervalMs) (hto : gap.expectedFrom < gap.expectedTo) :
    (repairGap cfg (historyMarket history) s gap cs).repo.tail = s.repo.tail ∧
      (repairGap cfg (historyMarket history) s gap cs).repo.metadata = s.repo.metadata := by
  cases hr : s.repairing with
  | true =>
    rw [repairGap_of_repairing hr]
    exact ⟨rfl, rfl⟩
  | false =>
    rw [repairGap_eq hr hto]
    dsimp only
    generalize hm : historyMarket history _ _ = missing
    have hmissing : ∀ c ∈ missing, ¬ s.repo.Moves c := by
      intro c hc
      rw [← hm] at hc
      obtain ⟨hmem, hlo, -⟩ := mem_of_mem_page hc
      exact not_moves_of_missing hs ht (by rw [← hfrom]; exact hlo) (hfollows hr c hmem)
    obtain ⟨htail, hmeta, -, -⟩ := appendUntilGap_of_not_moves hs hmissing
    obtain ⟨hs', hfmt⟩ := appendUntilGap_sound hs missing
    have hretry : ∀ c ∈ cs.filter fun c => gap.expectedTo ≤ alignDownMs c.openTime (clampIntervalMs cfg),
        ¬ (appendUntilGap s.repo missing).2.Moves c := fun c hc hm =>
      hmoves c (List.mem_of_mem_filter hc) ((moves_congr hfmt htail).mp hm)
    obtain ⟨htail', hmeta', -, -⟩ := appendUntilGap_of_not_moves hs' hretry
    exact ⟨htail'.trans htail, hmeta'.trans hmeta⟩

/-- A gap that the history can begin to fill. -/
theorem potential_repairGap [TimeUtils] (hs : s.repo.Sound)
    (hasc : Ascending Candle.openTime history)
    (hr : s.repairing = false) (hcs : ∀ c ∈ cs, c ∈ history) {d : Candle} (hd : d ∈ history)
    (hfollows : s.repo.Follows d) {t : Int} {closed : Bool} (ht : s.repo.tail = some (t, closed))
    {gap : AppendResult} (hfrom : gap.expectedFrom = t + s.repo.intervalMs)
    (hto : gap.expectedFrom < gap.expectedTo) (hdvd : s.repo.intervalMs ∣ gap.expectedTo) :
    (repairGap cfg (historyMarket history) s gap cs).repo.potential history <
      s.repo.potential history := by
  have hI := hs.interval_pos
  have ⟨ha, hn⟩ := hfollows
  rw [ht] at hn
  dsimp only at hn
  obtain ⟨hpos, hp⟩ := (accepts_iff hI).mp ha
  have hdn := dvd_normalizeCandle (r := s.repo) hI d
  have hnd := normalizeCandle_openTime (r := s.repo) hI d
  rw [alignDownMs_eq hI] at hnd
  -- The open time of `d` lies in the missing range.
  have hd0 : 0 < d.openTime := Lib.Grid.pos_of_floorTo_pos hI (by omega)
  have hle := Lib.Grid.floorTo_le (I := s.repo.intervalMs) hd0.le
  have hlt := Lib.Grid.lt_floorTo_add hI d.openTime
  have hnext := Lib.Grid.add_le_of_lt hdn hdvd (by omega)
  rw [repairGap_eq hr hto]
  dsimp only
  obtain ⟨b, hb, hbd⟩ := exists_first_of_page hasc (repairLimit_pos gap (clampIntervalMs cfg)) hd
    (show gap.expectedFrom ≤ d.openTime by omega) (show d.openTime ≤ gap.expectedTo - 1 by omega)
  have hbm := mem_of_mem_page hb
  -- The first missing candle is the next one as well.
  have hbn : (s.repo.normalizeCandle b).openTime = t + s.repo.intervalMs := by
    have h₁ := normalizeCandle_mono (r := s.repo) hI hbd
    have h₂ := Lib.Grid.floorTo_mono hI (hfrom ▸ hbm.2.1)
    rw [← hn, Lib.Grid.floorTo_of_dvd hdn, ← alignDownMs_eq hI, ← normalizeCandle_openTime hI] at h₂
    omega
  have hfb : s.repo.Follows b := ⟨(accepts_iff hI).mpr ⟨by omega, hp⟩, by rw [ht]; exact hbn⟩
  have hmissing : ∀ c ∈ historyMarket history ⟨gap.expectedFrom, gap.expectedTo - 1⟩
      (repairLimit gap (clampIntervalMs cfg)), c ∈ history := fun c hc => (mem_of_mem_page hc).1
  refine lt_of_le_of_lt (potential_appendUntilGap (appendUntilGap_sound hs _).1 fun c hc =>
    hcs c (List.mem_of_mem_filter hc)) ?_
  exact potential_of_moves_mem hs hmissing (page_ascending hasc) hb hfb.moves

/-- What the first gap of a page that moves nothing reports. -/
theorem expected_of_appendUntilGap [TimeUtils] (hs : s.repo.Sound)
    (hmoves : ∀ c ∈ cs, ¬ s.repo.Moves c)
    {gap : AppendResult} (h : (appendUntilGap s.repo cs).1 = some gap) :
    (∃ c ∈ cs, s.repo.Blocked c) ∧ s.repo.intervalMs ∣ gap.expectedTo ∧
      gap.expectedFrom < gap.expectedTo ∧ ∃ t closed, s.repo.tail = some (t, closed) ∧
        gap.expectedFrom = t + s.repo.intervalMs := by
  obtain ⟨-, -, -, hsome⟩ := appendUntilGap_of_not_moves hs hmoves
  obtain ⟨c, hc, hb, t, closed, ht, hfrom, hto⟩ := hsome gap h
  refine ⟨⟨c, hc, hb⟩, hto ▸ dvd_normalizeCandle hs.interval_pos c, ?_, t, closed, ht, hfrom⟩
  have := hb.2
  rw [ht] at this
  dsimp only at this
  omega

theorem appendPage_of_barren [TimeUtils] (cfg : SyncConfig) (hs : s.repo.Sound)
    (h : Barren history s cs) :
    (appendPage cfg (historyMarket history) s cs).2.repo.tail = s.repo.tail ∧
      (appendPage cfg (historyMarket history) s cs).2.repo.metadata = s.repo.metadata ∧
      ((appendPage cfg (historyMarket history) s cs).1 = true ↔ ∃ c ∈ cs, s.repo.Blocked c) := by
  obtain ⟨hmoves, hrepair⟩ := h
  obtain ⟨htail, hmeta, hnone, -⟩ := appendUntilGap_of_not_moves hs hmoves
  obtain ⟨hs', hfmt⟩ := appendUntilGap_sound hs cs
  cases hgap : (appendUntilGap s.repo cs).1 with
  | none =>
    rw [appendPage_of_none hgap]
    exact ⟨htail, hmeta, by simpa using hnone.mp hgap⟩
  | some gap =>
    rw [appendPage_of_some hgap]
    obtain ⟨hblocked, -, hto, t, closed, ht, hfrom⟩ := expected_of_appendUntilGap hs hmoves hgap
    have key := repairGap_of_barren cfg
      (s := { s with repo := (appendUntilGap s.repo cs).2 }) hs'
      (fun c hc hm => hmoves c hc ((moves_congr hfmt htail).mp hm))
      (fun hr c hc hf => hrepair hblocked hr c hc ((follows_congr hfmt htail).mp hf))
      (htail.trans ht) (hfrom.trans (by rw [show (appendUntilGap s.repo cs).2.intervalMs =
        s.repo.intervalMs from congrArg (·.2.2.1) hfmt])) hto
    exact ⟨key.1.trans htail, key.2.trans hmeta, by simpa using hblocked⟩

/-- Every other page moves the last candle. -/
theorem potential_of_not_barren [TimeUtils] (hs : s.repo.Sound)
    (hasc : Ascending Candle.openTime history)
    (hcs : ∀ c ∈ cs, c ∈ history) (hpage : Ascending Candle.openTime cs)
    (h : ¬ Barren history s cs) :
    (appendPage cfg (historyMarket history) s cs).2.repo.potential history <
      s.repo.potential history := by
  obtain ⟨hs', hfmt⟩ := appendUntilGap_sound hs cs
  by_cases hmoves : ∀ c ∈ cs, ¬ s.repo.Moves c
  · have ⟨hblocked, hr, d, hd, hf⟩ : (∃ c ∈ cs, s.repo.Blocked c) ∧ s.repairing = false ∧
        ∃ d ∈ history, s.repo.Follows d := by
      by_contra hc
      refine h ⟨hmoves, fun hb hr d hd hf => hc ⟨hb, hr, d, hd, hf⟩⟩
    obtain ⟨htail, -, hnone, -⟩ := appendUntilGap_of_not_moves hs hmoves
    cases hgap : (appendUntilGap s.repo cs).1 with
    | none =>
      obtain ⟨c, hc, hb⟩ := hblocked
      exact absurd hb (hnone.mp hgap c hc)
    | some gap =>
      obtain ⟨-, hdvd, hto, t, closed, ht, hfrom⟩ := expected_of_appendUntilGap hs hmoves hgap
      have hint : (appendUntilGap s.repo cs).2.intervalMs = s.repo.intervalMs :=
        congrArg (·.2.2.1) hfmt
      rw [appendPage_of_some hgap, ← potential_congr hfmt htail]
      exact potential_repairGap (s := { s with repo := (appendUntilGap s.repo cs).2 }) hs' hasc hr
        hcs hd ((follows_congr hfmt htail).mpr hf) (htail.trans ht) (hfrom.trans (by rw [hint])) hto
        (by rw [hint]; exact hdvd)
  · obtain ⟨c, hc, hm⟩ : ∃ c ∈ cs, s.repo.Moves c := by
      by_contra hc
      exact hmoves fun c hc' hm => hc ⟨c, hc', hm⟩
    have hlt := potential_of_moves_mem hs hcs hpage hc hm
    cases hgap : (appendUntilGap s.repo cs).1 with
    | none =>
      rw [appendPage_of_none hgap]
      exact hlt
    | some gap =>
      rw [appendPage_of_some hgap]
      refine lt_of_le_of_lt ?_ hlt
      obtain ⟨ds, e, hds⟩ := repairGap_run cfg (historyMarket history)
        { s with repo := (appendUntilGap s.repo cs).2 } gap cs
      rw [e]
      apply potential_appends hs'
      intro c hc
      rcases hds c hc with hc | ⟨range, limit, hc⟩
      · exact hcs c hc
      · exact (mem_of_mem_page hc).1

end Barren

/-! ## One iteration -/

/-- The state after a page was handed to the repository. -/
def afterPage [TimeUtils] (cfg : SyncConfig) (market : Market) (w : BackfillWindow)
    (s : BackfillState) (candles : List Candle) : BackfillState :=
  let sync := (appendPage cfg market s.sync candles).2
  { sync := sync
    metadata := sync.repo.metadata
    nextFetch :=
      if sync.repo.metadata.count = 0 then s.nextFetch
      else sync.repo.metadata.maxOpen + w.intervalMs
    fetchedAny := true }

section Body

variable [TimeUtils] {cfg : SyncConfig} {market : Market} {w : BackfillWindow} {s t : BackfillState}
  {range : TimeRange}

theorem backfillBody_of_none (h : backfillRequest cfg w s.nextFetch = none) :
    backfillBody cfg market w s = .inr s := by
  unfold backfillBody
  rw [h]
  split <;> rfl

theorem backfillBody_of_nil (hrun : s.sync.running = true)
    (h : backfillRequest cfg w s.nextFetch = some range) (hpage : market range (batchLimit cfg) = []) :
    backfillBody cfg market w s =
      if !s.fetchedAny && w.repoEmpty && !s.sync.widenedOnce && 0 < w.widenAmount then
        .inl { s with
          sync := { s.sync with widenedOnce := true }
          nextFetch := max 0 (s.nextFetch - w.widenAmount) }
      else .inr s := by
  unfold backfillBody
  rw [h, hrun, if_neg (by decide)]
  dsimp only
  rw [hpage, if_pos (by rfl)]

/-- A page ends the loop if it is short and without a gap, unless the repository
has no closed candle yet. -/
theorem backfillBody_of_page (hrun : s.sync.running = true)
    (h : backfillRequest cfg w s.nextFetch = some range) (hpage : market range (batchLimit cfg) ≠ []) :
    let candles := market range (batchLimit cfg)
    let t := afterPage cfg market w s candles
    backfillBody cfg market w s =
      if t.metadata.count = 0 ∨ batchLimit cfg ≤ candles.length ∨
        (appendPage cfg market s.sync candles).1 = true then .inl t else .inr t := by
  intro candles t
  unfold backfillBody
  rw [h, hrun, if_neg (by decide)]
  dsimp only
  rw [if_neg (by rw [List.isEmpty_iff]; exact hpage)]
  simp only [t, candles, afterPage]
  by_cases hc : (appendPage cfg market s.sync (market range (batchLimit cfg))).2.repo.metadata.count = 0
  · simp [hc]
  · simp only [hc, if_false, false_or]
    cases (appendPage cfg market s.sync (market range (batchLimit cfg))).1 <;> simp

/-- What one iteration can do if the loop goes on. -/
theorem backfillBody_next (h : backfillBody cfg market w s = .inl t) :
    s.sync.running = true ∧ ∃ range, backfillRequest cfg w s.nextFetch = some range ∧
      (s.sync.widenedOnce = false ∧
          t = { s with
            sync := { s.sync with widenedOnce := true }
            nextFetch := max 0 (s.nextFetch - w.widenAmount) } ∨
        market range (batchLimit cfg) ≠ [] ∧
          t = afterPage cfg market w s (market range (batchLimit cfg)) ∧
          (t.metadata.count = 0 ∨ batchLimit cfg ≤ (market range (batchLimit cfg)).length ∨
            (appendPage cfg market s.sync (market range (batchLimit cfg))).1 = true)) := by
  cases hrun : s.sync.running with
  | false =>
    unfold backfillBody at h
    rw [hrun, if_pos (by decide)] at h
    cases h
  | true =>
    cases hreq : backfillRequest cfg w s.nextFetch with
    | none =>
      rw [backfillBody_of_none hreq] at h
      cases h
    | some range =>
      refine ⟨rfl, range, rfl, ?_⟩
      by_cases hpage : market range (batchLimit cfg) = []
      · rw [backfillBody_of_nil hrun hreq hpage] at h
        split at h
        · rename_i hw
          simp only [Bool.and_eq_true, Bool.not_eq_true'] at hw
          exact .inl ⟨hw.1.2, (Sum.inl.inj h).symm⟩
        · cases h
      · rw [backfillBody_of_page hrun hreq hpage] at h
        split at h
        · rename_i hc
          obtain rfl := Sum.inl.inj h
          exact .inr ⟨hpage, rfl, hc⟩
        · cases h

end Body

/-! ## Stalling -/

/-- The loop stands at a request for a barren page and will ask for it again:
no closed candle is stored yet, or the request is the one after the last closed
candle and the page is full or ends in a gap. -/
def Stalled (cfg : SyncConfig) (history : List Candle) (w : BackfillWindow)
    (s : BackfillState) : Prop :=
  s.sync.running = true ∧ ∃ range, backfillRequest cfg w s.nextFetch = some range ∧
    let candles := historyMarket history range (batchLimit cfg)
    let metadata := s.sync.repo.metadata
    candles ≠ [] ∧ Barren history s.sync candles ∧
      (metadata.count = 0 ∨ s.nextFetch = metadata.maxOpen + w.intervalMs ∧
        (batchLimit cfg ≤ candles.length ∨ ∃ c ∈ candles, s.sync.repo.Blocked c))

/-- No state of the loop is stalled. -/
def NeverStalls [TimeUtils] (cfg : SyncConfig) (history : List Candle) (s : Orchestrator)
    (nowMs : Int) : Prop :=
  let w := (backfillWindow cfg s.repo nowMs).1
  ∀ t, Reaches (backfillBody cfg (historyMarket history) w) (loopStart cfg s nowMs) t →
    ¬ Stalled cfg history w t

/-- What the loop has left to do. -/
def loopMeasure (history : List Candle) (w : BackfillWindow) (s : BackfillState) : Nat :=
  4 * s.sync.repo.potential history + (if s.sync.widenedOnce then 0 else 2) +
    if s.sync.repo.metadata.count ≠ 0 ∧
      s.nextFetch ≠ s.sync.repo.metadata.maxOpen + w.intervalMs then 1 else 0

section Stall

variable [TimeUtils] {cfg : SyncConfig} {history : List Candle} {w : BackfillWindow}
  {s t : BackfillState}

theorem afterPage_sync (cfg : SyncConfig) (market : Market) (w : BackfillWindow)
    (s : BackfillState) (cs : List Candle) :
    ∃ ds, (afterPage cfg market w s cs).sync = { s.sync with repo := s.sync.repo.appends ds } := by
  obtain ⟨ds, e, -⟩ := appendPage_run cfg market s.sync cs
  exact ⟨ds, e⟩

theorem afterPage_nextFetch (cfg : SyncConfig) (market : Market) (w : BackfillWindow)
    (s : BackfillState) (cs : List Candle) :
    (afterPage cfg market w s cs).nextFetch =
      if (afterPage cfg market w s cs).sync.repo.metadata.count = 0 then s.nextFetch
      else (afterPage cfg market w s cs).sync.repo.metadata.maxOpen + w.intervalMs := rfl

/-- Every iteration keeps the repository sound. -/
theorem sound_of_next {market : Market} (hs : s.sync.repo.Sound)
    (h : backfillBody cfg market w s = .inl t) : t.sync.repo.Sound := by
  obtain ⟨-, range, -, ⟨-, rfl⟩ | ⟨-, rfl, -⟩⟩ := backfillBody_next h
  · exact hs
  · obtain ⟨ds, e⟩ := afterPage_sync cfg market w s (market range (batchLimit cfg))
    rw [e]
    exact (appends_sound hs ds).1

/-- A stalled loop stays stalled. -/
theorem stalled_trap (hs : s.sync.repo.Sound) (h : Stalled cfg history w s) :
    ∃ t, backfillBody cfg (historyMarket history) w s = .inl t ∧ t.sync.repo.Sound ∧
      Stalled cfg history w t := by
  obtain ⟨hrun, range, hreq, hpage, hbarren, hgo⟩ := h
  generalize hc : historyMarket history range (batchLimit cfg) = candles at hpage hbarren hgo
  obtain ⟨htail, hmeta, hgap⟩ := appendPage_of_barren cfg hs hbarren
  obtain ⟨ds, e⟩ := afterPage_sync cfg (historyMarket history) w s candles
  obtain ⟨hs', hfmt⟩ := appends_sound hs ds
  have hrepo : (afterPage cfg (historyMarket history) w s candles).sync.repo =
      (appendPage cfg (historyMarket history) s.sync candles).2.repo := rfl
  have hrepo' : (afterPage cfg (historyMarket history) w s candles).sync.repo =
      s.sync.repo.appends ds := by rw [e]
  rw [← hrepo] at htail hmeta
  rw [← hrepo'] at hs' hfmt
  have hnext : (afterPage cfg (historyMarket history) w s candles).nextFetch = s.nextFetch := by
    rw [afterPage_nextFetch, hmeta]
    rcases hgo with h0 | ⟨hn, -⟩
    · rw [if_pos h0]
    · rw [← hn, ite_self]
  refine ⟨afterPage cfg (historyMarket history) w s candles, ?_, hs', ?_⟩
  · rw [backfillBody_of_page hrun hreq (by rw [hc]; exact hpage), hc, if_pos]
    rw [show (afterPage cfg (historyMarket history) w s candles).metadata =
      s.sync.repo.metadata from hmeta, hgap]
    rcases hgo with h0 | ⟨-, hfull⟩
    · exact .inl h0
    · exact .inr hfull
  · refine ⟨by rw [e]; exact hrun, range, by rw [hnext]; exact hreq, by rw [hc]; exact hpage, ?_, ?_⟩
    · rw [hc]
      refine ⟨fun c hc hm => hbarren.1 c hc ((moves_congr hfmt htail).mp hm), ?_⟩
      rintro ⟨c, hc, hb⟩ hr d hd hf
      rw [e] at hr
      exact hbarren.2 ⟨c, hc, (blocked_congr hfmt htail).mp hb⟩ hr d hd
        ((follows_congr hfmt htail).mp hf)
    · rw [hc, hmeta, hnext]
      simpa only [blocked_congr hfmt htail] using hgo

/-- Every other iteration that goes on decreases the measure. -/
theorem measure_of_not_stalled (hasc : Ascending Candle.openTime history)
    (hs : s.sync.repo.Sound) (hstall : ¬ Stalled cfg history w s)
    (h : backfillBody cfg (historyMarket history) w s = .inl t) :
    loopMeasure history w t < loopMeasure history w s := by
  obtain ⟨hrun, range, hreq, ⟨hw, rfl⟩ | ⟨hpage, rfl, hgo⟩⟩ := backfillBody_next h
  · simp only [loopMeasure, hw, if_true, Bool.false_eq_true, if_false]
    split <;> split <;> omega
  · generalize hc : historyMarket history range (batchLimit cfg) = candles at hpage hgo ⊢
    have hsub : ∀ c ∈ candles, c ∈ history := fun c h => (mem_of_mem_page (hc ▸ h)).1
    have hcs : Ascending Candle.openTime candles := hc ▸ page_ascending hasc
    have hw : (afterPage cfg (historyMarket history) w s candles).sync.widenedOnce =
        s.sync.widenedOnce := by
      obtain ⟨ds, e⟩ := afterPage_sync cfg (historyMarket history) w s candles
      rw [e]
    -- After a page the request is the one after the last closed candle.
    have hbit : ¬ ((afterPage cfg (historyMarket history) w s candles).sync.repo.metadata.count ≠ 0 ∧
        (afterPage cfg (historyMarket history) w s candles).nextFetch ≠
          (afterPage cfg (historyMarket history) w s candles).sync.repo.metadata.maxOpen
            + w.intervalMs) := by
      rintro ⟨h0, hn⟩
      rw [afterPage_nextFetch, if_neg h0] at hn
      exact hn rfl
    simp only [loopMeasure, hw, if_neg hbit]
    by_cases hbarren : Barren history s.sync candles
    · -- A barren page ends the loop, or moves the request, or the loop is stalled.
      obtain ⟨htail, hmeta, hgap⟩ := appendPage_of_barren cfg hs hbarren
      have hpot : (afterPage cfg (historyMarket history) w s candles).sync.repo.potential history =
          s.sync.repo.potential history := potential_congr (appendPage_sound hs candles).2 htail
      rw [show (afterPage cfg (historyMarket history) w s candles).metadata =
        s.sync.repo.metadata from hmeta, hgap] at hgo
      have h0 : s.sync.repo.metadata.count ≠ 0 := fun h0 =>
        hstall ⟨hrun, range, hreq, by rw [hc]; exact hpage, by rw [hc]; exact hbarren, .inl h0⟩
      have hn : s.nextFetch ≠ s.sync.repo.metadata.maxOpen + w.intervalMs := fun hn =>
        hstall ⟨hrun, range, hreq, by rw [hc]; exact hpage, by rw [hc]; exact hbarren,
          .inr ⟨hn, by rw [hc]; exact hgo.resolve_left h0⟩⟩
      have hbit' : s.sync.repo.metadata.count ≠ 0 ∧
          s.nextFetch ≠ s.sync.repo.metadata.maxOpen + w.intervalMs := ⟨h0, hn⟩
      rw [hpot, if_pos hbit']
      omega
    · have hlt : (afterPage cfg (historyMarket history) w s candles).sync.repo.potential history <
          s.sync.repo.potential history := potential_of_not_barren hs hasc hsub hcs hbarren
      omega

end Stall

/-! ## The end of the loop -/

section Ends

variable [TimeUtils] {cfg : SyncConfig} {market : Market} {w : BackfillWindow} {s t : BackfillState}

/-- The state in which an iteration leaves the loop. -/
theorem backfillBody_done (hrun : s.sync.running = true) (h : backfillBody cfg market w s = .inr t) :
    t = s ∨ ∃ range, backfillRequest cfg w s.nextFetch = some range ∧
      market range (batchLimit cfg) ≠ [] ∧
      t = afterPage cfg market w s (market range (batchLimit cfg)) := by
  cases hreq : backfillRequest cfg w s.nextFetch with
  | none =>
    rw [backfillBody_of_none hreq] at h
    exact .inl (Sum.inr.inj h).symm
  | some range =>
    by_cases hpage : market range (batchLimit cfg) = []
    · rw [backfillBody_of_nil hrun hreq hpage] at h
      split at h
      · cases h
      · exact .inl (Sum.inr.inj h).symm
    · rw [backfillBody_of_page hrun hreq hpage] at h
      split at h
      · cases h
      · exact .inr ⟨range, rfl, hpage, (Sum.inr.inj h).symm⟩

/-- The loop never changes `running_`, and only offers candles to the repository. -/
theorem ends_run (hrun : s.sync.running = true) (h : Ends (backfillBody cfg market w) s t) :
    t.sync.running = true ∧ ∃ ds, t.sync.repo = s.sync.repo.appends ds := by
  let I : BackfillState → Prop := fun u =>
    u.sync.running = true ∧ ∃ ds, u.sync.repo = s.sync.repo.appends ds
  have page : ∀ u cs, I u → I (afterPage cfg market w u cs) := by
    rintro u cs ⟨hu, ds, hds⟩
    obtain ⟨es, e⟩ := afterPage_sync cfg market w u cs
    show (afterPage cfg market w u cs).sync.running = true ∧ _
    rw [e]
    exact ⟨hu, ds ++ es, by rw [appends_append, ← hds]⟩
  refine h.rule (I := I) (Q := I) (fun u v hu hb => ?_) (fun u v hu hb => ?_) ⟨hrun, [], rfl⟩
  · obtain ⟨-, range, -, ⟨-, rfl⟩ | ⟨-, rfl, -⟩⟩ := backfillBody_next hb
    · exact hu
    · exact page u _ hu
  · obtain rfl | ⟨range, -, -, rfl⟩ := backfillBody_done hu.1 hb
    · exact hu
    · exact page u _ hu

theorem startsLiveStream_iff_halts {s : Orchestrator} (hrun : s.running = true) (nowMs : Int) :
    StartsLiveStream cfg market s nowMs ↔
      Halts (backfillBody cfg market (backfillWindow cfg s.repo nowMs).1) (loopStart cfg s nowMs) :=
  ⟨fun ⟨t, ht, _⟩ => ⟨t, ht⟩, fun ⟨t, ht⟩ => ⟨t, ht, (ends_run hrun ht).1⟩⟩

end Ends

theorem not_halts_of_stalled [TimeUtils] {cfg : SyncConfig} {history : List Candle}
    {w : BackfillWindow}
    {s : BackfillState} (hs : s.sync.repo.Sound) (h : Stalled cfg history w s) :
    ¬ Halts (backfillBody cfg (historyMarket history) w) s :=
  not_halts_of_trap (T := fun t => t.sync.repo.Sound ∧ Stalled cfg history w t)
    (fun _ ht => stalled_trap ht.1 ht.2) ⟨hs, h⟩

/-- From every repository that a constructor and calls can have built, and for
every history, the backfill gets to the live stream exactly if its loop is
never stalled. -/
theorem startsLiveStream_iff [TimeUtils] (sort : StdSort) (file : DataFile) (symbol : List Char)
    (interval : Interval) (cs : List Call) (cfg : SyncConfig) (s : Orchestrator)
    (hrepo : s.repo = (Repository.construct sort file symbol interval).calls sort cs)
    (hrun : s.running = true) (history : List Candle)
    (hasc : history.Pairwise fun a b => a.openTime ≤ b.openTime) (nowMs : Int) :
    StartsLiveStream cfg (historyMarket history) s nowMs ↔ NeverStalls cfg history s nowMs := by
  have hs : (loopStart cfg s nowMs).sync.repo.Sound := hrepo ▸ calls_sound sort file symbol interval cs
  rw [startsLiveStream_iff_halts hrun, NeverStalls]
  generalize (backfillWindow cfg s.repo nowMs).1 = w
  have hstep : ∀ t u : BackfillState, t.sync.repo.Sound →
      ¬ (t.sync.repo.Sound ∧ Stalled cfg history w t) →
      backfillBody cfg (historyMarket history) w t = .inl u →
      u.sync.repo.Sound ∧ loopMeasure history w u < loopMeasure history w t :=
    fun t u ht hstall hb =>
      ⟨sound_of_next ht hb, measure_of_not_stalled hasc ht (fun h => hstall ⟨ht, h⟩) hb⟩
  rw [halts_iff_no_trap (loopMeasure history w) (fun t ht => stalled_trap ht.1 ht.2) hstep hs]
  constructor
  · exact fun h t ht hstall => h t ht ⟨ht.inv (fun _ _ => sound_of_next) hs, hstall⟩
  · exact fun h t ht hstall => h t ht hstall.2

/-- A repository with the first minute, before a hole of one candle. -/
def beforeHole : Orchestrator where
  repo := (Repository.construct .insertion {} ['B'] ⟨60000⟩).calls .insertion
    [.appendOrReplace (flatCandle 60000 true)]
  running := true

/-- A history that misses the second minute for good. -/
def afterHole : List Candle := [flatCandle 180000 true]

/-- The loop asks for the same page for ever. -/
theorem not_startsLiveStream_hole :
    ¬ StartsLiveStream { restBatch := 2 } (historyMarket afterHole) beforeHole 240000 := by
  rw [startsLiveStream_iff_halts rfl]
  refine not_halts_of_stalled (calls_sound ..) ⟨rfl, ⟨120000, 239999⟩, by decide +kernel, ?_⟩
  dsimp only [Barren]
  decide +kernel

/-- Without the hole the loop ends, so that it is never stalled. -/
theorem never_stalled_no_hole :
    NeverStalls { restBatch := 2 } [flatCandle 120000 true] beforeHole 240000 := by
  refine (startsLiveStream_iff .insertion {} ['B'] ⟨60000⟩
    [.appendOrReplace (flatCandle 60000 true)] { restBatch := 2 } beforeHole rfl rfl _ (by simp)
    240000).mp ?_
  rw [startsLiveStream_iff_halts rfl]
  have hrun : (runFor (backfillBody { restBatch := 2 } (historyMarket [flatCandle 120000 true])
      (backfillWindow { restBatch := 2 } beforeHole.repo 240000).1) 1
      (loopStart { restBatch := 2 } beforeHole 240000)).isSome = true := by decide +kernel
  obtain ⟨r, hr⟩ := Option.isSome_iff_exists.mp hrun
  exact ⟨r, 1, hr⟩

end TCV.App
