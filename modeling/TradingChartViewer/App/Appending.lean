import TradingChartViewer.Lib.Page
import TradingChartViewer.Storage.Tail
import TradingChartViewer.App.Orchestrator

/-!
# Appending a page

What the orchestrator's loops over a page do to the repository: some of the
candles in turn, up to the first `Gap`, and then the repair of that gap.

* `appendUntilGap_eq`, `appendPage_run`: they are runs of single candles;
* `appendUntilGap_of_not_moves`: a page without a candle that moves the last
  one leaves it;
* `potential_of_moves_mem`: a candle that would move it is not missed.
-/

namespace TCV.App

open TCV.Domain TCV.Storage Lib.Page

/-- A market source with a fixed history. -/
def historyMarket (history : List Candle) : Market := fun range limit =>
  page Candle.openTime history range.start range.end_ limit

section Append

variable {r : Repository} {c : Candle} {cs history : List Candle}

theorem appendUntilGap_cons [TimeUtils] (r : Repository) (c : Candle) (cs : List Candle) :
    appendUntilGap r (c :: cs) =
      if (r.appendOrReplace c).1.state = .gap then
        (some (r.appendOrReplace c).1, (r.appendOrReplace c).2)
      else appendUntilGap (r.appendOrReplace c).2 cs := rfl

/-- The loop offers the candles in turn, up to the gap. -/
theorem appendUntilGap_eq [TimeUtils] (cs : List Candle) (r : Repository) :
    ∃ pre, pre <+: cs ∧ (appendUntilGap r cs).2 = r.appends pre := by
  induction cs generalizing r with
  | nil => exact ⟨[], List.nil_prefix, rfl⟩
  | cons c cs ih =>
    rw [appendUntilGap_cons]
    split
    · exact ⟨[c], List.prefix_append [c] cs, rfl⟩
    · obtain ⟨pre, hpre, e⟩ := ih (r.appendOrReplace c).2
      exact ⟨c :: pre, List.cons_prefix_cons.mpr ⟨rfl, hpre⟩, e⟩

theorem appendUntilGap_sound [TimeUtils] (hs : r.Sound) (cs : List Candle) :
    (appendUntilGap r cs).2.Sound ∧ (appendUntilGap r cs).2.format = r.format := by
  obtain ⟨pre, -, e⟩ := appendUntilGap_eq cs r
  rw [e]
  exact appends_sound hs pre

theorem potential_appends [TimeUtils] (hs : r.Sound) (hcs : ∀ c ∈ cs, c ∈ history) :
    (r.appends cs).potential history ≤ r.potential history := by
  induction cs generalizing r with
  | nil => exact le_rfl
  | cons c cs ih =>
    have h₁ := potential_appendOrReplace hs (hcs c List.mem_cons_self)
    have h₂ := ih (appendOrReplace_sound hs c) fun d hd => hcs d (List.mem_cons_of_mem _ hd)
    exact h₂.trans h₁

theorem potential_appendUntilGap [TimeUtils] (hs : r.Sound) (hcs : ∀ c ∈ cs, c ∈ history) :
    (appendUntilGap r cs).2.potential history ≤ r.potential history := by
  obtain ⟨pre, hpre, e⟩ := appendUntilGap_eq cs r
  rw [e]
  exact potential_appends hs fun c hc => hcs c (hpre.subset hc)

/-- Candles none of which moves the last one leave its time and state, and the
metadata; the gap reported is that of one of them. -/
theorem appendUntilGap_of_not_moves [TimeUtils] (hs : r.Sound) (h : ∀ c ∈ cs, ¬ r.Moves c) :
    (appendUntilGap r cs).2.tail = r.tail ∧ (appendUntilGap r cs).2.metadata = r.metadata ∧
      ((appendUntilGap r cs).1 = none ↔ ∀ c ∈ cs, ¬ r.Blocked c) ∧
      ∀ gap ∈ (appendUntilGap r cs).1, ∃ c ∈ cs, r.Blocked c ∧ ∃ t closed,
        r.tail = some (t, closed) ∧ gap.expectedFrom = t + r.intervalMs ∧
        gap.expectedTo = (r.normalizeCandle c).openTime := by
  induction cs generalizing r with
  | nil => simp [appendUntilGap]
  | cons c cs ih =>
    have hc := h c List.mem_cons_self
    obtain ⟨htail, hmeta⟩ := appendOrReplace_of_not_moves hs hc
    have hfmt := appendOrReplace_format hs c
    rw [appendUntilGap_cons]
    by_cases hb : r.Blocked c
    · rw [if_pos ((appendOrReplace_gap_iff hs).mpr hb)]
      refine ⟨htail, hmeta, by simp [hb], fun gap hgap => ⟨c, List.mem_cons_self, hb, ?_⟩⟩
      obtain rfl := Option.some.inj hgap
      exact expected_of_blocked hs hb
    · rw [if_neg (fun e => hb ((appendOrReplace_gap_iff hs).mp e))]
      obtain ⟨h₁, h₂, h₃, h₄⟩ := ih (appendOrReplace_sound hs c) fun d hd hm =>
        h d (List.mem_cons_of_mem _ hd) ((moves_congr hfmt htail).mp hm)
      refine ⟨h₁.trans htail, h₂.trans hmeta, ?_, fun gap hgap => ?_⟩
      · apply h₃.trans
        simp only [List.forall_mem_cons, hb, not_false_eq_true, true_and,
          blocked_congr hfmt htail]
      · obtain ⟨d, hd, hbd, t, closed, e₁, e₂, e₃⟩ := h₄ gap hgap
        rw [htail] at e₁
        rw [normalizeCandle_congr hfmt] at e₃
        exact ⟨d, List.mem_cons_of_mem _ hd, (blocked_congr hfmt htail).mp hbd, t, closed, e₁,
          e₂.trans (by rw [show (r.appendOrReplace c).2.intervalMs = r.intervalMs from
            congrArg (·.2.2.1) hfmt]), e₃⟩

theorem normalizeCandle_mono (hI : 0 < r.intervalMs) {c d : Candle} (h : c.openTime ≤ d.openTime) :
    (r.normalizeCandle c).openTime ≤ (r.normalizeCandle d).openTime := by
  rw [normalizeCandle_openTime hI, normalizeCandle_openTime hI, alignDownMs_eq hI, alignDownMs_eq hI]
  exact Lib.Grid.floorTo_mono hI h

/-- No candle that is blocked comes before one that moves the last candle. -/
theorem not_blocked_of_moves (hI : 0 < r.intervalMs) {d : Candle}
    (h : d.openTime ≤ c.openTime) (hm : r.Moves c) : ¬ r.Blocked d := by
  rintro ⟨-, hb⟩
  have hmono := normalizeCandle_mono (r := r) hI h
  obtain ⟨-, hm⟩ := hm
  cases ht : r.tail with
  | none => rw [ht] at hb; exact hb
  | some p =>
    rw [ht] at hb hm
    dsimp only at hb hm
    rcases hm with hm | ⟨hm, -, -⟩ <;> omega

/-- An ascending page does not miss a candle that moves the last one. -/
theorem potential_of_moves_mem [TimeUtils] (hs : r.Sound) (hcs : ∀ c ∈ cs, c ∈ history)
    (hasc : Ascending Candle.openTime cs) (hc : c ∈ cs) (hm : r.Moves c) :
    (appendUntilGap r cs).2.potential history < r.potential history := by
  induction cs generalizing r with
  | nil => cases hc
  | cons d cs ih =>
    obtain ⟨hd, hasc⟩ := List.pairwise_cons.mp hasc
    have hsub : ∀ c ∈ cs, c ∈ history := fun c hc => hcs c (List.mem_cons_of_mem _ hc)
    have hs' := appendOrReplace_sound hs d
    rw [appendUntilGap_cons]
    by_cases hmd : r.Moves d
    · have hlt := potential_of_moves hs (hcs d List.mem_cons_self) hmd
      split
      · exact hlt
      · exact (potential_appendUntilGap hs' hsub).trans_lt hlt
    · have hc : c ∈ cs := (List.mem_cons.mp hc).resolve_left fun e => hmd (e ▸ hm)
      have hb := not_blocked_of_moves hs.interval_pos (hd c hc) hm
      rw [if_neg fun e => hb ((appendOrReplace_gap_iff hs).mp e)]
      have hfmt := appendOrReplace_format hs d
      have htail := (appendOrReplace_of_not_moves hs hmd).1
      rw [← potential_of_not_moves hs hmd]
      exact ih hs' hsub hasc hc ((moves_congr hfmt htail).mpr hm)

end Append

/-! ## Pages and repairs -/

theorem intervalToMs_pos (label : List Char) : 0 < intervalToMs label := by
  unfold intervalToMs
  split
  · decide
  · dsimp only
    split
    · rename_i h
      simpa [Interval.valid] using h
    · decide

theorem clampIntervalMs_pos (cfg : SyncConfig) : 0 < clampIntervalMs cfg := by
  unfold clampIntervalMs
  split
  · assumption
  · exact intervalToMs_pos _

theorem repairLimit_pos (gap : AppendResult) (intervalMs : Int) : 0 < repairLimit gap intervalMs := by
  unfold repairLimit
  dsimp only
  split_ifs <;> omega

section Repair

variable [TimeUtils] {cfg : SyncConfig} {market : Market} {s : Orchestrator} {gap : AppendResult}
  {batch history : List Candle}

theorem repairGap_of_repairing (h : s.repairing = true) :
    repairGap cfg market s gap batch = s := by
  rw [repairGap, if_pos h]

/-- A repair is two runs of the appending loop. -/
theorem repairGap_eq (h : s.repairing = false) (hgap : gap.expectedFrom < gap.expectedTo) :
    repairGap cfg market s gap batch =
      { s with
        repo := (appendUntilGap (appendUntilGap s.repo (market ⟨gap.expectedFrom, gap.expectedTo - 1⟩
            (repairLimit gap (clampIntervalMs cfg)))).2
          (batch.filter fun c =>
            gap.expectedTo ≤ alignDownMs c.openTime (clampIntervalMs cfg))).2 } := by
  have hI := clampIntervalMs_pos cfg
  rw [repairGap, if_neg (by rw [h]; decide)]
  dsimp only
  rw [if_neg (by omega), if_neg (by omega)]

/-- Repairs and pages offer candles to the repository and change nothing else. -/
theorem repairGap_run (cfg : SyncConfig) (market : Market) (s : Orchestrator) (gap : AppendResult)
    (batch : List Candle) :
    ∃ cs, repairGap cfg market s gap batch = { s with repo := s.repo.appends cs } ∧
      ∀ c ∈ cs, c ∈ batch ∨ ∃ range limit, c ∈ market range limit := by
  by_cases h : s.repairing = true
  · exact ⟨[], repairGap_of_repairing h, fun c hc => absurd hc List.not_mem_nil⟩
  have h : s.repairing = false := by simpa using h
  by_cases hgap : gap.expectedFrom < gap.expectedTo
  · rw [repairGap_eq h hgap]
    generalize hm : market ⟨gap.expectedFrom, gap.expectedTo - 1⟩ _ = missing
    obtain ⟨pre, hpre, e⟩ := appendUntilGap_eq missing s.repo
    generalize hb : batch.filter _ = retry
    obtain ⟨pre', hpre', e'⟩ := appendUntilGap_eq retry (appendUntilGap s.repo missing).2
    refine ⟨pre ++ pre', by rw [e', e, appends_append], fun c hc => ?_⟩
    rcases List.mem_append.mp hc with hc | hc
    · exact .inr ⟨_, _, hm ▸ hpre.subset hc⟩
    · have := hpre'.subset hc
      rw [← hb] at this
      exact .inl (List.mem_of_mem_filter this)
  · refine ⟨[], ?_, fun c hc => absurd hc List.not_mem_nil⟩
    rw [repairGap, if_neg (by rw [h]; decide)]
    dsimp only
    split
    · rfl
    · rw [if_pos (by omega)]
      rfl

theorem appendPage_of_none {cs : List Candle} (h : (appendUntilGap s.repo cs).1 = none) :
    appendPage cfg market s cs = (false, { s with repo := (appendUntilGap s.repo cs).2 }) := by
  unfold appendPage
  dsimp only
  rw [h]

theorem appendPage_of_some {cs : List Candle} (h : (appendUntilGap s.repo cs).1 = some gap) :
    appendPage cfg market s cs =
      (true, repairGap cfg market { s with repo := (appendUntilGap s.repo cs).2 } gap cs) := by
  unfold appendPage
  dsimp only
  rw [h]

theorem appendPage_run (cfg : SyncConfig) (market : Market) (s : Orchestrator)
    (cs : List Candle) :
    ∃ ds, (appendPage cfg market s cs).2 = { s with repo := s.repo.appends ds } ∧
      ∀ c ∈ ds, c ∈ cs ∨ ∃ range limit, c ∈ market range limit := by
  obtain ⟨pre, hpre, e⟩ := appendUntilGap_eq cs s.repo
  cases h : (appendUntilGap s.repo cs).1 with
  | none =>
    rw [appendPage_of_none h]
    exact ⟨pre, by rw [e], fun c hc => .inl (hpre.subset hc)⟩
  | some gap =>
    rw [appendPage_of_some h]
    obtain ⟨ds, e', hds⟩ := repairGap_run cfg market
      { s with repo := (appendUntilGap s.repo cs).2 } gap cs
    refine ⟨pre ++ ds, by rw [e', e, appends_append], fun c hc => ?_⟩
    rcases List.mem_append.mp hc with hc | hc
    · exact .inl (hpre.subset hc)
    · exact hds c hc

theorem appendPage_sound (hs : s.repo.Sound) (cs : List Candle) :
    (appendPage cfg market s cs).2.repo.Sound ∧
      (appendPage cfg market s cs).2.repo.format = s.repo.format := by
  obtain ⟨ds, e, -⟩ := appendPage_run cfg market s cs
  rw [e]
  exact appends_sound hs ds

end Repair

end TCV.App
