import TradingChartViewer.App.Appending
import TradingChartViewer.Storage.Contiguous

/-!
# Repairing a gap

What `repairGap` makes of a contiguous repository that has just reported a `Gap`: two
runs of the appending loop, over the answer of the market and over the candles of the
page from the gap's end on.

* `appendUntilGap_ticks`: candles at the next grid times are all appended;
* `exists_filter_ticks`: the part of a page from a grid time on;
* `appends_keeps`: what any candles leave of the last one;
* `repairGap_series`: a full answer closes the gap, and no answer loses a candle.
-/

namespace TCV.App

open TCV.Domain TCV.Storage Lib.Tape Lib.Grid

/-! ## Series -/

/-- A series as the repository keeps it: closed, but possibly its last candle. -/
def sealedButLast (cs : List Candle) : List Candle :=
  cs.dropLast.map Candle.sealed ++ cs.getLast?.toList

theorem sealedButLast_concat (cs : List Candle) (c : Candle) :
    sealedButLast (cs ++ [c]) = cs.map Candle.sealed ++ [c] := by
  rw [sealedButLast, List.dropLast_concat, List.getLast?_concat]
  rfl

theorem sealedButLast_cons {cs : List Candle} (c : Candle) (h : cs ≠ []) :
    sealedButLast (c :: cs) = c.sealed :: sealedButLast cs := by
  obtain ⟨init, last, rfl⟩ : ∃ init last, cs = init ++ [last] :=
    ⟨_, _, (List.dropLast_append_getLast h).symm⟩
  rw [← List.cons_append, sealedButLast_concat, sealedButLast_concat]
  rfl

@[simp] theorem sealed_sealed (c : Candle) : c.sealed.sealed = c.sealed := rfl

theorem map_sealed_sealedButLast (cs : List Candle) :
    (sealedButLast cs).map Candle.sealed = cs.map Candle.sealed := by
  cases hl : cs.getLast? with
  | none =>
    rw [List.getLast?_eq_none_iff.mp hl]
    rfl
  | some last =>
    obtain ⟨init, rfl⟩ : ∃ init, cs = init ++ [last] := ⟨_, (dropLast_append_of_getLast? hl).symm⟩
    rw [sealedButLast_concat]
    simp

/-- Closed candles are kept as they are. -/
theorem map_sealed_of_closed {cs : List Candle} (h : ∀ c ∈ cs, c.isClosed = true) :
    cs.map Candle.sealed = cs := by
  apply (List.map_congr_left fun c hc => ?_).trans (List.map_id cs)
  exact candleCells.finish_of_final c (h c hc)

/-! ## Candles at the next grid times -/

section Next

variable [TimeUtils] {r : Repository} {c last : Candle} {pre cs : List Candle}

/-- A candle right after the last one. -/
theorem appendOrReplace_next (h : r.Contiguous) (hl : r.candles.getLast? = some last)
    (ht : (r.normalizeCandle c).openTime = last.openTime + r.intervalMs) :
    (r.appendOrReplace c).1.state = .ok ∧
      (r.appendOrReplace c).2.candles = r.candles.dropLast ++ [last.sealed] ++ [r.normalizeCandle c] ∧
      (r.appendOrReplace c).2.hasGap = false := by
  have hlast := List.mem_of_getLast? hl
  have ha : r.accepts c = true := by
    rw [accepts_iff h.interval_pos, ht]
    have := (h.onGrid last hlast).1
    have := h.interval_pos
    exact ⟨by omega, h.persistable (List.ne_nil_of_mem hlast)⟩
  have hp : place candleCells r.intervalMs r.candles (r.normalizeCandle c) = .follow :=
    (place_eq_follow h.interval_pos hl).mpr ht
  unfold Repository.appendOrReplace
  rw [appendOrReplaceLocked_of_accepts h.toSound ha]
  refine ⟨?_, offer_follow hp hl, ?_⟩
  · simp only [resultOf, hp]
  · simp only [gapFlag, hp]

/-- Candles at the next grid times are all appended. -/
theorem appendUntilGap_ticks (h : r.Contiguous) (hl : r.candles.getLast? = some last)
    (hne : cs ≠ [])
    (ht : cs.map (fun c => (r.normalizeCandle c).openTime) =
      ticks (last.openTime + r.intervalMs) r.intervalMs cs.length) :
    (appendUntilGap r cs).2.candles =
        r.candles.map Candle.sealed ++ sealedButLast (cs.map r.normalizeCandle) ∧
      (appendUntilGap r cs).2.hasGap = false := by
  induction cs generalizing r last with
  | nil => exact absurd rfl hne
  | cons c cs ih =>
    rw [List.map_cons, List.length_cons, ticks_succ, List.cons.injEq] at ht
    obtain ⟨hc, ht⟩ := ht
    obtain ⟨hstate, hcandles, hgap⟩ := appendOrReplace_next h hl hc
    have hfmt := appendOrReplace_format h.toSound c
    have hI : (r.appendOrReplace c).2.intervalMs = r.intervalMs := congrArg (·.2.2.1) hfmt
    have hclosed : r.candles.dropLast.map Candle.sealed = r.candles.dropLast :=
      map_sealed_of_closed h.closed
    have hold : r.candles.map Candle.sealed = r.candles.dropLast ++ [last.sealed] := by
      conv_lhs => rw [← dropLast_append_of_getLast? hl, List.map_append, hclosed]
      rfl
    rw [appendUntilGap_cons, if_neg (by rw [hstate]; decide)]
    by_cases hcs : cs = []
    · subst hcs
      refine ⟨?_, hgap⟩
      rw [appendUntilGap, hcandles, hold, List.map_singleton]
      rfl
    · have hl' : (r.appendOrReplace c).2.candles.getLast? = some (r.normalizeCandle c) := by
        rw [hcandles, List.getLast?_concat]
      obtain ⟨e, hg⟩ := ih (h.appendOrReplace c) hl' hcs (by
        rw [normalizeCandle_congr hfmt, hI, hc]
        exact ht)
      have hsealed : (r.appendOrReplace c).2.candles.map Candle.sealed =
          r.candles.map Candle.sealed ++ [(r.normalizeCandle c).sealed] := by
        rw [hcandles, List.map_append, List.map_append, hclosed, hold]
        rfl
      refine ⟨?_, hg⟩
      rw [e, hsealed, normalizeCandle_congr hfmt, List.map_cons,
        sealedButLast_cons _ (by simpa using hcs), List.append_assoc]
      rfl

/-- Two lists of such candles, one after the other. -/
theorem appendUntilGap_two (h : r.Contiguous) (hl : r.candles.getLast? = some last)
    {as bs : List Candle} (has : as ≠ []) (hbs : bs ≠ [])
    (hta : as.map (fun c => (r.normalizeCandle c).openTime) =
      ticks (last.openTime + r.intervalMs) r.intervalMs as.length)
    (htb : bs.map (fun c => (r.normalizeCandle c).openTime) =
      ticks (last.openTime + (as.length + 1) * r.intervalMs) r.intervalMs bs.length) :
    (appendUntilGap (appendUntilGap r as).2 bs).2.candles =
        (r.candles ++ as.map r.normalizeCandle).map Candle.sealed ++
          sealedButLast (bs.map r.normalizeCandle) ∧
      (appendUntilGap (appendUntilGap r as).2 bs).2.hasGap = false := by
  obtain ⟨e, -⟩ := appendUntilGap_ticks h hl has hta
  obtain ⟨ds, -, hds⟩ := appendUntilGap_eq as r
  have hcont : (appendUntilGap r as).2.Contiguous := by
    rw [hds]
    exact appends_induction (fun r c h => h.appendOrReplace c) h ds
  have hfmt := (appendUntilGap_sound h.toSound as).2
  have hI : (appendUntilGap r as).2.intervalMs = r.intervalMs := congrArg (·.2.2.1) hfmt
  obtain ⟨init, final, rfl⟩ : ∃ init final, as = init ++ [final] :=
    ⟨_, _, (List.dropLast_append_getLast has).symm⟩
  have hl' : (appendUntilGap r (init ++ [final])).2.candles.getLast? =
      some (r.normalizeCandle final) := by
    rw [e, List.map_append, List.map_singleton, sealedButLast_concat, ← List.append_assoc,
      List.getLast?_concat]
  -- The second list starts one step after the last candle of the first.
  have hfinal : (r.normalizeCandle final).openTime + r.intervalMs =
      last.openTime + ((init ++ [final]).length + 1) * r.intervalMs := by
    have := congrArg List.getLast? hta
    rw [List.map_append, List.map_singleton, List.getLast?_concat, List.length_append,
      List.length_singleton, getLast?_ticks] at this
    rw [Option.some.inj this, List.length_append, List.length_singleton]
    push_cast
    ring
  obtain ⟨e', hflag⟩ := appendUntilGap_ticks hcont hl' hbs (by
    rw [normalizeCandle_congr hfmt, hI, hfinal]
    exact htb)
  refine ⟨?_, hflag⟩
  rw [e', e, normalizeCandle_congr hfmt, List.map_append, map_sealed_sealedButLast, List.map_append]
  simp [Function.comp_def]

end Next

/-- The candles of a page from a grid time on stand at the grid times from there. -/
theorem exists_filter_ticks {I b : Int} (hI : 0 < I) {batch : List Candle} {f : Candle → Int}
    (hs : Spaced I (batch.map f)) (hb : ∃ d ∈ batch, f d = b) :
    (batch.filter fun d => b ≤ f d) ≠ [] ∧
      (batch.filter fun d => b ≤ f d).map f = ticks b I (batch.filter fun d => b ≤ f d).length := by
  obtain ⟨d, hd, rfl⟩ := hb
  obtain ⟨as, bs, rfl⟩ := List.append_of_mem hd
  have hasc := hs.pairwise hI
  rw [List.map_append, List.map_cons, List.pairwise_append, List.pairwise_cons] at hasc
  obtain ⟨-, ⟨hbs, -⟩, has⟩ := hasc
  have hbefore : as.filter (fun e => decide (f d ≤ f e)) = [] := by
    rw [List.filter_eq_nil_iff]
    intro e he
    have := has (f e) (List.mem_map_of_mem he) (f d) List.mem_cons_self
    simpa using this
  have hafter : (d :: bs).filter (fun e => decide (f d ≤ f e)) = d :: bs := by
    rw [List.filter_eq_self]
    intro e he
    rcases List.mem_cons.mp he with rfl | he
    · simp
    · have := hbs (f e) (List.mem_map_of_mem he)
      simpa using this.le
  rw [List.filter_append, hbefore, hafter, List.nil_append]
  refine ⟨List.cons_ne_nil _ _, ?_⟩
  rw [Spaced, List.map_append, List.isChain_append] at hs
  have := Spaced.eq_ticks (show Spaced I (f d :: bs.map f) from hs.2.1)
  rw [List.length_map] at this
  exact this

/-! ## What is left of the last candle -/

/-- A candle keeps its place and time, does not open again, and has the values it had or
those of an offered candle. -/
structure Kept (r : Repository) (offered : List Candle) (c c' : Candle) : Prop where
  time : c'.openTime = c.openTime
  closed : c.isClosed = true → c'.isClosed = true
  values : c'.sealed = c.sealed ∨ ∃ d ∈ offered, c'.sealed = (r.normalizeCandle d).sealed

section Keeps

variable [TimeUtils] {r : Repository}

theorem appends_keeps (h : r.Sound) {pre : List Candle} {last : Candle}
    (hc : r.candles = pre ++ [last]) (cs : List Candle) :
    ∃ last' more, (r.appends cs).candles = pre ++ last' :: more ∧ Kept r cs last last' := by
  induction cs using List.reverseRecOn with
  | nil => exact ⟨last, [], hc, rfl, id, .inl rfl⟩
  | append_singleton cs c ih =>
    obtain ⟨last', more, e, hk⟩ := ih
    obtain ⟨hs, hfmt⟩ := appends_sound h cs
    have hI : (r.appends cs).intervalMs = r.intervalMs := congrArg (·.2.2.1) hfmt
    have hwider : ∀ {d : Candle}, d.sealed = last.sealed ∨
        (∃ e ∈ cs, d.sealed = (r.normalizeCandle e).sealed) →
        d.sealed = last.sealed ∨ ∃ e ∈ cs ++ [c], d.sealed = (r.normalizeCandle e).sealed := by
      rintro d (hd | ⟨e, he, hd⟩)
      · exact .inl hd
      · exact .inr ⟨e, List.mem_append_left _ he, hd⟩
    have hnext := candles_appendOrReplace hs c
    rw [appends_append]
    change ∃ last' more, ((r.appends cs).appendOrReplace c).2.candles = _ ∧ _
    rw [hnext, e]
    cases (r.appends cs).accepts c with
    | false => exact ⟨last', more, rfl, hk.time, hk.closed, hwider hk.values⟩
    | true =>
      obtain ⟨cell, more', e', ht, hf, hv⟩ := offer_cell (C := candleCells)
        (I := (r.appends cs).intervalMs) pre last' more ((r.appends cs).normalizeCandle c)
      refine ⟨cell, more', e', ht.trans hk.time, fun hlast => hf (hk.closed hlast), ?_⟩
      rcases hv with rfl | rfl | rfl
      · exact hwider hk.values
      · exact hwider hk.values
      · rw [normalizeCandle_congr hfmt]
        exact .inr ⟨c, by simp, rfl⟩

/-- The repository right after it has reported a `Gap`: nothing but the flag changed. -/
theorem candles_of_blocked (h : r.Sound) {c : Candle} (hb : r.Blocked c) :
    (r.appendOrReplace c).2.candles = r.candles := by
  obtain ⟨ha, hb⟩ := hb
  cases hl : r.candles.getLast? with
  | none => simp [Repository.tail, hl] at hb
  | some last =>
    simp only [Repository.tail, hl, Option.map_some] at hb
    rw [candles_appendOrReplace h, if_pos ha]
    exact offer_gap ((place_eq_gap (C := candleCells) h.interval_pos hl).mpr hb)

end Keeps

/-! ## The repair -/

section Repair

variable [TimeUtils] {r : Repository} {c : Candle} {cfg : SyncConfig} {s : Orchestrator}
  {batch : List Candle}

/-- The gap a contiguous repository reports: whole steps after its last candle. -/
theorem gap_of_blocked (h : r.Contiguous) (hb : r.Blocked c) :
    ∃ last n, r.candles.getLast? = some last ∧
      (r.appendOrReplace c).1.expectedFrom = last.openTime + r.intervalMs ∧
      (r.appendOrReplace c).1.expectedTo =
        (r.appendOrReplace c).1.expectedFrom + (n + 1 : Nat) * r.intervalMs := by
  have hI := h.interval_pos
  obtain ⟨t, closed, htail, hfrom, hto⟩ := expected_of_blocked h.toSound hb
  obtain ⟨last, hl, rfl, -⟩ := tail_eq_some.mp htail
  have hlt : last.openTime + r.intervalMs < (r.normalizeCandle c).openTime := by
    have := hb.2
    rwa [htail] at this
  -- Both ends are on the grid.
  have hd : r.intervalMs ∣ (r.normalizeCandle c).openTime - (last.openTime + r.intervalMs) :=
    Int.dvd_sub (dvd_normalizeCandle hI c)
      (Int.dvd_add (h.onGrid last (List.mem_of_getLast? hl)).2.1 (Int.dvd_refl _))
  obtain ⟨k, hk⟩ := hd
  have hk0 : 0 < k := by
    by_contra hk0
    have : r.intervalMs * k ≤ 0 := Int.mul_nonpos_of_nonneg_of_nonpos hI.le (by omega)
    omega
  refine ⟨last, (k - 1).toNat, hl, hfrom, ?_⟩
  rw [hto, hfrom, show (((k - 1).toNat + 1 : Nat) : Int) = k by omega, Int.mul_comm k]
  omega

theorem repairGap_contiguous (h : s.repo.Contiguous) (cfg : SyncConfig) (market : Market)
    (gap : AppendResult) (batch : List Candle) : (repairGap cfg market s gap batch).repo.Contiguous := by
  obtain ⟨cs, e, -⟩ := repairGap_run cfg market s gap batch
  rw [e]
  exact appends_induction (fun r c h => h.appendOrReplace c) h cs

/-- What the exact answer for a gap of `n + 1` steps makes of the repository. -/
theorem repairGap_closes (h : s.repo.Contiguous) (hcfg : clampIntervalMs cfg = s.repo.intervalMs)
    (hrep : s.repairing = false) (market : Market) {gap : AppendResult} {last : Candle} {n : Nat}
    (hl : s.repo.candles.getLast? = some last)
    (hfrom : gap.expectedFrom = last.openTime + s.repo.intervalMs)
    (hto : gap.expectedTo = gap.expectedFrom + (n + 1 : Nat) * s.repo.intervalMs)
    (hbatch : Spaced s.repo.intervalMs
      (batch.map fun d => alignDownMs d.openTime s.repo.intervalMs))
    (hend : ∃ d ∈ batch, alignDownMs d.openTime s.repo.intervalMs = gap.expectedTo)
    {answer : List Candle} (hmarket : market ⟨gap.expectedFrom, gap.expectedTo - 1⟩
      (repairLimit gap s.repo.intervalMs) = answer)
    (hanswer : answer.map (fun d => alignDownMs d.openTime s.repo.intervalMs) =
      ticks gap.expectedFrom s.repo.intervalMs (n + 1)) :
    (repairGap cfg market s gap batch).repo.candles =
        (s.repo.candles ++ answer.map s.repo.normalizeCandle).map Candle.sealed ++
          sealedButLast ((batch.filter fun d =>
            gap.expectedTo ≤ alignDownMs d.openTime s.repo.intervalMs).map s.repo.normalizeCandle) ∧
      (repairGap cfg market s gap batch).repo.hasGap = false := by
  have hI := h.interval_pos
  have hlong : 0 < (n + 1 : Nat) * s.repo.intervalMs := Int.mul_pos (by omega) hI
  have hlen : answer.length = n + 1 := by simpa using congrArg List.length hanswer
  have hne : answer ≠ [] := List.length_pos_iff.mp (by omega)
  have hnorm : ∀ d : Candle,
      (s.repo.normalizeCandle d).openTime = alignDownMs d.openTime s.repo.intervalMs :=
    normalizeCandle_openTime hI
  obtain ⟨hretry, htimes⟩ := exists_filter_ticks hI hbatch hend
  have hstart : last.openTime + ((answer.length : Int) + 1) * s.repo.intervalMs =
      gap.expectedTo := by
    rw [hlen, hto, hfrom]
    push_cast
    ring
  rw [repairGap_eq hrep (by omega), hcfg, hmarket]
  apply appendUntilGap_two h hl hne hretry
  · rw [← hfrom, hlen]
    exact (List.map_congr_left fun d _ => hnorm d).trans hanswer
  · rw [hstart]
    exact (List.map_congr_left fun d _ => hnorm d).trans htimes

variable (batch) in
/-- What any answer leaves of the last candle: the candles of the page come later. -/
theorem repairGap_keeps (h : s.repo.Contiguous) (hcfg : clampIntervalMs cfg = s.repo.intervalMs)
    (hrep : s.repairing = false) (market : Market) {gap : AppendResult}
    (hgap : gap.expectedFrom < gap.expectedTo) {pre : List Candle} {last : Candle}
    (hc : s.repo.candles = pre ++ [last]) (hlast : last.openTime < gap.expectedTo) :
    ∃ last' more, (repairGap cfg market s gap batch).repo.candles = pre ++ last' :: more ∧
      Kept s.repo (market ⟨gap.expectedFrom, gap.expectedTo - 1⟩
        (repairLimit gap s.repo.intervalMs)) last last' := by
  rw [repairGap_eq hrep hgap, hcfg]
  generalize market ⟨gap.expectedFrom, gap.expectedTo - 1⟩ _ = answer
  generalize hr : batch.filter _ = retry
  obtain ⟨ds, hds, e₁⟩ := appendUntilGap_eq answer s.repo
  obtain ⟨es, hes, e₂⟩ := appendUntilGap_eq retry (appendUntilGap s.repo answer).2
  obtain ⟨last', more, e, hk⟩ := appends_keeps h.toSound hc (ds ++ es)
  refine ⟨last', more, by rw [e₂, e₁, ← appends_append]; exact e, hk.time, hk.closed, ?_⟩
  rcases hk.values with hv | ⟨d, hd, hv⟩
  · exact .inl hv
  · rcases List.mem_append.mp hd with hd | hd
    · exact .inr ⟨d, hds.subset hd, hv⟩
    · have hd : d ∈ retry := hes.subset hd
      have hle : gap.expectedTo ≤ alignDownMs d.openTime s.repo.intervalMs := by
        rw [← hr] at hd
        simpa using (List.mem_filter.mp hd).2
      have htime : last'.sealed.openTime = (s.repo.normalizeCandle d).sealed.openTime :=
        congrArg Candle.openTime hv
      have hsame : last'.sealed.openTime = last.openTime := hk.time
      have hnorm : (s.repo.normalizeCandle d).sealed.openTime =
          alignDownMs d.openTime s.repo.intervalMs := normalizeCandle_openTime h.interval_pos d
      omega

/-- A contiguous repository that reported a gap, and a repair of it with a contiguous page that
contains the candle at the end of the gap. An answer with one candle at every time of the gap
closes it: the old series, the answer and the rest of the page follow each other, closed but
possibly the last candle. Any answer leaves a contiguous series with the old candles in it, the
last one possibly replaced by a candle of the answer at its time. -/
theorem repairGap_series (h : r.Contiguous) (hgap : (r.appendOrReplace c).1.state = .gap)
    (hcfg : clampIntervalMs cfg = r.intervalMs) (hs : s.repo = (r.appendOrReplace c).2)
    (hrep : s.repairing = false)
    (hbatch : Spaced r.intervalMs (batch.map fun d => alignDownMs d.openTime r.intervalMs))
    (hend : ∃ d ∈ batch, alignDownMs d.openTime r.intervalMs = (r.appendOrReplace c).1.expectedTo)
    (market : Market) :
    let gap := (r.appendOrReplace c).1
    let answer := market ⟨gap.expectedFrom, gap.expectedTo - 1⟩ (repairLimit gap r.intervalMs)
    let retry := batch.filter fun d => gap.expectedTo ≤ alignDownMs d.openTime r.intervalMs
    let r' := (repairGap cfg market s gap batch).repo
    (answer.map (fun d => alignDownMs d.openTime r.intervalMs) =
          ticks gap.expectedFrom r.intervalMs
            ((gap.expectedTo - gap.expectedFrom) / r.intervalMs).toNat →
        r'.candles = (r.candles ++ answer.map r.normalizeCandle).map Candle.sealed ++
            sealedButLast (retry.map r.normalizeCandle) ∧
          r'.hasGap = false) ∧
      r'.Contiguous ∧
      ∀ pre last, r.candles = pre ++ [last] →
        ∃ last' more, r'.candles = pre ++ last' :: more ∧ Kept r answer last last' := by
  intro gap answer retry r'
  have hI := h.interval_pos
  have hblocked : r.Blocked c := (appendOrReplace_gap_iff h.toSound).mp hgap
  obtain ⟨last, n, hl, hfrom, hto⟩ := gap_of_blocked h hblocked
  change gap.expectedFrom = _ at hfrom
  change gap.expectedTo = gap.expectedFrom + _ at hto
  have hlong : 0 < (n + 1 : Nat) * r.intervalMs := Int.mul_pos (by omega) hI
  have hcandles := candles_of_blocked h.toSound hblocked
  -- Only the flag of the repository has changed.
  have hfmt : s.repo.format = r.format := by rw [hs, appendOrReplace_format h.toSound c]
  have hI' : s.repo.intervalMs = r.intervalMs := congrArg (·.2.2.1) hfmt
  have hcont : s.repo.Contiguous := hs ▸ h.appendOrReplace c
  have hc' : s.repo.candles = r.candles := by rw [hs, hcandles]
  have hcfg : clampIntervalMs cfg = s.repo.intervalMs := hcfg.trans hI'.symm
  refine ⟨fun hanswer => ?_, repairGap_contiguous hcont cfg market gap batch, fun pre old hold => ?_⟩
  · have hcount : ((gap.expectedTo - gap.expectedFrom) / r.intervalMs).toNat = n + 1 := by
      have : gap.expectedTo - gap.expectedFrom = (n + 1 : Nat) * r.intervalMs := by omega
      rw [this, Int.mul_ediv_cancel _ hI.ne', Int.toNat_natCast]
    rw [hcount] at hanswer
    have hmarket : market ⟨gap.expectedFrom, gap.expectedTo - 1⟩
        (repairLimit gap s.repo.intervalMs) = answer := by rw [hI']
    rw [← hI'] at hfrom hto hbatch hend hanswer
    have := repairGap_closes hcont hcfg hrep market (hc' ▸ hl) hfrom hto hbatch hend hmarket hanswer
    rwa [hI', hc', normalizeCandle_congr hfmt] at this
  · have hlast : old.openTime < gap.expectedTo := by
      rw [hold, List.getLast?_concat, Option.some.injEq] at hl
      rw [hl]
      omega
    have hlt : gap.expectedFrom < gap.expectedTo := by omega
    obtain ⟨last', more, e, hk⟩ := repairGap_keeps batch hcont hcfg hrep market hlt
      (hc'.trans hold) hlast
    rw [hI'] at hk
    refine ⟨last', more, e, hk.time, hk.closed, ?_⟩
    rw [← normalizeCandle_congr hfmt]
    exact hk.values

end Repair

/-- The repository of the example: one candle at 60000, open. -/
def oneOpenCandle : Repository :=
  ((Repository.construct .insertion {} ['B'] ⟨60000⟩).appendOrReplace (flatCandle 60000 false)).2

/-- A page that goes on at 240000 after a candle at 60000, with two candles missing. -/
theorem repairGap_series_minutes :
    let market : Market := fun range _ =>
      [flatCandle 120000 true, flatCandle 180000 true].filter fun d =>
        range.start ≤ d.openTime && d.openTime ≤ range.end_
    let gap := (oneOpenCandle.appendOrReplace (flatCandle 240000 true)).1
    let s : Orchestrator := { repo := (oneOpenCandle.appendOrReplace (flatCandle 240000 true)).2 }
    let r' := (repairGap {} market s gap [flatCandle 240000 true, flatCandle 300000 false]).repo
    r'.candles.map Candle.openTime = [60000, 120000, 180000, 240000, 300000] ∧
      r'.candles.map Candle.isClosed = [true, true, true, true, false] ∧ r'.hasGap = false := by
  intro market gap s r'
  have h : oneOpenCandle.Contiguous :=
    (construct_contiguous .insertion rfl ['B'] (by decide)).appendOrReplace _
  have hgap : gap.state = .gap := by decide +kernel
  have hcfg : clampIntervalMs ({} : SyncConfig) = oneOpenCandle.intervalMs := by decide +kernel
  have hrepo : s.repo = (oneOpenCandle.appendOrReplace (flatCandle 240000 true)).2 := rfl
  have hbatch : Spaced oneOpenCandle.intervalMs
      ([flatCandle 240000 true, flatCandle 300000 false].map fun d =>
        alignDownMs d.openTime oneOpenCandle.intervalMs) := by
    unfold Spaced
    decide +kernel
  have := (repairGap_series h hgap hcfg hrepo rfl hbatch (by decide +kernel) market).1
    (by decide +kernel)
  refine ⟨?_, ?_, this.2⟩
  · rw [show r'.candles = _ from this.1]
    decide +kernel
  · rw [show r'.candles = _ from this.1]
    decide +kernel

end TCV.App
