import TradingChartViewer.Storage.Series

/-!
# Contiguous series

A repository whose candles stand at consecutive positive multiples of its
interval, all closed but possibly the last. Nothing a caller does to a
repository opened on an empty file leaves this set.

* `Repository.Contiguous`: the invariant;
* `Call`, `Repository.calls`: runs of the three writing operations;
* `calls_induction`: what single candles and sealing keep, runs keep;
* `outcome_appendOrReplace`: the cases of one candle;
* `dropLast_prefix_calls`: a candle that is no longer the last never changes.
-/

namespace TCV.Storage

open TCV.Domain Lib.Tape Lib.Grid

/-! ## Runs -/

/-- The calls that write to a repository. -/
inductive Call
  | appendOrReplace (candle : Candle)
  | appendBatch (batch : List Candle)
  | sealOpenTailIfAny

def Repository.call [TimeUtils] (sort : StdSort) (r : Repository) : Call → Repository
  | .appendOrReplace candle => (r.appendOrReplace candle).2
  | .appendBatch batch => (r.appendBatch sort batch).2
  | .sealOpenTailIfAny => r.sealOpenTailIfAny.2

def Repository.calls [TimeUtils] (sort : StdSort) (r : Repository) (cs : List Call) : Repository :=
  cs.foldl (Repository.call sort) r

section Runs

variable [TimeUtils] {P : Repository → Prop} {sort : StdSort}

theorem appends_induction (happend : ∀ r c, P r → P (r.appendOrReplace c).2) {r : Repository}
    (h : P r) (cs : List Candle) : P (r.appends cs) := by
  induction cs generalizing r with
  | nil => exact h
  | cons c cs ih => exact ih (happend r c h)

theorem call_induction (happend : ∀ r c, P r → P (r.appendOrReplace c).2)
    (hseal : ∀ r, P r → P r.sealOpenTailIfAny.2) {r : Repository} (h : P r) (c : Call) :
    P (r.call sort c) := by
  cases c with
  | appendOrReplace candle => exact happend r candle h
  | appendBatch batch =>
    obtain ⟨pre, -, e⟩ := appendBatch_eq sort r batch
    rw [Repository.call, e]
    exact appends_induction happend h pre
  | sealOpenTailIfAny => exact hseal r h

/-- What single candles and sealing keep, every run keeps. -/
theorem calls_induction (happend : ∀ r c, P r → P (r.appendOrReplace c).2)
    (hseal : ∀ r, P r → P r.sealOpenTailIfAny.2) {r : Repository} (h : P r) (cs : List Call) :
    P (r.calls sort cs) := by
  induction cs generalizing r with
  | nil => exact h
  | cons c cs ih => exact ih (call_induction happend hseal h c)

end Runs

/-- A repository that a constructor built on some file, after some calls. -/
theorem calls_sound [TimeUtils] (sort : StdSort) (file : DataFile) (symbol : List Char)
    (interval : Interval)
    (cs : List Call) : ((Repository.construct sort file symbol interval).calls sort cs).Sound :=
  calls_induction (P := Repository.Sound) (fun _ c h => appendOrReplace_sound h c)
    (fun _ h => sealOpenTailIfAny_sound h) (construct_sound sort file symbol interval) cs

/-! ## The invariant -/

structure Repository.Contiguous (r : Repository) : Prop extends r.Sound where
  spaced : Spaced r.intervalMs (r.candles.map Candle.openTime)
  onGrid : ∀ c ∈ r.candles, 0 < c.openTime ∧ r.intervalMs ∣ c.openTime ∧
    c.closeTime = c.openTime + r.intervalMs - 1
  persistable : r.candles ≠ [] → r.persistable = true

section Invariant

variable {r : Repository}

theorem Repository.Contiguous.ok (h : r.Contiguous) : Ok candleCells r.intervalMs r.candles :=
  ⟨h.spaced, h.closed⟩

/-- A property of candles that ignores `isClosed` and holds of an offered candle
is kept by the offer. -/
theorem forall_mem_offer {Q : Candle → Prop} (hQ : ∀ c, Q c → Q c.sealed) {I : Int}
    {cells : List Candle} {n : Candle} (hn : Q n) (h : ∀ c ∈ cells, Q c) :
    ∀ c ∈ offer candleCells I cells n, Q c := by
  have hdrop : ∀ c ∈ cells.dropLast, Q c := fun c hc => h c (List.dropLast_subset _ hc)
  unfold offer
  split
  · simpa using hn
  · simpa [or_imp, forall_and] using ⟨hdrop, hn⟩
  · intro c hc
    rcases List.mem_append.mp hc with hc | hc
    · rcases List.mem_append.mp hc with hc | hc
      · exact hdrop c hc
      · obtain ⟨last, hl, rfl⟩ := Option.mem_map.mp (Option.mem_toList.mp hc)
        exact hQ last (h last (List.mem_of_getLast? hl))
    · rwa [List.mem_singleton.mp hc]
  · exact h
  · exact h

theorem normalizeCandle_closeTime (hI : 0 < r.intervalMs) {c : Candle}
    (h : 0 < (r.normalizeCandle c).openTime) :
    (r.normalizeCandle c).closeTime = (r.normalizeCandle c).openTime + r.intervalMs - 1 := by
  unfold Repository.normalizeCandle at h ⊢
  rw [if_pos hI] at h ⊢
  dsimp only at h ⊢
  rw [if_pos h]

theorem Repository.Contiguous.appendOrReplace [TimeUtils] (h : r.Contiguous) (c : Candle) :
    (r.appendOrReplace c).2.Contiguous := by
  have hI := h.interval_pos
  have hs := appendOrReplace_sound h.toSound c
  unfold Repository.appendOrReplace at hs ⊢
  cases hc : r.accepts c with
  | false => rwa [appendOrReplaceLocked_of_not_accepts hc]
  | true =>
    rw [appendOrReplaceLocked_of_accepts h.toSound hc] at hs ⊢
    obtain ⟨hpos, hp⟩ := (accepts_iff hI).mp hc
    exact ⟨hs, offer_spaced (C := candleCells) hI h.spaced _, forall_mem_offer (fun _ => id)
      ⟨hpos, dvd_normalizeCandle hI c, normalizeCandle_closeTime hI hpos⟩ h.onGrid, fun _ => hp⟩

theorem Repository.Contiguous.sealOpenTailIfAny [TimeUtils] (h : r.Contiguous) :
    r.sealOpenTailIfAny.2.Contiguous := by
  have hs := sealOpenTailIfAny_sound h.toSound
  rw [sealOpenTailIfAny_eq h.toSound] at hs ⊢
  unfold sealedTail at hs ⊢
  cases hl : r.candles.getLast? with
  | none => exact h
  | some last =>
    cases hc : last.isClosed with
    | true => simpa only [hc, if_true] using h
    | false =>
      simp only [hl, hc, Bool.false_eq_true, if_false] at hs ⊢
      have e := dropLast_append_of_getLast? hl
      have hlast : last ∈ r.candles := List.mem_of_getLast? hl
      refine ⟨hs, ?_, fun c hc => ?_, fun _ => h.persistable (List.ne_nil_of_mem hlast)⟩
      · have := h.spaced
        rw [← e, List.map_append] at this
        rwa [List.map_append]
      · rcases List.mem_append.mp hc with hc | hc
        · exact h.onGrid c (List.dropLast_subset _ hc)
        · rw [List.mem_singleton.mp hc]
          exact h.onGrid last hlast

/-- Every run from a contiguous repository stays contiguous, on the same
interval. -/
theorem Repository.Contiguous.calls [TimeUtils] (h : r.Contiguous) (sort : StdSort)
    (cs : List Call) :
    (r.calls sort cs).Contiguous ∧ (r.calls sort cs).format = r.format :=
  calls_induction (P := fun r' => r'.Contiguous ∧ r'.format = r.format)
    (fun _ c h => ⟨h.1.appendOrReplace c, (appendOrReplace_format h.1.toSound c).trans h.2⟩)
    (fun _ h => ⟨h.1.sealOpenTailIfAny, (sealOpenTailIfAny_format h.1.toSound).trans h.2⟩)
    ⟨h, rfl⟩ cs

/-- The constructor on an empty file. -/
theorem construct_of_records_nil (sort : StdSort) {file : DataFile} (hf : file.records = [])
    (symbol : List Char) {interval : Interval} (hI : 0 < interval.ms) :
    Repository.construct sort file symbol interval =
      { file := file, symbol := symbol, interval := interval, intervalMs := interval.ms
        intervalLabel := intervalLabel interval, candles := [], metadata := {}
        hasGap := false } := by
  have hv : interval.valid = true := decide_eq_true hI
  have hl : (intervalLabel interval).isEmpty = false :=
    List.isEmpty_eq_false_iff.mpr (intervalLabel_ne_nil hI)
  have hs : sort.run [] = [] := (sort.perm []).eq_nil
  simp [Repository.construct, Repository.loadHistoricalLocked, readAllRecords, hf, hv, hl, hI, hs,
    clampIntervalMs, Repository.refreshMetadataLocked, metadataOf]

theorem construct_contiguous (sort : StdSort) {file : DataFile} (hf : file.records = [])
    (symbol : List Char) {interval : Interval} (hI : 0 < interval.ms) :
    (Repository.construct sort file symbol interval).Contiguous := by
  refine ⟨construct_sound sort file symbol interval, ?_, ?_, ?_⟩ <;>
    rw [construct_of_records_nil sort hf symbol hI]
  · exact .nil
  · exact fun c h => absurd h List.not_mem_nil
  · exact fun h => absurd rfl h

end Invariant

/-! ## Single steps -/

/-- What one candle does to a repository of interval `I`: the result of the call
and the repository after it. -/
inductive Outcome (I : Int) (r : Repository) (c : Candle) : AppendResult × Repository → Prop
  | ignored (h : r.accepts c = false) : Outcome I r c ({}, r)
  | unchanged {result : AppendResult} {r' : Repository}
      (state : result.state = .overlap ∨ result.state = .gap)
      (candles : r'.candles = r.candles) (metadata : r'.metadata = r.metadata)
      (file : r'.file = r.file) : Outcome I r c (result, r')
  | started {result : AppendResult} {r' : Repository} (n : Candle) (state : result.state = .ok)
      (before : r.candles = []) (after : r'.candles = [n]) : Outcome I r c (result, r')
  | replaced {result : AppendResult} {r' : Repository} (pre : List Candle) (last n : Candle)
      (state : result.state = .replaced) (before : r.candles = pre ++ [last])
      (after : r'.candles = pre ++ [n]) (time : n.openTime = last.openTime)
      (closed : last.isClosed = true → n.isClosed = true) : Outcome I r c (result, r')
  | appended {result : AppendResult} {r' : Repository} (pre : List Candle) (last n : Candle)
      (state : result.state = .ok) (before : r.candles = pre ++ [last])
      (after : r'.candles = pre ++ [last.sealed, n]) (time : n.openTime = last.openTime + I) :
      Outcome I r c (result, r')

section Steps

variable [TimeUtils] {r : Repository}

theorem outcome_appendOrReplace (h : r.Sound) (c : Candle) :
    Outcome r.intervalMs r c (r.appendOrReplace c) := by
  unfold Repository.appendOrReplace
  cases hc : r.accepts c with
  | false =>
    rw [appendOrReplaceLocked_of_not_accepts hc]
    exact .ignored hc
  | true =>
    rw [appendOrReplaceLocked_of_accepts h hc]
    have state := resultOf_state r.intervalMs r.candles (r.normalizeCandle c)
    cases hl : r.candles.getLast? with
    | none =>
      have hnil := List.getLast?_eq_none_iff.mp hl
      have hp := place_eq_start (C := candleCells) (I := r.intervalMs) (c := r.normalizeCandle c)
        |>.mpr hnil
      rw [hp] at state
      exact .started _ state hnil (offer_start hp)
    | some last =>
      have e := (dropLast_append_of_getLast? hl).symm
      cases hp : place candleCells r.intervalMs r.candles (r.normalizeCandle c) with
      | start => rw [place_eq_start.mp hp] at hl; cases hl
      | replace =>
        rw [hp] at state
        obtain ⟨ht, hf⟩ := (place_eq_replace hl).mp hp
        refine .replaced _ _ _ state e (offer_replace hp) ht fun hlast => ?_
        simpa [hlast] using hf
      | follow =>
        rw [hp] at state
        refine .appended _ _ _ state e ?_ ((place_eq_follow h.interval_pos hl).mp hp)
        exact (offer_follow hp hl).trans (List.append_assoc ..)
      | overlap =>
        rw [hp] at state
        exact .unchanged (.inl state) (offer_overlap hp)
          (by rw [offer_overlap hp, h.metadata]) (by rw [closings, hp]; rfl)
      | gap =>
        rw [hp] at state
        exact .unchanged (.inr state) (offer_gap hp)
          (by rw [offer_gap hp, h.metadata]) (by rw [closings, hp]; rfl)

theorem candles_appendOrReplace (h : r.Sound) (c : Candle) :
    (r.appendOrReplace c).2.candles =
      if r.accepts c then offer candleCells r.intervalMs r.candles (r.normalizeCandle c)
      else r.candles := by
  unfold Repository.appendOrReplace
  cases ha : r.accepts c with
  | false =>
    rw [appendOrReplaceLocked_of_not_accepts ha]
    rfl
  | true =>
    rw [appendOrReplaceLocked_of_accepts h ha]
    rfl

/-- Sealing changes nothing but the flag of an open last candle. -/
theorem candles_sealOpenTailIfAny (h : r.Sound) :
    r.sealOpenTailIfAny.2.candles = r.candles ∨
      ∃ pre last, r.candles = pre ++ [last] ∧ r.sealOpenTailIfAny.2.candles = pre ++ [last.sealed] := by
  rw [sealOpenTailIfAny_eq h]
  unfold sealedTail
  cases hl : r.candles.getLast? with
  | none => exact .inl rfl
  | some last =>
    cases hc : last.isClosed with
    | true => exact .inl (by simp only [hc, if_true])
    | false =>
      exact .inr ⟨_, last, (dropLast_append_of_getLast? hl).symm,
        by simp only [hc, Bool.false_eq_true, if_false]⟩

theorem dropLast_prefix_appendOrReplace (h : r.Sound) (c : Candle) :
    r.candles.dropLast <+: (r.appendOrReplace c).2.candles.dropLast := by
  unfold Repository.appendOrReplace
  cases hc : r.accepts c with
  | false =>
    rw [appendOrReplaceLocked_of_not_accepts hc]
  | true =>
    rw [appendOrReplaceLocked_of_accepts h hc]
    exact dropLast_prefix_offer _ _

theorem dropLast_prefix_sealOpenTailIfAny (h : r.Sound) :
    r.candles.dropLast <+: r.sealOpenTailIfAny.2.candles.dropLast := by
  obtain e | ⟨pre, last, e, e'⟩ := candles_sealOpenTailIfAny h
  · rw [e]
  · rw [e, e', List.dropLast_concat, List.dropLast_concat]

/-- A candle that is no longer the last one never changes again. -/
theorem dropLast_prefix_calls (h : r.Sound) (sort : StdSort) (cs : List Call) :
    r.candles.dropLast <+: (r.calls sort cs).candles.dropLast :=
  (calls_induction (P := fun r' => r'.Sound ∧ r.candles.dropLast <+: r'.candles.dropLast)
    (fun _ c h => ⟨appendOrReplace_sound h.1 c,
      h.2.trans (dropLast_prefix_appendOrReplace h.1 c)⟩)
    (fun _ h => ⟨sealOpenTailIfAny_sound h.1, h.2.trans (dropLast_prefix_sealOpenTailIfAny h.1)⟩)
    ⟨h, List.prefix_rfl⟩ cs).2

theorem calls_map_appendOrReplace (sort : StdSort) (r : Repository) (cs : List Candle) :
    r.calls sort (cs.map .appendOrReplace) = r.appends cs := by
  rw [Repository.calls, List.foldl_map]
  rfl

end Steps

/-- Every run of the writing operations on a repository opened on an empty file
keeps its candles at consecutive positive multiples of the interval, all closed
but possibly the last; one candle has one of the outcomes of `Outcome`, a batch
is a run of single candles, and a candle that is no longer the last never
changes. -/
theorem calls_series [TimeUtils] (sort : StdSort) (file : DataFile) (hf : file.records = [])
    (symbol : List Char) (interval : Interval) (hI : 0 < interval.ms) (cs : List Call) :
    let r := (Repository.construct sort file symbol interval).calls sort cs
    (∀ c ∈ r.candles, 0 < c.openTime ∧ interval.ms ∣ c.openTime) ∧
    (r.candles.map Candle.openTime).IsChain (fun s t => t = s + interval.ms) ∧
    (∀ c ∈ r.candles.dropLast, c.isClosed = true) ∧
    (∀ c, Outcome interval.ms r c (r.appendOrReplace c)) ∧
    (∀ batch, ∃ pre, pre <+: sort.run batch ∧
      r.call sort (.appendBatch batch) = r.calls sort (pre.map .appendOrReplace)) ∧
    (r.sealOpenTailIfAny.2.candles = r.candles ∨
      ∃ pre last, r.candles = pre ++ [last] ∧
        r.sealOpenTailIfAny.2.candles = pre ++ [last.sealed]) ∧
    (∀ more, r.candles.dropLast <+: (r.calls sort more).candles.dropLast) := by
  intro r
  obtain ⟨h, hfmt⟩ := (construct_contiguous sort hf symbol hI).calls sort cs
  have hr : r.intervalMs = interval.ms := by
    apply (congrArg (·.2.2.1) hfmt).trans
    rw [construct_of_records_nil sort hf symbol hI]
    rfl
  rw [← hr]
  refine ⟨fun c hc => ⟨(h.onGrid c hc).1, (h.onGrid c hc).2.1⟩, h.spaced, h.closed,
    outcome_appendOrReplace h.toSound, fun batch => ?_, candles_sealOpenTailIfAny h.toSound,
    dropLast_prefix_calls h.toSound sort⟩
  obtain ⟨pre, hpre, e⟩ := appendBatch_eq sort r batch
  exact ⟨pre, hpre, e.trans (calls_map_appendOrReplace sort r pre).symm⟩

/-- A batch of unaligned, repeated and missing candles, then a seal. -/
theorem calls_series_batch :
    let r := (Repository.construct .insertion {} ['B'] ⟨60000⟩).calls .insertion
      [.appendBatch [flatCandle 120001 false, flatCandle 60000 true, flatCandle 60007 true,
        flatCandle 300000 true], .sealOpenTailIfAny]
    r.candles.length = 2 ∧ (∀ c ∈ r.candles, 0 < c.openTime ∧ 60000 ∣ c.openTime) :=
  ⟨by decide +kernel, (calls_series .insertion {} rfl ['B'] ⟨60000⟩ (by decide) _).1⟩

end TCV.Storage
