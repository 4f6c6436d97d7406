import TradingChartViewer.Storage.Closing

/-!
# Restarts

The record file behind a repository holds one record for each closed candle,
and a repository built from it holds these candles again.

* `saveAll_stored`: the record file stores candles (`store`) if it opens;
* `Repository.Synced`: the simulation between the file and the closed candles,
  kept by every call and every restart;
* `construct_of_stored`: what the constructor loads;
* `acts_restart`: restarts are invisible but for the open last candle.
-/

namespace TCV.Storage

open TCV.Domain Lib.Tape Lib.Grid

/-! ## The record file -/

/-- The record a closed candle leaves in the file. -/
def Repository.stored [TimeUtils] (r : Repository) (c : Candle) : PriceData :=
  normalizeRecord (r.toPriceData c)

section Stored

variable {r : Repository} {c : Candle}

theorem stored_congr [TimeUtils] {r' : Repository} (h : r'.format = r.format) : r'.stored = r.stored := by
  funext c
  simp only [Repository.format, Prod.mk.injEq] at h
  simp only [Repository.stored, Repository.toPriceData, h]

theorem stored_eq [TimeUtils] (hM : kMillisPerMinute ∣ r.intervalMs) (hc : r.OnGrid c) :
    r.stored c = { r.toPriceData c with closeTime := c.openTime + kMillisPerMinute - 1 } := by
  have hopen : (r.toPriceData c).openTime = c.openTime := alignDownMs_of_dvd hc.2
  have hfloor : floorToMinuteMs c.openTime = c.openTime :=
    floorToMinuteMs_of_dvd (Int.dvd_trans hM hc.2)
  have hpos : ¬ c.openTime ≤ 0 := Int.not_le.mpr hc.1
  simp only [Repository.stored, normalizeRecord, hopen, hfloor, hpos, if_false]

theorem stored_openTime [TimeUtils] (hM : kMillisPerMinute ∣ r.intervalMs) (hc : r.OnGrid c) :
    (r.stored c).openTime = c.openTime := by
  rw [stored_eq hM hc]
  exact alignDownMs_of_dvd hc.2

theorem isValidRecord_stored [TimeUtils] (hM : kMillisPerMinute ∣ r.intervalMs)
    (hp : r.persistable = true) (hc : r.OnGrid c) : isValidRecord (r.stored c) = true := by
  have hpos := hc.1
  simp only [Repository.persistable, Bool.and_eq_true, decide_eq_true_eq] at hp
  rw [isValidRecord_iff, stored_openTime hM hc, stored_eq hM hc]
  refine ⟨hpos, ?_, hp.1, hp.2⟩
  simp only [kMillisPerMinute]
  omega

/-- The record file does what `store` says. -/
theorem saveRecords_stored [TimeUtils] (hM : kMillisPerMinute ∣ r.intervalMs)
    (hp : r.persistable = true) {f : DataFile} {cs : List Candle} (hf : f.opens = [])
    (hcs : ∀ d ∈ cs, r.OnGrid d) (hrec : f.records = cs.map r.stored) (hc : r.OnGrid c) :
    (saveRecords f [r.toPriceData c]).records = (store cs c).map r.stored := by
  rw [saveRecords_singleton_of_open hf (isValidRecord_stored hM hp hc), hrec, List.getLast?_map]
  unfold store
  cases hl : cs.getLast? with
  | none => rfl
  | some last =>
    have hlast := hcs last (List.mem_of_getLast? hl)
    have hopen : (normalizeRecord (r.toPriceData c)).openTime = c.openTime := stored_openTime hM hc
    simp only [Option.map_some, isValidRecord_stored hM hp hlast, Bool.true_and, Bool.not_true,
      Bool.false_or, decide_eq_true_eq, hopen, stored_openTime hM hlast]
    split_ifs
    · rw [List.map_append, List.map_dropLast]; rfl
    · rw [List.map_append]; rfl
    · rfl

/-- A file whose writes all succeed stores the candles, and keeps that property. -/
theorem saveAll_stored [TimeUtils] (hM : kMillisPerMinute ∣ r.intervalMs)
    (hp : r.persistable = true) {ds : List Candle} (hds : ∀ d ∈ ds, r.OnGrid d) {f : DataFile}
    {cs : List Candle} (hf : f.opens = []) (hcs : ∀ d ∈ cs, r.OnGrid d)
    (hrec : f.records = cs.map r.stored) :
    (r.saveAll f ds).records = (ds.foldl store cs).map r.stored ∧ (r.saveAll f ds).opens = [] := by
  induction ds generalizing f cs with
  | nil => exact ⟨hrec, hf⟩
  | cons d ds ih =>
    have hd := hds d List.mem_cons_self
    refine ih (fun e he => hds e (List.mem_cons_of_mem _ he)) (saveRecords_opens hf _)
      (fun e he => ?_) (saveRecords_stored hM hp hf hcs hrec hd)
    rcases mem_store he with he | rfl
    · exact hcs e he
    · exact hd

end Stored

/-! ## The simulation -/

/-- The file of a repository opened on an empty one, for an interval of whole
minutes with a short label, holds the closed candles. -/
structure Repository.Synced [TimeUtils] (symbol : List Char) (interval : Interval) (r : Repository) :
    Prop extends r.Contiguous where
  format : r.format = (symbol, interval, interval.ms, Domain.intervalLabel interval)
  trades : ∀ c ∈ r.candles, 0 ≤ c.trades
  opens : r.file.opens = []
  records : r.file.records = (closedOf r.candles).map r.stored

section Synced

variable [TimeUtils] {symbol : List Char} {interval : Interval} {r : Repository}

theorem Repository.Synced.intervalMs_eq (h : r.Synced symbol interval) :
    r.intervalMs = interval.ms :=
  congrArg (·.2.2.1) h.format

theorem Repository.Synced.onGrid_candle (h : r.Synced symbol interval) {c : Candle}
    (hc : c ∈ r.candles) : r.OnGrid c :=
  h.toContiguous.onGrid_of_mem hc

theorem construct_synced (sort : StdSort) {file : DataFile} (hrec : file.records = [])
    (hf : file.opens = []) (symbol : List Char) {interval : Interval} (hI : 0 < interval.ms) :
    (Repository.construct sort file symbol interval).Synced symbol interval := by
  refine ⟨construct_contiguous sort hrec symbol hI, ?_, ?_, ?_, ?_⟩ <;>
    rw [construct_of_records_nil sort hrec symbol hI]
  · rfl
  · exact fun c hc => absurd hc List.not_mem_nil
  · exact hf
  · exact hrec

theorem Repository.Synced.closing (hM : kMillisPerMinute ∣ interval.ms) (h : r.Synced symbol interval)
    {ds : List Candle} {out : AppendResult × Repository} (hc : r.Closing ds out)
    (htrades : ∀ c ∈ out.2.candles, 0 ≤ c.trades) : out.2.Synced symbol interval := by
  have hsaved : (r.saveAll r.file ds).records =
        (ds.foldl store (closedOf r.candles)).map r.stored ∧ (r.saveAll r.file ds).opens = [] := by
    by_cases hne : ds = []
    · rw [hne]
      exact ⟨h.records, h.opens⟩
    · exact saveAll_stored (h.intervalMs_eq ▸ hM) (hc.persistable hne) hc.onGrid h.opens
        (fun d hd => h.onGrid_candle (mem_of_mem_closedOf hd)) h.records
  refine ⟨hc.contiguous, hc.format.trans h.format, htrades, ?_, ?_⟩
  · rw [hc.file]
    exact hsaved.2
  · rw [hc.file, hc.closed, stored_congr hc.format]
    exact hsaved.1

theorem Repository.Synced.appendOrReplace (hM : kMillisPerMinute ∣ interval.ms)
    (h : r.Synced symbol interval) {c : Candle} (hc : 0 ≤ c.trades) :
    (r.appendOrReplace c).2.Synced symbol interval := by
  apply h.closing hM (closing_appendOrReplace h.toContiguous c)
  rw [candles_appendOrReplace h.toSound]
  split
  · apply forall_mem_offer (fun _ => id) ?_ h.trades
    rw [normalizeCandle_trades]
    exact hc
  · exact h.trades

theorem Repository.Synced.sealOpenTailIfAny (hM : kMillisPerMinute ∣ interval.ms)
    (h : r.Synced symbol interval) : r.sealOpenTailIfAny.2.Synced symbol interval := by
  apply h.closing hM (closing_sealOpenTailIfAny h.toContiguous)
  rcases candles_sealOpenTailIfAny h.toSound with e | ⟨pre, last, e, e'⟩
  · rw [e]
    exact h.trades
  · have htrades := h.trades
    rw [e] at htrades
    rw [e']
    intro d hd
    rcases List.mem_append.mp hd with hd | hd
    · exact htrades d (List.mem_append_left _ hd)
    · rw [List.mem_singleton.mp hd]
      exact htrades last (by simp)

end Synced

/-! ## Loading the file back -/

section Load

variable {symbol : List Char} {interval : Interval} {r : Repository}

/-- The record of a closed candle reads back as the candle. -/
theorem toCandle_stored [TimeUtils] (hM : kMillisPerMinute ∣ r.intervalMs) {c : Candle}
    (hc : r.OnGrid c) (hI : 0 < r.intervalMs) (hclose : c.closeTime = c.openTime + r.intervalMs - 1)
    (htrades : 0 ≤ c.trades) (hclosed : c.isClosed = true) : r.toCandle (r.stored c) = c := by
  have hpos := hc.1
  have hopen : alignDownMs (r.stored c).openTime r.intervalMs = c.openTime := by
    rw [stored_openTime hM hc, alignDownMs_of_dvd hc.2]
  simp only [Repository.toCandle, hopen, hpos, hI, decide_true, Bool.and_self, if_true, ← hclose]
  rw [stored_eq hM hc]
  simp only [Repository.toPriceData, max_eq_left htrades, ← hclosed]

/-- What the loading loop needs of the repository that wrote the file. -/
structure Repository.Writes (r : Repository) : Prop where
  interval_pos : 0 < r.intervalMs
  minutes : kMillisPerMinute ∣ r.intervalMs
  interval_eq : r.interval = { ms := r.intervalMs }
  label : parseIntervalMs r.intervalLabel = r.intervalMs
  label_fits : strncpy 8 r.intervalLabel = r.intervalLabel

theorem writes_of_format (hM : kMillisPerMinute ∣ interval.ms)
    (hlabel : (Domain.intervalLabel interval).length ≤ 7) (hI : 0 < r.intervalMs)
    (hfmt : r.format = (symbol, interval, interval.ms, Domain.intervalLabel interval)) : r.Writes := by
  have hms : r.intervalMs = interval.ms := congrArg (·.2.2.1) hfmt
  have hl : r.intervalLabel = Domain.intervalLabel interval := congrArg (·.2.2.2) hfmt
  refine ⟨hI, hms ▸ hM, ?_, ?_, ?_⟩
  · rw [hms]
    exact congrArg (·.2.1) hfmt
  · rw [hms] at hI
    rw [hl, hms, parseIntervalMs_intervalLabel hI hM (ms_le_of_length_intervalLabel hlabel hI)]
  · rw [hl]
    exact strncpy_of_short (by omega) fun c hc => ne_zero_of_mem_intervalLabel hc

/-- The record of a candle on the grid is read back, whatever it held. -/
theorem loadRecord_of_stored [TimeUtils] (hw : r.Writes) (hp : r.persistable = true) {c : Candle}
    (hc : r.OnGrid c) {r' : Repository} (hfmt : r'.format = r.format) :
    r'.loadRecord (r.stored c) =
      { r' with candles := r'.candles ++ [r.toCandle (r.stored c)] } := by
  have hv := isValidRecord_stored hw.minutes hp hc
  have hi : (r.stored c).interval = r.intervalLabel := by
    rw [stored_eq hw.minutes hc]
    exact hw.label_fits
  have hne : r.intervalLabel ≠ [] := by
    have := hw.interval_pos
    rw [← hw.label] at this
    rintro e
    rw [e] at this
    exact absurd this (by decide)
  simp only [Repository.format, Prod.mk.injEq] at hfmt
  obtain ⟨h₁, h₂, h₃, h₄⟩ := hfmt
  have hsame : r'.toCandle = r.toCandle := by
    funext p
    simp only [Repository.toCandle, h₃]
  have hset : { r' with
      intervalMs := r.intervalMs, interval := { ms := r.intervalMs },
      intervalLabel := r.intervalLabel } = r' := by
    rw [← hw.interval_eq, ← h₂, ← h₃, ← h₄]
  simp only [Repository.loadRecord, hv, hi, hw.label, hne, hw.interval_pos, hset, ne_eq,
    not_false_eq_true, decide_true, Bool.and_self, if_true, Bool.not_true, Bool.false_eq_true,
    if_false, hsame]

theorem loadRecords_of_stored [TimeUtils] (hw : r.Writes) {cs : List Candle}
    (hp : cs ≠ [] → r.persistable = true) (hcs : ∀ c ∈ cs, r.OnGrid c) :
    ∀ {r' : Repository}, r'.format = r.format →
      (cs.map r.stored).foldl Repository.loadRecord r' =
        { r' with candles := r'.candles ++ cs.map fun c => r.toCandle (r.stored c) } := by
  induction cs with
  | nil => simp
  | cons c cs ih =>
    intro r' hfmt
    have hp := hp (List.cons_ne_nil c cs)
    rw [List.map_cons, List.foldl_cons, loadRecord_of_stored hw hp (hcs c List.mem_cons_self) hfmt,
      ih (fun _ => hp) (fun d hd => hcs d (List.mem_cons_of_mem _ hd)) (by exact hfmt)]
    simp only [List.append_assoc, List.cons_append, List.nil_append, List.map_cons]

/-- An ascending list is its own sorted arrangement. -/
theorem StdSort.run_of_ascending (sort : StdSort) {cs : List Candle}
    (h : (cs.map Candle.openTime).Pairwise (· < ·)) : sort.run cs = cs := by
  have hnodup : (cs.map Candle.openTime).Nodup := h.imp ne_of_lt
  have hcs : cs.Pairwise fun lhs rhs => lhs.openTime ≤ rhs.openTime :=
    List.pairwise_map.mp (h.imp le_of_lt)
  refine List.Perm.eq_of_pairwise (fun a b ha hb hab hba => ?_) (sort.sorted cs) hcs (sort.perm cs)
  exact List.inj_on_of_nodup_map hnodup ((sort.perm cs).mem_iff.mp ha) hb (le_antisymm hab hba)

theorem toCandle_stored_openTime [TimeUtils] (hM : kMillisPerMinute ∣ r.intervalMs) {c : Candle}
    (hc : r.OnGrid c) : (r.toCandle (r.stored c)).openTime = c.openTime := by
  show alignDownMs (r.stored c).openTime r.intervalMs = c.openTime
  rw [stored_openTime hM hc, alignDownMs_of_dvd hc.2]

/-- What the constructor builds from the records of ascending candles. -/
theorem construct_of_records [TimeUtils] (sort : StdSort) (hw : r.Writes)
    (hfmt : r.format = (symbol, interval, interval.ms, Domain.intervalLabel interval))
    {cs : List Candle} (hp : cs ≠ [] → r.persistable = true) (hcs : ∀ c ∈ cs, r.OnGrid c)
    (hasc : (cs.map Candle.openTime).Pairwise (· < ·)) {file : DataFile}
    (hfile : file.records = cs.map r.stored) :
    Repository.construct sort file symbol interval =
      { file := file, symbol := symbol, interval := interval, intervalMs := interval.ms
        intervalLabel := Domain.intervalLabel interval
        candles := cs.map fun c => r.toCandle (r.stored c)
        metadata := metadataOf (cs.map fun c => r.toCandle (r.stored c)), hasGap := false } := by
  have hI : 0 < interval.ms := by
    have := hw.interval_pos
    rwa [show r.intervalMs = interval.ms from congrArg (·.2.2.1) hfmt] at this
  have hv : interval.valid = true := decide_eq_true hI
  have hl : (Domain.intervalLabel interval).isEmpty = false :=
    List.isEmpty_eq_false_iff.mpr (intervalLabel_ne_nil hI)
  have htimes : (cs.map fun c => r.toCandle (r.stored c)).map Candle.openTime =
      cs.map Candle.openTime := by
    rw [List.map_map]
    exact List.map_congr_left fun c hc => toCandle_stored_openTime hw.minutes (hcs c hc)
  simp only [Repository.construct, Repository.loadHistoricalLocked, readAllRecords, hv, hl, hI,
    clampIntervalMs, Bool.not_true, Bool.false_eq_true, if_false, decide_true, Bool.and_self,
    if_true, hfile]
  rw [loadRecords_of_stored hw hp hcs (by rw [hfmt]; rfl)]
  simp only [List.nil_append, sort.run_of_ascending (htimes ▸ hasc), hI, if_true, hl,
    Bool.false_eq_true, if_false, Repository.refreshMetadataLocked]

/-- Closed candles are read back as they are. -/
theorem construct_of_stored [TimeUtils] (sort : StdSort) (hw : r.Writes)
    (hfmt : r.format = (symbol, interval, interval.ms, Domain.intervalLabel interval))
    {cs : List Candle} (hp : cs ≠ [] → r.persistable = true)
    (hcs : ∀ c ∈ cs, r.OnGrid c ∧ c.closeTime = c.openTime + r.intervalMs - 1 ∧ 0 ≤ c.trades ∧
      c.isClosed = true)
    (hasc : (cs.map Candle.openTime).Pairwise (· < ·)) {file : DataFile}
    (hfile : file.records = cs.map r.stored) :
    Repository.construct sort file symbol interval =
      { file := file, symbol := symbol, interval := interval, intervalMs := interval.ms
        intervalLabel := Domain.intervalLabel interval, candles := cs, metadata := metadataOf cs
        hasGap := false } := by
  have hread : (cs.map fun c => r.toCandle (r.stored c)) = cs := by
    have hall : ∀ c ∈ cs, r.toCandle (r.stored c) = c := fun c hc =>
      let ⟨hgrid, hclose, htrades, hclosed⟩ := hcs c hc
      toCandle_stored hw.minutes hgrid hw.interval_pos hclose htrades hclosed
    exact (List.map_congr_left hall).trans (List.map_id cs)
  rw [construct_of_records sort hw hfmt hp (fun c hc => (hcs c hc).1) hasc hfile, hread]

end Load

/-! ## Runs with restarts -/

inductive Action
  | call (call : Call)
  | restart

/-- The candles of a call have trade counts that a record keeps. -/
def Call.TradesNonneg : Call → Prop
  | .appendOrReplace candle => 0 ≤ candle.trades
  | .appendBatch batch => ∀ candle ∈ batch, 0 ≤ candle.trades
  | .sealOpenTailIfAny => True

def Action.TradesNonneg : Action → Prop
  | .call c => c.TradesNonneg
  | .restart => True

/-- A restart drops the repository and constructs a new one on its file. -/
def Repository.act [TimeUtils] (sort : StdSort) (symbol : List Char) (interval : Interval)
    (r : Repository) : Action → Repository
  | .call call => r.call sort call
  | .restart => .construct sort r.file symbol interval

def Repository.acts [TimeUtils] (sort : StdSort) (symbol : List Char) (interval : Interval)
    (r : Repository) (actions : List Action) : Repository :=
  actions.foldl (Repository.act sort symbol interval) r

section Acts

variable [TimeUtils] {symbol : List Char} {interval : Interval} {r : Repository}

theorem Repository.Synced.call (hM : kMillisPerMinute ∣ interval.ms) (sort : StdSort)
    (h : r.Synced symbol interval) {call : Call} (hcall : call.TradesNonneg) :
    (r.call sort call).Synced symbol interval := by
  cases call with
  | appendOrReplace candle => exact h.appendOrReplace hM hcall
  | sealOpenTailIfAny => exact h.sealOpenTailIfAny hM
  | appendBatch batch =>
    obtain ⟨pre, hpre, e⟩ := appendBatch_eq sort r batch
    rw [Repository.call, e]
    have htrades : ∀ c ∈ pre, 0 ≤ c.trades := fun c hc =>
      hcall c ((sort.perm batch).mem_iff.mp (hpre.subset hc))
    clear hpre e
    induction pre generalizing r with
    | nil => exact h
    | cons c cs ih =>
      exact ih (h.appendOrReplace hM (htrades c List.mem_cons_self))
        fun d hd => htrades d (List.mem_cons_of_mem _ hd)

variable (hM : kMillisPerMinute ∣ interval.ms)
  (hlabel : (Domain.intervalLabel interval).length ≤ 7)

include hM hlabel

theorem Repository.Synced.writes (h : r.Synced symbol interval) : r.Writes :=
  writes_of_format hM hlabel h.interval_pos h.format

theorem Repository.Synced.reload (h : r.Synced symbol interval) (sort : StdSort) :
    Repository.construct sort r.file symbol interval =
      { r with
        candles := closedOf r.candles, metadata := metadataOf (closedOf r.candles)
        hasGap := false } := by
  have hfmt := h.format
  have hsub : ∀ c ∈ closedOf r.candles, c ∈ r.candles := fun _ => mem_of_mem_closedOf
  rw [construct_of_stored sort (h.writes hM hlabel) hfmt
    (fun hne => h.persistable fun e => hne (by rw [e]; rfl))
    (fun c hc => ⟨h.onGrid_candle (hsub c hc), (h.onGrid c (hsub c hc)).2.2,
      h.trades c (hsub c hc), (List.mem_filter.mp hc).2⟩)
    ((h.spaced.pairwise h.interval_pos).sublist (List.filter_sublist.map _)) h.records]
  simp only [Repository.format, Prod.mk.injEq] at hfmt
  simp only [hfmt]

theorem Repository.Synced.restart (h : r.Synced symbol interval) (sort : StdSort) :
    (Repository.construct sort r.file symbol interval).Synced symbol interval := by
  have hsound := construct_sound sort r.file symbol interval
  rw [h.reload hM hlabel sort] at hsound ⊢
  have hsub : ∀ c ∈ closedOf r.candles, c ∈ r.candles := fun _ => mem_of_mem_closedOf
  have hidem : closedOf (closedOf r.candles) = closedOf r.candles :=
    closedOf_of_all fun c hc => (List.mem_filter.mp hc).2
  have hp : closedOf r.candles ≠ [] → r.persistable = true := fun hne =>
    h.persistable fun e => hne (by rw [e]; rfl)
  refine ⟨⟨hsound, ?_, fun c hc => h.onGrid c (hsub c hc), hp⟩, h.format,
    fun c hc => h.trades c (hsub c hc), h.opens, ?_⟩
  · exact h.spaced.initial ((closedOf_prefix_of_closed h.closed).map _)
  · rw [hidem]
    exact h.records

theorem Repository.Synced.acts (sort : StdSort) {actions : List Action}
    (hacts : ∀ a ∈ actions, a.TradesNonneg) (h : r.Synced symbol interval) :
    (r.acts sort symbol interval actions).Synced symbol interval := by
  induction actions generalizing r with
  | nil => exact h
  | cons a as ih =>
    apply ih (fun b hb => hacts b (List.mem_cons_of_mem _ hb))
    cases a with
    | call call => exact h.call hM sort (hacts _ List.mem_cons_self)
    | restart => exact h.restart hM hlabel sort

end Acts

/-- A record without its close time, which the storage layer rewrites. -/
def PriceData.withoutCloseTime (p : PriceData) : PriceData := { p with closeTime := 0 }

/-- After every run of calls and restarts the file holds the records of the
closed candles, and a repository built from it holds just these. -/
theorem acts_restart [TimeUtils] (sort : StdSort) (symbol : List Char) (interval : Interval)
    (hI : 0 < interval.ms) (hM : kMillisPerMinute ∣ interval.ms)
    (hlabel : (intervalLabel interval).length ≤ 7) (actions : List Action)
    (hacts : ∀ a ∈ actions, a.TradesNonneg) :
    let r := (Repository.construct sort {} symbol interval).acts sort symbol interval actions
    let r' := Repository.construct sort r.file symbol interval
    r.file.records.map PriceData.withoutCloseTime =
        (closedOf r.candles).map (fun c => (r.toPriceData c).withoutCloseTime) ∧
      r'.candles = closedOf r.candles ∧ r'.getIntervalMs = r.getIntervalMs := by
  intro r r'
  have h : r.Synced symbol interval :=
    (construct_synced sort rfl rfl symbol hI).acts hM hlabel sort hacts
  have hr' : r' = _ := h.reload hM hlabel sort
  refine ⟨?_, by rw [hr'], by rw [hr']; rfl⟩
  rw [h.records, List.map_map]
  apply List.map_congr_left
  intro c hc
  rw [Function.comp_apply, stored_eq (h.intervalMs_eq ▸ hM)
    (h.onGrid_candle (mem_of_mem_closedOf hc))]
  rfl

/-- Two closed candles and an open one on quarter hours, with a restart between. -/
theorem acts_restart_quarter :
    let r := (Repository.construct .insertion {} ['B'] ⟨900000⟩).acts .insertion ['B'] ⟨900000⟩
      [.call (.appendOrReplace (flatCandle 900000 false)),
        .call (.appendOrReplace (flatCandle 1800000 true)), .restart,
        .call (.appendOrReplace (flatCandle 2700001 false))]
    (Repository.construct .insertion r.file ['B'] ⟨900000⟩).candles.map Candle.openTime =
        [900000, 1800000] ∧
      (Repository.construct .insertion r.file ['B'] ⟨900000⟩).candles = closedOf r.candles := by
  refine ⟨by decide +kernel, (acts_restart .insertion ['B'] ⟨900000⟩ (by decide)
    (by decide) (by decide) _ ?_).2.1⟩
  simp [Action.TradesNonneg, Call.TradesNonneg, flatCandle]

end TCV.Storage
