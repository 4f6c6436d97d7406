import Mathlib.Data.List.Dedup
import Mathlib.Data.Set.List
import TradingChartViewer.Lib.Run
import TradingChartViewer.Lib.TimeMap
import TradingChartViewer.Storage.Restart

/-!
# Failed writes

Runs of a repository whose data file cannot always be opened. `saveRecords` only logs that, and
`persistClosed` reports the candle as persisted all the same; where the open that is to fall back
on empties the file, the records before are lost.

* `DataFile.Takes`: the record gets to the file, and none of another minute is lost;
  `saveAll_of_lands`, `lands_of_saved`: the candles of a call, one by one;
* `Repository.write`: the calls; `Repository.closes`: the candles that one closes;
* `Repository.Reports`: what a call reports is on file, no more candles are counted than the file
  has minutes, and none is missing there before a later one;
* `Repository.Saves`: the condition on the opens and on the minutes of the candles;
* `Repository.Recorded`: the invariant. The file has a record for every closed candle;
* `writes_reported_iff`: the calls report what they do exactly under that condition.
-/

namespace TCV.Storage

open TCV.Domain Lib.Tape Lib.Grid Lib.Run Lib.TimeMap Lib.Upsert

/-! ## Minutes -/

section Minutes

variable [TimeUtils] {r : Repository} {c : Candle}

theorem floorToMinuteMs_mono {s t : Int} (hs : 0 ≤ s) (h : s ≤ t) :
    floorToMinuteMs s ≤ floorToMinuteMs t := by
  obtain ⟨j, hj⟩ := dvd_floorToMinuteMs s
  obtain ⟨k, hk⟩ := dvd_floorToMinuteMs t
  have h₁ := floorToMinuteMs_le hs
  have h₂ := lt_floorToMinuteMs_add (hs.trans h)
  simp only [kMillisPerMinute] at hj hk h₂
  omega

/-- Each of the times has a minute of its own, after the first. -/
def OwnMinutes (times : List Int) : Prop :=
  ∀ t ∈ times, 0 < floorToMinuteMs t ∧ ∀ s ∈ times, s < t → floorToMinuteMs s < floorToMinuteMs t

instance (times : List Int) : Decidable (OwnMinutes times) :=
  inferInstanceAs (Decidable (∀ t ∈ times, _ ∧ ∀ s ∈ times, _))

theorem OwnMinutes.subset {times others : List Int} (h : OwnMinutes times) (hsub : others ⊆ times) :
    OwnMinutes others :=
  fun t ht => ⟨(h t (hsub ht)).1, fun s hs => (h t (hsub ht)).2 s (hsub hs)⟩

/-- Times after the first minute whose minutes differ. -/
theorem ownMinutes_of_nodup {times : List Int} (h : (times.map floorToMinuteMs).Nodup)
    (hpos : ∀ t ∈ times, 0 ≤ t ∧ 0 < floorToMinuteMs t) : OwnMinutes times := by
  refine fun t ht => ⟨(hpos t ht).2, fun s hs hlt => ?_⟩
  refine (floorToMinuteMs_mono (hpos s hs).1 hlt.le).lt_of_ne fun he => hlt.ne ?_
  exact List.inj_on_of_nodup_map h hs ht he

theorem OwnMinutes.inj {times : List Int} (h : OwnMinutes times) {s t : Int} (hs : s ∈ times)
    (ht : t ∈ times) (he : floorToMinuteMs s = floorToMinuteMs t) : s = t := by
  rcases lt_trichotomy s t with hlt | rfl | hlt
  · exact absurd he ((h t ht).2 s hs hlt).ne
  · rfl
  · exact absurd he ((h s hs).2 t ht hlt).ne'

/-- A record is valid if its candle is not in the first minute, and falls on that of the candle. -/
theorem isValidRecord_stored_iff (hp : r.persistable = true) (hc : r.OnGrid c) :
    isValidRecord (r.stored c) = true ↔ 0 < floorToMinuteMs c.openTime := by
  have hopen : (r.toPriceData c).openTime = c.openTime := alignDownMs_of_dvd hc.2
  constructor
  · intro hv
    exact hopen ▸ (normalizeRecord_of_valid hv).2
  · intro hpos
    simp only [Repository.persistable, Bool.and_eq_true, decide_eq_true_eq] at hp
    rw [isValidRecord_iff]
    simp only [Repository.stored, normalizeRecord, hopen, if_neg (Int.not_le.mpr hpos)]
    refine ⟨hpos, ?_, hp.1, hp.2⟩
    simp only [kMillisPerMinute]
    omega

theorem stored_openTime_of_valid (hv : isValidRecord (r.stored c) = true) (hc : r.OnGrid c) :
    (r.stored c).openTime = floorToMinuteMs c.openTime := by
  have hopen : (r.toPriceData c).openTime = c.openTime := alignDownMs_of_dvd hc.2
  exact (normalizeRecord_openTime hv).trans (congrArg _ hopen)

end Minutes

/-! ## Saving a record -/

section Saving

variable [TimeUtils] {r : Repository} {f : DataFile} {record q : PriceData}

omit [TimeUtils] in
/-- The opens leave the records as they are, or none. -/
theorem openForUpdates_records (f : DataFile) :
    f.openForUpdates.2.records = f.records ∨ f.openForUpdates.2.records = [] := by
  unfold DataFile.openForUpdates
  dsimp only
  split_ifs
  · exact .inl (tryOpen_records f)
  · exact .inr (tryOpen_records _)
  · exact .inl (by rw [tryOpen_records, tryOpen_records, tryOpen_records])

omit [TimeUtils] in
theorem openForUpdates_subset (f : DataFile) : f.openForUpdates.2.records ⊆ f.records := by
  rcases openForUpdates_records f with h | h <;> rw [h]
  · exact List.Subset.refl _
  · exact List.nil_subset _

omit [TimeUtils] in
theorem readLast_of_valid (h : isValidRecord f.readLast.1 = true) :
    f.records.getLast? = some f.readLast.1 := by
  have hblank : isValidRecord PriceData.blank = false := rfl
  unfold DataFile.readLast at h ⊢
  dsimp only at h ⊢
  split_ifs at h ⊢
  · rw [tryOpen_records] at h ⊢
    cases hl : f.records.getLast? with
    | none =>
      rw [hl, Option.getD_none, hblank] at h
      cases h
    | some last => rfl
  · rw [hblank] at h
    cases h

omit [TimeUtils] in
theorem mem_saveOne {records : List PriceData} {last : PriceData}
    (h : q ∈ saveOne records last record) : q ∈ records ∨ q = record := by
  unfold saveOne at h
  split_ifs at h
  · exact .inl h
  · exact (List.mem_append.mp h).imp (fun h => List.dropLast_subset _ h) List.mem_singleton.mp
  · exact (List.mem_append.mp h).imp_right List.mem_singleton.mp
  · exact .inl h

/-- Only the record is added, and only if it stays valid. -/
theorem mem_saveRecords_singleton (h : q ∈ (saveRecords f [record]).records) :
    q ∈ f.openForUpdates.2.records ∨ q = normalizeRecord record ∧ isValidRecord q = true := by
  cases hv : isValidRecord (normalizeRecord record) with
  | false =>
    left
    unfold saveRecords at h
    simp only [List.isEmpty_cons, Bool.false_eq_true, if_false, List.foldl_cons, List.foldl_nil,
      saveStep, hv, Bool.not_false, if_true, writeBack, List.append_nil, readLast_records] at h
    split_ifs at h
    · exact h
    · exact h
  | true =>
    rw [saveRecords_singleton f hv] at h
    split_ifs at h
    · exact (mem_saveOne h).imp_right fun h => ⟨h, h ▸ hv⟩
    · exact .inl h

/-- The opens leave the file as it is but for records of the same minute, and they succeed or leave
the record itself there. -/
def DataFile.Takes (f : DataFile) (record : PriceData) : Prop :=
  (∀ q ∈ f.records, q ∈ f.openForUpdates.2.records ∨ q.openTime = record.openTime) ∧
    (f.openForUpdates.1 = true ∨ record ∈ f.openForUpdates.2.records)

instance (f : DataFile) (record : PriceData) : Decidable (f.Takes record) :=
  inferInstanceAs (Decidable ((∀ q ∈ f.records, _) ∧ _))

/-- Valid records in order, none after `record`. -/
structure UpTo (records : List PriceData) (record : PriceData) : Prop where
  valid : ∀ q ∈ records, isValidRecord q = true
  sorted : Sorted PriceData.openTime records
  le : ∀ q ∈ records, q.openTime ≤ record.openTime

omit [TimeUtils] in
/-- A record that is not earlier than the others follows them, or replaces the last one, of its
minute. -/
theorem saveOne_cases {records : List PriceData} (h : UpTo records record) {last : PriceData}
    (hlast : isValidRecord last = true → records.getLast? = some last) :
    saveOne records last record = records ++ [record] ∨
      ∃ pre, records = pre ++ [last] ∧ record.openTime = last.openTime ∧
        saveOne records last record = pre ++ [record] := by
  unfold saveOne
  cases hv : isValidRecord last with
  | false => simp
  | true =>
    obtain ⟨pre, rfl⟩ := List.getLast?_eq_some_iff.mp (hlast hv)
    have hle := h.le last List.mem_concat_self
    by_cases he : record.openTime = last.openTime
    · exact .inr ⟨pre, rfl, he, by simp [he]⟩
    · exact .inl (by simp [he, lt_of_le_of_ne hle (Ne.symm he)])

/-- What a file that takes the record holds then. -/
theorem DataFile.Takes.saved (h : f.Takes (normalizeRecord record))
    (hf : UpTo f.records (normalizeRecord record))
    (hv : isValidRecord (normalizeRecord record) = true) :
    UpTo (saveRecords f [record]).records (normalizeRecord record) ∧
      normalizeRecord record ∈ (saveRecords f [record]).records ∧
      ∀ q ∈ f.records, q ∈ (saveRecords f [record]).records ∨
        q.openTime = (normalizeRecord record).openTime := by
  obtain ⟨hkeeps, hlands⟩ := h
  have hopened : UpTo f.openForUpdates.2.records (normalizeRecord record) := by
    rcases openForUpdates_records f with he | he <;> rw [he]
    · exact hf
    · exact ⟨fun q hq => absurd hq List.not_mem_nil, .nil, fun q hq => absurd hq List.not_mem_nil⟩
  rw [saveRecords_singleton f hv]
  generalize normalizeRecord record = n at *
  cases hopen : f.openForUpdates.1 with
  | false =>
    rw [if_neg Bool.false_ne_true]
    exact ⟨hopened, hlands.resolve_left (by rw [hopen]; exact Bool.false_ne_true), hkeeps⟩
  | true =>
    rw [if_pos rfl]
    have hafter {pre : List PriceData} (hpre : pre <+: f.openForUpdates.2.records) :
        UpTo (pre ++ [n]) n := by
      refine ⟨fun q hq => ?_, ?_, fun q hq => ?_⟩
      · rcases List.mem_append.mp hq with hq | hq
        · exact hopened.valid q (hpre.subset hq)
        · exact List.mem_singleton.mp hq ▸ hv
      · refine List.pairwise_append.mpr ⟨hopened.sorted.sublist hpre.sublist,
          List.pairwise_singleton _ _, fun q hq p hp => ?_⟩
        exact List.mem_singleton.mp hp ▸ hopened.le q (hpre.subset hq)
      · rcases List.mem_append.mp hq with hq | hq
        · exact hopened.le q (hpre.subset hq)
        · exact (congrArg _ (List.mem_singleton.mp hq)).le
    rcases saveOne_cases hopened readLast_of_valid with he | ⟨pre, hpre, hsame, he⟩ <;> rw [he]
    · refine ⟨hafter List.prefix_rfl, List.mem_concat_self, fun q hq => ?_⟩
      exact (hkeeps q hq).imp_left (List.mem_append_left _)
    · refine ⟨hafter (hpre ▸ List.prefix_append pre _), List.mem_concat_self, fun q hq => ?_⟩
      rcases hkeeps q hq with hq | hq
      · rw [hpre] at hq
        rcases List.mem_append.mp hq with hq | hq
        · exact .inl (List.mem_append_left _ hq)
        · exact .inr (by rw [List.mem_singleton.mp hq, hsame])
      · exact .inr hq

end Saving

/-! ## Saving candles -/

section Candles

variable [TimeUtils] {r : Repository} {ds : List Candle} {f : DataFile}

/-- The file takes the record of each candle, one after the other. -/
def Repository.Lands (r : Repository) (f : DataFile) : List Candle → Prop
  | [] => True
  | d :: ds => f.Takes (r.stored d) ∧ r.Lands (saveRecords f [r.toPriceData d]) ds

instance Repository.Lands.decidable (r : Repository) : ∀ f ds, Decidable (r.Lands f ds)
  | _, [] => .isTrue trivial
  | f, d :: ds =>
    have := Repository.Lands.decidable r (saveRecords f [r.toPriceData d]) ds
    inferInstanceAs (Decidable (f.Takes (r.stored d) ∧ _))

/-- Saving adds only valid records of the candles. -/
theorem mem_saveAll {p : PriceData} (hp : p ∈ (r.saveAll f ds).records) :
    p ∈ f.records ∨ ∃ d ∈ ds, p = r.stored d ∧ isValidRecord p = true := by
  induction ds generalizing f with
  | nil => exact .inl hp
  | cons d ds ih =>
    rcases ih hp with hp | ⟨e, he, hp⟩
    · rcases mem_saveRecords_singleton hp with hp | hp
      · exact .inl (openForUpdates_subset f hp)
      · exact .inr ⟨d, List.mem_cons_self, hp⟩
    · exact .inr ⟨e, List.mem_cons_of_mem _ he, hp⟩

/-- The records of the candles are valid, of later and later minutes, and none on file is later. -/
structure Repository.ComeNext (r : Repository) (f : DataFile) (ds : List Candle) : Prop where
  valid : ∀ d ∈ ds, isValidRecord (r.stored d) = true
  later : ds.Pairwise fun c d => (r.stored c).openTime < (r.stored d).openTime
  le : ∀ q ∈ f.records, ∀ d ∈ ds, q.openTime ≤ (r.stored d).openTime

theorem Repository.ComeNext.tail {d : Candle} (h : r.ComeNext f (d :: ds)) :
    r.ComeNext (saveRecords f [r.toPriceData d]) ds := by
  obtain ⟨hlater, hrest⟩ := List.pairwise_cons.mp h.later
  refine ⟨fun e he => h.valid e (List.mem_cons_of_mem _ he), hrest, fun q hq e he => ?_⟩
  rcases mem_saveRecords_singleton hq with hq | ⟨rfl, -⟩
  · exact h.le q (openForUpdates_subset f hq) e (List.mem_cons_of_mem _ he)
  · exact (hlater e he).le

/-- Candles that land are on file afterwards, and all records of other minutes with them. -/
theorem saveAll_of_lands (hds : r.ComeNext f ds) (hvalid : ∀ q ∈ f.records, isValidRecord q = true)
    (hsorted : Sorted PriceData.openTime f.records) (hland : r.Lands f ds) :
    (∀ q ∈ (r.saveAll f ds).records, isValidRecord q = true) ∧
      Sorted PriceData.openTime (r.saveAll f ds).records ∧
      (∀ d ∈ ds, r.stored d ∈ (r.saveAll f ds).records) ∧
      ∀ q ∈ f.records, q ∈ (r.saveAll f ds).records ∨
        ∃ d ∈ ds, q.openTime = (r.stored d).openTime := by
  induction ds generalizing f with
  | nil => exact ⟨hvalid, hsorted, fun _ hd => absurd hd List.not_mem_nil, fun _ hq => .inl hq⟩
  | cons d ds ih =>
    obtain ⟨htakes, hrest⟩ := hland
    have hlater := (List.pairwise_cons.mp hds.later).1
    have hf : UpTo f.records (r.stored d) :=
      ⟨hvalid, hsorted, fun q hq => hds.le q hq d List.mem_cons_self⟩
    obtain ⟨hup, hmem, hkept⟩ := htakes.saved hf (hds.valid d List.mem_cons_self)
    obtain ⟨h₁, h₂, h₃, h₄⟩ := ih hds.tail hup.valid hup.sorted hrest
    refine ⟨h₁, h₂, fun e he => ?_, fun q hq => ?_⟩
    · rcases List.mem_cons.mp he with rfl | he
      · -- no later candle is of the same minute
        refine (h₄ _ hmem).resolve_right ?_
        rintro ⟨e', he', hsame⟩
        exact (hlater e' he').ne hsame
      · exact h₃ e he
    · rcases hkept q hq with hq | hq
      · refine (h₄ q hq).imp_right ?_
        rintro ⟨e, he, hsame⟩
        exact ⟨e, List.mem_cons_of_mem _ he, hsame⟩
      · exact .inr ⟨d, List.mem_cons_self, hq⟩

/-- If the candles are on file afterwards, and no minute is missing, they landed. -/
theorem lands_of_saved (hds : r.ComeNext f ds)
    (hkept : ∀ q ∈ f.records, ∃ p ∈ (r.saveAll f ds).records, p.openTime = q.openTime)
    (hall : ∀ d ∈ ds, r.stored d ∈ (r.saveAll f ds).records) : r.Lands f ds := by
  induction ds generalizing f with
  | nil => trivial
  | cons d ds ih =>
    have hlater := (List.pairwise_cons.mp hds.later).1
    rw [show r.saveAll f (d :: ds) = r.saveAll (saveRecords f [r.toPriceData d]) ds from rfl]
      at hkept hall
    have hd : r.stored d ∈ (saveRecords f [r.toPriceData d]).records := by
      refine (mem_saveAll (hall d List.mem_cons_self)).resolve_right ?_
      rintro ⟨e, he, hsame, -⟩
      exact (hlater e he).ne (congrArg PriceData.openTime hsame)
    refine ⟨⟨fun q hq => ?_, ?_⟩, ih hds.tail (fun q hq => ?_) fun e he =>
      hall e (List.mem_cons_of_mem _ he)⟩
    · rcases openForUpdates_records f with hf | hf
      · exact .inl (hf ▸ hq)
      · -- an emptied file has the minutes of the candles only
        obtain ⟨p, hp, hsame⟩ := hkept q hq
        have hle := hds.le q hq d List.mem_cons_self
        rcases mem_saveAll hp with hp | ⟨e, he, rfl, -⟩
        · rcases mem_saveRecords_singleton hp with hp | ⟨rfl, -⟩
          · exact absurd (hf ▸ hp) List.not_mem_nil
          · exact .inr hsame.symm
        · have := hlater e he
          omega
    · by_contra hmiss
      obtain ⟨hclosed, hnot⟩ := not_or.mp hmiss
      have hsaved := saveRecords_singleton f (hds.valid d List.mem_cons_self)
      rw [if_neg hclosed] at hsaved
      exact hnot (hsaved ▸ hd)
    · rcases mem_saveRecords_singleton hq with hq | ⟨rfl, -⟩
      · exact hkept q (openForUpdates_subset f hq)
      · exact ⟨_, hall d List.mem_cons_self, rfl⟩

end Candles

/-! ## The calls -/

inductive WriteCall
  | appendOrReplace (candle : Candle)
  | sealOpenTailIfAny
  | restart
  deriving DecidableEq

section Calls

variable [TimeUtils]

/-- A restart takes the place of a repository that is gone. -/
def Repository.write (sort : StdSort) (symbol : List Char) (interval : Interval) (r : Repository) :
    WriteCall → AppendResult × Repository
  | .appendOrReplace candle => r.appendOrReplace candle
  | .sealOpenTailIfAny => r.sealOpenTailIfAny
  | .restart => ({}, .construct sort r.file symbol interval)

def Repository.writeStep (sort : StdSort) (symbol : List Char) (interval : Interval)
    (r : Repository) (call : WriteCall) : Option Repository :=
  some (r.write sort symbol interval call).2

/-- The candles that a call closes. -/
def Repository.closes (r : Repository) : WriteCall → List Candle
  | .appendOrReplace candle =>
    if r.accepts candle then closings r.intervalMs r.candles (r.normalizeCandle candle) else []
  | .sealOpenTailIfAny => sealedTail r.candles
  | .restart => []

/-- The repository `r` and what the call makes of it: a call that touched the disk has put the
record of every candle that it closed on file; no more candles are counted than the file has
minutes; and no closed candle is missing on file before a later record. -/
structure Repository.Reports (r : Repository) (call : WriteCall) (out : AppendResult × Repository) :
    Prop where
  touched : out.1.touchedDisk = true → ∀ c ∈ r.closes call, r.stored c ∈ out.2.file.records
  counted : out.2.metadata.count ≤ (out.2.file.records.map PriceData.openTime).dedup.length
  noHole : ∀ c ∈ closedOf out.2.candles, ∀ later ∈ out.2.file.records,
    floorToMinuteMs c.openTime < later.openTime →
      ∃ p ∈ out.2.file.records, p.openTime = floorToMinuteMs c.openTime

/-- The interval is one that the constructor reads back from the records, of which the file has one
a minute. -/
def Repository.Rereads (r : Repository) : Prop :=
  kMillisPerMinute ∣ r.intervalMs ∧ r.intervalLabel.length ≤ 7 ∧
    (r.file.records.map PriceData.openTime).Nodup

/-- The closed candles have minutes of their own with those of the call, whose records the file
takes one by one; a restart reads the file back. -/
structure Repository.Saves (r : Repository) (call : WriteCall) : Prop where
  minutes : OwnMinutes ((closedOf r.candles ++ r.closes call).map Candle.openTime)
  lands : r.Lands r.file (r.closes call)
  rereads : call = .restart → r.Rereads

instance (r : Repository) (call : WriteCall) : Decidable (r.Saves call) :=
  have : Decidable r.Rereads := inferInstanceAs (Decidable (_ ∧ _))
  decidable_of_iff (OwnMinutes ((closedOf r.candles ++ r.closes call).map Candle.openTime) ∧
      r.Lands r.file (r.closes call) ∧ (call = .restart → r.Rereads))
    ⟨fun h => ⟨h.1, h.2.1, h.2.2⟩, fun h => ⟨h.minutes, h.lands, h.rereads⟩⟩

end Calls

/-! ## The invariant -/

section Invariant

variable [TimeUtils] {symbol : List Char} {interval : Interval} {r : Repository} {ds : List Candle}
  {out : AppendResult × Repository} {call : WriteCall}

/-- Valid records in order, of closed candles only, and for the minute of each closed candle. -/
structure Repository.Recorded (symbol : List Char) (interval : Interval) (r : Repository) : Prop
    extends r.Contiguous where
  format : r.format = (symbol, interval, interval.ms, Domain.intervalLabel interval)
  minutes : OwnMinutes ((closedOf r.candles).map Candle.openTime)
  valid : ∀ p ∈ r.file.records, isValidRecord p = true
  sorted : Sorted PriceData.openTime r.file.records
  records : ∀ p ∈ r.file.records, ∃ c, r.OnGrid c ∧
    c.openTime ∈ (closedOf r.candles).map Candle.openTime ∧ p = r.stored c
  onFile : ∀ c ∈ closedOf r.candles,
    ∃ p ∈ r.file.records, p.openTime = floorToMinuteMs c.openTime

omit [TimeUtils] in
theorem Repository.Contiguous.closedOf_ascending (h : r.Contiguous) :
    ((closedOf r.candles).map Candle.openTime).Pairwise (· < ·) :=
  (h.spaced.pairwise h.interval_pos).sublist (List.filter_sublist.map _)

/-- No closed candle is later than those that a call closes. -/
theorem Repository.Closing.closed_le (hc : r.Closing ds out) (h : r.Contiguous) {t : Int}
    (ht : t ∈ (closedOf r.candles).map Candle.openTime) : ∀ d ∈ ds, t ≤ d.openTime := by
  obtain ⟨c, hcm, rfl⟩ := List.mem_map.mp ht
  have hcm := mem_of_mem_closedOf hcm
  have hasc := List.pairwise_map.mp (h.spaced.pairwise h.interval_pos)
  have hlast := List.getLast?_eq_some_getLast (List.ne_nil_of_mem hcm)
  exact fun d hd => (le_of_getLast? hasc hlast hcm).trans (hc.later _ hlast d hd)

/-- The times of the candles that are closed after a call. -/
theorem Repository.Closing.mem_times (hc : r.Closing ds out) (h : r.Contiguous) {t : Int} :
    t ∈ (closedOf out.2.candles).map Candle.openTime ↔
      t ∈ (closedOf r.candles ++ ds).map Candle.openTime := by
  rw [hc.closed, store_eq_upsert]
  constructor
  · intro ht
    obtain ⟨c, hcm, rfl⟩ := List.mem_map.mp ht
    exact List.mem_map_of_mem (List.mem_append.mpr (mem_upsertAll hcm))
  · intro ht
    rw [List.map_append, List.mem_append] at ht
    rcases ht with ht | ht
    · exact map_subset_upsertAll _ _ ht
    · obtain ⟨d, hd, rfl⟩ := List.mem_map.mp ht
      refine List.mem_map_of_mem (mem_upsertAll_of_ascending hc.ascending ?_ d hd)
      intro last hl e he
      exact hc.closed_le h (List.mem_map_of_mem (List.mem_of_getLast? hl)) e he

/-- Candles with minutes of their own follow the records on file. -/
theorem Repository.Recorded.comeNext (h : r.Recorded symbol interval) (hc : r.Closing ds out)
    (hown : OwnMinutes ((closedOf r.candles ++ ds).map Candle.openTime)) :
    r.ComeNext r.file ds := by
  have hmem {d : Candle} (hd : d ∈ ds) : d.openTime ∈ (closedOf r.candles ++ ds).map _ :=
    List.mem_map_of_mem (List.mem_append_right _ hd)
  have hvalid {d : Candle} (hd : d ∈ ds) : isValidRecord (r.stored d) = true :=
    (isValidRecord_stored_iff (hc.persistable (List.ne_nil_of_mem hd)) (hc.onGrid d hd)).mpr
      (hown _ (hmem hd)).1
  have hopen {d : Candle} (hd : d ∈ ds) : (r.stored d).openTime = floorToMinuteMs d.openTime :=
    stored_openTime_of_valid (hvalid hd) (hc.onGrid d hd)
  refine ⟨fun d hd => hvalid hd, hc.ascending.imp_of_mem fun hc' hd hlt => ?_, fun q hq d hd => ?_⟩
  · rw [hopen hc', hopen hd]
    exact (hown _ (hmem hd)).2 _ (hmem hc') hlt
  · obtain ⟨c, hgrid, htime, rfl⟩ := h.records q hq
    rw [stored_openTime_of_valid (h.valid _ hq) hgrid, hopen hd]
    exact floorToMinuteMs_mono hgrid.1.le (hc.closed_le h.toContiguous htime d hd)

/-- A call whose candles get to the file keeps the invariant, and their records are there. -/
theorem Repository.Recorded.closing (h : r.Recorded symbol interval) (hc : r.Closing ds out)
    (hown : OwnMinutes ((closedOf r.candles ++ ds).map Candle.openTime))
    (hland : r.Lands r.file ds) :
    out.2.Recorded symbol interval ∧ ∀ d ∈ ds, r.stored d ∈ out.2.file.records := by
  have hcome := h.comeNext hc hown
  obtain ⟨hvalid, hsorted, hall, hkept⟩ := saveAll_of_lands hcome h.valid h.sorted hland
  have hadded {p : PriceData} (hp : p ∈ (r.saveAll r.file ds).records) := mem_saveAll hp
  rw [← hc.file] at hvalid hsorted hall hkept hadded
  refine ⟨⟨hc.contiguous, hc.format.trans h.format, ?_, hvalid, hsorted, fun p hp => ?_,
    fun c hcm => ?_⟩, hall⟩
  · exact hown.subset fun t ht => (hc.mem_times h.toContiguous).mp ht
  · rw [onGrid_congr hc.format, stored_congr hc.format]
    rcases hadded hp with hp | ⟨d, hd, rfl, -⟩
    · obtain ⟨c, hgrid, htime, rfl⟩ := h.records p hp
      refine ⟨c, hgrid, (hc.mem_times h.toContiguous).mpr ?_, rfl⟩
      rw [List.map_append]
      exact List.mem_append_left _ htime
    · exact ⟨d, hc.onGrid d hd, (hc.mem_times h.toContiguous).mpr
        (List.mem_map_of_mem (List.mem_append_right _ hd)), rfl⟩
  · have hopen {d : Candle} (hd : d ∈ ds) : (r.stored d).openTime = floorToMinuteMs d.openTime :=
      stored_openTime_of_valid (hcome.valid d hd) (hc.onGrid d hd)
    have ht := (hc.mem_times h.toContiguous).mp (List.mem_map_of_mem hcm)
    obtain ⟨e, he, hsame⟩ := List.mem_map.mp ht
    rw [← hsame]
    rcases List.mem_append.mp he with he | he
    · obtain ⟨p, hp, hpe⟩ := h.onFile e he
      rcases hkept p hp with hp | ⟨d, hd, hpd⟩
      · exact ⟨p, hp, hpe⟩
      · exact ⟨r.stored d, hall d hd, hpd.symm.trans hpe⟩
    · exact ⟨r.stored e, hall e he, hopen he⟩

/-- As many candles are counted as the file has minutes. -/
theorem Repository.Recorded.counted (h : r.Recorded symbol interval) :
    r.metadata.count ≤ (r.file.records.map PriceData.openTime).dedup.length := by
  have hnodup : (((closedOf r.candles).map Candle.openTime).map floorToMinuteMs).Nodup :=
    (List.nodup_map_iff_inj_on (h.closedOf_ascending.imp ne_of_lt)).mpr
      fun s hs t ht he => h.minutes.inj hs ht he
  have hsub : ((closedOf r.candles).map Candle.openTime).map floorToMinuteMs ⊆
      (r.file.records.map PriceData.openTime).dedup := by
    intro m hm
    obtain ⟨t, ht, rfl⟩ := List.mem_map.mp hm
    obtain ⟨c, hc, rfl⟩ := List.mem_map.mp ht
    obtain ⟨p, hp, he⟩ := h.onFile c hc
    exact List.mem_dedup.mpr (he ▸ List.mem_map_of_mem hp)
  have hle := (List.subperm_of_subset hnodup hsub).length_le
  rw [List.length_map, List.length_map] at hle
  rwa [h.metadata, metadataOf_eq]

/-- Where a call counts no more candles than the file has minutes, the candles that are closed then
have minutes of their own, and all of them are there. -/
theorem Repository.Recorded.minutes_of_counted (h : r.Recorded symbol interval)
    (hc : r.Closing ds out)
    (hcount : out.2.metadata.count ≤ (out.2.file.records.map PriceData.openTime).dedup.length) :
    OwnMinutes ((closedOf out.2.candles).map Candle.openTime) ∧
      ∀ t ∈ (closedOf out.2.candles).map Candle.openTime,
        floorToMinuteMs t ∈ out.2.file.records.map PriceData.openTime := by
  have hgrid : ∀ t ∈ (closedOf out.2.candles).map Candle.openTime, 0 ≤ t := by
    intro t ht
    obtain ⟨c, hcm, rfl⟩ := List.mem_map.mp ht
    exact (hc.contiguous.onGrid_of_mem (mem_of_mem_closedOf hcm)).1.le
  -- the file has minutes of these candles only
  have hminute : ∀ p ∈ out.2.file.records, 0 < p.openTime ∧
      ∃ t ∈ (closedOf out.2.candles).map Candle.openTime, p.openTime = floorToMinuteMs t := by
    rw [hc.file]
    intro p hp
    obtain ⟨c, hcg, htime, hv, rfl⟩ : ∃ c, r.OnGrid c ∧
        c.openTime ∈ (closedOf r.candles ++ ds).map Candle.openTime ∧
          isValidRecord p = true ∧ p = r.stored c := by
      rcases mem_saveAll hp with hp | ⟨d, hd, rfl, hv⟩
      · obtain ⟨c, hcg, htime, he⟩ := h.records p hp
        refine ⟨c, hcg, ?_, h.valid p hp, he⟩
        rw [List.map_append]
        exact List.mem_append_left _ htime
      · exact ⟨d, hc.onGrid d hd, List.mem_map_of_mem (List.mem_append_right _ hd), hv, rfl⟩
    exact ⟨(isValidRecord_iff.mp hv).1, c.openTime, (hc.mem_times h.toContiguous).mpr htime,
      stored_openTime_of_valid hv hcg⟩
  have hsub : (out.2.file.records.map PriceData.openTime).dedup ⊆
      ((closedOf out.2.candles).map Candle.openTime).map floorToMinuteMs := by
    intro m hm
    obtain ⟨p, hp, rfl⟩ := List.mem_map.mp (List.mem_dedup.mp hm)
    obtain ⟨t, ht, he⟩ := (hminute p hp).2
    exact he ▸ List.mem_map_of_mem ht
  rw [hc.contiguous.metadata, metadataOf_eq] at hcount
  have hperm := (List.subperm_of_subset (List.nodup_dedup _) hsub).perm_of_length_le (by
    rw [List.length_map, List.length_map]
    exact hcount)
  have hthere : ∀ t ∈ (closedOf out.2.candles).map Candle.openTime,
      floorToMinuteMs t ∈ out.2.file.records.map PriceData.openTime := fun t ht =>
    List.mem_dedup.mp (hperm.mem_iff.mpr (List.mem_map_of_mem ht))
  refine ⟨ownMinutes_of_nodup (hperm.nodup_iff.mp (List.nodup_dedup _))
    fun t ht => ⟨hgrid t ht, ?_⟩, hthere⟩
  obtain ⟨p, hp, he⟩ := List.mem_map.mp (hthere t ht)
  exact he ▸ (hminute p hp).1

/-- A call reports what it does exactly when the candles that it closes get to the file. -/
theorem Repository.Recorded.reports_iff (h : r.Recorded symbol interval)
    (hc : r.Closing (r.closes call) out) (hcall : call ≠ .restart) :
    r.Reports call out ↔ r.Saves call := by
  constructor
  · intro hreports
    obtain ⟨hown, hthere⟩ := h.minutes_of_counted hc hreports.counted
    have hown := hown.subset fun t ht => (hc.mem_times h.toContiguous).mpr ht
    refine ⟨hown, lands_of_saved (h.comeNext hc hown) (fun q hq => ?_) fun d hd => ?_,
      fun he => absurd he hcall⟩
    · obtain ⟨c, hgrid, htime, rfl⟩ := h.records q hq
      rw [stored_openTime_of_valid (h.valid _ hq) hgrid, ← hc.file]
      refine List.mem_map.mp (hthere _ ((hc.mem_times h.toContiguous).mpr ?_))
      rw [List.map_append]
      exact List.mem_append_left _ htime
    · rw [← hc.file]
      exact hreports.touched (hc.touched (List.ne_nil_of_mem hd)) d hd
  · intro hsaves
    obtain ⟨hnext, hall⟩ := h.closing hc hsaves.minutes hsaves.lands
    exact ⟨fun _ => hall, hnext.counted, fun c hcm _ _ _ => hnext.onFile c hcm⟩

/-- The candles behind the records of a file that has one a minute. -/
theorem Repository.Recorded.exists_candles (h : r.Recorded symbol interval)
    (hone : (r.file.records.map PriceData.openTime).Nodup) :
    ∃ cs : List Candle, (∀ c ∈ cs, r.OnGrid c) ∧
      cs.map Candle.openTime = (closedOf r.candles).map Candle.openTime ∧
      r.file.records = cs.map r.stored := by
  let P (c : Candle) := r.OnGrid c ∧ c.openTime ∈ (closedOf r.candles).map Candle.openTime
  have hrange : r.file.records ∈ Set.range (List.map fun c : {c // P c} => r.stored c) := by
    rw [Set.range_list_map]
    intro p hp
    obtain ⟨c, hgrid, htime, rfl⟩ := h.records p hp
    exact ⟨⟨c, hgrid, htime⟩, rfl⟩
  obtain ⟨xs, hxs⟩ := hrange
  obtain ⟨cs, hcs, hrec⟩ : ∃ cs : List Candle, (∀ c ∈ cs, P c) ∧
      r.file.records = cs.map r.stored := by
    refine ⟨xs.map Subtype.val, fun c hc => ?_, ?_⟩
    · obtain ⟨x, -, rfl⟩ := List.mem_map.mp hc
      exact x.2
    · rw [List.map_map]
      exact hxs.symm
  have hopen {c : Candle} (hc : c ∈ cs) : (r.stored c).openTime = floorToMinuteMs c.openTime :=
    stored_openTime_of_valid (h.valid _ (hrec ▸ List.mem_map_of_mem hc)) (hcs c hc).1
  have hstrict : (cs.map Candle.openTime).Pairwise (· < ·) := by
    have hsorted := h.sorted
    rw [hrec] at hone
    rw [hrec, Sorted, List.pairwise_map] at hsorted
    rw [List.map_map, List.nodup_iff_pairwise_ne, List.pairwise_map] at hone
    rw [List.pairwise_map]
    refine (hsorted.and hone).imp_of_mem fun {c d} hc hd ⟨hle, hne⟩ => ?_
    have hlt := lt_of_le_of_ne hle hne
    rw [hopen hc, hopen hd] at hlt
    exact lt_of_not_ge fun hdc => absurd (floorToMinuteMs_mono (hcs d hd).1.1.le hdc) hlt.not_ge
  refine ⟨cs, fun c hc => (hcs c hc).1, ?_, hrec⟩
  have hperm := (List.perm_ext_iff_of_nodup (hstrict.imp ne_of_lt)
    (h.closedOf_ascending.imp ne_of_lt)).mpr fun t => ⟨fun ht => ?_, fun ht => ?_⟩
  · exact hperm.eq_of_pairwise (fun s t _ _ hst hts => absurd hst hts.not_gt) hstrict
      h.closedOf_ascending
  · obtain ⟨c, hc, rfl⟩ := List.mem_map.mp ht
    exact (hcs c hc).2
  · obtain ⟨c, hc, rfl⟩ := List.mem_map.mp ht
    obtain ⟨p, hp, he⟩ := h.onFile c hc
    rw [hrec] at hp
    obtain ⟨d, hd, rfl⟩ := List.mem_map.mp hp
    rw [hopen hd] at he
    exact h.minutes.inj (hcs d hd).2 ht he ▸ List.mem_map_of_mem hd

/-- A repository that takes the place of one that it rereads. -/
theorem Repository.Recorded.restart (h : r.Recorded symbol interval) (sort : StdSort)
    (hre : r.Rereads) :
    (Repository.construct sort r.file symbol interval).Recorded symbol interval := by
  obtain ⟨hM, hlabel, hone⟩ := hre
  obtain ⟨cs, hgrid, htimes, hrec⟩ := h.exists_candles hone
  rw [show r.intervalMs = interval.ms from congrArg (·.2.2.1) h.format] at hM
  rw [show r.intervalLabel = Domain.intervalLabel interval from congrArg (·.2.2.2) h.format]
    at hlabel
  have hpos : 0 < interval.ms :=
    (show r.intervalMs = interval.ms from congrArg (·.2.2.1) h.format) ▸ h.interval_pos
  have hw := writes_of_format hM hlabel h.interval_pos h.format
  have hclosed : closedOf (cs.map fun c => r.toCandle (r.stored c)) =
      cs.map fun c => r.toCandle (r.stored c) := by
    apply closedOf_of_all
    intro c hc
    obtain ⟨d, -, rfl⟩ := List.mem_map.mp hc
    rfl
  have hread : (cs.map fun c => r.toCandle (r.stored c)).map Candle.openTime =
      (closedOf r.candles).map Candle.openTime := by
    rw [← htimes, List.map_map]
    exact List.map_congr_left fun c hc => toCandle_stored_openTime hw.minutes (hgrid c hc)
  have hp : cs ≠ [] → r.persistable = true := by
    intro hne
    apply h.persistable
    rintro he
    rw [he] at htimes
    exact hne (List.map_eq_nil_iff.mp htimes)
  have hsound := construct_sound sort r.file symbol interval
  have hbuilt := construct_of_records sort hw h.format hp hgrid (htimes ▸ h.closedOf_ascending) hrec
  have hfmt : (Repository.construct sort r.file symbol interval).format = r.format := by
    rw [hbuilt, h.format]
    rfl
  have hI : (Repository.construct sort r.file symbol interval).intervalMs = r.intervalMs :=
    congrArg (·.2.2.1) hfmt
  have hcandles := congrArg Repository.candles hbuilt
  have hfile := congrArg Repository.file hbuilt
  dsimp only at hcandles hfile
  have htimes' : (closedOf (Repository.construct sort r.file symbol interval).candles).map
      Candle.openTime = (closedOf r.candles).map Candle.openTime := by
    rw [hcandles, hclosed, hread]
  refine ⟨⟨hsound, ?_, ?_, ?_⟩, hfmt.trans h.format, htimes' ▸ h.minutes, ?_, ?_, ?_, ?_⟩
  · rw [hI, hcandles, hread]
    exact h.spaced.initial ((closedOf_prefix_of_closed h.closed).map _)
  · rw [hI, hcandles]
    intro c hc
    obtain ⟨d, hd, rfl⟩ := List.mem_map.mp hc
    have ht := toCandle_stored_openTime hw.minutes (hgrid d hd)
    have hpos := (hgrid d hd).1
    have hIpos := h.interval_pos
    have hopen : alignDownMs (r.stored d).openTime r.intervalMs = d.openTime := ht
    refine ⟨ht ▸ hpos, ht ▸ (hgrid d hd).2, ?_⟩
    simp only [Repository.toCandle, hopen, hpos, hIpos, decide_true, Bool.and_self, if_true]
  · intro hne
    have hkept := hp fun he => hne (by rw [hcandles, he]; rfl)
    simp only [Repository.format, Prod.mk.injEq] at hfmt
    simpa only [Repository.persistable, hfmt] using hkept
  · rw [hfile]
    exact h.valid
  · rw [hfile]
    exact h.sorted
  · rw [onGrid_congr hfmt, stored_congr hfmt, htimes', hfile]
    exact h.records
  · rw [hfile]
    intro c hc
    obtain ⟨d, hd, hdc⟩ := List.mem_map.mp (htimes' ▸ List.mem_map_of_mem hc)
    exact hdc ▸ h.onFile d hd

theorem construct_recorded (sort : StdSort) {file : DataFile} (hrec : file.records = [])
    (symbol : List Char) {interval : Interval} (hI : 0 < interval.ms) :
    (Repository.construct sort file symbol interval).Recorded symbol interval := by
  refine ⟨construct_contiguous sort hrec symbol hI, ?_, ?_, ?_, ?_, ?_, ?_⟩ <;>
    rw [construct_of_records_nil sort hrec symbol hI]
  · rfl
  · exact fun t ht => absurd ht List.not_mem_nil
  · exact fun p hp => absurd (hrec ▸ hp) List.not_mem_nil
  · exact hrec ▸ .nil
  · exact fun p hp => absurd (hrec ▸ hp) List.not_mem_nil
  · exact fun c hc => absurd hc List.not_mem_nil

omit [TimeUtils] in
/-- The constructor takes a minute where an interval is not valid. -/
theorem exists_construct_eq (sort : StdSort) (symbol : List Char) (interval : Interval) :
    ∃ valid : Interval, 0 < valid.ms ∧ ∀ file,
      Repository.construct sort file symbol interval = .construct sort file symbol valid := by
  cases hv : interval.valid with
  | true => exact ⟨interval, of_decide_eq_true hv, fun _ => rfl⟩
  | false =>
    refine ⟨⟨kMillisPerMinute⟩, by decide, fun file => ?_⟩
    have hminute : Interval.valid ⟨kMillisPerMinute⟩ = true := rfl
    simp only [Repository.construct, hv, hminute, Bool.not_false, Bool.not_true, if_true,
      Bool.false_eq_true, if_false]

end Invariant

/-! ## Runs -/

/-- Runs of a new repository: steps that save report, and without a restart they report only so. -/
theorem writes_reported_iff [TimeUtils] (sort : StdSort) (file : DataFile)
    (hrec : file.records = []) (symbol : List Char) (interval : Interval) (calls : List WriteCall) :
    let start := Repository.construct sort file symbol interval
    let step := Repository.writeStep sort symbol interval
    let Reports := fun (r : Repository) call => r.Reports call (r.write sort symbol interval call)
    (Along step Repository.Saves start calls → Along step Reports start calls) ∧
      (.restart ∉ calls →
        (Along step Reports start calls ↔ Along step Repository.Saves start calls)) := by
  obtain ⟨valid, hI, hsame⟩ := exists_construct_eq sort symbol interval
  have hwrite : Repository.write sort symbol interval = Repository.write sort symbol valid := by
    funext r call
    cases call with
    | restart => exact congrArg (({} : AppendResult), ·) (hsame r.file)
    | _ => rfl
  have hstep :
      Repository.writeStep sort symbol interval = Repository.writeStep sort symbol valid := by
    funext r call
    rw [Repository.writeStep, hwrite]
    rfl
  rw [hstep, hwrite, hsame]
  have hstart := construct_recorded sort hrec symbol hI
  -- what a call that is no restart closes
  have hcall : ∀ {r : Repository}, r.Recorded symbol valid → ∀ call, call ≠ .restart →
      r.Closing (r.closes call) (r.write sort symbol valid call) := by
    intro r h call hne
    cases call with
    | appendOrReplace candle => exact closing_appendOrReplace h.toContiguous candle
    | sealOpenTailIfAny => exact closing_sealOpenTailIfAny h.toContiguous
    | restart => exact absurd rfl hne
  constructor
  · refine along_of_along (fun r (h : r.Recorded symbol valid) call hsaves => ?_) hstart
    by_cases hne : call = .restart
    · subst hne
      have hnext := h.restart sort (hsaves.rereads rfl)
      exact ⟨⟨fun _ c hc => absurd hc List.not_mem_nil, hnext.counted,
        fun c hc _ _ _ => hnext.onFile c hc⟩, fun t ht => Option.some.inj ht ▸ hnext⟩
    · have hc := hcall h call hne
      have hnext := (h.closing hc hsaves.minutes hsaves.lands).1
      exact ⟨(h.reports_iff hc hne).mpr hsaves, fun t ht => Option.some.inj ht ▸ hnext⟩
  · intro hno
    refine along_congr (fun r (h : r.Recorded symbol valid) call hmem => ?_) hstart
    have hc := hcall h call fun he => hno (he ▸ hmem)
    refine ⟨h.reports_iff hc fun he => hno (he ▸ hmem), fun t hsaves ht => ?_⟩
    exact Option.some.inj ht ▸ (h.closing hc hsaves.minutes hsaves.lands).1

/-- A candle that is closed, kept over a restart and followed by one that is sealed. The file opens
for the first one only where it is created. -/
theorem writes_reported_sealed :
    let calls := [.appendOrReplace (flatCandle 60000 true), .restart,
      .appendOrReplace (flatCandle 120000 false), .sealOpenTailIfAny]
    Along (Repository.writeStep .insertion ['B'] ⟨60000⟩)
      (fun r call => r.Reports call (r.write .insertion ['B'] ⟨60000⟩ call))
      (.construct .insertion { opens := [false, true, true, false, true, true] } ['B'] ⟨60000⟩)
      calls :=
  (writes_reported_iff .insertion _ rfl ['B'] ⟨60000⟩ _).1 (by decide +kernel)

/-- The first candle is reported and counted though the file could not be opened. The second one is
written without it. -/
theorem not_reported_failedOpen :
    let start := Repository.construct .insertion { opens := [false, false, false] } ['B'] ⟨60000⟩
    let (result, r) := start.appendOrReplace (flatCandle 60000 true)
    let next := (r.appendOrReplace (flatCandle 120000 true)).2
    ¬ Along (Repository.writeStep .insertion ['B'] ⟨60000⟩)
        (fun r call => r.Reports call (r.write .insertion ['B'] ⟨60000⟩ call)) start
        [.appendOrReplace (flatCandle 60000 true), .appendOrReplace (flatCandle 120000 true)] ∧
      result.touchedDisk = true ∧ r.metadata.count = 1 ∧ r.file.records = [] ∧
      (closedOf next.candles).map Candle.openTime = [60000, 120000] ∧
      next.file.records.map PriceData.openTime = [120000] := by
  refine ⟨fun h => absurd h.1.counted (by decide +kernel), by decide +kernel⟩

/-- An open that falls back loses the candle before. -/
example :
    let start := Repository.construct .insertion { opens := [true, true, false] } ['B'] ⟨60000⟩
    let r := (start.appendOrReplace (flatCandle 60000 true)).2
    let next := (r.appendOrReplace (flatCandle 120000 true)).2
    next.metadata.count = 2 ∧ next.file.records.map PriceData.openTime = [120000] := by
  decide +kernel

end TCV.Storage
