import TradingChartViewer.Storage.Batch
import TradingChartViewer.Storage.Saving
import TradingChartViewer.Storage.Sequential

/-!
# The order of the data file

The open times on file over runs of whole operations of `DatabaseEngine`, with restarts in
between. A page is compared with the last record on file; the candle that a live record closes
is appended without looking.

* `DatabaseEngine.OrderedFile`: valid records in strictly ascending order;
* `DatabaseEngine.OrderedFile.call`: every operation keeps it, if the candle it closes is not on
  file yet (`DatabaseEngine.ClosesUnsaved`);
* `fileOrder_iff`: these are exactly the runs that keep the file in order.
-/

namespace TCV.Storage

open TCV.Domain Lib.Run Lib.Upsert

section

variable [TimeUtils]

/-! ## The condition -/

/-- Where a live record is later than the front of the ring, the last record on file is earlier
than the front. -/
def DatabaseEngine.ClosesUnsaved (e : DatabaseEngine) : EngineCall → Prop
  | .updateWithNewData data => ∀ r ∈ normalizedRecord? data, ∀ front ∈ e.cache.head?,
      front.openTime < r.openTime → ∀ last ∈ e.file.records.getLast?, last.openTime < front.openTime
  | _ => True

instance (e : DatabaseEngine) : (c : EngineCall) → Decidable (e.ClosesUnsaved c)
  | .updateWithNewData data => inferInstanceAs (Decidable (∀ r ∈ normalizedRecord? data, _))
  | .construct _ | .actualize _ => .isTrue trivial

/-- The valid records on file are in strictly ascending order. -/
def DatabaseEngine.FileInOrder (e : DatabaseEngine) : Prop :=
  Ascending PriceData.openTime (e.file.records.filter isValidRecord)

instance (e : DatabaseEngine) : Decidable e.FileInOrder :=
  inferInstanceAs (Decidable (List.Pairwise _ _))

/-! ## The invariant -/

structure DatabaseEngine.OrderedFile (e : DatabaseEngine) : Prop where
  opens : e.file.opens = []
  valid : ∀ r ∈ e.file.records, isValidRecord r = true
  ascending : Ascending PriceData.openTime e.file.records

theorem DatabaseEngine.OrderedFile.of_file {e e' : DatabaseEngine} (h : e.OrderedFile)
    (hf : e'.file = e.file) : e'.OrderedFile :=
  ⟨hf ▸ h.opens, hf ▸ h.valid, hf ▸ h.ascending⟩

theorem DatabaseEngine.OrderedFile.inOrder {e : DatabaseEngine} (h : e.OrderedFile) :
    e.FileInOrder := by
  rw [DatabaseEngine.FileInOrder, List.filter_eq_self.mpr h.valid]
  exact h.ascending

/-- A page is stored as it is. -/
theorem normalBatch_page (page : List MinuteRecord) :
    normalBatch (page.map fun r => r.toPriceData) = page.map fun r => r.toPriceData := by
  unfold normalBatch
  rw [List.map_map, List.map_congr_left fun r _ => show (normalizeRecord ∘ _) r = _ from r.normal]
  rw [List.filter_eq_self]
  intro r hr
  obtain ⟨m, -, rfl⟩ := List.mem_map.mp hr
  exact m.valid

variable {e e' : DatabaseEngine}

/-- Saving a page keeps the order. -/
theorem DatabaseEngine.OrderedFile.saveRecords (h : e.OrderedFile) (page : FetchedPage) :
    (e.saveRecords page.records).OrderedFile := by
  have hpage : Ascending PriceData.openTime (page.records.map fun r => r.toPriceData) :=
    List.pairwise_map.mpr page.ascending
  have hnormal := normalBatch_page page.records
  have hvalid : ∀ r ∈ page.records.map (fun r => r.toPriceData), isValidRecord r = true := by
    intro r hr
    obtain ⟨m, -, rfl⟩ := List.mem_map.mp hr
    exact m.valid
  rcases List.eq_nil_or_concat e.file.records with hf | ⟨pre, last, hf⟩
  · have hrec := saveRecords_of_empty (page.records.map fun r => r.toPriceData) h.opens hf
    rw [hnormal] at hrec
    refine ⟨saveRecords_opens h.opens _, fun r hr => ?_, ?_⟩
    · exact hvalid r (mem_appendLaterAll (hrec ▸ hr))
    · show Ascending _ (Storage.saveRecords _ _).records
      rw [hrec]
      exact ascending_appendLaterAll List.Pairwise.nil _
  · rw [List.concat_eq_append] at hf
    have hrec := saveRecords_eq_upsertAll h.opens hf (h.valid last (by rw [hf]; simp))
      (hnormal.symm ▸ noRepeat_of_ascending hpage last.openTime)
    rw [hnormal] at hrec
    refine ⟨saveRecords_opens h.opens _, fun r hr => ?_, ?_⟩
    · rcases mem_upsertAll (hrec ▸ hr : r ∈ upsertAll _ _ _) with hr | hr
      · exact h.valid r hr
      · exact hvalid r hr
    · show Ascending _ (Storage.saveRecords _ _).records
      rw [hrec]
      exact ascending_upsertAll h.ascending _

theorem DatabaseEngine.OrderedFile.takePage (h : e.OrderedFile) (page : FetchedPage) :
    (takePage e page).OrderedFile := by
  apply (h.saveRecords page).of_file
  rw [takePage_file]
  rfl

/-- What a live record does to the file: nothing, or it appends the front of the ring. -/
theorem updateWithNewData_file (e : DatabaseEngine) (data : PriceData) :
    ((updateWithNewData e data).file = e.file ∧
        ∀ r ∈ normalizedRecord? data, ∀ front ∈ e.cache.head?, ¬ front.openTime < r.openTime) ∨
      ∃ r front, normalizedRecord? data = some r ∧ e.cache.head? = some front ∧
        front.openTime < r.openTime ∧
        (updateWithNewData e data).file = Storage.saveRecord e.file front.toPriceData := by
  cases hn : normalizedRecord? data with
  | none =>
    refine .inl ⟨?_, by simp⟩
    simp only [updateWithNewData, hn]
  | some r =>
    simp only [updateWithNewData, hn]
    cases hc : e.cache with
    | nil =>
      refine .inl ⟨?_, by simp⟩
      simp only [updateCache, hc]
      rw [ingestRecord_eq]
      rfl
    | cons front rest =>
      rcases Int.lt_trichotomy front.openTime r.openTime with ht | ht | ht
      · refine .inr ⟨r, front, rfl, rfl, ht, ?_⟩
        simp only [updateCache, hc, if_pos ht]
        rw [ingestRecord_eq]
        rfl
      · refine .inl ⟨?_, fun q hq f hf => ?_⟩
        · simp only [updateCache, hc, ht, lt_irrefl, if_false, if_true]
          rw [ingestRecord_eq]
          rfl
        · obtain rfl := Option.some.inj hq
          obtain rfl := Option.some.inj hf
          omega
      · refine .inl ⟨?_, fun q hq f hf => ?_⟩
        · simp only [updateCache, hc, if_neg (show ¬ front.openTime < r.openTime by omega),
            if_neg (show ¬ r.openTime = front.openTime by omega)]
        · obtain rfl := Option.some.inj hq
          obtain rfl := Option.some.inj hf
          omega

/-- A live record keeps the order exactly when the candle it closes is not on file yet. -/
theorem DatabaseEngine.OrderedFile.updateWithNewData_iff (h : e.OrderedFile) (data : PriceData) :
    (e.ClosesUnsaved (.updateWithNewData data) → (updateWithNewData e data).OrderedFile) ∧
      ((updateWithNewData e data).FileInOrder → e.ClosesUnsaved (.updateWithNewData data)) := by
  rcases updateWithNewData_file e data with ⟨hf, hnot⟩ | ⟨r, front, hr, hfront, hlt, hf⟩
  · exact ⟨fun _ => h.of_file hf, fun _ r hr front hfront hlt => absurd hlt (hnot r hr front hfront)⟩
  · have hrec : (updateWithNewData e data).file.records = e.file.records ++ [front.toPriceData] := by
      rw [hf, saveRecord_records h.opens]
    have hvalid : ∀ r ∈ (updateWithNewData e data).file.records, isValidRecord r = true := by
      intro r hr
      rw [hrec] at hr
      rcases List.mem_append.mp hr with hr | hr
      · exact h.valid r hr
      · exact List.mem_singleton.mp hr ▸ front.valid
    constructor
    · intro hc
      refine ⟨by rw [hf]; exact saveRecord_opens h.opens _, hvalid, ?_⟩
      rw [hrec]
      exact ascending_concat h.ascending fun last hl => hc r hr front hfront hlt last hl
    · intro hasc q hq f hf' _ last hl
      obtain rfl : front = f := Option.some.inj (hfront.symm.trans hf')
      rw [DatabaseEngine.FileInOrder, List.filter_eq_self.mpr hvalid, hrec] at hasc
      exact (List.pairwise_append.mp hasc).2.2 last (List.mem_of_getLast? hl) _ List.mem_cons_self

/-- One operation. -/
theorem DatabaseEngine.OrderedFile.call {fetcher : Int → Int → List PriceData} (h : e.OrderedFile)
    {c : EngineCall} (hc : e.ClosesUnsaved c) (he : e.call fetcher c = some e') : e'.OrderedFile := by
  cases c with
  | construct uninitialised =>
    obtain rfl := Option.some.inj he
    exact h.of_file (opened_file e.file uninitialised)
  | updateWithNewData data =>
    obtain rfl := Option.some.inj he
    exact (h.updateWithNewData_iff data).1 hc
  | actualize nows =>
    refine actualize_inv (P := fun _ _ => True)
      (fun e (h : e.OrderedFile) => h.of_file (rebuildCacheFromHistorical_file e))
      (fun e now page h _ _ => h.takePage page) h (along_of_forall fun _ _ => trivial) he

/-- In a run from an ordered file, the file stays in order after every operation exactly when
every live record closes a candle that is not on file yet. -/
theorem inOrder_iff_along (fetcher : Int → Int → List PriceData) (h : e.OrderedFile)
    (calls : List EngineCall) :
    (∀ pre, pre <+: calls → ∀ t, run (DatabaseEngine.call fetcher) e pre = some t → t.FileInOrder) ↔
      Along (DatabaseEngine.call fetcher) DatabaseEngine.ClosesUnsaved e calls := by
  induction calls generalizing e with
  | nil =>
    refine iff_of_true (fun pre hpre t ht => ?_) trivial
    rw [List.prefix_nil.mp hpre] at ht
    exact Option.some.inj ht ▸ h.inOrder
  | cons c calls ih =>
    constructor
    · intro hall
      -- The first operation, and then the rest from where it leads.
      have hc : e.ClosesUnsaved c := by
        cases c with
        | construct uninitialised => trivial
        | actualize nows => trivial
        | updateWithNewData data =>
          apply (h.updateWithNewData_iff data).2
          exact hall [.updateWithNewData data] (List.prefix_append [_] calls) _ rfl
      refine ⟨hc, fun t ht => (ih (h.call hc ht)).mp fun pre hpre u hu => ?_⟩
      apply hall (c :: pre) (List.cons_prefix_cons.mpr ⟨rfl, hpre⟩) u
      rw [run_cons, ht]
      exact hu
    · rintro ⟨hc, hrest⟩ pre hpre t ht
      rcases List.prefix_cons_iff.mp hpre with rfl | ⟨more, rfl, hmore⟩
      · exact Option.some.inj ht ▸ h.inOrder
      · rw [run_cons, Option.bind_eq_some_iff] at ht
        obtain ⟨u, hu, ht⟩ := ht
        exact (ih (h.call hc hu)).mpr (hrest u hu) more hmore t ht

/-- Runs from an empty data file, with any fetcher. -/
theorem fileOrder_iff (fetcher : Int → Int → List PriceData) (uninitialised : Int)
    (calls : List EngineCall) :
    (∀ pre, pre <+: calls → ∀ e, run (DatabaseEngine.call fetcher) (.opened {} uninitialised) pre =
        some e → e.FileInOrder) ↔
      Along (DatabaseEngine.call fetcher) DatabaseEngine.ClosesUnsaved (.opened {} uninitialised)
        calls := by
  refine inOrder_iff_along fetcher ⟨?_, ?_, ?_⟩ calls
  · rw [opened_file]
  · simp [opened_file]
  · rw [opened_file]
    exact List.Pairwise.nil

end

/-- An exchange whose only candle so far is that of the first minute. -/
def firstMinuteFetcher (_now startTime : Int) : List PriceData :=
  [flatRecord 60000 1].filter fun r => startTime ≤ r.openTime

/-- The first minute comes with a page and is stored again when the live stream goes on. -/
theorem fileOrder_storedTwice :
    (∀ now start, ∀ r ∈ firstMinuteFetcher now start, start ≤ r.openTime) ∧
    ∃ e, run (DatabaseEngine.call firstMinuteFetcher) (.opened {} 0)
        [.actualize [0], .updateWithNewData (flatRecord 120000 1)] = some e ∧
      ¬ e.FileInOrder ∧ e.file.records = [flatRecord 60000 1, flatRecord 60000 1] := by
  refine ⟨fun _ _ _ hr => of_decide_eq_true (List.mem_filter.mp hr).2, ?_⟩
  have hrun : (run (DatabaseEngine.call firstMinuteFetcher) (.opened {} 0)
      [.actualize [0], .updateWithNewData (flatRecord 120000 1)]).map (fun e =>
      decide (¬ e.FileInOrder ∧ e.file.records = [flatRecord 60000 1, flatRecord 60000 1])) =
      some true := by decide +kernel
  obtain ⟨e, he, hbad⟩ := Option.map_eq_some_iff.mp hrun
  exact ⟨e, he, of_decide_eq_true hbad⟩

end TCV.Storage
