import TradingChartViewer.Lib.Upsert
import TradingChartViewer.Storage.PriceDataManager

/-!
# Saving a batch

What `saveRecords` makes of a file of valid records in ascending order and a batch of any
records. Its loop compares with the last record persisted so far, but what it overwrites is
the last record of the file: a second record of a minute that the batch itself has appended
replaces the wrong one, or is lost where the file was empty.

* `foldl_saveStep`: the loop works on the valid normalised records (`normalBatch`);
* `saveStep_good`, `saveStep_late`: what one iteration keeps before and after such a record;
* `saveRecords_eq_upsertAll`: without one the file is updated record by record;
* `savesBatch_iff`: when the batch is saved as it should be.
-/

namespace TCV.Storage

open TCV.Domain Lib.Upsert

/-- The records of a batch that can be stored, as they are stored. -/
def normalBatch [TimeUtils] (batch : List PriceData) : List PriceData :=
  (batch.map normalizeRecord).filter isValidRecord

/-- The loop body on a record of `normalBatch`. -/
def keepRecord (s : SaveState) (normalized : PriceData) : SaveState :=
  if s.hasLast && normalized.openTime = s.lastPersisted.openTime then
    { s with overwrite := some normalized, lastPersisted := normalized }
  else if !s.hasLast || s.lastPersisted.openTime < normalized.openTime then
    { s with
      toAppend := s.toAppend ++ [normalized], lastPersisted := normalized, hasLast := true }
  else s

theorem saveStep_eq [TimeUtils] (s : SaveState) (record : PriceData) :
    saveStep s record =
      if isValidRecord (normalizeRecord record) then keepRecord s (normalizeRecord record) else s := by
  cases h : isValidRecord (normalizeRecord record) <;> simp [saveStep, keepRecord, h]

/-- The loop works on the valid normalised records. -/
theorem foldl_saveStep [TimeUtils] (batch : List PriceData) (s : SaveState) :
    batch.foldl saveStep s = (normalBatch batch).foldl keepRecord s := by
  induction batch generalizing s with
  | nil => rfl
  | cons record batch ih =>
    have hcons : normalBatch (record :: batch) =
        if isValidRecord (normalizeRecord record) then normalizeRecord record :: normalBatch batch
        else normalBatch batch := List.filter_cons
    rw [List.foldl_cons, ih, saveStep_eq, hcons]
    split <;> rfl

/-- The variables before the loop. -/
def startOf (f : DataFile) : SaveState :=
  let lastRecord := f.records.getLast?.getD PriceData.blank
  ⟨none, [], lastRecord, isValidRecord lastRecord⟩

/-- What the loop and the writes after it leave. -/
theorem saveRecords_records [TimeUtils] {f : DataFile} (h : f.opens = []) (batch : List PriceData) :
    (saveRecords f batch).records =
      writeBack f.records ((normalBatch batch).foldl keepRecord (startOf f)).overwrite
        ((normalBatch batch).foldl keepRecord (startOf f)).toAppend := by
  rw [← foldl_saveStep]
  cases batch with
  | nil => exact (List.append_nil _).symm
  | cons record batch =>
    rw [saveRecords_of_opens_nil h (List.cons_ne_nil _ _)]
    rfl

theorem startOf_concat {f : DataFile} {pre : List PriceData} {last : PriceData}
    (hf : f.records = pre ++ [last]) (hv : isValidRecord last = true) :
    startOf f = ⟨none, [], last, true⟩ := by
  rw [startOf, hf, List.getLast?_concat, Option.getD_some, hv]

theorem startOf_nil {f : DataFile} (hf : f.records = []) :
    startOf f = ⟨none, [], PriceData.blank, false⟩ := by
  rw [startOf, hf]
  rfl

/-! ## A file with records -/

section Records

/-- The loop so far has done to the file what `upsertAll` does. -/
structure Good (pre : List PriceData) (last : PriceData) (ns : List PriceData) (s : SaveState) :
    Prop where
  hasLast : s.hasLast = true
  persisted : (upsertAll PriceData.openTime (pre ++ [last]) ns).getLast? = some s.lastPersisted
  written : writeBack (pre ++ [last]) s.overwrite s.toAppend =
    upsertAll PriceData.openTime (pre ++ [last]) ns
  end_ : s.toAppend = [] → s.lastPersisted.openTime = last.openTime
  later : ∀ r ∈ s.toAppend, last.openTime < r.openTime

/-- The loop is about to overwrite the last record of the file with one that is of the minute of
a record it is about to append. -/
structure Late (s : SaveState) : Prop where
  hasLast : s.hasLast = true
  overwrite : ∃ o, s.overwrite = some o ∧ ∃ r ∈ s.toAppend, r.openTime = o.openTime
  persisted : ∃ r ∈ s.toAppend, r.openTime = s.lastPersisted.openTime

variable {pre ns : List PriceData} {last r : PriceData} {s : SaveState}

theorem writeBack_concat (pre : List PriceData) (last : PriceData) (overwrite : Option PriceData)
    (toAppend : List PriceData) :
    writeBack (pre ++ [last]) overwrite toAppend = pre ++ [overwrite.getD last] ++ toAppend := by
  cases overwrite with
  | none => rfl
  | some record => simp [writeBack]

theorem keepRecord_same (h : s.hasLast = true) (ht : r.openTime = s.lastPersisted.openTime) :
    keepRecord s r = { s with overwrite := some r, lastPersisted := r } := by
  simp [keepRecord, h, ht]

theorem keepRecord_later (h : s.hasLast = true → s.lastPersisted.openTime < r.openTime) :
    keepRecord s r =
      { s with toAppend := s.toAppend ++ [r], lastPersisted := r, hasLast := true } := by
  unfold keepRecord
  cases hl : s.hasLast with
  | false => rfl
  | true =>
    have := h hl
    rw [if_neg (by simp; omega), if_pos (by simpa using this)]

theorem keepRecord_earlier (h : s.hasLast = true) (ht : r.openTime < s.lastPersisted.openTime) :
    keepRecord s r = s := by
  unfold keepRecord
  rw [h, if_neg (by simp; omega), if_neg (by simp; omega)]

theorem Good.lastPersisted_of_concat (h : Good pre last ns s) {init : List PriceData}
    {q : PriceData} (hq : s.toAppend = init ++ [q]) : s.lastPersisted = q := by
  have hlast := h.persisted
  rw [← h.written, writeBack_concat, hq, ← List.append_assoc, List.getLast?_concat] at hlast
  exact (Option.some.inj hlast).symm

/-- Either nothing is to be appended, or the latest record so far is among what is and came with
the batch. -/
theorem Good.toAppend_cases (h : Good pre last ns s) :
    s.toAppend = [] ∨ s.lastPersisted ∈ s.toAppend ∧ s.lastPersisted ∈ ns := by
  rcases List.eq_nil_or_concat s.toAppend with hnil | ⟨init, q, hq⟩
  · exact .inl hnil
  · right
    rw [List.concat_eq_append] at hq
    have hlp := h.lastPersisted_of_concat hq
    have hmem : s.lastPersisted ∈ s.toAppend := by
      rw [hq, hlp]
      simp
    refine ⟨hmem, (getLast?_upsertAll ns h.persisted).resolve_left fun e => ?_⟩
    have hlate := h.later _ hmem
    rw [List.getLast?_concat] at e
    rw [Option.some.inj e] at hlate
    omega

/-- A record that does not repeat an appended minute. -/
theorem saveStep_good (h : Good pre last ns s)
    (hr : last.openTime < r.openTime → (∀ q ∈ ns, q.openTime ≤ r.openTime) →
      ∀ q ∈ ns, q.openTime < r.openTime) : Good pre last (ns ++ [r]) (keepRecord s r) := by
  have hle := le_getLast?_upsertAll ns h.persisted
  rcases Int.lt_trichotomy r.openTime s.lastPersisted.openTime with ht | ht | ht
  · rw [keepRecord_earlier h.hasLast ht]
    have e : upsertAll PriceData.openTime (pre ++ [last]) (ns ++ [r]) =
        upsertAll PriceData.openTime (pre ++ [last]) ns := by
      rw [upsertAll_concat_one, upsert_earlier h.persisted ht]
    exact ⟨h.hasLast, e ▸ h.persisted, e ▸ h.written, h.end_, h.later⟩
  · -- Only the minute of the file's last record comes again, and nothing was appended yet.
    have hnil : s.toAppend = [] := h.toAppend_cases.resolve_right fun ⟨happ, hmem⟩ => by
      have hlate := h.later _ happ
      have := hr (by omega) (fun q hq => ht ▸ hle.2 q hq) _ hmem
      omega
    have hlast := h.end_ hnil
    have hw := h.written
    rw [writeBack_concat, hnil, List.append_nil] at hw
    have hx := h.persisted
    rw [← hw, List.getLast?_concat] at hx
    rw [keepRecord_same h.hasLast ht]
    have e : upsertAll PriceData.openTime (pre ++ [last]) (ns ++ [r]) = pre ++ [r] := by
      rw [upsertAll_concat_one, ← hw]
      exact upsert_same pre (by rw [Option.some.inj hx]; exact ht)
    refine ⟨h.hasLast, ?_, ?_, fun _ => ht.trans hlast, h.later⟩
    · rw [e, List.getLast?_concat]
    · rw [e, writeBack_concat, hnil]
      exact List.append_nil _
  · rw [keepRecord_later fun _ => ht]
    have e : upsertAll PriceData.openTime (pre ++ [last]) (ns ++ [r]) =
        upsertAll PriceData.openTime (pre ++ [last]) ns ++ [r] := by
      rw [upsertAll_concat_one]
      exact upsert_later (forall_getLast?_of_eq h.persisted ht)
    refine ⟨rfl, ?_, ?_, fun hnil => absurd hnil (by simp), fun q hq => ?_⟩
    · rw [e, List.getLast?_concat]
    · rw [e, ← h.written, writeBack_concat, writeBack_concat, List.append_assoc, List.append_assoc,
        List.append_assoc]
    · rcases List.mem_append.mp hq with hq | hq
      · exact h.later q hq
      · have := hle.1 last List.getLast?_concat
        rw [List.mem_singleton.mp hq]
        omega

/-- A record that repeats one. -/
theorem late_of_good (h : Good pre last ns s) (hr : last.openTime < r.openTime)
    (hle : ∀ q ∈ ns, q.openTime ≤ r.openTime) (hrep : ∃ q ∈ ns, r.openTime ≤ q.openTime) :
    Late (keepRecord s r) := by
  obtain ⟨q, hq, hrq⟩ := hrep
  -- The latest record so far is of the same minute.
  have hlp : r.openTime = s.lastPersisted.openTime := by
    have h₁ := (le_getLast?_upsertAll ns h.persisted).2 q hq
    rcases getLast?_upsertAll ns h.persisted with e | hmem
    · rw [List.getLast?_concat] at e
      rw [← Option.some.inj e] at h₁
      omega
    · have := hle _ hmem
      omega
  have hmem : s.lastPersisted ∈ s.toAppend := by
    rcases h.toAppend_cases with hnil | ⟨hmem, -⟩
    · have := h.end_ hnil
      omega
    · exact hmem
  rw [keepRecord_same h.hasLast hlp]
  exact ⟨h.hasLast, ⟨r, rfl, _, hmem, hlp.symm⟩, ⟨_, hmem, hlp.symm⟩⟩

theorem saveStep_late (h : Late s) (r : PriceData) : Late (keepRecord s r) := by
  obtain ⟨hlast, ⟨o, ho, x, hx, hxo⟩, ⟨y, hy, hyl⟩⟩ := h
  rcases Int.lt_trichotomy r.openTime s.lastPersisted.openTime with ht | ht | ht
  · rw [keepRecord_earlier hlast ht]
    exact ⟨hlast, ⟨o, ho, x, hx, hxo⟩, ⟨y, hy, hyl⟩⟩
  · rw [keepRecord_same hlast ht]
    exact ⟨hlast, ⟨r, rfl, y, hy, hyl.trans ht.symm⟩, ⟨y, hy, hyl.trans ht.symm⟩⟩
  · rw [keepRecord_later fun _ => ht]
    exact ⟨rfl, ⟨o, ho, x, List.mem_append_left _ hx, hxo⟩,
      ⟨r, List.mem_append_right _ (List.mem_singleton_self r), rfl⟩⟩

theorem foldl_keepRecord (pre : List PriceData) (last : PriceData) (ns : List PriceData) :
    NoRepeat PriceData.openTime last.openTime ns ∧
        Good pre last ns (ns.foldl keepRecord ⟨none, [], last, true⟩) ∨
      ¬ NoRepeat PriceData.openTime last.openTime ns ∧
        Late (ns.foldl keepRecord ⟨none, [], last, true⟩) := by
  induction ns using List.reverseRecOn with
  | nil =>
    left
    have e : upsertAll PriceData.openTime (pre ++ [last]) [] = pre ++ [last] := rfl
    refine ⟨noRepeat_nil _, rfl, ?_, ?_, fun _ => rfl, fun r hr => absurd hr List.not_mem_nil⟩
    · rw [e, List.getLast?_concat]
      rfl
    · rw [e, List.foldl_nil, writeBack_concat]
      exact List.append_nil _
  | append_singleton ns r ih =>
    rw [List.foldl_append, List.foldl_cons, List.foldl_nil]
    rcases ih with ⟨hn, h⟩ | ⟨hn, h⟩
    · by_cases hr : last.openTime < r.openTime → (∀ q ∈ ns, q.openTime ≤ r.openTime) →
          ∀ q ∈ ns, q.openTime < r.openTime
      · exact .inl ⟨noRepeat_concat.mpr ⟨hn, hr⟩, saveStep_good h hr⟩
      · refine .inr ⟨fun h' => hr (noRepeat_concat.mp h').2, ?_⟩
        push Not at hr
        obtain ⟨h₁, h₂, h₃⟩ := hr
        exact late_of_good h h₁ h₂ h₃
    · exact .inr ⟨fun h' => hn (noRepeat_concat.mp h').1, saveStep_late h r⟩

/-- What is written after such a record has two records of one minute. -/
theorem not_ascending_of_late (h : Late s) :
    ¬ Ascending PriceData.openTime (writeBack (pre ++ [last]) s.overwrite s.toAppend) := by
  obtain ⟨o, ho, x, hx, hxo⟩ := h.overwrite
  rw [writeBack_concat, ho]
  intro hasc
  have := (List.pairwise_append.mp hasc).2.2 o (by simp) x hx
  omega

end Records

/-! ## An empty file -/

/-- The loop keeps the first record of each minute that is later than those before; what it
would overwrite is not there. -/
theorem foldl_keepRecord_empty (ns : List PriceData) :
    let s := ns.foldl keepRecord ⟨none, [], PriceData.blank, false⟩
    s.toAppend = appendLaterAll PriceData.openTime [] ns ∧
      (s.hasLast = false → s.toAppend = []) ∧
      (s.hasLast = true → ∃ end_, s.toAppend.getLast? = some end_ ∧
        end_.openTime = s.lastPersisted.openTime) := by
  induction ns using List.reverseRecOn with
  | nil => exact ⟨rfl, fun _ => rfl, nofun⟩
  | append_singleton ns r ih =>
    rw [List.foldl_append, appendLaterAll_concat_one, List.foldl_cons, List.foldl_nil]
    dsimp only at ih ⊢
    generalize ns.foldl keepRecord ⟨none, [], PriceData.blank, false⟩ = s at ih ⊢
    obtain ⟨he, hnone, hsome⟩ := ih
    rw [← he]
    cases hl : s.hasLast with
    | false =>
      rw [keepRecord_later (by rw [hl]; nofun), hnone hl]
      exact ⟨rfl, nofun, fun _ => ⟨r, rfl, rfl⟩⟩
    | true =>
      obtain ⟨end_, hend, ht⟩ := hsome hl
      rcases Int.lt_trichotomy r.openTime s.lastPersisted.openTime with hr | hr | hr
      · rw [keepRecord_earlier hl hr, appendLater_not_later hend (by omega)]
        exact ⟨rfl, hnone, hsome⟩
      · rw [keepRecord_same hl hr, appendLater_not_later hend (by omega)]
        exact ⟨rfl, hnone, fun _ => ⟨end_, hend, ht.trans hr.symm⟩⟩
      · have hlater : end_.openTime < r.openTime := by omega
        rw [keepRecord_later fun _ => hr, appendLater_later (forall_getLast?_of_eq hend hlater)]
        exact ⟨rfl, nofun, fun _ => ⟨r, List.getLast?_concat, rfl⟩⟩

/-! ## Batches -/

section Batch

variable [TimeUtils] {f : DataFile} {batch : List PriceData}

/-- Batches whose records do not descend in time. -/
def InOrder (batch : List PriceData) : Prop :=
  batch.Pairwise fun a b => a.openTime ≤ b.openTime

/-- A batch is saved into a file as it should be: the file's times ascend, its old records are
unchanged but possibly the last, which only a record of the batch of the same minute replaces,
and of a batch in order the last record of each minute from the old last one on is stored. -/
structure SavesBatch (f : DataFile) (batch : List PriceData) : Prop where
  ascending : Ascending PriceData.openTime (saveRecords f batch).records
  old : ∀ pre last, f.records = pre ++ [last] → ∃ last' rest,
    (saveRecords f batch).records = pre ++ last' :: rest ∧
      (last' = last ∨ last' ∈ normalBatch batch ∧ last'.openTime = last.openTime)
  stored : InOrder batch → ∀ pre r post, normalBatch batch = pre ++ r :: post →
    (∀ q ∈ post, q.openTime ≠ r.openTime) →
    (∀ last, f.records.getLast? = some last → last.openTime ≤ r.openTime) →
    r ∈ (saveRecords f batch).records

/-- A batch of records of later and later minutes, and any other that repeats no minute it has
just begun: the file is updated record by record. -/
theorem saveRecords_eq_upsertAll (h : f.opens = []) {pre : List PriceData} {last : PriceData}
    (hf : f.records = pre ++ [last]) (hv : isValidRecord last = true)
    (hn : NoRepeat PriceData.openTime last.openTime (normalBatch batch)) :
    (saveRecords f batch).records = upsertAll PriceData.openTime f.records (normalBatch batch) := by
  rw [saveRecords_records h, startOf_concat hf hv, hf]
  rcases foldl_keepRecord pre last (normalBatch batch) with ⟨-, hg⟩ | ⟨hn', -⟩
  · exact hg.written
  · exact absurd hn hn'

variable (batch) in
theorem saveRecords_of_empty (h : f.opens = []) (hf : f.records = []) :
    (saveRecords f batch).records = appendLaterAll PriceData.openTime [] (normalBatch batch) := by
  rw [saveRecords_records h, startOf_nil hf, hf, ← (foldl_keepRecord_empty (normalBatch batch)).1]
  generalize (normalBatch batch).foldl keepRecord ⟨none, [], PriceData.blank, false⟩ = s
  cases ho : s.overwrite <;> rfl

/-- Normalising keeps the order of records that can be stored. -/
theorem sorted_normalBatch (hfloor : ∀ t < 0, floorToMinuteMs t ≤ 0) (h : InOrder batch) :
    Sorted PriceData.openTime (normalBatch batch) := by
  unfold Sorted normalBatch
  rw [List.pairwise_filter, List.pairwise_map]
  refine h.imp fun {a b} hab ha hb => ?_
  rw [normalizeRecord_openTime ha, normalizeRecord_openTime hb]
  have hpos := (normalizeRecord_of_valid ha).2
  -- A record whose minute is positive has a positive time.
  have ha0 : 0 ≤ a.openTime := by
    by_contra hneg
    have := hfloor a.openTime (by omega)
    omega
  have h₁ := floorToMinuteMs_le ha0
  have h₂ := lt_floorToMinuteMs_add (show 0 ≤ b.openTime by omega)
  exact Lib.Grid.le_of_lt_add (dvd_floorToMinuteMs a.openTime) (dvd_floorToMinuteMs b.openTime)
    (show floorToMinuteMs a.openTime < floorToMinuteMs b.openTime + kMillisPerMinute by omega)

theorem savesBatch_iff_of_empty (hfloor : ∀ t < 0, floorToMinuteMs t ≤ 0) (h : f.opens = [])
    (hf : f.records = []) :
    SavesBatch f batch ↔
      (InOrder batch → FirstIsLast PriceData.openTime (normalBatch batch)) := by
  have hrec := saveRecords_of_empty batch h hf
  have hl : ∀ last, f.records.getLast? = some last → False := by
    intro last hl
    rw [hf] at hl
    exact nomatch hl
  constructor
  · intro hs hord pre r post e hlast
    have hr := hs.stored hord pre r post e hlast fun last hlast => (hl last hlast).elim
    rw [hrec] at hr
    exact (mem_appendLaterAll_iff (sorted_normalBatch hfloor hord)).mp hr
  · intro hfirst
    constructor
    · rw [hrec]
      exact ascending_appendLaterAll List.Pairwise.nil _
    · intro pre last hf'
      exact (hl last (by rw [hf', List.getLast?_concat])).elim
    · intro hord pre r post e hlast _
      rw [hrec, mem_appendLaterAll_iff (sorted_normalBatch hfloor hord)]
      exact hfirst hord pre r post e hlast

theorem savesBatch_iff_of_concat (hfloor : ∀ t < 0, floorToMinuteMs t ≤ 0) (h : f.opens = [])
    {pre : List PriceData} {last : PriceData} (hf : f.records = pre ++ [last])
    (hv : isValidRecord last = true) (hasc : Ascending PriceData.openTime f.records) :
    SavesBatch f batch ↔ NoRepeat PriceData.openTime last.openTime (normalBatch batch) := by
  have hl : f.records.getLast? = some last := by rw [hf, List.getLast?_concat]
  constructor
  · intro hs
    rcases foldl_keepRecord pre last (normalBatch batch) with ⟨hn, -⟩ | ⟨-, hlate⟩
    · exact hn
    · -- Two records of one minute have been written.
      refine absurd hs.ascending ?_
      rw [saveRecords_records h, startOf_concat hf hv, hf]
      exact not_ascending_of_late hlate
  · intro hn
    have hrec := saveRecords_eq_upsertAll h hf hv hn
    constructor
    · rw [hrec]
      exact ascending_upsertAll hasc _
    · intro pre' last' hf'
      obtain ⟨last'', rest, e, hlast, -⟩ :=
        upsertAll_concat PriceData.openTime pre' last' (normalBatch batch)
      exact ⟨last'', rest, by rw [hrec, hf', e], hlast⟩
    · intro hord pre' r post e hlast hle
      have hsorted := sorted_normalBatch hfloor hord
      rw [e] at hsorted
      rw [hrec, e]
      exact mem_upsertAll_of_last hsorted hlast hle

/-- A batch is saved as it should be exactly when it repeats no minute, later than the file's
last, that is the latest so far; into an empty file, when the batch is not in order or the last
record of each minute is the first one as well. -/
theorem savesBatch_iff (hfloor : ∀ t < 0, floorToMinuteMs t ≤ 0) (h : f.opens = [])
    (hvalid : ∀ r ∈ f.records, isValidRecord r = true)
    (hasc : Ascending PriceData.openTime f.records) (batch : List PriceData) :
    SavesBatch f batch ↔
      (∀ last, f.records.getLast? = some last →
        NoRepeat PriceData.openTime last.openTime (normalBatch batch)) ∧
      (f.records = [] → InOrder batch → FirstIsLast PriceData.openTime (normalBatch batch)) := by
  rcases List.eq_nil_or_concat f.records with hf | ⟨pre, last, hf⟩
  · rw [savesBatch_iff_of_empty hfloor h hf, hf]
    simp
  · rw [List.concat_eq_append] at hf
    have hv : isValidRecord last = true := hvalid last (by rw [hf]; simp)
    rw [savesBatch_iff_of_concat hfloor h hf hv hasc, hf]
    simp

end Batch

/-- Two minutes after the one on file, and that one again before them. -/
theorem savesBatch_ascending :
    SavesBatch { records := [flatRecord 60000 1] }
      [flatRecord 60000 2, flatRecord 120000 1, flatRecord 180000 1] :=
  (savesBatch_iff (fun t ht => by show t / 60000 * 60000 ≤ 0; omega) rfl (by decide)
    (by unfold Ascending; decide) _).mpr
    ⟨fun last hl => by
      obtain rfl : flatRecord 60000 1 = last := Option.some.inj hl
      exact noRepeat_of_ascending (by unfold Ascending; decide +kernel) _, nofun⟩

/-- A minute that comes twice after the one on file: its second record takes the place of the old
last record, and the first is appended. -/
theorem not_savesBatch_twice :
    ¬ (∀ (f : DataFile) (batch : List PriceData), f.opens = [] →
        (∀ r ∈ f.records, isValidRecord r = true) → Ascending PriceData.openTime f.records →
        SavesBatch f batch) ∧
      ((saveRecords { records := [flatRecord 60000 1] }
        [flatRecord 120000 1, flatRecord 120000 2]).records.map fun r => (r.openTime, r.closePrice)) =
          [(120000, 2), (120000, 1)] := by
  refine ⟨fun h => ?_, by decide +kernel⟩
  have := (h { records := [flatRecord 60000 1] } [flatRecord 120000 1, flatRecord 120000 2] rfl
    (by decide) (by unfold Ascending; decide)).ascending
  revert this
  unfold Ascending
  decide +kernel

end TCV.Storage
