import TradingChartViewer.Lib.Page
import TradingChartViewer.Storage.Interleaving

/-!
# What the backfill fetches

`actualize` against an exchange that answers with pages of a fixed history,
with live records at any point of its run.

* `MinuteHistory`, `historyFetcher`: the exchange;
* `System.MayMove`: the minutes the cursor can be moved to;
* `System.Fetches`: the invariant. While a page is still to come, nothing is
  missing before any of these minutes; afterwards nothing is missing at all;
* `System.KeepsUp`: a live record leaves no minute behind that is not fetched;
* `actualize_completes`: if so, the history is complete at the end.
-/

namespace TCV.Storage

open TCV.Domain Lib.Page Lib.Run Lib.TimeMap

/-! ## The exchange -/

/-- The one-minute candles of an exchange, the oldest first. -/
structure MinuteHistory [TimeUtils] (history : List PriceData) : Prop where
  valid : ∀ r ∈ history, isValidRecord (normalizeRecord r) = true
  aligned : ∀ r ∈ history, kMillisPerMinute ∣ r.openTime
  ascending : history.Pairwise fun a b => a.openTime < b.openTime

/-- The answer at the time `now`: the first 1000 candles from `startTime` on. -/
def historyFetcher (history : List PriceData) (now startTime : Int) : List PriceData :=
  page PriceData.openTime history startTime now 1000

section History

variable [TimeUtils] {history : List PriceData}

theorem MinuteHistory.sublist (h : MinuteHistory history) {l : List PriceData}
    (hl : l.Sublist history) : MinuteHistory l :=
  ⟨fun r hr => h.valid r (hl.subset hr), fun r hr => h.aligned r (hl.subset hr),
    h.ascending.sublist hl⟩

theorem MinuteHistory.times_ascending (h : MinuteHistory history) :
    Ascending PriceData.openTime history :=
  h.ascending.imp le_of_lt

theorem times_filterMap (h : MinuteHistory history) :
    (history.filterMap normalizedRecord?).map (fun r => r.openTime) =
      history.map PriceData.openTime := by
  induction history with
  | nil => rfl
  | cons r rest ih =>
    have hv := h.valid r List.mem_cons_self
    have hr : normalizedRecord? r = some ⟨normalizeRecord r, hv, normalizeRecord_idem hv⟩ :=
      dif_pos hv
    have ht : (normalizeRecord r).openTime = r.openTime := by
      rw [normalizeRecord_openTime hv]
      exact floorToMinuteMs_of_dvd (h.aligned r List.mem_cons_self)
    rw [List.filterMap_cons_some hr, List.map_cons, List.map_cons, ht,
      ih (h.sublist (List.sublist_cons_self r rest))]

theorem MinuteHistory.filterMap_ascending (h : MinuteHistory history) :
    (history.filterMap normalizedRecord?).Pairwise fun a b => a.openTime < b.openTime := by
  have hp := List.pairwise_map.mpr h.ascending
  rw [← times_filterMap h] at hp
  exact List.pairwise_map.mp hp

theorem MinuteHistory.normalizeRecords_eq (h : MinuteHistory history) :
    normalizeRecords history = history.filterMap normalizedRecord? :=
  values_insertAll h.filterMap_ascending

/-- Normalisation keeps the minutes of a page. -/
theorem times_normalizeRecords (h : MinuteHistory history) :
    (normalizeRecords history).map (fun r => r.openTime) = history.map PriceData.openTime := by
  rw [h.normalizeRecords_eq, times_filterMap h]

end History

/-! ## The invariant -/

/-- The minutes the cursor is at or can be moved to without a new page or a new
live record. -/
inductive System.MayMove [TimeUtils] (s : System) : Int → Prop
  | cursor : MayMove s s.engine.previousTimestamp
  | stored {x : Int} (h : s.engine.historicalData[x]?.isSome = true) : MayMove s x
  | front {r : MinuteRecord} (h : s.engine.cache.head? = some r) : MayMove s r.openTime
  | pending {r : MinuteRecord} (h : s.live.pending = some r) : MayMove s r.openTime
  | page {r : MinuteRecord} (h : r ∈ s.worker.page) : MayMove s r.openTime

/-- The event is a live record of the minute `x` that comes to the front. -/
def System.JumpsTo [TimeUtils] (s : System) (e : Event) (x : Int) : Prop :=
  ∃ data r, e = .update data ∧ normalizedRecord? data = some r ∧
    (∀ front ∈ s.engine.cache.head?, front.openTime < r.openTime) ∧ r.openTime = x

/-- A fetch is still to come. -/
def Worker.more [TimeUtils] : Worker → Bool
  | .fetching => true
  | .saving page | .moving page | .ingesting page | .rebuilding page => 1000 ≤ page.records.length
  | .finishing | .done => false

/-- Nothing of the history from `start` to before `x` is missing. -/
def System.CoveredUpTo [TimeUtils] (history : List PriceData) (start : Int) (s : System) (x : Int) :
    Prop :=
  ∀ r ∈ history, start ≤ r.openTime → r.openTime < x → s.HasMinute r.openTime

structure System.Fetches [TimeUtils] (history : List PriceData) (start : Int) (s : System) :
    Prop where
  covered : s.worker.more = true → ∀ x, s.MayMove x → s.CoveredUpTo history start x
  complete : s.worker.more = false →
    ∀ r ∈ history, start ≤ r.openTime → r.openTime ≤ s.fetchedAt → s.HasMinute r.openTime

/-- A live record that comes to the front while a fetch is still to come leaves
no minute of the history between the cursor and itself unfetched. -/
def System.KeepsUp [TimeUtils] (history : List PriceData) (s : System) : Event → Prop
  | .update data => s.worker.more = true → ∀ r ∈ normalizedRecord? data,
      (∀ front ∈ s.engine.cache.head?, front.openTime < r.openTime) →
      ∀ h ∈ history, s.engine.previousTimestamp ≤ h.openTime → h.openTime < r.openTime →
        s.HasMinute h.openTime
  | _ => True

instance [TimeUtils] (history : List PriceData) (s : System) :
    (e : Event) → Decidable (s.KeepsUp history e)
  | .update data => inferInstanceAs (Decidable (_ → ∀ r ∈ normalizedRecord? data, _ → _))
  | .fetch _ | .work | .live => .isTrue trivial

section Invariant

variable [TimeUtils] {history : List PriceData} {start : Int} {s t : System} {e : Event}
  {fetcher : Int → Int → List PriceData}

theorem mayMove_of_rebuild {w : Worker} (hw : w.page = []) {x : Int}
    (hx : System.MayMove { s with engine := rebuildCacheFromHistorical s.engine, worker := w } x) :
    s.MayMove x := by
  cases hx with
  | cursor =>
    rcases rebuildCacheFromHistorical_cases s.engine with ⟨-, -, hcursor⟩ |
        ⟨front, -, hcursor, hfront, -⟩
    · exact hcursor ▸ .cursor
    · exact hcursor ▸ .stored (by rw [hfront]; rfl)
  | stored h => exact .stored (by rwa [rebuildCacheFromHistorical_historicalData] at h)
  | front h => exact .stored (by rw [stored_of_front s.engine h]; rfl)
  | pending h => exact .pending h
  | page h =>
    dsimp only at h
    rw [hw] at h
    cases h

/-- Only a fetch and a live record at the front give the cursor new minutes. -/
theorem mayMove_of_moves (h : s.Moves fetcher e t) (hfetch : ∀ now, e ≠ .fetch now) {x : Int}
    (hx : t.MayMove x) :
    s.MayMove x ∨ s.JumpsTo e x := by
  cases h with
  | fetch now hw => exact absurd rfl (hfetch now)
  | save page hw =>
    left
    cases hx with
    | cursor => exact .cursor
    | stored h => exact .stored h
    | front h => exact .front h
    | pending h => exact .pending h
    | page h => exact .page (by rw [hw]; exact h)
  | move page hw =>
    left
    cases hx with
    | cursor => exact .page (by rw [hw]; exact List.getLast_mem page.ne_nil)
    | stored h => exact .stored h
    | front h => exact .front h
    | pending h => exact .pending h
    | page h => exact .page (by rw [hw]; exact h)
  | ingest page hw =>
    left
    cases hx with
    | cursor => exact .cursor
    | stored h =>
      rcases (isSome_ingest_iff _ _ _).mp h with h | ⟨r, hr, rfl⟩
      · exact .stored h
      · exact .page (by rw [hw]; exact hr)
    | front h => exact .front h
    | pending h => exact .pending h
    | page h => cases h
  | rebuild page hw =>
    refine Or.inl (mayMove_of_rebuild ?_ hx)
    split <;> rfl
  | finish hw => exact Or.inl (mayMove_of_rebuild rfl hx)
  | stale data hl => exact Or.inl hx
  | accept data r engine closed hl hr hc =>
    obtain ⟨hdata, -, hhead, hcases⟩ := updateCache_cases hc
    -- The minute of the record is that of the old front, or the record jumped.
    have hminute : s.MayMove r.openTime ∨ s.JumpsTo (.update data) r.openTime := by
      rcases hcases with ⟨-, hlt, -⟩ | ⟨front, hfront, heq, -, -⟩
      · exact Or.inr ⟨data, r, rfl, hr, hlt, rfl⟩
      · exact Or.inl (heq ▸ .front hfront)
    cases hx with
    | cursor =>
      rcases hcases with ⟨-, -, hcursor⟩ | ⟨-, -, -, -, hcursor⟩
      · exact hcursor ▸ hminute
      · exact Or.inl (hcursor ▸ .cursor)
    | stored h => exact Or.inl (.stored (by rwa [hdata] at h))
    | front h =>
      rw [hhead] at h
      exact Option.some.inj h ▸ hminute
    | pending h =>
      have hp : (closed.elim (Live.ingesting r) fun c => Live.saving c r).pending = some r := by
        cases closed <;> rfl
      rw [hp] at h
      exact Option.some.inj h ▸ hminute
    | page h => exact Or.inl (.page h)
  | close c r hl =>
    left
    cases hx with
    | cursor => exact .cursor
    | stored h => exact .stored h
    | front h => exact .front h
    | pending h => exact .pending (by rw [hl]; exact h)
    | page h => exact .page h
  | store r hl =>
    left
    cases hx with
    | cursor => exact .cursor
    | stored h =>
      rcases (isSome_ingest_iff _ _ _).mp h with h | ⟨r', hr', rfl⟩
      · exact .stored h
      · rw [List.mem_singleton.mp hr']
        exact .pending (by rw [hl]; rfl)
    | front h => exact .front h
    | pending h => cases h
    | page h => exact .page h

theorem more_of_moves (h : s.Moves fetcher e t) (hfetch : ∀ now, e ≠ .fetch now) :
    t.worker.more = s.worker.more ∧ t.fetchedAt = s.fetchedAt := by
  cases h with
  | fetch now hw => exact absurd rfl (hfetch now)
  | save page hw | move page hw | ingest page hw | finish hw =>
    rw [hw]
    exact ⟨rfl, rfl⟩
  | rebuild page hw =>
    rw [hw]
    refine ⟨?_, rfl⟩
    dsimp only
    split
    · rename_i hlt
      exact (decide_eq_false (Nat.not_le.mpr hlt)).symm
    · rename_i hle
      exact (decide_eq_true (Nat.not_lt.mp hle)).symm
  | stale data hl => exact ⟨rfl, rfl⟩
  | accept data r engine closed hl hr hc => exact ⟨rfl, rfl⟩
  | close c r hl => exact ⟨rfl, rfl⟩
  | store r hl => exact ⟨rfl, rfl⟩

theorem CoveredUpTo.mono (h : s.Moves fetcher e t) {x : Int} (hx : s.CoveredUpTo history start x) :
    t.CoveredUpTo history start x :=
  fun r hr hstart hlt => hasMinute_mono h (hx r hr hstart hlt)

/-- Steps other than a fetch keep the invariant if the live records keep up. -/
theorem System.Fetches.step (hi : s.Fetches history start) (h : s.Moves fetcher e t)
    (hfetch : ∀ now, e ≠ .fetch now) (hkeep : s.KeepsUp history e) : t.Fetches history start := by
  obtain ⟨hmore, hat⟩ := more_of_moves h hfetch
  refine ⟨fun ht x hx => ?_, fun ht r hr hstart hle => ?_⟩
  · rw [hmore] at ht
    rcases mayMove_of_moves h hfetch hx with hx | ⟨data, r, rfl, hr, hfront, rfl⟩
    · exact CoveredUpTo.mono h (hi.covered ht x hx)
    · intro c hc hstart hlt
      -- Up to the cursor by the invariant, from there on by the condition.
      by_cases hcursor : c.openTime < s.engine.previousTimestamp
      · exact hasMinute_mono h (hi.covered ht _ .cursor c hc hstart hcursor)
      · exact hasMinute_mono h (hkeep ht r hr hfront c hc (by omega) hlt)
  · rw [hmore] at ht
    rw [hat] at hle
    exact hasMinute_mono h (hi.complete ht r hr hstart hle)

/-- The page of a fetch holds the history from the cursor on. -/
theorem page_fetchStep (hh : MinuteHistory history) (now : Int) :
    (s.fetchStep (historyFetcher history) now).worker.page.map (fun r => r.openTime) =
      (historyFetcher history now s.engine.previousTimestamp).map PriceData.openTime := by
  have htimes := times_normalizeRecords (hh.sublist page_sublist :
    MinuteHistory (historyFetcher history now s.engine.previousTimestamp))
  rw [← htimes]
  unfold System.fetchStep
  dsimp only
  split
  · rfl
  · rename_i hnil
    rw [not_not.mp hnil]
    split <;> rfl

/-- After a full page there is a fetch to come, after a short one there is not. -/
theorem more_fetchStep (hh : MinuteHistory history) (now : Int) :
    (s.fetchStep (historyFetcher history) now).worker.more =
      decide (1000 ≤ (historyFetcher history now s.engine.previousTimestamp).length) := by
  have hlen := congrArg List.length (times_normalizeRecords (hh.sublist page_sublist :
    MinuteHistory (historyFetcher history now s.engine.previousTimestamp)))
  rw [List.length_map, List.length_map] at hlen
  unfold System.fetchStep
  dsimp only
  split
  · rw [← hlen]
    rfl
  · rename_i hnil
    rw [not_not.mp hnil] at hlen
    rw [if_pos (List.eq_nil_of_length_eq_zero hlen.symm), ← hlen]
    rfl

theorem System.Fetches.fetch (hh : MinuteHistory history) (hi : s.Fetches history start)
    (hw : s.worker = .fetching) (now : Int) :
    (s.fetchStep (historyFetcher history) now).Fetches history start := by
  have hmoves : s.Moves (historyFetcher history) (.fetch now) _ := .fetch now hw
  have hmore : s.worker.more = true := by
    rw [hw]
    rfl
  have hpage : ∀ c ∈ historyFetcher history now s.engine.previousTimestamp,
      (s.fetchStep (historyFetcher history) now).HasMinute c.openTime := fun c hc => by
    have hmem := List.mem_map_of_mem hc (f := PriceData.openTime)
    rw [← page_fetchStep hh now] at hmem
    exact Or.inr (List.mem_map.mp hmem)
  have hbefore : ∀ c ∈ history, start ≤ c.openTime → c.openTime < s.engine.previousTimestamp →
      (s.fetchStep (historyFetcher history) now).HasMinute c.openTime :=
    fun c hc hstart hlt => hasMinute_mono hmoves (hi.covered hmore _ .cursor c hc hstart hlt)
  refine ⟨fun _ x hx => ?_, fun ht c hc hstart hle => ?_⟩
  · have hold : s.MayMove x → CoveredUpTo history start _ x :=
      fun hx => CoveredUpTo.mono hmoves (hi.covered hmore x hx)
    cases hx with
    | cursor => exact hold .cursor
    | stored h => exact hold (.stored h)
    | front h => exact hold (.front h)
    | pending h => exact hold (.pending h)
    | page h =>
      intro c hc hstart hlt
      have hmem := List.mem_map_of_mem h (f := fun r => r.openTime)
      rw [page_fetchStep hh now] at hmem
      obtain ⟨b, hb, hbt⟩ := List.mem_map.mp hmem
      by_cases hcursor : c.openTime < s.engine.previousTimestamp
      · exact hbefore c hc hstart hcursor
      · exact hpage c (mem_page_of_lt hh.times_ascending hc (by omega) hb (by omega))
  · rw [more_fetchStep hh now, decide_eq_false_iff_not, Nat.not_le] at ht
    by_cases hcursor : c.openTime < s.engine.previousTimestamp
    · exact hbefore c hc hstart hcursor
    · apply hpage c
      rw [historyFetcher, page_of_length_lt ht]
      exact mem_window.mpr ⟨hc, by omega, hle⟩

end Invariant

/-! ## The end of the backfill -/

/-- Nothing of the history from the cursor on is missing before a stored minute
or before the front of the ring. -/
def DatabaseEngine.CoversHistory [TimeUtils] (history : List PriceData) (e : DatabaseEngine) :
    Prop :=
  ∀ x : Int, (e.historicalData[x]?.isSome = true ∨ ∃ r ∈ e.cache.head?, r.openTime = x) →
    ∀ r ∈ history, e.previousTimestamp ≤ r.openTime → r.openTime < x →
      e.historicalData[r.openTime]?.isSome = true

theorem mem_normalizeRecords [TimeUtils] {records : List PriceData} {r : MinuteRecord}
    (h : r ∈ normalizeRecords records) : ∃ q ∈ records, normalizedRecord? q = some r := by
  rw [normalizeRecords, mem_values_iff (keyed_empty.insertAll _), getElem?_insertAll,
    Std.ExtTreeMap.getElem?_empty, Option.or_none] at h
  exact List.mem_filterMap.mp (List.mem_of_mem_filter (List.mem_of_getLast? h))

/-- What an engine has in its store when it is opened comes from the file. -/
theorem stored_opened [TimeUtils] {file : DataFile} {uninitialised x : Int}
    (h : (DatabaseEngine.opened file uninitialised).historicalData[x]?.isSome = true) :
    ∃ q ∈ file.records, floorToMinuteMs q.openTime = x := by
  rw [DatabaseEngine.opened, rebuildCacheFromHistorical_historicalData, ingestRecords] at h
  split at h
  · rw [Std.ExtTreeMap.getElem?_empty] at h
    cases h
  · rw [isSome_ingest_iff, Std.ExtTreeMap.getElem?_empty] at h
    obtain ⟨r, hr, rfl⟩ := h.resolve_left (by simp)
    obtain ⟨q, hq, hqr⟩ := mem_normalizeRecords hr
    exact ⟨q, hq, (openTime_of_normalizedRecord? hqr).symm⟩

/-- An engine opened on a file whose last record is the newest. -/
theorem covers_opened [TimeUtils] (history : List PriceData) {file : DataFile} (uninitialised : Int)
    (h : ∀ last ∈ file.records.getLast?, ∀ r ∈ file.records,
      floorToMinuteMs r.openTime ≤ floorToMinuteMs last.openTime) :
    (DatabaseEngine.opened file uninitialised).CoversHistory history := by
  have hlast : ∀ q ∈ file.records, floorToMinuteMs q.openTime ≤
      (DatabaseEngine.opened file uninitialised).previousTimestamp := by
    intro q hq
    have hl := List.getLast?_eq_some_getLast (List.ne_nil_of_mem hq)
    show _ ≤ floorToMinuteMs ((file.records.getLast?.map (·.openTime)).getD uninitialised)
    rw [hl]
    exact h _ hl q hq
  rintro x (hx | ⟨f, hf, rfl⟩) r - hcursor hlt
  · obtain ⟨q, hq, rfl⟩ := stored_opened hx
    have := hlast q hq
    omega
  · have hstored : (DatabaseEngine.opened file uninitialised).historicalData[f.openTime]?.isSome =
        true := by
      rw [DatabaseEngine.opened, rebuildCacheFromHistorical_historicalData, stored_of_front _ hf]
      rfl
    obtain ⟨q, hq, hqf⟩ := stored_opened hstored
    have := hlast q hq
    omega

theorem fetches_start [TimeUtils] {history : List PriceData} {e₀ : DatabaseEngine}
    (h : e₀.CoversHistory history) : (System.start e₀).Fetches history e₀.previousTimestamp := by
  refine ⟨fun _ x hx r hr hstart hlt => Or.inl ?_, fun ht => by cases ht⟩
  cases hx with
  | cursor =>
    have : r.openTime < e₀.previousTimestamp := hlt
    omega
  | stored hx => exact h x (Or.inl hx) r hr hstart hlt
  | front hx => exact h _ (Or.inr ⟨_, hx, rfl⟩) r hr hstart hlt
  | pending hx => cases hx
  | page hx => cases hx

/-- When `actualize` is done, every minute of the history from the cursor at its
start on is in the store, up to the time of the last fetch. -/
theorem actualize_completes [TimeUtils] (history : List PriceData) (hh : MinuteHistory history)
    (e₀ : DatabaseEngine) (h₀ : e₀.CoversHistory history) (events : List Event)
    (hkeep : Along (System.step (historyFetcher history)) (System.KeepsUp history) (.start e₀)
      events)
    (s : System) (hrun : run (System.step (historyFetcher history)) (.start e₀) events = some s)
    (hdone : s.worker = .done) :
    ∀ r ∈ history, e₀.previousTimestamp ≤ r.openTime → r.openTime ≤ s.fetchedAt →
      s.engine.historicalData[r.openTime]?.isSome = true := by
  have hstep : ∀ s e t, System.Fetches history e₀.previousTimestamp s → System.KeepsUp history s e →
      System.step (historyFetcher history) s e = some t →
      System.Fetches history e₀.previousTimestamp t := by
    intro s e t hi hk ht
    have hm := System.moves ht
    cases hm with
    | fetch now hw => exact hi.fetch hh hw now
    | _ => exact hi.step (System.moves ht) (fun now he => by cases he) hk
  have hi := inv_of_along hstep (fetches_start h₀) hkeep hrun
  intro r hr hstart hle
  have hmore : s.worker.more = false := by
    rw [hdone]
    rfl
  have hr := hi.complete hmore r hr hstart hle
  rw [System.HasMinute, hdone] at hr
  exact hr.resolve_right (by simp [Worker.page])

def threeMinutes : List PriceData := [flatRecord 60000 1, flatRecord 120000 1, flatRecord 180000 1]

theorem minuteHistory_threeMinutes : MinuteHistory threeMinutes :=
  ⟨by decide +kernel, by decide, by decide⟩

/-- The live record of the third minute comes before the first fetch into an
empty store. -/
def lateFetch : List Event :=
  [.update (flatRecord 180000 1), .live, .fetch 180000, .work, .work, .work, .work, .work]

/-- The first two minutes are never fetched. -/
theorem actualize_cut_short :
    MinuteHistory threeMinutes ∧
      ∃ s, run (System.step (historyFetcher threeMinutes)) (.start (.opened {} 0)) lateFetch = some s ∧
        s.worker = .done ∧
        ¬ ∀ r ∈ threeMinutes, (DatabaseEngine.opened {} 0).previousTimestamp ≤ r.openTime →
          r.openTime ≤ s.fetchedAt → s.engine.historicalData[r.openTime]?.isSome = true := by
  refine ⟨minuteHistory_threeMinutes, ?_⟩
  have hrun : (run (System.step (historyFetcher threeMinutes)) (.start (.opened {} 0)) lateFetch).map
      (fun s => decide (s.worker = .done ∧
        ¬ ∀ r ∈ threeMinutes, (DatabaseEngine.opened {} 0).previousTimestamp ≤ r.openTime →
          r.openTime ≤ s.fetchedAt → s.engine.historicalData[r.openTime]?.isSome = true)) =
        some true := by decide +kernel
  obtain ⟨s, hs, hdone⟩ := Option.map_eq_some_iff.mp hrun
  exact ⟨s, hs, of_decide_eq_true hdone⟩

/-- A store with the first minute; the live record of the second one comes
before the first fetch. -/
def oneMinuteFile : DataFile := { records := [flatRecord 60000 1] }

def nextMinute : List Event :=
  [.update (flatRecord 120000 1), .live, .live, .fetch 180000, .work, .work, .work, .work, .work]

theorem actualize_completes_next :
    ∃ s, run (System.step (historyFetcher threeMinutes)) (.start (.opened oneMinuteFile 0))
        nextMinute = some s ∧
      s.worker = .done ∧
      ∀ r ∈ threeMinutes, (DatabaseEngine.opened oneMinuteFile 0).previousTimestamp ≤ r.openTime →
        r.openTime ≤ s.fetchedAt → s.engine.historicalData[r.openTime]?.isSome = true := by
  have hrun : (run (System.step (historyFetcher threeMinutes)) (.start (.opened oneMinuteFile 0))
      nextMinute).map (fun s => decide (s.worker = .done)) = some true := by decide +kernel
  have hkeep : Along (System.step (historyFetcher threeMinutes)) (System.KeepsUp threeMinutes)
      (.start (.opened oneMinuteFile 0)) nextMinute := by decide +kernel
  obtain ⟨s, hs, hdone⟩ := Option.map_eq_some_iff.mp hrun
  have hdone := of_decide_eq_true hdone
  exact ⟨s, hs, hdone, actualize_completes threeMinutes minuteHistory_threeMinutes _
    (covers_opened threeMinutes 0 (by decide)) nextMinute hkeep s hs hdone⟩

end TCV.Storage
