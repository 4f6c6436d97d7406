import TradingChartViewer.Storage.Interleaving

/-!
# The engine under one thread

Runs of whole operations of `DatabaseEngine`: constructions on the same data
file, calls of `updateWithNewData` and complete runs of `actualize`, none of
them overlapping.

* `takePage`, `actualizeBody`, `actualize`: the loop, one iteration for each
  request;
* `DatabaseEngine.call`: the operations;
* `actualize_rebuilds`, `actualize_inv`: what the iterations keep, the loop keeps;
* `run_actualize`: `actualize` is what its steps of `System.step` do when no
  live call comes between.
-/

namespace TCV.Storage

open TCV.Domain Lib.TimeMap Lib.Run

variable [TimeUtils]

/-- What an iteration of `actualize` does with a page. -/
def takePage (e : DatabaseEngine) (page : FetchedPage) : DatabaseEngine :=
  let e := e.saveRecords page.records
  let e := { e with previousTimestamp := (page.records.getLast page.ne_nil).openTime }
  let e := ingestRecords e (page.records.map fun r => r.toPriceData)
  rebuildCacheFromHistorical e

/-- One iteration of the loop of `actualize` on the fetcher's answer: the engine
and `finished`. -/
def actualizeBody (e : DatabaseEngine) (fetched : List PriceData) : DatabaseEngine × Bool :=
  let normalized := normalizeRecords fetched
  if h : normalized ≠ [] then
    (takePage e ⟨normalized, h, normalizeRecords_pairwise fetched⟩, normalized.length < 1000)
  else (e, fetched.isEmpty)

/-- The engine after a request of `actualize` at the time `now`. -/
def requestStep (fetcher : Int → Int → List PriceData) (e : DatabaseEngine) (now : Int) :
    Option DatabaseEngine :=
  some (actualizeBody e (fetcher now e.previousTimestamp)).1

/-- `actualize` with its requests at the times `nows`, unless it is not complete
with the last of them. -/
def actualize (fetcher : Int → Int → List PriceData) (e : DatabaseEngine) :
    List Int → Option DatabaseEngine
  | [] => none
  | now :: nows =>
    let (e, finished) := actualizeBody e (fetcher now e.previousTimestamp)
    if finished then if nows.isEmpty then some (rebuildCacheFromHistorical e) else none
    else actualize fetcher e nows

inductive EngineCall
  | construct (uninitialised : Int)
  | updateWithNewData (data : PriceData)
  | actualize (nows : List Int)
  deriving DecidableEq, Repr

/-- A construction takes the place of an engine that is gone. -/
def DatabaseEngine.call (fetcher : Int → Int → List PriceData) (e : DatabaseEngine) :
    EngineCall → Option DatabaseEngine
  | .construct uninitialised => some (.opened e.file uninitialised)
  | .updateWithNewData data => some (Storage.updateWithNewData e data)
  | .actualize nows => Storage.actualize fetcher e nows

/-- A record that is not valid or stale changes nothing. -/
theorem updateWithNewData_cases (e : DatabaseEngine) (data : PriceData) :
    updateWithNewData e data = e ∨
    ∃ r e' closed, normalizedRecord? data = some r ∧ updateCache e r = some (e', closed) ∧
      updateWithNewData e data = ingest (closed.elim e' fun c => e'.saveRecord c) [r] := by
  unfold updateWithNewData
  split
  · exact Or.inl rfl
  · rename_i r hr
    split
    · exact Or.inl rfl
    · rename_i e' c hc
      exact Or.inr ⟨r, e', some c, hr, hc, ingestRecord_eq _ r⟩
    · rename_i e' hc
      exact Or.inr ⟨r, e', none, hr, hc, ingestRecord_eq _ r⟩

theorem takePage_eq (e : DatabaseEngine) (page : FetchedPage) :
    takePage e page = rebuildCacheFromHistorical (ingest { e.saveRecords page.records with
      previousTimestamp := (page.records.getLast page.ne_nil).openTime } page.records) := by
  rw [takePage, ingestRecords_of_ascending _ _ page.ne_nil page.ascending]

theorem takePage_file (e : DatabaseEngine) (page : FetchedPage) :
    (takePage e page).file =
      Storage.saveRecords e.file (page.records.map fun r => r.toPriceData) := by
  rw [takePage_eq, rebuildCacheFromHistorical_file]
  rfl

theorem takePage_historicalData (e : DatabaseEngine) (page : FetchedPage) :
    (takePage e page).historicalData =
      insertAll (fun r : MinuteRecord => r.openTime) e.historicalData page.records := by
  rw [takePage_eq, rebuildCacheFromHistorical_historicalData]
  rfl

/-- An answer without a valid record changes nothing. -/
theorem actualizeBody_cases (e : DatabaseEngine) (fetched : List PriceData) :
    (normalizeRecords fetched = [] ∧ actualizeBody e fetched = (e, fetched.isEmpty)) ∨
    ∃ page : FetchedPage, normalizeRecords fetched = page.records ∧
      actualizeBody e fetched = (takePage e page, decide (page.records.length < 1000)) := by
  unfold actualizeBody
  by_cases h : normalizeRecords fetched = []
  · exact Or.inl ⟨h, dif_neg (not_not.mpr h)⟩
  · exact Or.inr ⟨⟨_, h, normalizeRecords_pairwise fetched⟩, rfl, dif_pos h⟩

section Runs

variable {fetcher : Int → Int → List PriceData} {nows : List Int}

/-- `actualize` ends with a rebuild, after what the pages that meet `P` keep. -/
theorem actualize_rebuilds {Inv : DatabaseEngine → Prop}
    {P : DatabaseEngine → List MinuteRecord → Prop}
    (hpage : ∀ e now (page : FetchedPage), Inv e → P e page.records →
      normalizeRecords (fetcher now e.previousTimestamp) = page.records → Inv (takePage e page))
    {e e' : DatabaseEngine} (h : Inv e)
    (hP : Along (requestStep fetcher)
      (fun e now => P e (normalizeRecords (fetcher now e.previousTimestamp))) e nows)
    (he : actualize fetcher e nows = some e') :
    ∃ e₁, Inv e₁ ∧ e' = rebuildCacheFromHistorical e₁ := by
  induction nows generalizing e with
  | nil => cases he
  | cons now nows ih =>
    obtain ⟨hnow, hnows⟩ := hP
    have hb : Inv (actualizeBody e (fetcher now e.previousTimestamp)).1 := by
      rcases actualizeBody_cases e (fetcher now e.previousTimestamp) with ⟨-, hb⟩ | ⟨page, hn, hb⟩
      · rw [hb]
        exact h
      · rw [hb]
        exact hpage e now page h (hn ▸ hnow) hn
    unfold actualize at he
    dsimp only at he
    split at he
    · split at he
      · exact ⟨_, hb, (Option.some.inj he).symm⟩
      · cases he
    · exact ih hb (hnows _ rfl) he

/-- What the pages that meet `P` and a last rebuild keep, `actualize` keeps. -/
theorem actualize_inv {Inv : DatabaseEngine → Prop} {P : DatabaseEngine → List MinuteRecord → Prop}
    (hrebuild : ∀ e, Inv e → Inv (rebuildCacheFromHistorical e))
    (hpage : ∀ e now (page : FetchedPage), Inv e → P e page.records →
      normalizeRecords (fetcher now e.previousTimestamp) = page.records → Inv (takePage e page))
    {e e' : DatabaseEngine} (h : Inv e)
    (hP : Along (requestStep fetcher)
      (fun e now => P e (normalizeRecords (fetcher now e.previousTimestamp))) e nows)
    (he : actualize fetcher e nows = some e') : Inv e' := by
  obtain ⟨e₁, h₁, rfl⟩ := actualize_rebuilds hpage h hP he
  exact hrebuild e₁ h₁

/-- The steps that take a page. -/
theorem run_page (fetcher : Int → Int → List PriceData) {s : System} {page : FetchedPage}
    (hs : s.worker = .saving page) :
    run (System.step fetcher) s [.work, .work, .work, .work] = some { s with
      engine := takePage s.engine page
      worker := if page.records.length < 1000 then .finishing else .fetching } := by
  rw [run_cons, System.step, System.workStep, hs]
  rfl

/-- The steps of one request. -/
theorem run_request (fetcher : Int → Int → List PriceData) {s : System} (hs : s.worker = .fetching) (now : Int) :
    ∃ events t, run (System.step fetcher) s events = some t ∧
      t.worker = (if (actualizeBody s.engine (fetcher now s.engine.previousTimestamp)).2 then .finishing
        else .fetching) ∧
      t.live = s.live ∧ t.accepted = s.accepted ∧
      t.engine = (actualizeBody s.engine (fetcher now s.engine.previousTimestamp)).1 := by
  have hfetch : System.step fetcher s (.fetch now) = some (s.fetchStep fetcher now) := by
    rw [System.step, hs]
  unfold actualizeBody
  by_cases h : normalizeRecords (fetcher now s.engine.previousTimestamp) = []
  · refine ⟨[.fetch now], s.fetchStep fetcher now, ?_, ?_, rfl, rfl, ?_⟩
    · rw [run_cons, hfetch]
      rfl
    · simp [System.fetchStep, h]
    · simp [System.fetchStep, h]
  · have hw : (s.fetchStep fetcher now).worker = .saving ⟨_, h, normalizeRecords_pairwise _⟩ :=
      dif_pos h
    have hrun : run (System.step fetcher) s [.fetch now, .work, .work, .work, .work] =
        run (System.step fetcher) (s.fetchStep fetcher now) [.work, .work, .work, .work] := by
      rw [run_cons, hfetch]
      rfl
    refine ⟨_, _, hrun.trans (run_page fetcher hw), ?_, rfl, rfl, ?_⟩
    · simp [h]
    · rw [dif_pos h]
      rfl

/-- `actualize` without a live call in between. -/
theorem run_actualize {s : System} {e' : DatabaseEngine} (hs : s.worker = .fetching)
    (h : actualize fetcher s.engine nows = some e') :
    ∃ events t, run (System.step fetcher) s events = some t ∧ t.worker = .done ∧
      t.live = s.live ∧ t.accepted = s.accepted ∧ t.engine = e' := by
  induction nows generalizing s with
  | nil => cases h
  | cons now nows ih =>
    obtain ⟨events, t, hrun, hworker, hlive, haccepted, hengine⟩ :=
      run_request fetcher hs now
    unfold actualize at h
    dsimp only at h
    rw [← hengine] at h
    split at h
    · rename_i hfinished
      rw [if_pos hfinished] at hworker
      split at h
      · refine ⟨events ++ [.work], { t with
          engine := rebuildCacheFromHistorical t.engine, worker := .done }, ?_, rfl, hlive,
          haccepted, Option.some.inj h⟩
        rw [run_append, hrun, Option.bind_some, run_cons, System.step, System.workStep, hworker]
        rfl
      · cases h
    · rename_i hfinished
      rw [if_neg hfinished] at hworker
      obtain ⟨events', u, hrun', hworker', hlive', haccepted', hengine'⟩ := ih hworker h
      refine ⟨events ++ events', u, ?_, hworker', hlive'.trans hlive, haccepted'.trans haccepted,
        hengine'⟩
      rw [run_append, hrun]
      exact hrun'

end Runs

end TCV.Storage
