import TradingChartViewer.Lib.Run
import TradingChartViewer.Storage.Engine

/-!
# The engine under two threads

`DatabaseEngine::actualize` on one thread and a sequence of calls of
`updateWithNewData` on the other. Each fetch, `saveRecords`, cursor update,
`ingestRecords` and `rebuildCacheFromHistorical` of the first and each locked
section of the second is one step.

* `Worker` and `Live`: where the two threads stand;
* `System.step`: the steps; an event that cannot happen there has no result;
  `System.moves`: what each of them does;
* `run_update`: a call that nothing comes between is `updateWithNewData`;
* `hasMinute_mono`: no step loses a minute.
-/

namespace TCV.Storage

open TCV.Domain Lib.TimeMap Lib.Run

variable [TimeUtils]

/-- What `actualize` has after `normalizeRecords`, when it is not empty. -/
structure FetchedPage where
  records : List MinuteRecord
  ne_nil : records ≠ []
  ascending : records.Pairwise fun a b => a.openTime < b.openTime
  deriving DecidableEq

/-- The next step of `actualize`. -/
inductive Worker
  | fetching
  | saving (page : FetchedPage)
  | moving (page : FetchedPage)
  | ingesting (page : FetchedPage)
  | rebuilding (page : FetchedPage)
  | finishing
  | done
  deriving DecidableEq

/-- The next step of a call of `updateWithNewData`. -/
inductive Live
  | idle
  | saving (closedCandle normalized : MinuteRecord)
  | ingesting (normalized : MinuteRecord)
  deriving DecidableEq

/-- The engine with its two threads. `accepted` lists the live records that
passed the locked section, newest first, and `fetchedAt` is the time of the
last fetch. -/
structure System where
  engine : DatabaseEngine
  worker : Worker := .fetching
  live : Live := .idle
  accepted : List MinuteRecord := []
  fetchedAt : Int := 0

inductive Event
  | fetch (now : Int)
  | work
  | update (data : PriceData)
  | live
  deriving DecidableEq, Repr

/-! ## The steps -/

/-- The head of the loop of `actualize`. `fetcher` gives the answer to a request
at a time for the records from a start time on. -/
def System.fetchStep (fetcher : Int → Int → List PriceData) (s : System) (now : Int) : System :=
  let fetched := fetcher now s.engine.previousTimestamp
  let normalized := normalizeRecords fetched
  { s with
    fetchedAt := now
    worker :=
      if h : normalized ≠ [] then .saving ⟨normalized, h, normalizeRecords_pairwise fetched⟩
      else if fetched = [] then .finishing
      else .fetching }

/-- The other steps of `actualize`. -/
def System.workStep (s : System) : Option System :=
  match s.worker with
  | .fetching => none
  | .saving page => some { s with
      engine := s.engine.saveRecords page.records
      worker := .moving page }
  | .moving page => some { s with
      engine := { s.engine with previousTimestamp := (page.records.getLast page.ne_nil).openTime }
      worker := .ingesting page }
  | .ingesting page => some { s with
      engine := ingestRecords s.engine (page.records.map fun r => r.toPriceData)
      worker := .rebuilding page }
  | .rebuilding page => some { s with
      engine := rebuildCacheFromHistorical s.engine
      worker := if page.records.length < 1000 then .finishing else .fetching }
  | .finishing => some { s with
      engine := rebuildCacheFromHistorical s.engine
      worker := .done }
  | .done => none

/-- `updateWithNewData` up to the end of its locked section. -/
def System.updateStep (s : System) (data : PriceData) : Option System :=
  match s.live with
  | .idle =>
    match normalizedRecord? data with
    | none => some s
    | some normalized =>
      match updateCache s.engine normalized with
      | none => some s
      | some (engine, closedCandle) => some { s with
          engine := engine
          live := match closedCandle with
            | some closedCandle => .saving closedCandle normalized
            | none => .ingesting normalized
          accepted := normalized :: s.accepted }
  | _ => none

/-- The rest of `updateWithNewData`. -/
def System.liveStep (s : System) : Option System :=
  match s.live with
  | .idle => none
  | .saving closedCandle normalized => some { s with
      engine := s.engine.saveRecord closedCandle
      live := .ingesting normalized }
  | .ingesting normalized => some { s with
      engine := ingestRecord s.engine normalized.toPriceData
      live := .idle }

def System.step (fetcher : Int → Int → List PriceData) (s : System) : Event → Option System
  | .fetch now =>
    match s.worker with
    | .fetching => some (s.fetchStep fetcher now)
    | _ => none
  | .work => s.workStep
  | .update data => s.updateStep data
  | .live => s.liveStep

/-- Before `actualize` and the first live call. -/
def System.start (engine : DatabaseEngine) : System := { engine := engine }

/-- What each event does, by where the two threads stand. -/
inductive System.Moves (fetcher : Int → Int → List PriceData) (s : System) : Event → System → Prop
  | fetch (now : Int) (hw : s.worker = .fetching) : Moves fetcher s (.fetch now) (s.fetchStep fetcher now)
  | save (page : FetchedPage) (hw : s.worker = .saving page) : Moves fetcher s .work
      { s with engine := s.engine.saveRecords page.records, worker := .moving page }
  | move (page : FetchedPage) (hw : s.worker = .moving page) : Moves fetcher s .work
      { s with
        engine := { s.engine with previousTimestamp := (page.records.getLast page.ne_nil).openTime }
        worker := .ingesting page }
  | ingest (page : FetchedPage) (hw : s.worker = .ingesting page) : Moves fetcher s .work
      { s with engine := ingest s.engine page.records, worker := .rebuilding page }
  | rebuild (page : FetchedPage) (hw : s.worker = .rebuilding page) : Moves fetcher s .work
      { s with
        engine := rebuildCacheFromHistorical s.engine
        worker := if page.records.length < 1000 then .finishing else .fetching }
  | finish (hw : s.worker = .finishing) : Moves fetcher s .work
      { s with engine := rebuildCacheFromHistorical s.engine, worker := .done }
  | stale (data : PriceData) (hl : s.live = .idle) : Moves fetcher s (.update data) s
  | accept (data : PriceData) (r : MinuteRecord) (engine : DatabaseEngine)
      (closed : Option MinuteRecord) (hl : s.live = .idle) (hr : normalizedRecord? data = some r)
      (hc : updateCache s.engine r = some (engine, closed)) : Moves fetcher s (.update data)
      { s with
        engine := engine
        live := closed.elim (.ingesting r) fun c => .saving c r
        accepted := r :: s.accepted }
  | close (c r : MinuteRecord) (hl : s.live = .saving c r) : Moves fetcher s .live
      { s with engine := s.engine.saveRecord c, live := .ingesting r }
  | store (r : MinuteRecord) (hl : s.live = .ingesting r) : Moves fetcher s .live
      { s with engine := ingest s.engine [r], live := .idle }

theorem System.moves {fetcher : Int → Int → List PriceData} {s t : System} {e : Event}
    (h : s.step fetcher e = some t) : s.Moves fetcher e t := by
  cases e with
  | fetch now =>
    unfold System.step at h
    dsimp only at h
    split at h
    · rename_i hw
      obtain rfl := Option.some.inj h
      exact .fetch now hw
    · cases h
  | work =>
    unfold System.step System.workStep at h
    dsimp only at h
    split at h
    · cases h
    · rename_i page hw
      obtain rfl := Option.some.inj h
      exact .save page hw
    · rename_i page hw
      obtain rfl := Option.some.inj h
      exact .move page hw
    · rename_i page hw
      obtain rfl := Option.some.inj h
      rw [ingestRecords_of_ascending _ _ page.ne_nil page.ascending]
      exact .ingest page hw
    · rename_i page hw
      obtain rfl := Option.some.inj h
      exact .rebuild page hw
    · rename_i hw
      obtain rfl := Option.some.inj h
      exact .finish hw
    · cases h
  | update data =>
    unfold System.step System.updateStep at h
    dsimp only at h
    split at h
    · rename_i hl
      split at h
      · obtain rfl := Option.some.inj h
        exact .stale data hl
      · rename_i r hr
        split at h
        · obtain rfl := Option.some.inj h
          exact .stale data hl
        · rename_i engine closed hc
          obtain rfl := Option.some.inj h
          have hm : s.Moves fetcher (.update data) _ := .accept data r engine closed hl hr hc
          cases closed <;> exact hm
    · cases h
  | live =>
    unfold System.step System.liveStep at h
    dsimp only at h
    split at h
    · cases h
    · rename_i c r hl
      obtain rfl := Option.some.inj h
      exact .close c r hl
    · rename_i r hl
      obtain rfl := Option.some.inj h
      rw [ingestRecord_eq]
      exact .store r hl

/-- The live steps that a call still makes. -/
def Live.rest : Live → List Event
  | .idle => []
  | .saving _ _ => [.live, .live]
  | .ingesting _ => [.live]

/-- A call that runs without a step of `actualize` in between. -/
theorem run_update (fetcher : Int → Int → List PriceData) {s t : System} {data : PriceData}
    (hs : s.live = .idle) (ht : s.step fetcher (.update data) = some t) :
    ∃ u, run (System.step fetcher) t t.live.rest = some u ∧ u.live = .idle ∧
      u.engine = updateWithNewData s.engine data := by
  rw [System.step, System.updateStep, hs] at ht
  unfold updateWithNewData
  cases hn : normalizedRecord? data with
  | none =>
    rw [hn] at ht
    obtain rfl := Option.some.inj ht
    exact ⟨s, by rw [hs]; rfl, hs, rfl⟩
  | some normalized =>
    rw [hn] at ht
    dsimp only at ht ⊢
    cases hc : updateCache s.engine normalized with
    | none =>
      rw [hc] at ht
      obtain rfl := Option.some.inj ht
      exact ⟨s, by rw [hs]; rfl, hs, rfl⟩
    | some p =>
      obtain ⟨engine, closedCandle⟩ := p
      rw [hc] at ht
      obtain rfl := Option.some.inj ht
      cases closedCandle with
      | none => exact ⟨_, rfl, rfl, rfl⟩
      | some closedCandle => exact ⟨_, rfl, rfl, rfl⟩

/-! ## Minutes -/

/-- The page that is not in the store yet. -/
def Worker.page : Worker → List MinuteRecord
  | .saving page | .moving page | .ingesting page => page.records
  | _ => []

/-- The record of the live call that is not in the store yet. -/
def Live.pending : Live → Option MinuteRecord
  | .idle => none
  | .saving _ normalized | .ingesting normalized => some normalized

/-- There is a record of the minute in the store or in the page on its way. -/
def System.HasMinute (s : System) (t : Int) : Prop :=
  s.engine.historicalData[t]?.isSome = true ∨ ∃ r ∈ s.worker.page, r.openTime = t

instance (s : System) (t : Int) : Decidable (s.HasMinute t) :=
  inferInstanceAs (Decidable (_ ∨ ∃ r ∈ s.worker.page, r.openTime = t))

section Minutes

variable {fetcher : Int → Int → List PriceData} {s t : System} {e : Event}

theorem isSome_ingest_iff (e : DatabaseEngine) (l : List MinuteRecord) (x : Int) :
    (ingest e l).historicalData[x]?.isSome = true ↔
      e.historicalData[x]?.isSome = true ∨ ∃ r ∈ l, r.openTime = x := by
  rw [ingest_historicalData]
  exact isSome_insertAll_iff

/-- No step loses a minute. -/
theorem hasMinute_mono (h : s.Moves fetcher e t) {x : Int} (hx : s.HasMinute x) :
    t.HasMinute x := by
  unfold System.HasMinute at hx ⊢
  cases h with
  | fetch now hw =>
    rw [hw] at hx
    exact Or.inl (hx.resolve_right (by simp [Worker.page]))
  | save page hw | move page hw =>
    rw [hw] at hx
    exact hx
  | ingest page hw =>
    rw [hw] at hx
    exact Or.inl ((isSome_ingest_iff _ _ _).mpr hx)
  | rebuild page hw | finish hw =>
    rw [hw] at hx
    dsimp only
    rw [rebuildCacheFromHistorical_historicalData]
    exact Or.inl (hx.resolve_right (by simp [Worker.page]))
  | stale data hl => exact hx
  | accept data r engine closed hl hr hc =>
    dsimp only
    rw [(updateCache_cases hc).1]
    exact hx
  | close c r hl => exact hx
  | store r hl =>
    apply hx.imp_left
    intro hx
    exact (isSome_ingest_iff _ _ _).mpr (Or.inl hx)

end Minutes

end TCV.Storage
