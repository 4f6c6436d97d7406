import TradingChartViewer.Ui.GridJapaneseCandle

/-!
# The grid and its engine

`ui::Grid` as its constructor leaves it, observing the engine: the timeline gets the
front of the ring, and each candle the record at its place once `spectatorMode` is
on. Updates, whole runs of `actualize` and calls of `spectatorMode` in any order, on one
thread. `GridValues`, which observes the price limits, is left out.

* `Grid.step`: the calls, with the observers that they reach;
* `timeline_follows`: the timeline is always that of the engine;
* `candles_mirror`: in spectator mode the candles are always the ring.
-/

namespace TCV.Ui

open TCV.Domain TCV.Storage Lib.Run Lib.TimeMap
open GridJapaneseCandle (targetCandleCount)

section

variable [TimeUtils] [MinuteUtils] [PriceCasts]

/-! ## The calls -/

/-- The observers of the engine that the grid owns. -/
inductive GridObserver
  | gridTime
  | candle (i : Nat)
  deriving DecidableEq, Repr

structure Grid where
  engine : DatabaseEngine
  gridTime : GridTime
  japaneseCandles : GridJapaneseCandle
  observerSubscriptions : List (GridObserver × Nat)
  fullDataObservers : List GridObserver := []

namespace Grid

/-- The constructor: the timeline subscribes to the front of the ring. -/
def construct (engine : DatabaseEngine) (uninitialised : Int) : Grid :=
  let gridTime := GridTime.construct engine uninitialised
  { engine := engine
    gridTime := gridTime
    japaneseCandles := .construct engine gridTime
    observerSubscriptions := [(.gridTime, 0)] }

/-- One call of an observer. -/
def notify (g : Grid) (c : GridObserver × MinuteRecord) : Grid :=
  match c.1 with
  | .gridTime => { g with gridTime := g.gridTime.onCacheUpdated g.engine c.2 }
  | .candle i => { g with
      japaneseCandles := { g.japaneseCandles with
        candles := g.japaneseCandles.candles.modify i
          fun candle => candle.setPriceData g.gridTime c.2.toPriceData } }

def notifyObservers (g : Grid) : Grid :=
  (g.engine.notifications g.observerSubscriptions).foldl notify g

def notifyFullDataObservers (g : Grid) : Grid :=
  (g.engine.fullDataNotifications g.fullDataObservers).foldl notify g

/-- `updateWithNewData`, with the observers it calls at its end. -/
def updateWithNewData (g : Grid) (data : PriceData) : Grid :=
  let notifyCache := g.engine.notifiesObservers data
  let notifyFull := g.engine.notifiesFullDataObservers data
  let g := { g with engine := Storage.updateWithNewData g.engine data }
  let g := if notifyCache then g.notifyObservers else g
  if notifyFull then g.notifyFullDataObservers else g

/-- Each candle subscribes to its place, and the first one to every change. -/
def subscribeCandles (g : Grid) : Grid := { g with
  observerSubscriptions := g.observerSubscriptions ++
    (List.range g.japaneseCandles.candles.length).map fun i => (.candle i, i)
  fullDataObservers := g.fullDataObservers ++ [.candle 0] }

/-- `GridJapaneseCandle::spectatorMode`; a new full-data observer is called at once. -/
def spectatorMode (g : Grid) (onOf : Bool) : Grid :=
  if !g.japaneseCandles.isReady then g
  else if onOf then g.subscribeCandles.notifyFullDataObservers
  else
    { g with
      observerSubscriptions := g.observerSubscriptions.filter fun s => s.1 = .gridTime
      fullDataObservers := g.fullDataObservers.filter (· ≠ .candle 0) }

end Grid

inductive GridEvent
  | updateWithNewData (data : PriceData)
  | actualize (nows : List Int)
  | spectatorMode (onOf : Bool)
  deriving DecidableEq, Repr

def Grid.step (fetcher : Int → Int → List PriceData) (g : Grid) : GridEvent → Option Grid
  | .updateWithNewData data => some (g.updateWithNewData data)
  | .actualize nows => (Storage.actualize fetcher g.engine nows).map fun engine =>
      { g with engine := engine }.notifyObservers.notifyFullDataObservers
  | .spectatorMode onOf => some (g.spectatorMode onOf)

/-! ## The timeline -/

/-- The timeline of an engine with records shows it, and there is none of an empty one. -/
inductive GridTime.Current (gridTime : GridTime) (e : DatabaseEngine) : Prop
  | empty (hcache : e.cache.head? = none) (hready : gridTime.ready = false)
      (htimestamps : gridTime.timestamps = [])
  | shows {front : MinuteRecord} (hcache : e.cache.head? = some front)
      (hshows : gridTime.Shows e)

namespace Grid

/-- The timeline is the first observer, and the only one that is no candle. -/
structure Wired (g : Grid) : Prop where
  ring : g.engine.Ring
  subscribed : ∃ rest, g.observerSubscriptions = (.gridTime, 0) :: rest ∧
    ∀ s ∈ rest, ∃ i, s.1 = .candle i
  fullData : ∀ o ∈ g.fullDataObservers, ∃ i, o = .candle i

structure Follows (g : Grid) : Prop extends g.Wired where
  current : g.gridTime.Current g.engine

end Grid

section Follows

variable {fetcher : Int → Int → List PriceData} {g g' : Grid} {e : DatabaseEngine}
  {gridTime : GridTime} {front : MinuteRecord}

omit [PriceCasts] in
theorem GridTime.Current.onCacheUpdated (h : e.Ring) (hf : e.cache.head? = some front)
    (hle : gridTime.ready = true → gridTime.highestTime ≤ e.maxOpenTime) :
    (gridTime.onCacheUpdated e front).Current e := by
  have hfront := (h.range hf).2.2.2
  refine .shows hf ?_
  unfold GridTime.onCacheUpdated
  split
  · exact GridTime.rebuildTimeline_newest _ h hf (.inr hfront.ge)
  · rename_i hready
    rw [if_pos (by rw [hfront]; exact hle (by simpa using hready))]
    exact GridTime.rebuildTimeline_newest _ h hf (.inr hfront.ge)

omit [PriceCasts] in
theorem GridTime.Current.construct (h : e.Ring) (uninitialised : Int) :
    (GridTime.construct e uninitialised).Current e := by
  cases hf : e.cache.head? with
  | none =>
    obtain ⟨hready, htimestamps⟩ := GridTime.rebuildTimeline_none {} (h.range_none hf)
      (alignToMinute ((e.getLastEventTimestamp uninitialised).getD 0))
    exact .empty hf hready htimestamps
  | some front =>
    obtain ⟨hpos, hle, -, hfront⟩ := h.range hf
    have hmax : kMillisPerMinute ∣ e.maxOpenTime := hfront ▸ front.dvd_openTime
    have hlast : e.getLastEventTimestamp uninitialised = some e.maxOpenTime :=
      if_pos (by omega)
    refine .shows hf ?_
    unfold GridTime.construct
    dsimp only
    rw [hlast, Option.getD_some, alignToMinute_of_dvd hmax]
    exact GridTime.rebuildTimeline_newest _ h hf (.inr le_rfl)

omit [PriceCasts] in
/-- A timeline is that of every engine with the same minutes. -/
theorem GridTime.Current.congr {e' : DatabaseEngine} (hc : gridTime.Current e) (h : e.Ring)
    (h' : e'.Ring) (hkeys : e'.historicalData.keys = e.historicalData.keys) :
    gridTime.Current e' := by
  obtain ⟨hmin, hmax, hhead⟩ := range_congr h h' hkeys
  have hcount : GridTime.visibleCount e' = GridTime.visibleCount e := by
    rw [GridTime.visibleCount, hmin, hmax]
    rfl
  cases hc with
  | empty hcache hready htimestamps =>
    rw [hcache, Option.map_none, Option.map_eq_none_iff] at hhead
    exact .empty hhead hready htimestamps
  | shows hcache hshows =>
    rw [hcache, Option.map_some] at hhead
    obtain ⟨front', hfront', -⟩ := Option.map_eq_some_iff.mp hhead
    refine .shows hfront' ⟨hshows.ready, hshows.highestTime.trans hmax.symm, ?_, ?_⟩
    · rw [hshows.times, GridTime.timeline, GridTime.timeline, hcount, hmax]
    · rw [hcount, hmax]
      exact hshows.places

omit [PriceCasts] in
/-- The newest minute of a timeline is not ahead of an engine that grew. -/
theorem GridTime.Current.highestTime_le {e' : DatabaseEngine} (hc : gridTime.Current e)
    (h : e.Ring) (h' : e'.Ring) (hg : e.Grows e') (hready : gridTime.ready = true) :
    gridTime.highestTime ≤ e'.maxOpenTime := by
  cases hc with
  | empty _ hnot _ =>
    rw [hnot] at hready
    cases hready
  | shows hcache hshows =>
    obtain ⟨-, -, hle⟩ := hg.front h h' hcache
    rw [hshows.highestTime]
    exact hle

/-- Calls of candles change nothing but candles. -/
theorem Grid.notify_candles (calls : List (GridObserver × MinuteRecord))
    (hcalls : ∀ c ∈ calls, ∃ i, c.1 = .candle i) (g : Grid) :
    ∃ candles, calls.foldl Grid.notify g = { g with japaneseCandles := candles } := by
  induction calls generalizing g with
  | nil => exact ⟨_, rfl⟩
  | cons c calls ih =>
    obtain ⟨⟨i, hi⟩, hcalls⟩ := List.forall_mem_cons.mp hcalls
    obtain ⟨candles, h⟩ := ih hcalls (g.notify c)
    refine ⟨candles, ?_⟩
    rw [List.foldl_cons, h, Grid.notify, hi]

omit [PriceCasts] in
theorem Grid.Follows.candles (h : g.Follows) (candles : GridJapaneseCandle) :
    ({ g with japaneseCandles := candles } : Grid).Follows :=
  ⟨⟨h.ring, h.subscribed, h.fullData⟩, h.current⟩

theorem Grid.Follows.notifyFullDataObservers (h : g.Follows) :
    g.notifyFullDataObservers.Follows := by
  obtain ⟨candles, hc⟩ := Grid.notify_candles
    (g.engine.fullDataNotifications g.fullDataObservers) (fun c hmem => by
      unfold DatabaseEngine.fullDataNotifications at hmem
      split at hmem
      · cases hmem
      · obtain ⟨o, ho, rfl⟩ := List.mem_map.mp hmem
        exact h.fullData o ho) g
  rw [Grid.notifyFullDataObservers, hc]
  exact h.candles candles

/-- The calls after the timeline that was of an earlier engine. -/
theorem Grid.Wired.notifyObservers (h : g.Wired) (he : e.Ring) (hg : e.Grows g.engine)
    (hc : g.gridTime.Current e) : g.notifyObservers.Follows := by
  obtain ⟨rest, hsubscribed, hrest⟩ := h.subscribed
  cases hf : g.engine.cache.head? with
  | none =>
    have hnil : g.engine.cache = [] := List.head?_eq_none_iff.mp hf
    have hsame : g.notifyObservers = g := by
      rw [Grid.notifyObservers, DatabaseEngine.notifications, hnil]
      simp
    rw [hsame]
    refine ⟨h, ?_⟩
    cases hc with
    | empty _ hready htimestamps => exact .empty hf hready htimestamps
    | shows hcache _ =>
      obtain ⟨front', hfront', -⟩ := hg.front he h.ring hcache
      rw [hf] at hfront'
      cases hfront'
  | some front =>
    have hcurrent := GridTime.Current.onCacheUpdated h.ring hf
      (hc.highestTime_le he h.ring hg)
    have hcalls : g.engine.notifications g.observerSubscriptions =
        (.gridTime, front) :: g.engine.notifications rest := by
      rw [DatabaseEngine.notifications, hsubscribed]
      exact List.filterMap_cons_some (by rw [← List.head?_eq_getElem?, hf]; rfl)
    obtain ⟨candles, hfold⟩ := Grid.notify_candles (g.engine.notifications rest) (fun c hmem => by
      obtain ⟨s, hs, hmap⟩ := List.mem_filterMap.mp hmem
      obtain ⟨r, -, rfl⟩ := Option.map_eq_some_iff.mp hmap
      exact hrest s hs) (g.notify (.gridTime, front))
    rw [Grid.notifyObservers, hcalls, List.foldl_cons, hfold]
    exact ⟨⟨h.ring, h.subscribed, h.fullData⟩, hcurrent⟩

theorem Grid.Follows.updateWithNewData (h : g.Follows) (data : PriceData) :
    (g.updateWithNewData data).Follows := by
  have hring := h.ring.updateWithNewData data
  have hfollows : (if g.engine.notifiesObservers data then
      ({ g with engine := Storage.updateWithNewData g.engine data } : Grid).notifyObservers
      else { g with engine := Storage.updateWithNewData g.engine data }).Follows := by
    split
    · exact Grid.Wired.notifyObservers ⟨hring, h.subscribed, h.fullData⟩ h.ring
        (grows_update _ _) h.current
    · rename_i hn
      exact ⟨⟨hring, h.subscribed, h.fullData⟩, h.current.congr h.ring hring
        (keys_update h.ring (by simpa using hn))⟩
  unfold Grid.updateWithNewData
  dsimp only
  split
  · exact hfollows.notifyFullDataObservers
  · exact hfollows

theorem Grid.Follows.spectatorMode (h : g.Follows) (onOf : Bool) : (g.spectatorMode onOf).Follows := by
  obtain ⟨rest, hsubscribed, hrest⟩ := h.subscribed
  unfold Grid.spectatorMode
  split
  · exact h
  split
  · refine Grid.Follows.notifyFullDataObservers ⟨⟨h.ring, ?_, ?_⟩, h.current⟩
    · refine ⟨_, congrArg (· ++ _) hsubscribed, fun s hs => ?_⟩
      rcases List.mem_append.mp hs with hs | hs
      · exact hrest s hs
      · obtain ⟨i, -, rfl⟩ := List.mem_map.mp hs
        exact ⟨i, rfl⟩
    · intro o ho
      rcases List.mem_append.mp ho with ho | ho
      · exact h.fullData o ho
      · exact ⟨0, List.mem_singleton.mp ho⟩
  · refine ⟨⟨h.ring, ⟨rest.filter fun s => s.1 = .gridTime, ?_, fun s hs => ?_⟩, ?_⟩, h.current⟩
    · dsimp only
      rw [hsubscribed, List.filter_cons_of_pos (by simp)]
    · exact hrest s (List.mem_of_mem_filter hs)
    · exact fun o ho => h.fullData o (List.mem_of_mem_filter ho)

theorem Grid.Follows.step (h : g.Follows) {event : GridEvent}
    (hs : g.step fetcher event = some g') : g'.Follows := by
  cases event with
  | updateWithNewData data =>
    obtain rfl := Option.some.inj hs
    exact h.updateWithNewData data
  | actualize nows =>
    obtain ⟨engine, hengine, rfl⟩ := Option.map_eq_some_iff.mp hs
    obtain ⟨hring, hgrows⟩ := grows_actualize h.ring hengine
    have hwired : ({ g with engine := engine } : Grid).Wired :=
      ⟨hring, h.subscribed, h.fullData⟩
    exact (hwired.notifyObservers h.ring hgrows h.current).notifyFullDataObservers
  | spectatorMode onOf =>
    obtain rfl := Option.some.inj hs
    exact h.spectatorMode onOf

theorem Grid.wired_construct (h : e.Ring) (uninitialised : Int) :
    (Grid.construct e uninitialised).Wired :=
  ⟨h, ⟨[], rfl, fun _ hs => absurd hs List.not_mem_nil⟩,
    fun _ ho => absurd ho List.not_mem_nil⟩

theorem Grid.Follows.run {events : List GridEvent} (h : g.Follows)
    (hrun : run (Grid.step fetcher) g events = some g') : g'.Follows :=
  inv_of_along (P := fun _ _ => True) (fun _ _ _ h _ hs => h.step hs) h
    (along_of_forall fun _ _ => trivial) hrun

/-- After every run of the calls the timeline shows the newest minutes of the engine. -/
theorem timeline_follows (fetcher : Int → Int → List PriceData) (file : DataFile)
    (uninitialised₀ uninitialised : Int) (events : List GridEvent) (g : Grid)
    (hrun : run (Grid.step fetcher)
      (.construct (.opened file uninitialised₀) uninitialised) events = some g) :
    g.gridTime.Current g.engine := by
  have hring := ring_opened file uninitialised₀
  have h : (Grid.construct (.opened file uninitialised₀) uninitialised).Follows :=
    ⟨Grid.wired_construct hring uninitialised, .construct hring uninitialised⟩
  exact (h.run hrun).current

end Follows

end

theorem timeline_follows_update : ∃ g, run (Grid.step fun _ _ => [])
      (.construct (.opened {} 0) 0) [.updateWithNewData (flatRecord 60000 1)] = some g ∧
    g.gridTime.Current g.engine :=
  ⟨_, rfl, timeline_follows (fun _ _ => []) {} 0 0 [.updateWithNewData (flatRecord 60000 1)] _ rfl⟩

section

variable [TimeUtils] [MinuteUtils] [PriceCasts]

/-! ## The candles -/

namespace Grid

/-- The candle at a place shows the record at that place of the ring. -/
def ShownAt (g : Grid) (i : Nat) : Prop :=
  g.japaneseCandles.candles[i]? = (g.engine.cache[i]?).map (JapaneseCandle.shown g.gridTime)

/-- Each candle is subscribed to its own place, and the first one to every change. -/
structure Watched (g : Grid) : Prop extends g.Wired where
  full : targetCandleCount ≤ (values g.engine.historicalData).length
  length : g.japaneseCandles.candles.length = targetCandleCount
  places : ∀ s ∈ g.observerSubscriptions, ∀ i, s.1 = .candle i → s.2 = i
  covered : ∀ i < targetCandleCount, (.candle i, i) ∈ g.observerSubscriptions
  first : .candle 0 ∈ g.fullDataObservers
  only : ∀ o ∈ g.fullDataObservers, o = .candle 0

/-- The candles are the ring. -/
structure Mirrors (g : Grid) : Prop extends g.Watched where
  shown : g.japaneseCandles.candles = g.engine.cache.map (JapaneseCandle.shown g.gridTime)

/-- What calls of candles leave as it was. -/
structure SameButCandles (g g' : Grid) : Prop where
  engine : g'.engine = g.engine
  gridTime : g'.gridTime = g.gridTime
  subscribed : g'.observerSubscriptions = g.observerSubscriptions
  fullData : g'.fullDataObservers = g.fullDataObservers
  length : g'.japaneseCandles.candles.length = g.japaneseCandles.candles.length

end Grid

section Mirrors

variable {fetcher : Int → Int → List PriceData} {g g' : Grid} {e : DatabaseEngine}
  {front : MinuteRecord}

omit [MinuteUtils] [PriceCasts] in
theorem Grid.Watched.length_cache (h : g.Watched) : g.engine.cache.length = targetCandleCount := by
  rw [h.ring.cache, List.length_take, List.length_reverse]
  exact Nat.min_eq_left h.full

omit [MinuteUtils] [PriceCasts] in
theorem Grid.Watched.head?_cache (h : g.Watched) : ∃ front, g.engine.cache.head? = some front := by
  cases hc : g.engine.cache with
  | nil =>
    have hlength := h.length_cache
    rw [hc] at hlength
    cases hlength
  | cons front rest => exact ⟨front, rfl⟩

/-- Candles that each show their place are the ring. -/
theorem Grid.Watched.mirrors (h : g.Watched) (hs : ∀ i < targetCandleCount, g.ShownAt i) :
    g.Mirrors := by
  refine ⟨h, List.ext_getElem? fun i => ?_⟩
  rw [List.getElem?_map]
  by_cases hi : i < targetCandleCount
  · exact hs i hi
  · rw [List.getElem?_eq_none (h.length.trans_le (not_lt.mp hi)),
      List.getElem?_eq_none (h.length_cache.trans_le (not_lt.mp hi)), Option.map_none]

/-- The call of a candle writes its place, and no other one. -/
theorem Grid.notify_shownAt {i : Nat} {r : MinuteRecord}
    (hlength : g.japaneseCandles.candles.length = g.engine.cache.length)
    (hr : g.engine.cache[i]? = some r) : g.SameButCandles (g.notify (.candle i, r)) ∧
      ∀ j, j = i ∨ g.ShownAt j → (g.notify (.candle i, r)).ShownAt j := by
  refine ⟨⟨rfl, rfl, rfl, rfl, List.length_modify _ _ _⟩, fun j hj => ?_⟩
  show (g.japaneseCandles.candles.modify i _)[j]? = (g.engine.cache[j]?).map _
  by_cases hij : j = i
  · subst hij
    have hlt : j < g.japaneseCandles.candles.length := by
      rw [hlength]
      exact (List.getElem?_eq_some_iff.mp hr).1
    rw [hr, List.getElem?_modify_eq, List.getElem?_eq_getElem hlt]
    exact congrArg some (JapaneseCandle.setPriceData_eq _ g.gridTime r)
  · rw [List.getElem?_modify_ne _ _ (Ne.symm hij)]
    exact hj.resolve_left hij

theorem Grid.notify_all (calls : List (GridObserver × MinuteRecord)) (g : Grid)
    (hlength : g.japaneseCandles.candles.length = g.engine.cache.length)
    (hcalls : ∀ c ∈ calls, ∃ i, c.1 = .candle i ∧ g.engine.cache[i]? = some c.2) :
    g.SameButCandles (calls.foldl Grid.notify g) ∧
      ∀ j, .candle j ∈ calls.map Prod.fst ∨ g.ShownAt j → (calls.foldl Grid.notify g).ShownAt j := by
  induction calls generalizing g with
  | nil => exact ⟨⟨rfl, rfl, rfl, rfl, rfl⟩, fun j hj => hj.resolve_left List.not_mem_nil⟩
  | cons c calls ih =>
    obtain ⟨⟨i, hi, hr⟩, hrest⟩ := List.forall_mem_cons.mp hcalls
    obtain ⟨o, r⟩ := c
    obtain rfl : o = .candle i := hi
    obtain ⟨hsame, hwrites⟩ := Grid.notify_shownAt hlength hr
    obtain ⟨hsame', hwrites'⟩ := ih (g.notify (.candle i, r)) (hsame.length.trans hlength) hrest
    refine ⟨⟨hsame'.engine.trans hsame.engine, hsame'.gridTime.trans hsame.gridTime,
      hsame'.subscribed.trans hsame.subscribed, hsame'.fullData.trans hsame.fullData,
      hsame'.length.trans hsame.length⟩, fun j hj => hwrites' j ?_⟩
    rw [List.map_cons, List.mem_cons] at hj
    rcases hj with (hj | hj) | hj
    · exact .inr (hwrites j (.inl (GridObserver.candle.inj hj)))
    · exact .inl hj
    · exact .inr (hwrites j (.inr hj))

omit [MinuteUtils] [PriceCasts] in
theorem Grid.Watched.same (h : g.Watched) (hs : g.SameButCandles g') : g'.Watched where
  ring := hs.engine ▸ h.ring
  subscribed := hs.subscribed ▸ h.subscribed
  fullData := hs.fullData ▸ h.fullData
  full := hs.engine ▸ h.full
  length := hs.length.trans h.length
  places := hs.subscribed ▸ h.places
  covered := hs.subscribed ▸ h.covered
  first := hs.fullData ▸ h.first
  only := hs.fullData ▸ h.only

/-- The full-data calls bring the first candle up to date. -/
theorem Grid.Watched.notifyFullDataObservers (h : g.Watched)
    (hs : ∀ i, i ≠ 0 → g.ShownAt i) : g.notifyFullDataObservers.Mirrors := by
  obtain ⟨front, hf⟩ := h.head?_cache
  have hcalls : g.engine.fullDataNotifications g.fullDataObservers =
      g.fullDataObservers.map (·, front) := by
    rw [DatabaseEngine.fullDataNotifications, hf]
  obtain ⟨hsame, hwrites⟩ := Grid.notify_all (g.fullDataObservers.map (·, front)) g
    (h.length.trans h.length_cache.symm) (fun c hc => by
      obtain ⟨o, ho, rfl⟩ := List.mem_map.mp hc
      exact ⟨0, h.only o ho, by rw [← List.head?_eq_getElem?, hf]⟩)
  rw [Grid.notifyFullDataObservers, hcalls]
  refine (h.same hsame).mirrors fun i _ => hwrites i ?_
  by_cases hi : i = 0
  · left
    rw [hi, List.map_map]
    exact List.mem_map.mpr ⟨_, h.first, rfl⟩
  · exact .inr (hs i hi)

/-- The calls for the ring bring all candles up to date, after the timeline. -/
theorem Grid.Watched.notifyObservers (h : g.Watched) : g.notifyObservers.Mirrors := by
  obtain ⟨front, hf⟩ := h.head?_cache
  obtain ⟨rest, hsubscribed, hrest⟩ := h.subscribed
  have hcalls : g.engine.notifications g.observerSubscriptions =
      (.gridTime, front) :: g.engine.notifications rest := by
    rw [DatabaseEngine.notifications, hsubscribed]
    exact List.filterMap_cons_some (by rw [← List.head?_eq_getElem?, hf]; rfl)
  have htime : (g.notify (.gridTime, front)).Watched :=
    ⟨⟨h.ring, h.subscribed, h.fullData⟩, h.full, h.length, h.places, h.covered, h.first, h.only⟩
  obtain ⟨hsame, hwrites⟩ := Grid.notify_all (g.engine.notifications rest)
    (g.notify (.gridTime, front)) (h.length.trans h.length_cache.symm) (fun c hc => by
      obtain ⟨s, hs, hmap⟩ := List.mem_filterMap.mp hc
      obtain ⟨r, hr, rfl⟩ := Option.map_eq_some_iff.mp hmap
      obtain ⟨i, hi⟩ := hrest s hs
      have hplace := h.places s (by rw [hsubscribed]; exact List.mem_cons_of_mem _ hs) i hi
      exact ⟨i, hi, hplace ▸ hr⟩)
  rw [Grid.notifyObservers, hcalls, List.foldl_cons]
  refine (htime.same hsame).mirrors fun i hi => hwrites i (.inl ?_)
  have hmem : (.candle i, i) ∈ rest := by
    have hc := h.covered i hi
    rw [hsubscribed, List.mem_cons] at hc
    exact hc.resolve_left (by simp)
  obtain ⟨r, hr⟩ : ∃ r, g.engine.cache[i]? = some r :=
    ⟨_, List.getElem?_eq_getElem (h.length_cache ▸ hi)⟩
  exact List.mem_map.mpr ⟨(.candle i, r), List.mem_filterMap.mpr ⟨_, hmem, by rw [hr]; rfl⟩, rfl⟩

omit [MinuteUtils] [PriceCasts] in
/-- Whoever watches an engine watches it when it has grown. -/
theorem Grid.Watched.grow (h : g.Watched) (he : e.Ring) (hg : g.engine.Grows e) :
    ({ g with engine := e } : Grid).Watched :=
  ⟨⟨he, h.subscribed, h.fullData⟩, h.full.trans hg.length_le, h.length, h.places, h.covered,
    h.first, h.only⟩

theorem Grid.Mirrors.shownAt (h : g.Mirrors) (i : Nat) : g.ShownAt i := by
  rw [Grid.ShownAt, h.shown, List.getElem?_map]

theorem Grid.Mirrors.updateWithNewData (h : g.Mirrors) (data : PriceData) :
    (g.updateWithNewData data).Mirrors := by
  have hgrown : ({ g with engine := Storage.updateWithNewData g.engine data } : Grid).Watched :=
    h.toWatched.grow (h.ring.updateWithNewData data) (grows_update _ _)
  unfold Grid.updateWithNewData
  dsimp only
  by_cases hcache : g.engine.notifiesObservers data = true
  · rw [if_pos hcache]
    have hall := hgrown.notifyObservers
    split
    · exact hall.toWatched.notifyFullDataObservers fun i _ => hall.shownAt i
    · exact hall
  · rw [if_neg hcache]
    split
    · refine hgrown.notifyFullDataObservers fun i hi => ?_
      -- Only the front has changed.
      have htail : (Storage.updateWithNewData g.engine data).cache.tail = g.engine.cache.tail :=
        tail_cache_update (by simpa using hcache)
      obtain ⟨i, rfl⟩ := Nat.exists_eq_succ_of_ne_zero hi
      have hplace : (Storage.updateWithNewData g.engine data).cache[i + 1]? =
          g.engine.cache[i + 1]? := by
        rw [← List.getElem?_tail, htail, List.getElem?_tail]
      show g.japaneseCandles.candles[i + 1]? = Option.map _ _
      rw [hplace]
      exact h.shownAt (i + 1)
    · rename_i hfull
      rw [update_eq_self (by simpa using hfull)]
      exact h

omit [MinuteUtils] [PriceCasts] in
theorem Grid.Wired.subscribeCandles (h : g.Wired)
    (hfull : targetCandleCount ≤ (values g.engine.historicalData).length)
    (hlength : g.japaneseCandles.candles.length = targetCandleCount)
    (hplaces : ∀ s ∈ g.observerSubscriptions, ∀ i, s.1 = .candle i → s.2 = i)
    (honly : ∀ o ∈ g.fullDataObservers, o = .candle 0) : g.subscribeCandles.Watched := by
  obtain ⟨rest, hsubscribed, hrest⟩ := h.subscribed
  refine ⟨⟨h.ring, ⟨_, congrArg (· ++ _) hsubscribed, fun s hs => ?_⟩, fun o ho => ?_⟩, hfull,
    hlength, fun s hs i hi => ?_, fun i hi => ?_, ?_, fun o ho => ?_⟩
  · rcases List.mem_append.mp hs with hs | hs
    · exact hrest s hs
    · obtain ⟨i, -, rfl⟩ := List.mem_map.mp hs
      exact ⟨i, rfl⟩
  · rcases List.mem_append.mp ho with ho | ho
    · exact h.fullData o ho
    · exact ⟨0, List.mem_singleton.mp ho⟩
  · rcases List.mem_append.mp hs with hs | hs
    · exact hplaces s hs i hi
    · obtain ⟨j, -, rfl⟩ := List.mem_map.mp hs
      exact GridObserver.candle.inj hi
  · refine List.mem_append_right _ (List.mem_map.mpr ⟨i, ?_, rfl⟩)
    rwa [List.mem_range, hlength]
  · exact List.mem_append_right _ List.mem_cons_self
  · rcases List.mem_append.mp ho with ho | ho
    · exact honly o ho
    · exact List.mem_singleton.mp ho

theorem Grid.Mirrors.spectatorMode (h : g.Mirrors) : (g.spectatorMode true).Mirrors := by
  have hadded := h.toWired.subscribeCandles h.full h.length h.places h.only
  unfold Grid.spectatorMode
  split
  · exact h
  · rw [if_pos rfl]
    exact hadded.notifyFullDataObservers fun i _ => h.shownAt i

theorem Grid.Mirrors.step (h : g.Mirrors) {event : GridEvent} (hon : event ≠ .spectatorMode false)
    (hs : g.step fetcher event = some g') : g'.Mirrors := by
  cases event with
  | updateWithNewData data =>
    obtain rfl := Option.some.inj hs
    exact h.updateWithNewData data
  | actualize nows =>
    obtain ⟨engine, hengine, rfl⟩ := Option.map_eq_some_iff.mp hs
    obtain ⟨hring, hgrows⟩ := grows_actualize h.ring hengine
    have hall := (h.toWatched.grow hring hgrows).notifyObservers
    exact hall.toWatched.notifyFullDataObservers fun i _ => hall.shownAt i
  | spectatorMode onOf =>
    obtain rfl := Option.some.inj hs
    cases onOf with
    | false => exact absurd rfl hon
    | true => exact h.spectatorMode

/-- The grid of an engine that is ready, once its candles watch it. -/
theorem mirrors_construct (h : e.Ring) (uninitialised : Int) (hready : e.isReady = true) :
    ((Grid.construct e uninitialised).spectatorMode true).Mirrors := by
  obtain ⟨hcount, hwindow, hshown⟩ :=
    GridJapaneseCandle.construct_newest h (GridTime.construct e uninitialised) hready
  have hwindow : (Grid.construct e uninitialised).japaneseCandles.isReady = true := hwindow
  have hfull : targetCandleCount ≤ (values e.historicalData).length := by
    rw [h.cache, List.length_take, List.length_reverse] at hcount
    exact min_eq_left_iff.mp hcount
  have hlength : (Grid.construct e uninitialised).japaneseCandles.candles.length =
      targetCandleCount :=
    (congrArg List.length hshown).trans (List.length_map _ |>.trans hcount)
  have hadded := (Grid.wired_construct h uninitialised).subscribeCandles hfull hlength
    (fun s hs i hi => by
      rw [List.mem_singleton.mp hs] at hi
      cases hi) (fun o ho => absurd ho List.not_mem_nil)
  unfold Grid.spectatorMode
  rw [hwindow, if_neg (by decide), if_pos rfl]
  refine hadded.notifyFullDataObservers fun i _ => ?_
  exact (congrArg (fun l : List JapaneseCandle => l[i]?) hshown).trans List.getElem?_map

/-- On an engine that is ready, and as long as spectator mode stays on, the candles are at
any time the newest records, each with its prices and at its place on the timeline. -/
theorem candles_mirror (fetcher : Int → Int → List PriceData) (file : DataFile)
    (uninitialised₀ uninitialised : Int)
    (hready : (DatabaseEngine.opened file uninitialised₀).isReady = true)
    (events : List GridEvent) (hon : .spectatorMode false ∉ events) (g : Grid)
    (hrun : run (Grid.step fetcher)
      ((Grid.construct (.opened file uninitialised₀) uninitialised).spectatorMode true)
      events = some g) :
    g.japaneseCandles.candles = g.engine.cache.map (JapaneseCandle.shown g.gridTime) ∧
      g.japaneseCandles.candles.length = targetCandleCount ∧ g.gridTime.Shows g.engine := by
  have hring := ring_opened file uninitialised₀
  have hmirrors : g.Mirrors :=
    inv_of_along (P := fun _ event => event ≠ .spectatorMode false)
      (fun _ _ _ h hevent hs => h.step hevent hs) (mirrors_construct hring uninitialised hready)
      (along_of_mem fun event hmem _ => ne_of_mem_of_not_mem hmem hon) hrun
  have hfollows : (Grid.construct (.opened file uninitialised₀) uninitialised).Follows :=
    ⟨Grid.wired_construct hring uninitialised, .construct hring uninitialised⟩
  refine ⟨hmirrors.shown, hmirrors.length, ?_⟩
  obtain ⟨front, hfront⟩ := hmirrors.head?_cache
  cases ((hfollows.spectatorMode true).run hrun).current with
  | empty hcache => rw [hfront] at hcache; cases hcache
  | shows _ hshows => exact hshows

end Mirrors

end

theorem candles_mirror_minute : ∃ g, run (Grid.step fun _ _ => [])
      ((Grid.construct (.opened { records := flatHistory 1 } 0) 0).spectatorMode true)
      [.updateWithNewData (flatRecord 12060000 2)] = some g ∧
    g.japaneseCandles.candles = g.engine.cache.map (JapaneseCandle.shown g.gridTime) ∧
      g.japaneseCandles.candles.length = targetCandleCount ∧ g.gridTime.Shows g.engine :=
  ⟨_, rfl, candles_mirror (fun _ _ => []) { records := flatHistory 1 } 0 0 (by decide +kernel)
    [.updateWithNewData (flatRecord 12060000 2)] (by decide) _ rfl⟩

end TCV.Ui
