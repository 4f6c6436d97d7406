import TradingChartViewer.Storage.Interleaving
import TradingChartViewer.Storage.Saving

/-!
# What the live stream leaves

The last live record of a minute, once the stream has moved on, against pages
that were fetched before it came.

* `System.Settled`: the live stream saves no more record of the minute;
* `System.Keeps`: the invariant, by where the live call stands;
* `System.Harmless`: no page puts another record in the place of a live one,
  and no rebuild takes a live record out of the ring too early;
* `live_updates_kept`: if so, live records stay in memory and on disk.
-/

namespace TCV.Storage

open TCV.Domain Lib.Run Lib.TimeMap

/-! ## The invariant -/

/-- The last live record that was accepted for a minute. -/
def System.lastAccepted [TimeUtils] (s : System) (minute : Int) : Option MinuteRecord :=
  s.accepted.find? fun r => r.openTime = minute

/-- The call is about to save the record of the minute. -/
def Live.closes [TimeUtils] : Live → Int → Bool
  | .saving c _, minute => c.openTime = minute
  | _, _ => false

/-- The live stream is past the minute and has no more record of it to save. -/
def System.Settled [TimeUtils] (s : System) (minute : Int) : Prop :=
  (∃ front ∈ s.engine.cache.head?, minute < front.openTime) ∧ s.live.closes minute = false

instance [TimeUtils] (s : System) (minute : Int) : Decidable (s.Settled minute) :=
  inferInstanceAs (Decidable ((∃ front ∈ s.engine.cache.head?, _) ∧ _))

structure System.Keeps [TimeUtils] (s : System) : Prop where
  writable : s.engine.file.opens = []
  sorted : s.accepted.Pairwise fun a b => b.openTime ≤ a.openTime
  pending : ∀ r, s.live.pending = some r → s.accepted.head? = some r
  closing : ∀ c r, s.live = .saving c r → ∀ a, s.lastAccepted c.openTime = some a → a = c
  stored : ∀ minute a, s.lastAccepted minute = some a →
    (∀ r, s.live.pending = some r → r.openTime ≠ minute) →
    s.engine.historicalData[minute]? = some a
  front : ∀ a, s.accepted.head? = some a → ∃ front, s.engine.cache.head? = some front ∧
    a.openTime ≤ front.openTime ∧ (front.openTime = a.openTime → front = a)
  filed : ∀ minute a, s.lastAccepted minute = some a → s.Settled minute →
    lastOfMinute s.engine.file.records minute = some a.toPriceData

/-- Where a page is saved, its record of a settled minute is the live one, or is
dropped. Where it is stored, its record is the live one of that minute, unless
the live one is still to be stored. At a rebuild no live call is on its way, and
if there is a record of a later minute in the store, the newest live record is
on file. -/
def System.HarmlessWork [TimeUtils] (s : System) : Worker → Prop
  | .saving page => ∀ q ∈ page.records, ∀ a ∈ s.lastAccepted q.openTime,
      s.Settled q.openTime → ¬ s.engine.file.Drops q.openTime → q = a
  | .ingesting page => ∀ q ∈ page.records, ∀ a ∈ s.lastAccepted q.openTime,
      (∀ r ∈ s.live.pending, r.openTime ≠ q.openTime) → q = a
  | .rebuilding _ | .finishing => s.live = .idle ∧ ∀ a ∈ s.accepted.head?,
      (∀ key ∈ s.engine.historicalData.keys, key ≤ a.openTime) ∨
        lastOfMinute s.engine.file.records a.openTime = some a.toPriceData
  | .fetching | .moving _ | .done => True

def System.Harmless [TimeUtils] (s : System) : Event → Prop
  | .work => s.HarmlessWork s.worker
  | .fetch _ | .update _ | .live => True

instance [TimeUtils] (s : System) : (w : Worker) → Decidable (s.HarmlessWork w)
  | .saving page => inferInstanceAs (Decidable (∀ q ∈ page.records, _))
  | .ingesting page => inferInstanceAs (Decidable (∀ q ∈ page.records, _))
  | .rebuilding _ | .finishing => inferInstanceAs (Decidable (_ ∧ ∀ a ∈ s.accepted.head?, _ ∨ _))
  | .fetching | .moving _ | .done => .isTrue trivial

instance [TimeUtils] (s : System) : (e : Event) → Decidable (s.Harmless e)
  | .work => inferInstanceAs (Decidable (s.HarmlessWork s.worker))
  | .fetch _ | .update _ | .live => .isTrue trivial

section Invariant

variable [TimeUtils] {fetcher : Int → Int → List PriceData} {s t : System} {e : Event}
  {minute : Int}
  {a r : MinuteRecord}

theorem lastAccepted_openTime (h : s.lastAccepted minute = some a) :
    a ∈ s.accepted ∧ a.openTime = minute :=
  ⟨List.mem_of_find?_eq_some h, by simpa using List.find?_some h⟩

theorem lastAccepted_of_head? (h : s.accepted.head? = some a) :
    s.lastAccepted a.openTime = some a := by
  obtain ⟨rest, hrest⟩ := List.head?_eq_some_iff.mp h
  rw [System.lastAccepted, hrest]
  exact List.find?_cons_of_pos (decide_eq_true rfl)

theorem exists_newest (h : a ∈ s.accepted) : ∃ r, s.accepted.head? = some r :=
  ⟨_, List.head?_eq_some_head (List.ne_nil_of_mem h)⟩

theorem System.Keeps.le_head (h : s.Keeps) (hr : s.accepted.head? = some r) (ha : a ∈ s.accepted) :
    a.openTime ≤ r.openTime := by
  obtain ⟨rest, hrest⟩ := List.head?_eq_some_iff.mp hr
  have hsorted := h.sorted
  rw [hrest] at ha hsorted
  rcases List.mem_cons.mp ha with rfl | ha
  · exact le_rfl
  · exact (List.pairwise_cons.mp hsorted).1 a ha

/-- The front of the ring is no earlier than any accepted record. -/
theorem System.Keeps.exists_front (h : s.Keeps) (ha : a ∈ s.accepted) :
    ∃ front, s.engine.cache.head? = some front ∧ a.openTime ≤ front.openTime := by
  obtain ⟨r, hr⟩ := exists_newest ha
  obtain ⟨front, hfront, hle, -⟩ := h.front r hr
  exact ⟨front, hfront, (h.le_head hr ha).trans hle⟩

/-- The accepted record of the minute of the front is the front. -/
theorem System.Keeps.eq_front (h : s.Keeps) {front : MinuteRecord}
    (hfront : s.engine.cache.head? = some front) (ha : s.lastAccepted front.openTime = some a) :
    a = front := by
  obtain ⟨hmem, ht⟩ := lastAccepted_openTime ha
  obtain ⟨newest, hnewest⟩ := exists_newest hmem
  obtain ⟨front', hfront', hle, hsame⟩ := h.front newest hnewest
  rw [hfront] at hfront'
  obtain rfl := Option.some.inj hfront'
  have hminute : front.openTime = newest.openTime := by
    have := h.le_head hnewest hmem
    omega
  have hn := lastAccepted_of_head? hnewest
  rw [← hminute, ha] at hn
  rw [hsame hminute, Option.some.inj hn]

theorem System.Keeps.save (h : s.Keeps) {page : FetchedPage}
    (hk : s.HarmlessWork (.saving page)) (w : Worker) :
    System.Keeps { s with engine := s.engine.saveRecords page.records, worker := w } := by
  refine ⟨saveRecords_opens h.writable _, h.sorted, h.pending, h.closing, h.stored, h.front, ?_⟩
  intro minute a ha hsettled
  show lastOfMinute (saveRecords s.engine.file _).records minute = _
  rcases lastOfMinute_saveRecords h.writable page.ascending minute with he |
      ⟨q, hq, ht, hdrops, he⟩
  · rw [he]
    exact h.filed minute a ha hsettled
  · subst ht
    rw [he, hk q hq a ha hsettled hdrops]

theorem System.Keeps.ingest (h : s.Keeps) {page : FetchedPage}
    (hk : s.HarmlessWork (.ingesting page)) (w : Worker) :
    System.Keeps { s with engine := ingest s.engine page.records, worker := w } := by
  refine ⟨h.writable, h.sorted, h.pending, h.closing, ?_, h.front, h.filed⟩
  intro minute a ha hp
  show (Storage.ingest s.engine page.records).historicalData[minute]? = _
  rw [ingest_historicalData]
  by_cases hq : ∃ q ∈ page.records, q.openTime = minute
  · obtain ⟨q, hq, rfl⟩ := hq
    rw [getElem?_insertAll_of_mem page.ascending hq, hk q hq a ha hp]
  · rw [getElem?_insertAll_of_ne fun q hm ht => hq ⟨q, hm, ht⟩]
    exact h.stored minute a ha hp

theorem System.Keeps.rebuild (h : s.Keeps) (hk : s.HarmlessWork .finishing) (w : Worker) :
    System.Keeps { s with engine := rebuildCacheFromHistorical s.engine, worker := w } := by
  obtain ⟨hidle, hfile⟩ := hk
  have hstored : ∀ minute a, s.lastAccepted minute = some a →
      s.engine.historicalData[minute]? = some a := by
    intro minute a ha
    apply h.stored minute a ha
    intro r hr
    rw [hidle] at hr
    cases hr
  -- The newest record is at the front, and no earlier than the newest live one.
  have hfront : ∀ r, s.accepted.head? = some r →
      ∃ front, (rebuildCacheFromHistorical s.engine).cache.head? = some front ∧
        s.engine.historicalData[front.openTime]? = some front ∧ r.openTime ≤ front.openTime := by
    intro r hr
    have hr := hstored _ r (lastAccepted_of_head? hr)
    rcases rebuildCacheFromHistorical_cases s.engine with ⟨hnone, -, -⟩ |
        ⟨front, hcache, -, hfront, hmax⟩
    · rw [hnone] at hr
      cases hr
    · exact ⟨front, hcache, hfront, hmax _ r hr⟩
  refine ⟨?_, h.sorted, h.pending, h.closing, ?_, ?_, ?_⟩
  · show (rebuildCacheFromHistorical s.engine).file.opens = []
    rw [rebuildCacheFromHistorical_file]
    exact h.writable
  · intro minute a ha _
    show (rebuildCacheFromHistorical s.engine).historicalData[minute]? = _
    rw [rebuildCacheFromHistorical_historicalData]
    exact hstored minute a ha
  · intro r hr
    obtain ⟨front, hcache, hf, hle⟩ := hfront r hr
    refine ⟨front, hcache, hle, fun he => ?_⟩
    rw [he, hstored _ r (lastAccepted_of_head? hr)] at hf
    exact (Option.some.inj hf).symm
  · rintro minute a ha ⟨⟨front, hcache, hlt⟩, -⟩
    show lastOfMinute (rebuildCacheFromHistorical s.engine).file.records minute = _
    rw [rebuildCacheFromHistorical_file]
    obtain ⟨hmem, rfl⟩ := lastAccepted_openTime ha
    obtain ⟨r, hr⟩ := exists_newest hmem
    rcases lt_or_eq_of_le (h.le_head hr hmem) with hbefore | hsame
    · obtain ⟨old, hold, hle, -⟩ := h.front r hr
      refine h.filed _ a ha ⟨⟨old, hold, by omega⟩, ?_⟩
      rw [hidle]
      rfl
    · -- The newest live record, with a later one in the store.
      have hra : some r = some a := by
        rw [← lastAccepted_of_head? hr, ← hsame]
        exact ha
      cases hra
      apply (hfile a hr).resolve_left
      intro hall
      obtain ⟨front', hcache', hf, -⟩ := hfront a hr
      have hcache : (rebuildCacheFromHistorical s.engine).cache.head? = some front := hcache
      rw [hcache'] at hcache
      cases hcache
      have := hall front.openTime (Std.ExtTreeMap.mem_keys.mpr
        (Std.ExtTreeMap.mem_iff_isSome_getElem?.mpr (by rw [hf]; rfl)))
      omega

theorem System.Keeps.accept (h : s.Keeps) (hl : s.live = .idle) {engine : DatabaseEngine}
    {closed : Option MinuteRecord} (hc : updateCache s.engine r = some (engine, closed)) :
    System.Keeps { s with
      engine := engine
      live := closed.elim (.ingesting r) fun c => .saving c r
      accepted := r :: s.accepted } := by
  obtain ⟨hdata, hfile, hhead, hcases⟩ := updateCache_cases hc
  have hlast : ∀ minute, r.openTime ≠ minute → ∀ a,
      System.lastAccepted { s with
        engine := engine
        live := closed.elim (.ingesting r) fun c => .saving c r
        accepted := r :: s.accepted } minute = some a → s.lastAccepted minute = some a := by
    intro minute hne a ha
    have hfind : (r :: s.accepted).find? (fun r => decide (r.openTime = minute)) = some a := ha
    rwa [List.find?_cons_of_neg (by simpa using hne)] at hfind
  have hpending : (closed.elim (Live.ingesting r) fun c => Live.saving c r).pending = some r := by
    cases closed <;> rfl
  -- The accepted record is no earlier than the front, so than any before it.
  have hle : ∀ front, s.engine.cache.head? = some front → front.openTime ≤ r.openTime := by
    intro front hfront
    rcases hcases with ⟨-, hlt, -⟩ | ⟨front', hfront', heq, -, -⟩
    · exact le_of_lt (hlt front hfront)
    · rw [hfront'] at hfront
      cases hfront
      exact le_of_eq heq
  refine ⟨hfile ▸ h.writable, ?_, ?_, ?_, ?_, ?_, ?_⟩
  · refine List.pairwise_cons.mpr ⟨fun a ha => ?_, h.sorted⟩
    obtain ⟨front, hfront, hfa⟩ := h.exists_front ha
    exact hfa.trans (hle front hfront)
  · intro r' hr'
    rw [hpending] at hr'
    exact hr'
  · intro c r' hc' a ha
    cases closed with
    | none => cases hc'
    | some c' =>
      cases hc'
      rcases hcases with ⟨hfront, hlt, -⟩ | ⟨-, -, -, hnone, -⟩
      · exact h.eq_front hfront.symm (hlast _ (hlt c hfront.symm).ne' a ha)
      · cases hnone
  · intro minute a ha hp
    show engine.historicalData[minute]? = some a
    rw [hdata]
    apply h.stored minute a (hlast minute (hp r hpending) a ha)
    intro r' hr'
    rw [hl] at hr'
    cases hr'
  · intro a ha
    obtain rfl : r = a := Option.some.inj ha
    exact ⟨r, hhead, le_rfl, fun _ => rfl⟩
  · rintro minute a ha ⟨⟨front, hfront, hlt⟩, hcloses⟩
    dsimp only at hfront hcloses ⊢
    rw [hhead] at hfront
    obtain rfl : r = front := Option.some.inj hfront
    rw [hfile]
    have ha := hlast minute (by omega) a ha
    obtain ⟨hmem, ht⟩ := lastAccepted_openTime ha
    obtain ⟨old, hold, hle⟩ := h.exists_front hmem
    refine h.filed minute a ha ⟨⟨old, hold, ?_⟩, by rw [hl]; rfl⟩
    rcases hcases with ⟨hclosed, -, -⟩ | ⟨front', hfront', heq, -, -⟩
    · rw [hclosed, hold] at hcloses
      have hne : old.openTime ≠ minute := of_decide_eq_false hcloses
      omega
    · rw [hfront'] at hold
      cases hold
      omega

theorem System.Keeps.close (h : s.Keeps) {c : MinuteRecord} (hl : s.live = .saving c r) :
    System.Keeps { s with engine := s.engine.saveRecord c, live := .ingesting r } := by
  have hp : ∀ r', (Live.ingesting r).pending = some r' → s.live.pending = some r' := by
    intro r' hr'
    rw [hl]
    exact hr'
  refine ⟨saveRecord_opens h.writable _, h.sorted, fun r' hr' => h.pending r' (hp r' hr'),
    fun c' r' hc' => (by cases hc'), fun minute a ha hr => ?_, h.front, ?_⟩
  · apply h.stored minute a ha
    intro r' hr'
    rw [hl] at hr'
    exact hr r' hr'
  · rintro minute a ha ⟨hfront, -⟩
    show lastOfMinute (saveRecord s.engine.file c.toPriceData).records minute = _
    rw [saveRecord_records h.writable, lastOfMinute_concat]
    by_cases ht : c.openTime = minute
    · subst ht
      rw [if_pos rfl, h.closing c r hl a ha]
    · rw [if_neg ht]
      refine h.filed minute a ha ⟨hfront, ?_⟩
      rw [hl]
      exact decide_eq_false ht

theorem System.Keeps.store (h : s.Keeps) (hl : s.live = .ingesting r) :
    System.Keeps { s with engine := Storage.ingest s.engine [r], live := .idle } := by
  have hhead : s.accepted.head? = some r := h.pending r (by rw [hl]; rfl)
  refine ⟨h.writable, h.sorted, fun r' hr' => (by cases hr'), fun c' r' hc' => (by cases hc'),
    fun minute a ha _ => ?_, h.front, ?_⟩
  · show (Storage.ingest s.engine [r]).historicalData[minute]? = _
    rw [getElem?_ingest_singleton]
    by_cases ht : r.openTime = minute
    · subst ht
      rw [if_pos rfl, ← lastAccepted_of_head? hhead]
      exact ha
    · rw [if_neg ht]
      apply h.stored minute a ha
      intro r' hr'
      rw [hl] at hr'
      cases hr'
      exact ht
  · rintro minute a ha ⟨hfront, -⟩
    refine h.filed minute a ha ⟨hfront, ?_⟩
    rw [hl]
    rfl

theorem System.Keeps.step (h : s.Keeps) (hm : s.Moves fetcher e t) (hk : s.Harmless e) :
    t.Keeps := by
  cases hm with
  | fetch now hw =>
    exact ⟨h.writable, h.sorted, h.pending, h.closing, h.stored, h.front, h.filed⟩
  | save page hw =>
    rw [System.Harmless, hw] at hk
    exact h.save hk _
  | move page hw =>
    exact ⟨h.writable, h.sorted, h.pending, h.closing, h.stored, h.front, h.filed⟩
  | ingest page hw =>
    rw [System.Harmless, hw] at hk
    exact h.ingest hk _
  | rebuild page hw =>
    rw [System.Harmless, hw] at hk
    exact h.rebuild hk _
  | finish hw =>
    rw [System.Harmless, hw] at hk
    exact h.rebuild hk _
  | stale data hl => exact h
  | accept data r engine closed hl hr hc => exact h.accept hl hc
  | close c r hl => exact h.close hl
  | store r hl => exact h.store hl

theorem keeps_start {e₀ : DatabaseEngine} (h : e₀.file.opens = []) : (System.start e₀).Keeps where
  writable := h
  sorted := List.Pairwise.nil
  pending _ hr := by cases hr
  closing _ _ hc := by cases hc
  stored _ _ ha := by cases ha
  front _ ha := by cases ha
  filed _ _ ha := by cases ha

end Invariant

/-! ## Live updates stay -/

/-- The last live record of a minute that the live stream has moved past is the
one in memory, and the last one on file from where its call has saved it. -/
theorem live_updates_kept [TimeUtils] (fetcher : Int → Int → List PriceData) (e₀ : DatabaseEngine)
    (hopens : e₀.file.opens = []) (events : List Event)
    (hharmless : Along (System.step fetcher) System.Harmless (.start e₀) events) (s : System)
    (hrun : run (System.step fetcher) (.start e₀) events = some s) :
    ∀ (minute : Int) (r : MinuteRecord), s.lastAccepted minute = some r →
      (∃ later ∈ s.accepted, minute < later.openTime) →
      s.engine.historicalData[minute]? = some r ∧
        (s.live.closes minute = false →
          lastOfMinute s.engine.file.records minute = some r.toPriceData) := by
  have hstep : ∀ s e t, System.Keeps s → System.Harmless s e → System.step fetcher s e = some t →
      System.Keeps t := fun s e t h hk ht => h.step (System.moves ht) hk
  have h := inv_of_along hstep (keeps_start hopens) hharmless hrun
  rintro minute r hr ⟨later, hlater, hlt⟩
  obtain ⟨front, hfront, hle⟩ := h.exists_front hlater
  refine ⟨h.stored minute r hr fun p hp ht => ?_, fun hcloses =>
    h.filed minute r hr ⟨⟨front, hfront, by omega⟩, hcloses⟩⟩
  have := h.le_head (h.pending p hp) hlater
  omega

/-- A page with the first minute as it stood before the live record of it came. -/
def stalePage (_now _startTime : Int) : List PriceData := [flatRecord 60000 1]

def stalePageEvents : List Event :=
  [.fetch 60000, .update (flatRecord 60000 2), .live, .work, .work, .work, .work, .work,
    .update (flatRecord 120000 2), .live, .live]

/-- The page takes the place of the live record, in memory and on file. -/
theorem live_update_lost :
    ∃ s, run (System.step stalePage) (.start (.opened {} 0)) stalePageEvents = some s ∧
      s.live = .idle ∧ ∃ r ∈ s.lastAccepted 60000,
        (∃ later ∈ s.accepted, 60000 < later.openTime) ∧
        s.engine.historicalData[(60000 : Int)]? ≠ some r ∧
        lastOfMinute s.engine.file.records 60000 ≠ some r.toPriceData := by
  have hrun : (run (System.step stalePage) (.start (.opened {} 0)) stalePageEvents).map (fun s =>
      decide (s.live = .idle ∧ ∃ r ∈ s.lastAccepted 60000,
        (∃ later ∈ s.accepted, 60000 < later.openTime) ∧
        s.engine.historicalData[(60000 : Int)]? ≠ some r ∧
        lastOfMinute s.engine.file.records 60000 ≠ some r.toPriceData)) = some true := by
    decide +kernel
  obtain ⟨s, hs, hlost⟩ := Option.map_eq_some_iff.mp hrun
  exact ⟨s, hs, of_decide_eq_true hlost⟩

/-- The live stream ends the first minute while its page is on the way. -/
def endedMinuteEvents : List Event :=
  [.fetch 60000, .update (flatRecord 60000 2), .live, .update (flatRecord 60000 1), .live, .work,
    .work, .work, .work, .update (flatRecord 120000 2), .live, .live, .work]

theorem live_updates_kept_ended :
    ∃ s, run (System.step stalePage) (.start (.opened {} 0)) endedMinuteEvents = some s ∧
      ∀ (minute : Int) (r : MinuteRecord), s.lastAccepted minute = some r →
        (∃ later ∈ s.accepted, minute < later.openTime) →
        s.engine.historicalData[minute]? = some r ∧
          (s.live.closes minute = false →
            lastOfMinute s.engine.file.records minute = some r.toPriceData) := by
  have hrun : (run (System.step stalePage) (.start (.opened {} 0)) endedMinuteEvents).map
      (fun s => s.accepted.map fun r => r.openTime) = some [120000, 60000, 60000] := by decide +kernel
  have hharmless : Along (System.step stalePage) System.Harmless (.start (.opened {} 0))
      endedMinuteEvents := by decide +kernel
  obtain ⟨s, hs, -⟩ := Option.map_eq_some_iff.mp hrun
  exact ⟨s, hs, live_updates_kept stalePage _ (by decide +kernel) endedMinuteEvents hharmless s hs⟩

end TCV.Storage
