import TradingChartViewer.Storage.PriceLimits
import TradingChartViewer.Storage.Ring

/-!
# The limits of the ring

The price limits of `DatabaseEngine` against the records in its ring. A rebuild takes them from
the records; `updateWithNewData` only widens them, and does not look at a record that leaves.

* `max?_append_eq_left_iff`: when the greatest of some elements is that of all;
* `DatabaseEngine.LimitsAgree`: the limits are those of the ring;
* `DatabaseEngine.KeepsExtremes`: no record that leaves the ring is above or below all that stay;
* `cacheLimits_iff`: exactly then the limits agree after every operation of a run.
-/

namespace TCV.Storage

open TCV.Domain Lib.TimeMap Lib.Run

/-! ## The greatest of a list -/

section Extremes

variable {α : Type*} [LinearOrder α]

/-- Elements that are left out do not count where one that stays is as great. -/
theorem max?_append_eq_left_iff {kept dropped : List α} (h : kept ≠ []) :
    (kept ++ dropped).max? = kept.max? ↔ ∀ d ∈ dropped, ∃ k ∈ kept, d ≤ k := by
  obtain ⟨m, hm⟩ := Option.ne_none_iff_exists'.mp (mt List.max?_eq_none_iff.mp h)
  obtain ⟨hmem, hle⟩ := List.max?_eq_some_iff.mp hm
  rw [hm, List.max?_eq_some_iff]
  constructor
  · rintro ⟨-, hall⟩ d hd
    exact ⟨m, hmem, hall d (List.mem_append_right _ hd)⟩
  · intro hdropped
    refine ⟨List.mem_append_left _ hmem, fun x hx => ?_⟩
    rcases List.mem_append.mp hx with hx | hx
    · exact hle x hx
    · obtain ⟨k, hk, hxk⟩ := hdropped x hx
      exact hxk.trans (hle k hk)

theorem max?_perm {l l' : List α} (h : l.Perm l') : l.max? = l'.max? := by
  cases hm : l.max? with
  | none =>
    rw [List.max?_eq_none_iff.mp hm] at h
    rw [h.symm.eq_nil]
    rfl
  | some m =>
    obtain ⟨hmem, hle⟩ := List.max?_eq_some_iff.mp hm
    exact (List.max?_eq_some_iff.mpr ⟨h.mem_iff.mp hmem, fun x hx => hle x (h.mem_iff.mpr hx)⟩).symm

end Extremes

/-! ## Limits of records -/

section

variable [TimeUtils]

/-- The price of a record that counts for a limit. -/
def Limit.price : Limit → MinuteRecord → Price
  | .max, record => record.highPrice
  | .min, record => record.lowPrice

/-- The greatest or the least of prices. -/
def Limit.best : Limit → List Price → Option Price
  | .max, prices => prices.max?
  | .min, prices => prices.min?

/-- `b` is at least as far out as `a`. -/
def Limit.Covers : Limit → Price → Price → Prop
  | .max, a, b => a ≤ b
  | .min, a, b => b ≤ a

instance : (k : Limit) → (a b : Price) → Decidable (k.Covers a b)
  | .max, a, b => inferInstanceAs (Decidable (a ≤ b))
  | .min, a, b => inferInstanceAs (Decidable (b ≤ a))

omit [TimeUtils] in
theorem best_append_eq_left_iff (k : Limit) {kept dropped : List Price} (h : kept ≠ []) :
    k.best (kept ++ dropped) = k.best kept ↔ ∀ d ∈ dropped, ∃ x ∈ kept, k.Covers d x := by
  cases k with
  | max => exact max?_append_eq_left_iff h
  | min => exact max?_append_eq_left_iff (α := Priceᵒᵈ) h

omit [TimeUtils] in
theorem best_perm (k : Limit) {l l' : List Price} (h : l.Perm l') : k.best l = k.best l' := by
  cases k with
  | max => exact max?_perm h
  | min => exact max?_perm (α := Priceᵒᵈ) h

variable {e : DatabaseEngine}

theorem limit_updatePrices_eq (k : Limit) (r : MinuteRecord) {prices : List Price}
    (h : e.limit k = k.best prices) : (updatePrices e r).limit k = k.best (k.price r :: prices) := by
  cases k with
  | max =>
    show (max e.currentMaxPrice (r.highPrice : WithBot Price) : WithBot Price) = _
    rw [show e.currentMaxPrice = prices.max? from h]
    show _ = (r.highPrice :: prices).max?
    rw [List.max?_cons]
    cases prices.max? with
    | none => rfl
    | some m =>
      exact (max_comm (m : WithBot Price) r.highPrice).trans (WithBot.coe_max r.highPrice m).symm
  | min =>
    show (min e.currentMinPrice (r.lowPrice : WithTop Price) : WithTop Price) = _
    rw [show e.currentMinPrice = prices.min? from h]
    show _ = (r.lowPrice :: prices).min?
    rw [List.min?_cons]
    cases prices.min? with
    | none => rfl
    | some m =>
      exact (min_comm (m : WithTop Price) r.lowPrice).trans (WithTop.coe_min r.lowPrice m).symm

/-- What a rebuild takes the limits from. -/
theorem limit_rebuild (k : Limit) (h : latestRecords e ≠ []) :
    (rebuildCacheFromHistorical e).limit k = k.best ((latestRecords e).map k.price) := by
  have hmax : ∀ (l : List MinuteRecord) (p : Price),
      l.foldl (fun m r => max m (r.highPrice : WithBot Price)) p =
        ((l.map fun r => r.highPrice).foldl max p : Price) := by
    intro l
    induction l with
    | nil => exact fun _ => rfl
    | cons r l ih => exact fun p => ih (max p r.highPrice)
  have hmin : ∀ (l : List MinuteRecord) (p : Price),
      l.foldl (fun m r => min m (r.lowPrice : WithTop Price)) p =
        ((l.map fun r => r.lowPrice).foldl min p : Price) := by
    intro l
    induction l with
    | nil => exact fun _ => rfl
    | cons r l ih => exact fun p => ih (min p r.lowPrice)
  rw [← applyLatest_latestRecords]
  generalize latestRecords e = latest at h
  cases latest with
  | nil => exact absurd rfl h
  | cons front rest =>
    cases k with
    | max =>
      show (List.foldl _ _ (front :: rest) : WithBot Price) = _
      rw [List.foldl_cons, bot_sup_eq, hmax]
      rfl
    | min =>
      show (List.foldl _ _ (front :: rest) : WithTop Price) = _
      rw [List.foldl_cons, top_inf_eq, hmin]
      rfl

/-! ## The invariant -/

/-- The limits are those of the records in the ring, and those that a rebuild would find. -/
def DatabaseEngine.LimitsAgree (e : DatabaseEngine) : Prop :=
  e.cache ≠ [] → ∀ k : Limit, e.limit k = k.best (e.cache.map k.price) ∧
    e.limit k = (rebuildCacheFromHistorical e).limit k

/-- The ring after a record was put at its front or took the place of the front, and the records
that leave it. -/
def DatabaseEngine.moved (e : DatabaseEngine) (normalized : MinuteRecord) :
    List MinuteRecord × List MinuteRecord :=
  match e.cache with
  | [] => ([normalized], [])
  | front :: rest =>
    if front.openTime < normalized.openTime then
      ((normalized :: front :: rest).take cacheSize, (normalized :: front :: rest).drop cacheSize)
    else if normalized.openTime = front.openTime then (normalized :: rest, [front])
    else (front :: rest, [])

/-- A record that leaves the ring is not above all that are in it afterwards, nor below all. -/
def DatabaseEngine.KeepsExtremes (e : DatabaseEngine) : EngineCall → Prop
  | .updateWithNewData data => ∀ normalized ∈ normalizedRecord? data,
      ∀ d ∈ (e.moved normalized).2, ∀ k : Limit, ∃ r ∈ (e.moved normalized).1,
        k.Covers (k.price d) (k.price r)
  | .construct _ | .actualize _ => True

instance (P : Limit → Prop) [DecidablePred P] : Decidable (∀ k, P k) :=
  decidable_of_iff (P .max ∧ P .min) ⟨fun h k => by cases k; exacts [h.1, h.2], fun h => ⟨h _, h _⟩⟩

instance (e : DatabaseEngine) : (c : EngineCall) → Decidable (e.KeepsExtremes c)
  | .updateWithNewData data => inferInstanceAs (Decidable (∀ normalized ∈ normalizedRecord? data, _))
  | .construct _ | .actualize _ => .isTrue trivial

theorem DatabaseEngine.Ring.limitsAgree_iff (h : e.Ring) :
    e.LimitsAgree ↔ (e.cache ≠ [] → ∀ k : Limit, e.limit k = k.best (e.cache.map k.price)) := by
  refine ⟨fun ha hne k => (ha hne k).1, fun ha hne k => ⟨ha hne k, ?_⟩⟩
  have hlatest : latestRecords e = e.cache := h.cache.symm
  rw [ha hne k, limit_rebuild k (hlatest ▸ hne), hlatest]

/-- A rebuild finds the limits of the ring it fills. -/
theorem limitsAgree_rebuild (h : e.Bounds) : (rebuildCacheFromHistorical e).LimitsAgree := by
  have hring := h.rebuild
  rw [hring.limitsAgree_iff]
  intro hne k
  have hlatest : latestRecords e = (rebuildCacheFromHistorical e).cache := by
    rw [hring.cache, rebuildCacheFromHistorical_historicalData]
    rfl
  rw [limit_rebuild k (hlatest ▸ hne), hlatest]

/-- A record that is taken in widens the limits, and some records leave. -/
theorem moved_updateCache {e' : DatabaseEngine} {r : MinuteRecord} {closed : Option MinuteRecord}
    (hc : updateCache e r = some (e', closed))
    (ha : e.cache ≠ [] → ∀ k : Limit, e.limit k = k.best (e.cache.map k.price)) (k : Limit) :
    e'.cache = (e.moved r).1 ∧ (e.moved r).1 ≠ [] ∧
      e'.limit k = k.best (((e.moved r).1 ++ (e.moved r).2).map k.price) := by
  unfold DatabaseEngine.moved
  unfold updateCache at hc
  cases hcache : e.cache with
  | nil =>
    rw [hcache] at hc
    cases hc
    refine ⟨rfl, List.cons_ne_nil r [], ?_⟩
    cases k <;> rfl
  | cons front rest =>
    rw [hcache] at hc ha
    have hlimit := limit_updatePrices_eq (e := e) k r (ha (List.cons_ne_nil front rest) k)
    dsimp only at hc ⊢
    by_cases hlt : front.openTime < r.openTime
    · rw [if_pos hlt] at hc ⊢
      cases hc
      refine ⟨rfl, List.cons_ne_nil _ _, ?_⟩
      rw [List.take_append_drop]
      exact hlimit
    · rw [if_neg hlt] at hc ⊢
      by_cases heq : r.openTime = front.openTime
      · rw [if_pos heq] at hc ⊢
        cases hc
        have hperm : (r :: front :: rest).Perm ((r :: rest) ++ [front]) :=
          (List.perm_append_singleton front rest).symm.cons r
        exact ⟨rfl, List.cons_ne_nil _ _, hlimit.trans (best_perm k (hperm.map k.price))⟩
      · rw [if_neg heq] at hc
        cases hc

/-- From a ring that does not take a record in nothing leaves. -/
theorem moved_of_stale {r : MinuteRecord} (hc : updateCache e r = none) : (e.moved r).2 = [] := by
  unfold updateCache at hc
  unfold DatabaseEngine.moved
  cases hcache : e.cache with
  | nil => rfl
  | cons front rest =>
    rw [hcache] at hc
    dsimp only at hc ⊢
    split_ifs at hc ⊢
    rfl

/-- The limits of an engine whose ring took a record in are right exactly if none that left it is
above or below all that are in it. -/
theorem limitsAgree_iff_of_moved {e₁ e' : DatabaseEngine} {r : MinuteRecord}
    {closed : Option MinuteRecord} (hc : updateCache e r = some (e', closed))
    (ha : e.cache ≠ [] → ∀ k : Limit, e.limit k = k.best (e.cache.map k.price)) (h₁ : e₁.Ring)
    (hcache₁ : e₁.cache = e'.cache) (hlimit₁ : e₁.limit = e'.limit) :
    e₁.LimitsAgree ↔ ∀ d ∈ (e.moved r).2, ∀ k : Limit, ∃ q ∈ (e.moved r).1,
      k.Covers (k.price d) (k.price q) := by
  have hmoved := moved_updateCache hc ha
  obtain ⟨hcache, hne, -⟩ := hmoved .max
  have hiff : ∀ k : Limit, e₁.limit k = k.best (e₁.cache.map k.price) ↔
      ∀ d ∈ (e.moved r).2, ∃ q ∈ (e.moved r).1, k.Covers (k.price d) (k.price q) := by
    intro k
    rw [hcache₁, hcache, hlimit₁, (hmoved k).2.2, List.map_append,
      best_append_eq_left_iff k (mt List.map_eq_nil_iff.mp hne)]
    simp
  rw [h₁.limitsAgree_iff, hcache₁, hcache]
  constructor
  · exact fun h' d hd k => (hiff k).mp (hcache₁ ▸ hcache ▸ h' hne k) d hd
  · exact fun h' _ k => hcache ▸ hcache₁ ▸ (hiff k).mpr fun d hd => h' d hd k

/-- One live record keeps the limits right exactly if it meets the condition. -/
theorem limitsAgree_update_iff (h : e.Ring) (ha : e.LimitsAgree) (data : PriceData) :
    (updateWithNewData e data).LimitsAgree ↔ e.KeepsExtremes (.updateWithNewData data) := by
  have hprices := h.limitsAgree_iff.mp ha
  have hring' := h.updateWithNewData data
  unfold DatabaseEngine.KeepsExtremes
  dsimp only
  unfold updateWithNewData at hring' ⊢
  cases hr : normalizedRecord? data with
  | none => simpa using ha
  | some r =>
    rw [hr] at hring'
    dsimp only at hring' ⊢
    simp only [Option.mem_some_iff, forall_eq']
    cases hc : updateCache e r with
    | none =>
      rw [moved_of_stale hc]
      exact iff_of_true ha fun _ hd => absurd hd List.not_mem_nil
    | some moved =>
      obtain ⟨e', closed⟩ := moved
      rw [hc] at hring'
      cases closed with
      | none =>
        dsimp only at hring' ⊢
        rw [ingestRecord_eq] at hring' ⊢
        exact limitsAgree_iff_of_moved hc hprices hring' rfl rfl
      | some c =>
        dsimp only at hring' ⊢
        rw [ingestRecord_eq] at hring' ⊢
        exact limitsAgree_iff_of_moved hc hprices hring' rfl rfl

theorem actualize_limitsAgree {fetcher : Int → Int → List PriceData} {nows : List Int} (h : e.Ring)
    {e' : DatabaseEngine} (he : actualize fetcher e nows = some e') : e'.LimitsAgree := by
  obtain ⟨e₁, h₁, rfl⟩ : ∃ e₁ : DatabaseEngine, e₁.Ring ∧ e' = rebuildCacheFromHistorical e₁ := by
    refine actualize_rebuilds (P := fun _ _ => True) (fun e _ page h _ _ => h.takePage page) h ?_ he
    exact along_of_forall fun _ _ => trivial
  exact limitsAgree_rebuild h₁.toBounds

theorem limitsAgree_opened (file : DataFile) (uninitialised : Int) :
    (DatabaseEngine.opened file uninitialised).LimitsAgree := by
  have h : DatabaseEngine.Bounds { file := file, keyed := keyed_empty } := ⟨rfl, rfl, rfl⟩
  have ha := limitsAgree_rebuild (h.ingestRecords (readAllRecords file))
  rw [(ring_opened file uninitialised).limitsAgree_iff]
  exact ((h.ingestRecords (readAllRecords file)).rebuild.limitsAgree_iff).mp ha

/-- Every operation keeps the limits right exactly if it meets the condition. -/
theorem limitsAgree_call_iff {fetcher : Int → Int → List PriceData} (h : e.Ring)
    (ha : e.LimitsAgree) {c : EngineCall} {e' : DatabaseEngine} (hc : e.call fetcher c = some e') :
    e'.LimitsAgree ↔ e.KeepsExtremes c := by
  cases c with
  | construct uninitialised =>
    obtain rfl := Option.some.inj hc
    exact iff_of_true (limitsAgree_opened e.file uninitialised) trivial
  | updateWithNewData data =>
    obtain rfl := Option.some.inj hc
    exact limitsAgree_update_iff h ha data
  | actualize nows => exact iff_of_true (actualize_limitsAgree h hc) trivial

/-- After every operation of a run the limits are the greatest and the least price in the ring, as
a rebuild would find them, exactly if no live record of the run has one leave the ring that is
above or below all that stay. -/
theorem cacheLimits_iff (fetcher : Int → Int → List PriceData) (file : DataFile)
    (uninitialised : Int) (calls : List EngineCall) (e : DatabaseEngine)
    (hrun : run (DatabaseEngine.call fetcher) (.opened file uninitialised) calls = some e) :
    (∀ pre, pre <+: calls → ∀ e',
      run (DatabaseEngine.call fetcher) (.opened file uninitialised) pre = some e' →
        e'.LimitsAgree) ↔
      Along (DatabaseEngine.call fetcher) DatabaseEngine.KeepsExtremes (.opened file uninitialised)
        calls :=
  always_iff_along (J := DatabaseEngine.Ring) (fun _ _ _ h hc => h.call hc)
    (fun _ _ _ h ha hc => limitsAgree_call_iff h ha hc) (ring_opened file uninitialised)
    (limitsAgree_opened file uninitialised) hrun

end

/-! ## A high minute that leaves the ring -/

/-- The minutes from the first one on, each at its price. -/
def liveMinutes (prices : List Price) : List EngineCall :=
  prices.mapIdx fun i price => .updateWithNewData (flatRecord ((i + 1) * kMillisPerMinute) price)

/-- After 21 minutes, the first one higher than the rest, the maximum is still that of the first. -/
theorem cacheLimits_evicted :
    ∃ e, run (DatabaseEngine.call fun _ _ => []) (.opened {} 0)
        (liveMinutes (9 :: List.replicate 20 1)) = some e ∧
      e.limit .max = some 9 ∧ (e.cache.map fun r => r.highPrice) = List.replicate 20 1 ∧
      ¬ e.LimitsAgree := by
  have hrun : (run (DatabaseEngine.call fun _ _ => []) (.opened {} 0)
      (liveMinutes (9 :: List.replicate 20 1))).map (fun e => decide (e.limit .max = some 9 ∧
        (e.cache.map fun r => r.highPrice) = List.replicate 20 1)) = some true := by decide +kernel
  obtain ⟨e, he, h⟩ := Option.map_eq_some_iff.mp hrun
  obtain ⟨hmax, hcache⟩ := of_decide_eq_true h
  refine ⟨e, he, hmax, hcache, fun ha => ?_⟩
  have hne : e.cache ≠ [] := fun hnil => by rw [hnil] at hcache; cases hcache
  have := (ha hne .max).1
  rw [hmax, show e.cache.map (Limit.price .max) = _ from hcache] at this
  revert this
  decide +kernel

/-- The second minute is replaced by one at a higher price, and the first keeps the minimum. -/
def replacedMinute : List EngineCall :=
  liveMinutes [1, 2] ++ [.updateWithNewData (flatRecord 120000 3)]

theorem cacheLimits_replaced :
    ∃ e, run (DatabaseEngine.call fun _ _ => []) (.opened {} 0) replacedMinute = some e ∧
      (e.cache.map fun r => r.highPrice) = [3, 1] ∧ e.LimitsAgree := by
  have hrun : (run (DatabaseEngine.call fun _ _ => []) (.opened {} 0) replacedMinute).map
      (fun e => e.cache.map fun r => r.highPrice) = some [3, 1] := by decide +kernel
  have hkeeps : Along (DatabaseEngine.call fun _ _ => []) DatabaseEngine.KeepsExtremes
      (.opened {} 0) replacedMinute := by decide +kernel
  obtain ⟨e, he, hprices⟩ := Option.map_eq_some_iff.mp hrun
  exact ⟨e, he, hprices, (cacheLimits_iff _ {} 0 _ e he).mpr hkeeps _ List.prefix_rfl e he⟩

end TCV.Storage
