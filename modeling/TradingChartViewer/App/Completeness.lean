import TradingChartViewer.App.Paging

/-!
# What backfill fetches

The paging loop over a market source that lists every candle from some time on.

* `seedStart`, `seedEnd`: the window of a backfill from nothing;
* `backfillRequest_seed`, `backfillRequest_open`: the requests inside that
  window and after a last candle;
* `GapFree.cut`, `GapFree.next`: such a market cut at a request;
* `fetchesSeed_iff`, `fetchesNext_iff`: when the loop brings all it should,
  from an empty repository and from one with closed candles;
* `backfill_complete_iff`: both.
-/

namespace TCV.App

open TCV.Domain TCV.Storage Lib.Page Lib.Grid Lib.Loop Lib.Tape

/-! ## Requests -/

/-- The last open time a backfill from nothing asks for. -/
def seedEnd (cfg : SyncConfig) (nowMs : Int) : Int := alignDown nowMs (clampIntervalMs cfg)

/-- The first open time a backfill from nothing asks for. -/
def seedStart (cfg : SyncConfig) (nowMs : Int) : Int :=
  max 0 (seedEnd cfg nowMs - clampIntervalMs cfg * (max (seedBarsFor cfg.interval) 1 : Nat))

section Requests

variable {cfg : SyncConfig} {w : BackfillWindow} {n : Int}

theorem seedEnd_spec (cfg : SyncConfig) {nowMs : Int} (h : 0 ≤ nowMs) :
    0 ≤ seedEnd cfg nowMs ∧ clampIntervalMs cfg ∣ seedEnd cfg nowMs := by
  have hI := clampIntervalMs_pos cfg
  rw [seedEnd, alignDown, if_pos hI, Int.tdiv_eq_ediv_of_nonneg h]
  exact ⟨Int.mul_nonneg (Int.ediv_nonneg h hI.le) hI.le, Int.dvd_mul_left _ _⟩

theorem seedStart_spec (cfg : SyncConfig) {nowMs : Int} (h : 0 ≤ nowMs) :
    0 ≤ seedStart cfg nowMs ∧ seedStart cfg nowMs ≤ seedEnd cfg nowMs ∧
      clampIntervalMs cfg ∣ seedStart cfg nowMs := by
  obtain ⟨h0, hd⟩ := seedEnd_spec cfg h
  have hspan : 0 ≤ clampIntervalMs cfg * (max (seedBarsFor cfg.interval) 1 : Nat) :=
    Int.mul_nonneg (clampIntervalMs_pos cfg).le (Int.natCast_nonneg _)
  unfold seedStart
  refine ⟨le_max_left _ _, max_le h0 (by omega), ?_⟩
  rcases max_choice 0 (seedEnd cfg nowMs -
    clampIntervalMs cfg * (max (seedBarsFor cfg.interval) 1 : Nat)) with e | e <;> rw [e]
  · exact Int.dvd_zero _
  · exact Int.dvd_sub hd (Int.dvd_mul_right _ _)

/-- The window of a repository without a closed candle. -/
theorem backfillWindow_of_empty (cfg : SyncConfig) {repo : Repository} (h : repo.metadata.count = 0) (nowMs : Int) :
    (backfillWindow cfg repo nowMs).1.intervalMs = clampIntervalMs cfg ∧
      (backfillWindow cfg repo nowMs).1.repoEmpty = true ∧
      (backfillWindow cfg repo nowMs).1.seedEnd = seedEnd cfg nowMs ∧
      (backfillWindow cfg repo nowMs).2 = seedStart cfg nowMs := by
  simp [backfillWindow, h, seedStart, seedEnd]

/-- The window of a repository with closed candles. -/
theorem backfillWindow_of_nonempty (cfg : SyncConfig) {repo : Repository} (h : repo.metadata.count ≠ 0)
    (hpos : 0 < repo.metadata.maxOpen) (nowMs : Int) :
    (backfillWindow cfg repo nowMs).1.intervalMs = clampIntervalMs cfg ∧
      (backfillWindow cfg repo nowMs).1.repoEmpty = false ∧
      (backfillWindow cfg repo nowMs).2 = repo.metadata.maxOpen + clampIntervalMs cfg := by
  simp [backfillWindow, h, hpos]

theorem batchLimit_pos (cfg : SyncConfig) : 0 < batchLimit cfg :=
  lt_of_lt_of_le Nat.one_pos (Nat.le_max_right _ _)

theorem span_pos (cfg : SyncConfig) (hI : 0 < w.intervalMs) : 0 < w.intervalMs * batchLimit cfg :=
  Int.mul_pos hI (Int.natCast_pos.mpr (batchLimit_pos cfg))

/-- No request reaches further than one page. -/
theorem end_le_of_backfillRequest (hI : 0 < w.intervalMs) {range : TimeRange}
    (h : backfillRequest cfg w n = some range) :
    range.start = n ∧ range.end_ ≤ n + w.intervalMs * batchLimit cfg - 1 := by
  have hspan := span_pos cfg hI
  unfold backfillRequest at h
  split at h
  · cases h
  · dsimp only at h
    rw [if_neg hspan.not_ge, if_neg hspan.not_ge] at h
    split at h <;> split at h
    · cases h
    · obtain rfl := Option.some.inj h
      exact ⟨rfl, min_le_left _ _⟩
    · cases h
    · obtain rfl := Option.some.inj h
      exact ⟨rfl, le_rfl⟩

/-- Nothing is asked for after the seed window. -/
theorem backfillRequest_exhausted (hw : w.repoEmpty = true) (h0 : 0 < w.seedEnd)
    (hn : w.seedEnd < n) : backfillRequest cfg w n = none := by
  unfold backfillRequest
  rw [if_pos (by simp [hw, h0, hn])]

/-- A request inside the seed window. -/
theorem backfillRequest_seed (hI : 0 < w.intervalMs) (hw : w.repoEmpty = true) (h0 : 0 < w.seedEnd)
    (hn : n ≤ w.seedEnd) :
    backfillRequest cfg w n =
      if min (n + w.intervalMs * batchLimit cfg - 1) (w.seedEnd + w.intervalMs - 1) ≤ n then none
      else some ⟨n, min (n + w.intervalMs * batchLimit cfg - 1) (w.seedEnd + w.intervalMs - 1)⟩ := by
  have hspan := span_pos cfg hI
  unfold backfillRequest
  rw [if_neg (by simp [hn])]
  dsimp only
  have hcap : n ≤ w.seedEnd + w.intervalMs - 1 := by omega
  simp only [hspan.not_ge, if_false, hw, h0, hcap, Bool.true_and, decide_true, if_true,
    TimeRange.empty, decide_eq_true_eq]

/-- A request after the last candle. -/
theorem backfillRequest_open (hI : 0 < w.intervalMs) (hw : w.repoEmpty = false) :
    backfillRequest cfg w n =
      if w.intervalMs * batchLimit cfg = 1 then none
      else some ⟨n, n + w.intervalMs * batchLimit cfg - 1⟩ := by
  have hspan := span_pos cfg hI
  unfold backfillRequest
  rw [if_neg (by simp [hw])]
  dsimp only
  simp only [hspan.not_ge, if_false, hw, Bool.false_and, Bool.false_eq_true, TimeRange.empty,
    decide_eq_true_eq]
  by_cases h1 : w.intervalMs * batchLimit cfg = 1
  · rw [if_pos h1, if_pos (by omega)]
  · rw [if_neg h1, if_neg (by omega)]

end Requests

/-! ## Gap-free markets -/

/-- A market that lists every candle from `first` on, all closed. -/
structure GapFree (I first : Int) (history : List Candle) : Prop where
  dvd : I ∣ first
  times : history.map Candle.openTime = ticks first I history.length
  closed : ∀ c ∈ history, c.isClosed = true

section Market

variable {I a n : Int} {history before rest after : List Candle}

/-- The candles at consecutive grid times. -/
theorem openTime_of_ticks (hI : 0 < I) (h : rest.map Candle.openTime = ticks a I rest.length)
    {c : Candle} (hc : c ∈ rest) :
    a ≤ c.openTime ∧ c.openTime < a + rest.length * I ∧ I ∣ c.openTime - a :=
  (mem_ticks_iff hI).mp (h ▸ List.mem_map_of_mem hc)

/-- The page of a window that starts no later than `rest` and ends no earlier
than the page, or `rest`, does. -/
theorem page_of_ticks (hI : 0 < I) {lo hi : Int} {limit : Nat}
    (hbefore : ∀ c ∈ before, c.openTime < lo) (hlo : lo ≤ n)
    (hrest : rest.map Candle.openTime = ticks n I rest.length)
    (hhi : min (n + I * limit - 1) (n + rest.length * I - 1) ≤ hi)
    (hafter : ∀ c ∈ after, hi < c.openTime) :
    page Candle.openTime (before ++ (rest ++ after)) lo hi limit = rest.take limit := by
  refine page_append hbefore (fun c hc => ?_) hafter
  obtain ⟨h₁, h₂, -⟩ := openTime_of_ticks hI hrest (List.mem_of_mem_take hc)
  refine ⟨by omega, ?_⟩
  by_cases hl : limit ≤ rest.length
  · have htake := (ticks_take_drop hrest hl).1
    have hlen : (rest.take limit).length = limit := by rw [List.length_take]; omega
    rw [← hlen] at htake
    rw [hlen] at htake
    have := (mem_ticks_iff hI).mp (htake ▸ List.mem_map_of_mem (f := Candle.openTime) hc)
    have hcomm : I * (limit : Int) = limit * I := Int.mul_comm _ _
    have hle : (limit : Int) * I ≤ rest.length * I := by gcongr
    omega
  · have hcomm : I * (limit : Int) = limit * I := Int.mul_comm _ _
    have hle : (rest.length : Int) * I ≤ limit * I := by gcongr; omega
    omega

/-- The page of a window inside `rest`. -/
theorem page_of_cut (hI : 0 < I) {hi : Int} {limit m : Nat} (hbefore : ∀ c ∈ before, c.openTime < n)
    (hrest : rest.map Candle.openTime = ticks n I rest.length) (hm : m ≤ rest.length)
    (hhi : min (n + m * I + I * limit - 1) (n + rest.length * I - 1) ≤ hi)
    (hafter : ∀ c ∈ after, hi < c.openTime) :
    page Candle.openTime (before ++ (rest ++ after)) (n + m * I) hi limit =
      (rest.drop m).take limit := by
  obtain ⟨htake, hdrop⟩ := ticks_take_drop hrest hm
  have e : before ++ (rest ++ after) = before ++ rest.take m ++ (rest.drop m ++ after) := by
    rw [List.append_assoc, ← List.append_assoc (rest.take m), List.take_append_drop]
  have hlen : n + m * I + (rest.drop m).length * I = n + rest.length * I := by
    rw [List.length_drop, Int.natCast_sub hm]
    ring
  have hm0 : 0 ≤ (m : Int) * I := by positivity
  rw [e]
  refine page_of_ticks hI (fun c hc => ?_) le_rfl hdrop (by rw [hlen]; exact hhi) hafter
  rcases List.mem_append.mp hc with hc | hc
  · have := hbefore c hc
    omega
  · exact ((mem_ticks_iff hI).mp (htake ▸ List.mem_map_of_mem (f := Candle.openTime) hc)).2.1

/-- A gap-free market, cut at two grid times. -/
theorem GapFree.cut {first b c : Int} (hI : 0 < I) (h : GapFree I first history) (hb : I ∣ b)
    (hc : I ∣ c) (hfb : first ≤ b) (hbc : b ≤ c) (hend : c ≤ first + history.length * I) :
    ∃ before rest after, history = before ++ (rest ++ after) ∧ (∀ d ∈ before, d.openTime < b) ∧
      rest.map Candle.openTime = ticks b I rest.length ∧ c = b + rest.length * I ∧
      (∀ d ∈ after, c ≤ d.openTime) := by
  obtain ⟨before, tail, rfl, hbefore, htail, hb'⟩ :=
    split_ticks hI h.times (Int.dvd_sub hb h.dvd) hfb (by omega)
  have hlen : c ≤ b + tail.length * I := by
    rw [List.length_append] at hend
    push_cast at hend
    rw [Int.add_mul] at hend
    omega
  obtain ⟨rest, after, rfl, hrest, hafter, hc'⟩ := split_ticks hI htail (Int.dvd_sub hc hb) hbc hlen
  refine ⟨before, rest, after, rfl, fun d hd => ?_, hrest, hc', fun d hd => ?_⟩
  · have := openTime_of_ticks hI hbefore hd
    omega
  · exact (openTime_of_ticks hI hafter hd).1

/-- What stands between the two cuts. -/
theorem mem_of_cut {before rest after : List Candle} {b c : Int}
    (hbefore : ∀ d ∈ before, d.openTime < b) (hafter : ∀ d ∈ after, c ≤ d.openTime) {d : Candle}
    (hd : d ∈ before ++ (rest ++ after)) (hb : b ≤ d.openTime) (hc : d.openTime < c) : d ∈ rest := by
  rcases List.mem_append.mp hd with hd | hd
  · exact absurd (hbefore d hd) (not_lt.mpr hb)
  · exact (List.mem_append.mp hd).resolve_right fun hd => absurd (hafter d hd) (not_le.mpr hc)

end Market

/-! ## From an empty repository -/

/-- The backfill ends with every candle of the seed window. -/
def FetchesSeed [TimeUtils] (cfg : SyncConfig) (history : List Candle) (s : Orchestrator)
    (nowMs : Int) : Prop :=
  ∃ t, Ends (backfillBody cfg (historyMarket history) (backfillWindow cfg s.repo nowMs).1)
      (loopStart cfg s nowMs) t ∧
    ∀ c ∈ history, seedStart cfg nowMs ≤ c.openTime → c.openTime ≤ seedEnd cfg nowMs →
      s.repo.normalizeCandle c ∈ t.sync.repo.candles

section Seed

variable {cfg : SyncConfig} {history : List Candle} {first : Int} {s : Orchestrator} {nowMs : Int}

theorem metadata_of_nil (hr : s.repo.Sound) (hnil : s.repo.candles = []) :
    s.repo.metadata.count = 0 := by
  rw [hr.metadata, hnil, metadataOf_eq]
  rfl

/-- The loop of an empty repository before a closed candle at `n`. -/
theorem readyAt_of_nil (nowMs : Int) (hrun : s.running = true) (hr : s.repo.Contiguous)
    (hI : s.repo.intervalMs = clampIntervalMs cfg) (hnil : s.repo.candles = [])
    (hp : s.repo.persistable = true) {n : Int} (hpos : 0 < n) (hd : clampIntervalMs cfg ∣ n) :
    ReadyAt (backfillWindow cfg s.repo nowMs).1 (loopStart cfg s nowMs) n := by
  obtain ⟨hw, -, -, -⟩ := backfillWindow_of_empty cfg (metadata_of_nil hr.toSound hnil) nowMs
  refine ⟨hrun, ⟨hr, hp, hpos, by rw [← hI] at hd; exact hd, fun last hl => ?_⟩, hI.trans hw.symm⟩
  rw [show (loopStart cfg s nowMs).sync.repo.candles = [] from hnil] at hl
  cases hl

/-- A request inside the seed window is empty only at the last candle of an
interval of one millisecond, or for pages of one such candle. -/
theorem odd_of_empty {I E n : Int} {L k : Nat} (hI : 0 < I) (hL : 0 < L)
    (hE : n + (k * L : Nat) * I ≤ E)
    (h : min (n + (k * L : Nat) * I + I * L - 1) (E + I - 1) ≤ n + (k * L : Nat) * I) :
    I = 1 ∧ (L : Int) ∣ E - n := by
  rcases min_le_iff.mp h with h | h
  · have hIL : I * L ≤ 1 := by omega
    have h₁ : I * 1 ≤ I * L := by gcongr; omega
    have h₂ : 1 * (L : Int) ≤ I * L := by gcongr; omega
    obtain rfl : L = 1 := by omega
    exact ⟨by omega, by simp⟩
  · obtain rfl : I = 1 := by omega
    refine ⟨rfl, k, ?_⟩
    push_cast at h hE ⊢
    have : (k * L : Int) = L * k := Int.mul_comm _ _
    omega

/-- The times of the candles a backfill ended with. -/
theorem mem_of_map_ticks {r : Repository} {I n c : Int} {rest : List Candle} (hI : 0 < I)
    (hr : r.intervalMs = I) (hd : I ∣ n) (hrest : rest.map Candle.openTime = ticks n I rest.length)
    (hlen : c = n + rest.length * I) {d : Candle} (h : d ∈ rest.map r.normalizeCandle) :
    d.openTime < c := by
  obtain ⟨e, he, rfl⟩ := List.mem_map.mp h
  obtain ⟨-, h₂, h₃⟩ := openTime_of_ticks hI hrest he
  rw [normalizeCandle_openTime_of_dvd (hr ▸ hI) (hr ▸ (Int.dvd_iff_dvd_of_dvd_sub h₃).mpr hd)]
  omega

/-- A market listed before the seed window: the loop asks page by page for all
up to some `c`. -/
theorem ends_of_listed [TimeUtils] (hrun : s.running = true) (hr : s.repo.Contiguous)
    (hI : s.repo.intervalMs = clampIntervalMs cfg) (hnil : s.repo.candles = [])
    (hp : s.repo.persistable = true) (hnow : 0 ≤ nowMs) (hg : GapFree (clampIntervalMs cfg) first history)
    (hfirst : first ≤ seedStart cfg nowMs) (hpos : 0 < seedStart cfg nowMs) {c : Int}
    (hdc : clampIntervalMs cfg ∣ c) (hle : seedStart cfg nowMs ≤ c)
    (hcE : c ≤ seedEnd cfg nowMs + clampIntervalMs cfg)
    (hend : c ≤ first + history.length * clampIntervalMs cfg)
    (hpage : ∀ k : Nat, seedStart cfg nowMs + (k * batchLimit cfg : Nat) * clampIntervalMs cfg < c →
      let n := seedStart cfg nowMs + (k * batchLimit cfg : Nat) * clampIntervalMs cfg
      let last := min (n + clampIntervalMs cfg * batchLimit cfg - 1)
        (seedEnd cfg nowMs + clampIntervalMs cfg - 1)
      n < last ∧ last < c)
    (hstop : backfillRequest cfg (backfillWindow cfg s.repo nowMs).1 c = none) :
    ∃ t, Ends (backfillBody cfg (historyMarket history) (backfillWindow cfg s.repo nowMs).1)
        (loopStart cfg s nowMs) t ∧
      (∀ d ∈ history, seedStart cfg nowMs ≤ d.openTime → d.openTime < c →
        s.repo.normalizeCandle d ∈ t.sync.repo.candles) ∧
      ∀ d ∈ t.sync.repo.candles, d.openTime < c := by
  obtain ⟨hw, hempty, hseed, hnext⟩ :=
    backfillWindow_of_empty cfg (metadata_of_nil hr.toSound hnil) nowMs
  have hat := readyAt_of_nil nowMs hrun hr hI hnil hp hpos (seedStart_spec cfg hnow).2.2
  obtain ⟨-, hnE, hdn⟩ := seedStart_spec cfg hnow
  have hI0 := clampIntervalMs_pos cfg
  generalize (backfillWindow cfg s.repo nowMs).1 = w at *
  generalize clampIntervalMs cfg = I at *
  generalize seedStart cfg nowMs = n at *
  generalize seedEnd cfg nowMs = E at *
  obtain ⟨before, rest, after, rfl, hbefore, hrest, hlen, hafter⟩ := hg.cut hI0 hdn hdc hfirst hle hend
  subst hw hseed
  obtain ⟨t, ht, hcandles⟩ := ends_of_rest cfg (historyMarket (before ++ (rest ++ after))) hat hnext hrest
    (fun d hd => hg.closed d (List.mem_append_right _ (List.mem_append_left _ hd)))
    (fun k hk => by
      have hk' : (k * batchLimit cfg : Nat) * w.intervalMs + w.intervalMs ≤ rest.length * w.intervalMs := by
        have : ((k * batchLimit cfg : Nat) + 1 : Int) * w.intervalMs ≤ rest.length * w.intervalMs := by
          gcongr
          omega
        rwa [Int.add_mul, Int.one_mul] at this
      obtain ⟨h₁, h₂⟩ := hpage k (by omega)
      refine ⟨_, (backfillRequest_seed hI0 hempty (by omega) (by omega)).trans
        (if_neg (Int.not_le.mpr h₁)), ?_⟩
      apply page_of_cut hI0 hbefore hrest hk.le (by dsimp only; omega)
      intro d hd
      exact lt_of_lt_of_le h₂ (hafter d hd))
    (fun range h => by
      rw [← hlen, hstop] at h
      cases h)
  have hcandles' : t.sync.repo.candles = rest.map s.repo.normalizeCandle := by
    rw [hcandles, show (loopStart cfg s nowMs).sync.repo.candles = [] from hnil]
    rfl
  refine ⟨t, ht, fun d hd h₁ h₂ => ?_, fun d hd => ?_⟩
  · rw [hcandles']
    exact List.mem_map_of_mem (mem_of_cut hbefore hafter hd h₁ h₂)
  · rw [hcandles'] at hd
    exact mem_of_map_ticks hI0 hI hdn hrest hlen hd

/-- A market listed inside the first page of the seed window: the loop ends with
that page. -/
theorem ends_of_listed_inside [TimeUtils] (hrun : s.running = true) (hr : s.repo.Contiguous)
    (hI : s.repo.intervalMs = clampIntervalMs cfg) (hnil : s.repo.candles = [])
    (hp : s.repo.persistable = true) (hnow : 0 ≤ nowMs) (hg : GapFree (clampIntervalMs cfg) first history)
    (hfirst : seedStart cfg nowMs < first) {c : Int}
    (hc : c = min (seedStart cfg nowMs + clampIntervalMs cfg * batchLimit cfg)
      (seedEnd cfg nowMs + clampIntervalMs cfg))
    (hfc : first < c) (hend : c ≤ first + history.length * clampIntervalMs cfg) :
    ∃ t, Ends (backfillBody cfg (historyMarket history) (backfillWindow cfg s.repo nowMs).1)
        (loopStart cfg s nowMs) t ∧
      (∀ d ∈ history, d.openTime < c → s.repo.normalizeCandle d ∈ t.sync.repo.candles) ∧
      ∀ d ∈ t.sync.repo.candles, d.openTime < c := by
  obtain ⟨hw, hempty, hseed, hnext⟩ :=
    backfillWindow_of_empty cfg (metadata_of_nil hr.toSound hnil) nowMs
  obtain ⟨hn0, hnE, hdn⟩ := seedStart_spec cfg hnow
  have hdE := (seedEnd_spec cfg hnow).2
  have hat := readyAt_of_nil nowMs hrun hr hI hnil hp (by omega) hg.dvd
  have hI0 := clampIntervalMs_pos cfg
  generalize (backfillWindow cfg s.repo nowMs).1 = w at *
  generalize clampIntervalMs cfg = I at *
  generalize seedStart cfg nowMs = n at *
  generalize seedEnd cfg nowMs = E at *
  have hdc : I ∣ c := by
    rcases min_choice (n + I * batchLimit cfg) (E + I) with e | e <;> rw [hc, e]
    · exact Int.dvd_add hdn (Int.dvd_mul_right _ _)
    · exact Int.dvd_add hdE (Int.dvd_refl _)
  obtain ⟨before, rest, after, rfl, hbefore, hrest, hlen, hafter⟩ :=
    hg.cut hI0 hg.dvd hdc le_rfl hfc.le hend
  have hnone : ∀ d ∈ before, False := fun d hd => by
    have h₁ := hbefore d hd
    have h₂ := (openTime_of_ticks hI0 hg.times (List.mem_append_left _ hd)).1
    omega
  subst hw hseed
  have hfc' := Lib.Grid.add_le_of_lt hg.dvd hdc hfc
  have hshort : rest.length < batchLimit cfg := by
    have h : (rest.length : Int) * w.intervalMs < batchLimit cfg * w.intervalMs := by
      rw [Int.mul_comm (batchLimit cfg : Int)]
      omega
    exact_mod_cast lt_of_mul_lt_mul_right h hI0.le
  have hne : rest ≠ [] := by
    rintro rfl
    simp at hlen
    omega
  have hreq : backfillRequest cfg w (loopStart cfg s nowMs).nextFetch = some ⟨n, c - 1⟩ := by
    rw [show (loopStart cfg s nowMs).nextFetch = n from hnext,
      backfillRequest_seed hI0 hempty (by omega) hnE, if_neg (by omega)]
    congr 2
    omega
  have hp' : historyMarket (before ++ (rest ++ after)) ⟨n, c - 1⟩ (batchLimit cfg) = rest := by
    rw [historyMarket, page_of_ticks hI0 (fun d hd => (hnone d hd).elim) hfirst.le hrest
      (by dsimp only; omega) fun d hd => by
        have := hafter d hd
        dsimp only
        omega, List.take_of_length_le hshort.le]
  obtain ⟨t, ht, hcandles⟩ := ends_of_short_page hat hreq hp' hne hshort hrest
    (fun d hd => hg.closed d (List.mem_append_right _ (List.mem_append_left _ hd)))
  have hcandles' : t.sync.repo.candles = rest.map s.repo.normalizeCandle := by
    rw [hcandles, show (loopStart cfg s nowMs).sync.repo.candles = [] from hnil]
    rfl
  refine ⟨t, ht, fun d hd h₁ => ?_, fun d hd => ?_⟩
  · rw [hcandles']
    have hfirst := (openTime_of_ticks hI0 hg.times hd).1
    exact List.mem_map_of_mem (mem_of_cut hbefore hafter hd hfirst h₁)
  · rw [hcandles'] at hd
    exact mem_of_map_ticks hI0 hI hg.dvd hrest hlen hd

/-- With an interval of one millisecond the last candle is not asked for if the
one before ends a page. -/
theorem ends_before_end [TimeUtils] (hrun : s.running = true) (hr : s.repo.Contiguous)
    (hI : s.repo.intervalMs = clampIntervalMs cfg) (hnil : s.repo.candles = [])
    (hp : s.repo.persistable = true) (hnow : 0 ≤ nowMs) (hg : GapFree (clampIntervalMs cfg) first history)
    (hfirst : first ≤ seedStart cfg nowMs) (hpos : 0 < seedStart cfg nowMs)
    (hI1 : clampIntervalMs cfg = 1)
    (hdvd : (batchLimit cfg : Int) ∣ seedEnd cfg nowMs - seedStart cfg nowMs)
    (hend : seedEnd cfg nowMs ≤ first + history.length * clampIntervalMs cfg) :
    ∃ t, Ends (backfillBody cfg (historyMarket history) (backfillWindow cfg s.repo nowMs).1)
        (loopStart cfg s nowMs) t ∧
      ∀ d ∈ t.sync.repo.candles, d.openTime < seedEnd cfg nowMs := by
  obtain ⟨hw, hempty, hseed, hnext⟩ :=
    backfillWindow_of_empty cfg (metadata_of_nil hr.toSound hnil) nowMs
  obtain ⟨hn0, hnE, hdn⟩ := seedStart_spec cfg hnow
  have hdE := (seedEnd_spec cfg hnow).2
  have hI0 := clampIntervalMs_pos cfg
  have hL := batchLimit_pos cfg
  have hnone : ∀ n, n ≤ seedEnd cfg nowMs → (batchLimit cfg = 1 ∨ n = seedEnd cfg nowMs) →
      backfillRequest cfg (backfillWindow cfg s.repo nowMs).1 n = none := by
    intro n hn h
    rw [backfillRequest_seed (hw ▸ hI0) hempty (by omega) (by omega), if_pos]
    rw [hw, hseed, hI1]
    rcases h with h | h
    · rw [h]
      omega
    · omega
  by_cases h1 : batchLimit cfg = 1
  · refine ⟨_, ends_of_done (backfillBody_of_none ?_), fun d hd => ?_⟩
    · rw [show (loopStart cfg s nowMs).nextFetch = seedStart cfg nowMs from hnext]
      exact hnone _ hnE (.inl h1)
    · rw [show (loopStart cfg s nowMs).sync.repo.candles = [] from hnil] at hd
      cases hd
  · obtain ⟨t, ht, -, h⟩ := ends_of_listed hrun hr hI hnil hp hnow hg hfirst hpos
      (c := seedEnd cfg nowMs) hdE hnE (by omega) hend
      (fun k hk => by
        -- A page that starts before the last candle ends before it.
        have hle := Lib.Grid.add_le_of_lt (I := batchLimit cfg)
          (a := (k * batchLimit cfg : Nat)) (b := seedEnd cfg nowMs - seedStart cfg nowMs)
          (by push_cast; exact Int.dvd_mul_left _ _) hdvd (by rw [hI1] at hk; omega)
        rw [hI1]
        constructor <;> omega)
      (hnone _ le_rfl (.inr rfl))
    exact ⟨t, ht, h⟩

theorem appends_of_not_persistable [TimeUtils] {r : Repository} (hI : 0 < r.intervalMs)
    (h : ¬ r.persistable = true) (cs : List Candle) : r.appends cs = r := by
  induction cs with
  | nil => rfl
  | cons c cs ih =>
    have ha : r.accepts c = false := Bool.eq_false_iff.mpr fun ha => h ((accepts_iff hI).mp ha).2
    rw [appends_cons, show (r.appendOrReplace c).2 = r by
      rw [Repository.appendOrReplace, appendOrReplaceLocked_of_not_accepts ha], ih]

theorem appends_contiguous [TimeUtils] {r : Repository} (h : r.Contiguous) (cs : List Candle) :
    (r.appends cs).Contiguous :=
  appends_induction (P := Repository.Contiguous) (fun _ c h => h.appendOrReplace c) h cs

theorem seedEnd_before_end (hnow : 0 ≤ nowMs) (hg : GapFree (clampIntervalMs cfg) first history)
    (hreach : ∃ c ∈ history, c.openTime = seedEnd cfg nowMs) :
    seedEnd cfg nowMs + clampIntervalMs cfg ≤ first + history.length * clampIntervalMs cfg := by
  obtain ⟨e, he, heE⟩ := hreach
  have := (openTime_of_ticks (clampIntervalMs_pos cfg) hg.times he).2.1
  exact Lib.Grid.add_le_of_lt (seedEnd_spec cfg hnow).2
    (Int.dvd_add hg.dvd (Int.dvd_mul_left _ _)) (by omega)

/-- A market that is listed before the seed window, but for steps that end right
before the last candle. -/
theorem fetchesSeed_of_before [TimeUtils] (hrun : s.running = true) (hr : s.repo.Contiguous)
    (hI : s.repo.intervalMs = clampIntervalMs cfg) (hnil : s.repo.candles = [])
    (hnow : 0 ≤ nowMs) (hg : GapFree (clampIntervalMs cfg) first history)
    (hreach : ∃ c ∈ history, c.openTime = seedEnd cfg nowMs) (hp : s.repo.persistable = true)
    (hfirst : first ≤ seedStart cfg nowMs) (hpos : 0 < seedStart cfg nowMs)
    (hodd : ¬ (clampIntervalMs cfg = 1 ∧
      (batchLimit cfg : Int) ∣ seedEnd cfg nowMs - seedStart cfg nowMs)) :
    FetchesSeed cfg history s nowMs := by
  obtain ⟨-, hempty, hseed, -⟩ :=
    backfillWindow_of_empty cfg (metadata_of_nil hr.toSound hnil) nowMs
  obtain ⟨hn0, hnE, hdn⟩ := seedStart_spec cfg hnow
  have hdE := (seedEnd_spec cfg hnow).2
  have hI0 := clampIntervalMs_pos cfg
  have hL := batchLimit_pos cfg
  obtain ⟨t, ht, hall, -⟩ := ends_of_listed hrun hr hI hnil hp hnow hg hfirst hpos
    (c := seedEnd cfg nowMs + clampIntervalMs cfg) (Int.dvd_add hdE (Int.dvd_refl _)) (by omega)
    le_rfl (seedEnd_before_end hnow hg hreach)
    (fun k hk => by
      refine ⟨?_, by omega⟩
      by_contra h
      refine hodd (odd_of_empty hI0 hL ?_ (Int.not_lt.mp h))
      have := Lib.Grid.add_le_of_lt (Int.dvd_add hdn (Int.dvd_mul_left _ _))
        (Int.dvd_add hdE (Int.dvd_refl _)) hk
      omega)
    (backfillRequest_exhausted hempty (by omega) (by omega))
  exact ⟨t, ht, fun d hd h₁ h₂ => hall d hd h₁ (by omega)⟩

/-- A market that is listed in the seed window, with the first page for all of it. -/
theorem fetchesSeed_of_inside [TimeUtils] (hrun : s.running = true) (hr : s.repo.Contiguous)
    (hI : s.repo.intervalMs = clampIntervalMs cfg) (hnil : s.repo.candles = [])
    (hnow : 0 ≤ nowMs) (hg : GapFree (clampIntervalMs cfg) first history)
    (hreach : ∃ c ∈ history, c.openTime = seedEnd cfg nowMs) (hp : s.repo.persistable = true)
    (hfirst : seedStart cfg nowMs < first)
    (hpage : seedEnd cfg nowMs + clampIntervalMs cfg ≤
      seedStart cfg nowMs + clampIntervalMs cfg * batchLimit cfg) :
    FetchesSeed cfg history s nowMs := by
  have hend := seedEnd_before_end hnow hg hreach
  have hI0 := clampIntervalMs_pos cfg
  obtain ⟨e, he, heE⟩ := hreach
  have h₁ := (openTime_of_ticks hI0 hg.times he).1
  obtain ⟨t, ht, hall, -⟩ := ends_of_listed_inside hrun hr hI hnil hp hnow hg hfirst
    (c := seedEnd cfg nowMs + clampIntervalMs cfg) (by omega) (by omega) hend
  exact ⟨t, ht, fun d hd h₁ h₂ => hall d hd (by omega)⟩

/-- The repository keeps the times of the market. -/
theorem GapFree.normalizeCandle_openTime (hg : GapFree (clampIntervalMs cfg) first history)
    (hI : s.repo.intervalMs = clampIntervalMs cfg) {d : Candle} (hd : d ∈ history) :
    (s.repo.normalizeCandle d).openTime = d.openTime := by
  have hI0 := clampIntervalMs_pos cfg
  obtain ⟨-, -, h⟩ := openTime_of_ticks hI0 hg.times hd
  exact normalizeCandle_openTime_of_dvd (hI ▸ hI0) (hI ▸ (Int.dvd_iff_dvd_of_dvd_sub h).mpr hg.dvd)

/-- A loop that fetches the seed window does not end before the last candle. -/
theorem FetchesSeed.reaches_end [TimeUtils] (h : FetchesSeed cfg history s nowMs)
    (hI : s.repo.intervalMs = clampIntervalMs cfg) (hnow : 0 ≤ nowMs)
    (hg : GapFree (clampIntervalMs cfg) first history)
    (hreach : ∃ c ∈ history, c.openTime = seedEnd cfg nowMs) {t : BackfillState}
    (ht : Ends (backfillBody cfg (historyMarket history) (backfillWindow cfg s.repo nowMs).1)
      (loopStart cfg s nowMs) t) :
    ¬ ∀ d ∈ t.sync.repo.candles, d.openTime < seedEnd cfg nowMs := by
  obtain ⟨t', ht', hall⟩ := h
  obtain ⟨e, he, heE⟩ := hreach
  obtain ⟨-, hle, -⟩ := seedStart_spec cfg hnow
  intro hbefore
  have := hbefore _ (ht'.unique ht ▸ hall e he (by omega) (by omega))
  rw [hg.normalizeCandle_openTime hI he] at this
  omega

/-- Nor does it begin at time 0, whose candle is never stored. -/
theorem FetchesSeed.seedStart_pos [TimeUtils] (h : FetchesSeed cfg history s nowMs)
    (hrun : s.running = true) (hr : s.repo.Contiguous)
    (hI : s.repo.intervalMs = clampIntervalMs cfg) (hnow : 0 ≤ nowMs)
    (hg : GapFree (clampIntervalMs cfg) first history)
    (hreach : ∃ c ∈ history, c.openTime = seedEnd cfg nowMs)
    (hfirst : first ≤ seedStart cfg nowMs) : 0 < seedStart cfg nowMs := by
  obtain ⟨t, ht, hall⟩ := h
  obtain ⟨hn0, hnE, -⟩ := seedStart_spec cfg hnow
  have hI0 := clampIntervalMs_pos cfg
  have hend := seedEnd_before_end hnow hg hreach
  by_contra h0
  have hmem : (0 : Int) ∈ history.map Candle.openTime := by
    rw [hg.times, mem_ticks_iff hI0]
    exact ⟨by omega, by omega, Int.dvd_sub (Int.dvd_zero _) hg.dvd⟩
  obtain ⟨z, hz, hz0⟩ := List.mem_map.mp hmem
  obtain ⟨-, ds, hds⟩ := ends_run hrun ht
  have hc : t.sync.repo.Contiguous := hds ▸ appends_contiguous hr ds
  have hpos := (hc.onGrid _ (hall z hz (by omega) (by omega))).1
  rw [hg.normalizeCandle_openTime hI hz] at hpos
  omega

/-- A seed window that is fetched whole is one of these two. -/
theorem of_fetchesSeed [TimeUtils] (hrun : s.running = true) (hr : s.repo.Contiguous)
    (hI : s.repo.intervalMs = clampIntervalMs cfg) (hnil : s.repo.candles = [])
    (hnow : 0 ≤ nowMs) (hg : GapFree (clampIntervalMs cfg) first history)
    (hreach : ∃ c ∈ history, c.openTime = seedEnd cfg nowMs) :
    FetchesSeed cfg history s nowMs → s.repo.persistable = true ∧
      (first ≤ seedStart cfg nowMs ∧ 0 < seedStart cfg nowMs ∧
          ¬ (clampIntervalMs cfg = 1 ∧
            (batchLimit cfg : Int) ∣ seedEnd cfg nowMs - seedStart cfg nowMs) ∨
        seedStart cfg nowMs < first ∧ seedEnd cfg nowMs + clampIntervalMs cfg ≤
          seedStart cfg nowMs + clampIntervalMs cfg * batchLimit cfg) := by
  obtain ⟨hw, hempty, hseed, hnext⟩ :=
    backfillWindow_of_empty cfg (metadata_of_nil hr.toSound hnil) nowMs
  obtain ⟨hn0, hnE, hdn⟩ := seedStart_spec cfg hnow
  have hdE := (seedEnd_spec cfg hnow).2
  have hI0 := clampIntervalMs_pos cfg
  have hend := seedEnd_before_end hnow hg hreach
  intro hfetches
  -- No other state is reached, so that the last candle is not missing.
  have fails : ∀ t', Ends (backfillBody cfg (historyMarket history)
      (backfillWindow cfg s.repo nowMs).1) (loopStart cfg s nowMs) t' →
      ¬ ∀ d ∈ t'.sync.repo.candles, d.openTime < seedEnd cfg nowMs :=
    fun t' ht' => hfetches.reaches_end hI hnow hg hreach ht'
  have fails_nil : ∀ t', Ends (backfillBody cfg (historyMarket history)
      (backfillWindow cfg s.repo nowMs).1) (loopStart cfg s nowMs) t' →
      t'.sync.repo = s.repo → False := by
    intro t' ht' h
    apply fails t' ht'
    intro d hd
    rw [h, hnil] at hd
    cases hd
  have hp : s.repo.persistable = true := by
    obtain ⟨t, ht, -⟩ := hfetches
    obtain ⟨-, ds, hds⟩ := ends_run hrun ht
    by_contra hp
    exact fails_nil t ht (hds.trans (appends_of_not_persistable hr.interval_pos hp ds))
  refine ⟨hp, ?_⟩
  by_cases hfirst : first ≤ seedStart cfg nowMs
  · have hpos := hfetches.seedStart_pos hrun hr hI hnow hg hreach hfirst
    refine .inl ⟨hfirst, hpos, fun ⟨hI1, hdvd⟩ => ?_⟩
    obtain ⟨t', ht', h⟩ :=
      ends_before_end hrun hr hI hnil hp hnow hg hfirst hpos hI1 hdvd (by omega)
    exact fails t' ht' h
  · refine .inr ⟨by omega, ?_⟩
    by_contra hlong
    have hle : seedStart cfg nowMs + clampIntervalMs cfg * batchLimit cfg ≤ seedEnd cfg nowMs := by
      by_contra h
      have := Lib.Grid.add_le_of_lt hdE (Int.dvd_add hdn (Int.dvd_mul_right _ (batchLimit cfg : Int)))
        (by omega)
      omega
    by_cases hin : first < seedStart cfg nowMs + clampIntervalMs cfg * batchLimit cfg
    · obtain ⟨t', ht', -, h⟩ := ends_of_listed_inside hrun hr hI hnil hp hnow hg (by omega)
        (c := seedStart cfg nowMs + clampIntervalMs cfg * batchLimit cfg) (by omega) hin (by omega)
      exact fails t' ht' fun d hd => lt_of_lt_of_le (h d hd) hle
    · obtain ⟨t', ht', h⟩ := ends_of_no_page cfg (historyMarket history)
        (w := (backfillWindow cfg s.repo nowMs).1) (s := loopStart cfg s nowMs) hrun
        (by rw [show (loopStart cfg s nowMs).nextFetch = seedStart cfg nowMs from hnext]; exact hn0)
        (fun n range hn hreq => by
          rw [show (loopStart cfg s nowMs).nextFetch = seedStart cfg nowMs from hnext] at hn
          obtain ⟨-, hle'⟩ := end_le_of_backfillRequest (hw ▸ hI0) hreq
          rw [hw] at hle'
          apply page_eq_nil
          intro d hd hd'
          have := (openTime_of_ticks hI0 hg.times hd).1
          omega)
      exact fails_nil t' ht' h

/-- From an empty repository the loop brings the whole seed window exactly if
the market is listed before it, or if the first page covers it. -/
theorem fetchesSeed_iff [TimeUtils] (hrun : s.running = true) (hr : s.repo.Contiguous)
    (hI : s.repo.intervalMs = clampIntervalMs cfg) (hnil : s.repo.candles = [])
    (hnow : 0 ≤ nowMs) (hg : GapFree (clampIntervalMs cfg) first history)
    (hreach : ∃ c ∈ history, c.openTime = seedEnd cfg nowMs) :
    FetchesSeed cfg history s nowMs ↔ s.repo.persistable = true ∧
      (first ≤ seedStart cfg nowMs ∧ 0 < seedStart cfg nowMs ∧
          ¬ (clampIntervalMs cfg = 1 ∧
            (batchLimit cfg : Int) ∣ seedEnd cfg nowMs - seedStart cfg nowMs) ∨
        seedStart cfg nowMs < first ∧ seedEnd cfg nowMs + clampIntervalMs cfg ≤
          seedStart cfg nowMs + clampIntervalMs cfg * batchLimit cfg) := by
  refine ⟨of_fetchesSeed hrun hr hI hnil hnow hg hreach, ?_⟩
  rintro ⟨hp, ⟨hfirst, hpos, hodd⟩ | ⟨hfirst, hpage⟩⟩
  · exact fetchesSeed_of_before hrun hr hI hnil hnow hg hreach hp hfirst hpos hodd
  · exact fetchesSeed_of_inside hrun hr hI hnil hnow hg hreach hp hfirst hpage

end Seed

/-! ## From closed candles -/

/-- The backfill ends with the candles it found and every later one of the
market. -/
def FetchesNext [TimeUtils] (cfg : SyncConfig) (history : List Candle) (s : Orchestrator)
    (nowMs : Int) : Prop :=
  ∃ t, Ends (backfillBody cfg (historyMarket history) (backfillWindow cfg s.repo nowMs).1)
      (loopStart cfg s nowMs) t ∧
    t.sync.repo.candles = s.repo.candles ++
      (history.filter fun c => s.repo.metadata.maxOpen < c.openTime).map s.repo.normalizeCandle

section Next

variable {cfg : SyncConfig} {history : List Candle} {first : Int} {s : Orchestrator}

/-- The market after the last candle. -/
theorem GapFree.next {I last : Int} (hI : 0 < I) (h : GapFree I first history) (hd : I ∣ last)
    (hfirst : first ≤ last + I) :
    ∃ before rest, history = before ++ (rest ++ []) ∧ (∀ c ∈ before, c.openTime < last + I) ∧
      rest.map Candle.openTime = ticks (last + I) I rest.length ∧
      (history.filter fun c => last < c.openTime) = rest := by
  have hdn : I ∣ last + I := Int.dvd_add hd (Int.dvd_refl I)
  obtain ⟨before, rest, e, hbefore, hrest⟩ : ∃ before rest, history = before ++ rest ∧
      (∀ c ∈ before, c.openTime < last + I) ∧
      rest.map Candle.openTime = ticks (last + I) I rest.length := by
    by_cases hend : last + I ≤ first + history.length * I
    · obtain ⟨before, rest, e, hbefore, hrest, hlen⟩ :=
        split_ticks hI h.times (Int.dvd_sub hdn h.dvd) hfirst hend
      refine ⟨before, rest, e, fun c hc => ?_, hrest⟩
      have := (openTime_of_ticks hI hbefore hc).2.1
      omega
    · refine ⟨history, [], (List.append_nil _).symm, fun c hc => ?_, rfl⟩
      have := (openTime_of_ticks hI h.times hc).2.1
      omega
  refine ⟨before, rest, by rw [List.append_nil, e], hbefore, hrest, ?_⟩
  have h₁ : before.filter (fun c => decide (last < c.openTime)) = [] := by
    apply List.filter_eq_nil_iff.mpr
    intro c hc
    -- The last grid time before `last + I` is `last`.
    have hmem : c ∈ history := e ▸ List.mem_append_left _ hc
    have hdc : I ∣ c.openTime :=
      (Int.dvd_iff_dvd_of_dvd_sub (openTime_of_ticks hI h.times hmem).2.2).mpr h.dvd
    have := Lib.Grid.add_le_of_lt hdc hdn (hbefore c hc)
    rw [decide_eq_true_eq]
    omega
  have h₂ : rest.filter (fun c => decide (last < c.openTime)) = rest := by
    refine List.filter_eq_self.mpr fun c hc => decide_eq_true ?_
    have := (openTime_of_ticks hI hrest hc).1
    omega
  rw [e, List.filter_append, h₁, h₂, List.nil_append]

/-- The loop after closed candles. -/
theorem readyAt_of_closed (hrun : s.running = true) (hr : s.repo.Contiguous)
    (hI : s.repo.intervalMs = clampIntervalMs cfg) (hne : s.repo.candles ≠ [])
    (hclosed : ∀ c ∈ s.repo.candles, c.isClosed = true) (nowMs : Int) :
    (backfillWindow cfg s.repo nowMs).1.repoEmpty = false ∧
      (backfillWindow cfg s.repo nowMs).1.intervalMs = clampIntervalMs cfg ∧
      (loopStart cfg s nowMs).nextFetch = s.repo.metadata.maxOpen + clampIntervalMs cfg ∧
      clampIntervalMs cfg ∣ s.repo.metadata.maxOpen ∧
      ReadyAt (backfillWindow cfg s.repo nowMs).1 (loopStart cfg s nowMs)
        (s.repo.metadata.maxOpen + clampIntervalMs cfg) := by
  have hI0 := clampIntervalMs_pos cfg
  obtain ⟨last, hl⟩ := Option.ne_none_iff_exists'.mp
    (fun e => hne (List.getLast?_eq_none_iff.mp e) : s.repo.candles.getLast? ≠ none)
  have hmem := List.mem_of_getLast? hl
  obtain ⟨h0, hmax⟩ := metadata_of_closed_last hr.toSound hl (hclosed last hmem)
  obtain ⟨hpos, hd, -⟩ := hr.onGrid last hmem
  obtain ⟨hw, hempty, hnext⟩ := backfillWindow_of_nonempty cfg h0 (hmax ▸ hpos) nowMs
  refine ⟨hempty, hw, hnext, by rw [hmax, ← hI]; exact hd, hrun, ⟨hr, hr.persistable hne, ?_, ?_, ?_⟩,
    hI.trans hw.symm⟩
  · omega
  · rw [show (loopStart cfg s nowMs).sync.repo = s.repo from rfl, hmax, ← hI]
    exact Int.dvd_add hd (Int.dvd_refl _)
  · intro last' hl'
    rw [show (loopStart cfg s nowMs).sync.repo = s.repo from rfl] at hl' ⊢
    obtain rfl : last = last' := by rw [hl] at hl'; exact Option.some.inj hl'
    exact ⟨hclosed last hmem, by rw [hmax, hI]⟩

/-- After closed candles the loop brings every later one, unless a request holds
a single millisecond. -/
theorem fetchesNext_iff [TimeUtils] (hrun : s.running = true) (hr : s.repo.Contiguous)
    (hI : s.repo.intervalMs = clampIntervalMs cfg) (hne : s.repo.candles ≠ [])
    (hclosed : ∀ c ∈ s.repo.candles, c.isClosed = true)
    (hg : GapFree (clampIntervalMs cfg) first history)
    (hfirst : first ≤ s.repo.metadata.maxOpen + clampIntervalMs cfg) (nowMs : Int) :
    FetchesNext cfg history s nowMs ↔
      (∀ c ∈ history, c.openTime ≤ s.repo.metadata.maxOpen) ∨
        clampIntervalMs cfg * batchLimit cfg ≠ 1 := by
  have hI0 := clampIntervalMs_pos cfg
  obtain ⟨hempty, hw, hnext, hd, hat⟩ := readyAt_of_closed hrun hr hI hne hclosed nowMs
  unfold FetchesNext
  generalize (backfillWindow cfg s.repo nowMs).1 = w at *
  generalize s.repo.metadata.maxOpen = last at *
  rw [← hw] at hI0 hg hfirst hnext hd hat ⊢
  obtain ⟨before, rest, e, hbefore, hrest, hfilter⟩ := hg.next hI0 hd hfirst
  have hnone : (∀ c ∈ history, c.openTime ≤ last) ↔ rest = [] := by
    rw [← hfilter, List.filter_eq_nil_iff]
    exact forall₂_congr fun c _ => by rw [decide_eq_true_eq, not_lt]
  rw [hnone, hfilter]
  constructor
  · rintro ⟨t, ht, hcandles⟩
    by_contra hc
    obtain ⟨hrest', h1⟩ := not_or.mp hc
    rw [not_not] at h1
    have hstay : Ends (backfillBody cfg (historyMarket history) w) (loopStart cfg s nowMs)
        (loopStart cfg s nowMs) :=
      ends_of_done (backfillBody_of_none (by rw [backfillRequest_open hI0 hempty, if_pos h1]))
    rw [ht.unique hstay, show (loopStart cfg s nowMs).sync.repo = s.repo from rfl,
      List.self_eq_append_right, List.map_eq_nil_iff] at hcandles
    exact hrest' hcandles
  · intro hgo
    have hreq : ∀ n, rest ≠ [] → backfillRequest cfg w n =
        some ⟨n, n + w.intervalMs * batchLimit cfg - 1⟩ := fun n hr => by
      rw [backfillRequest_open hI0 hempty, if_neg (hgo.resolve_left hr)]
    obtain ⟨t, ht, hcandles⟩ := ends_of_rest cfg (historyMarket history) hat hnext
      hrest (fun c hc => hg.closed c (by rw [e]; simp [hc]))
      (fun k hk => by
        refine ⟨_, hreq _ (List.ne_nil_of_length_pos (by omega)), ?_⟩
        rw [e]
        exact page_of_cut hI0 hbefore hrest hk.le (min_le_left _ _) fun c hc => absurd hc List.not_mem_nil)
      (fun range h => by
        refine ⟨page_eq_nil fun c hc hc' => ?_, .inl hempty⟩
        have h₁ := (end_le_of_backfillRequest hI0 h).1
        have h₂ : 0 ≤ (rest.length : Int) * w.intervalMs := by positivity
        rw [e, List.append_nil] at hc
        rcases List.mem_append.mp hc with hc | hc
        · have := hbefore c hc
          omega
        · have := (openTime_of_ticks hI0 hrest hc).2.1
          omega)
    exact ⟨t, ht, hcandles⟩

end Next

/-! ## Both -/

/-- Over every gap-free market that reaches the present, the backfill of an
empty repository brings the whole seed window exactly if the market was listed
before the window or the first page covers it, and the backfill of closed
candles brings every later one exactly if there is none or a request holds more
than one millisecond. -/
theorem backfill_complete_iff [TimeUtils] (cfg : SyncConfig) (s : Orchestrator)
    (hrun : s.running = true)
    (hr : s.repo.Contiguous) (hI : s.repo.intervalMs = clampIntervalMs cfg) (first : Int)
    (history : List Candle) (hg : GapFree (clampIntervalMs cfg) first history) (nowMs : Int)
    (hnow : 0 ≤ nowMs) :
    (s.repo.candles = [] → (∃ c ∈ history, c.openTime = seedEnd cfg nowMs) →
      (FetchesSeed cfg history s nowMs ↔ s.repo.persistable = true ∧
        (first ≤ seedStart cfg nowMs ∧ 0 < seedStart cfg nowMs ∧
            ¬ (clampIntervalMs cfg = 1 ∧
              (batchLimit cfg : Int) ∣ seedEnd cfg nowMs - seedStart cfg nowMs) ∨
          seedStart cfg nowMs < first ∧ seedEnd cfg nowMs + clampIntervalMs cfg ≤
            seedStart cfg nowMs + clampIntervalMs cfg * batchLimit cfg))) ∧
    (s.repo.candles ≠ [] → (∀ c ∈ s.repo.candles, c.isClosed = true) →
      first ≤ s.repo.metadata.maxOpen + clampIntervalMs cfg →
      (FetchesNext cfg history s nowMs ↔
        (∀ c ∈ history, c.openTime ≤ s.repo.metadata.maxOpen) ∨
          clampIntervalMs cfg * batchLimit cfg ≠ 1)) :=
  ⟨fun hnil hreach => fetchesSeed_iff hrun hr hI hnil hnow hg hreach,
    fun hne hclosed hfirst => fetchesNext_iff hrun hr hI hne hclosed hg hfirst nowMs⟩

/-- A running orchestrator over a repository without a candle. -/
def unfilled : Orchestrator where
  repo := Repository.construct .insertion {} ['B'] ⟨60000⟩
  running := true

theorem unfilled_contiguous : unfilled.repo.Contiguous :=
  construct_contiguous .insertion rfl ['B'] (by decide)

/-- A market listed two minutes ago. -/
def justListed : List Candle :=
  [flatCandle 1699999860000 true, flatCandle 1699999920000 true, flatCandle 1699999980000 true]

/-- Both first pages are empty, and nothing is fetched. -/
theorem not_fetchesSeed_justListed : ¬ FetchesSeed {} justListed unfilled 1700000000000 := by
  have hg : GapFree (clampIntervalMs {}) 1699999860000 justListed :=
    ⟨by decide +kernel, by decide +kernel, by decide⟩
  rw [fetchesSeed_iff rfl unfilled_contiguous (by decide +kernel) (by decide +kernel) (by decide) hg
    (by decide +kernel)]
  decide +kernel

/-- A market listed in the first minute, and one that went on after it. -/
theorem fetches_first_minutes :
    FetchesSeed { restBatch := 2 } [flatCandle 60000 true] unfilled 60000 ∧
      FetchesNext { restBatch := 2 } [flatCandle 60000 true, flatCandle 120000 true] beforeHole
        240000 :=
  ⟨((backfill_complete_iff { restBatch := 2 } unfilled rfl unfilled_contiguous (by decide +kernel)
      60000 [flatCandle 60000 true] ⟨by decide +kernel, by decide +kernel, by decide⟩ 60000
      (by decide)).1 (by decide +kernel) (by decide +kernel)).mpr (by decide +kernel),
    ((backfill_complete_iff { restBatch := 2 } beforeHole rfl
      ((construct_contiguous .insertion rfl ['B'] (by decide)).calls .insertion _).1
      (by decide +kernel) 60000 [flatCandle 60000 true, flatCandle 120000 true]
      ⟨by decide +kernel, by decide +kernel, by decide⟩ 240000 (by decide)).2 (by decide +kernel)
      (by decide +kernel) (by decide +kernel)).mpr (by decide +kernel)⟩

end TCV.App
