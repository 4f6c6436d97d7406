import TradingChartViewer.Exchange.Gateway
import TradingChartViewer.Lib.Grid
import TradingChartViewer.Lib.Page

/-!
# What a range brings

`fetchRange` against an endpoint that answers every request from one history.

* `fetchRange_ends`: the loop ends, whatever the endpoint answers;
* `decodeEntry_kline`, `fetchRestPage_of_serves`: a page is that part of the
  history;
* `BlocksFilled`: the history has every candle of a window before a later one;
* `ends_of_cursor`: the loop stops after the first window with a hole;
* `fetchRange_complete_iff`: so it brings the whole range exactly if no candle
  comes after a hole in an earlier window.
-/

namespace TCV.Exchange

open TCV.Domain Lib.Page Lib.Grid Lib.Loop Lib.TimeMap

/-! ## The loop ends -/

section Ends

variable {cfg : ExchangeGatewayConfig} {server : RestServer} {symbol label : List Char} {I : Int}
  {range : TimeRange} {limit : Nat} {s t : FetchState}

/-- The cursor moves on. -/
theorem cursor_lt_of_next (hI : 0 < I)
    (h : fetchRangeBody cfg server symbol label I range limit s = .inl t) :
    s.cursor ≤ range.end_ ∧ s.cursor < t.cursor := by
  unfold fetchRangeBody at h
  dsimp only at h
  by_cases hle : range.end_ < s.cursor
  · rw [if_pos hle] at h
    cases h
  · rw [if_neg hle] at h
    split at h
    · cases h
    · split at h
      · cases h
      · split at h
        · cases h
        · obtain rfl := Sum.inl.inj h
          refine ⟨Int.not_lt.mp hle, ?_⟩
          dsimp only
          split <;> omega

/-- The fuel suffices. -/
theorem fetchRange_ends (cfg : ExchangeGatewayConfig) (server : RestServer)
    (symbol label : List Char) (limit : Nat) (hI : 0 < I) (hrange : range.start ≤ range.end_) (s : FetchState)
    (hs : s.cursor = range.start) :
    ∃ ordered, runFor (fetchRangeBody cfg server symbol label I range limit) (fetchFuel range) s =
      some ordered := by
  refine runFor_of_measure (I := fun _ => True) (fun s => (range.end_ + 1 - s.cursor).toNat)
    (fun s t _ h => ⟨trivial, ?_⟩) trivial ?_
  · obtain ⟨h₁, h₂⟩ := cursor_lt_of_next hI h
    omega
  · rw [hs, fetchFuel]
    omega

end Ends

/-! ## Pages of a history -/

/-- The row of a candle in a reply. -/
def kline (c : Candle) : JsonValue :=
  .array [.int64 c.openTime, .string (some c.open_), .string (some c.high), .string (some c.low),
    .string (some c.close), .string (some c.baseVolume), .int64 c.closeTime,
    .string (some c.quoteVolume), .int64 c.trades, .string (some 0), .string (some 0), .string none]

/-- A candle as the exchange lists it for an interval. -/
structure Listed (I : Int) (c : Candle) : Prop where
  dvd : I ∣ c.openTime
  closeTime : c.closeTime = c.openTime + I - 1
  closed : c.isClosed = true
  trades : 0 ≤ c.trades ∧ c.trades < 2 ^ 31
  valid : validateCandle c = true

/-- The endpoint answers every request for a window from the history. -/
def Serves (history : List Candle) (server : RestServer) : Prop :=
  ∀ n query start end_, query.startTime = some start → query.endTime = some end_ →
    server n query = .response 200
      (some (.array ((page Candle.openTime history start end_ query.limit).map kline)))

section Decode

variable {I : Int} {c : Candle} {cs history : List Candle}

theorem toTradeCount_of_lt {n : Int} (h : 0 ≤ n) (h' : n < 2 ^ 31) : toTradeCount (max n 0) = n := by
  rw [toTradeCount, max_eq_left h]
  omega

/-- A row of a candle on the grid is decoded as closed, whether it is or not. -/
theorem decodeEntry_kline_eq (hd : I ∣ c.openTime) (hclose : c.closeTime = c.openTime + I - 1)
    (htrades : 0 ≤ c.trades ∧ c.trades < 2 ^ 31) :
    decodeEntry I (kline c) =
      some (if 0 < c.openTime ∧ validateCandle c = true then some c.sealed else none) := by
  have hsealed : (⟨c.openTime, c.openTime + I - 1, c.open_, c.high, c.low, c.close, c.baseVolume,
      c.quoteVolume, c.trades, true⟩ : Candle) = c.sealed := by
    rw [← hclose]
    rfl
  have hvalid : validateCandle c.sealed = validateCandle c := rfl
  by_cases hpos : 0 < c.openTime
  · have hopen : ¬ c.openTime ≤ 0 := by omega
    cases hv : validateCandle c <;>
      simp [decodeEntry, kline, JsonValue.asInt64, parseDecimal, alignDownMs_of_dvd hd, hopen, hpos,
        toTradeCount_of_lt htrades.1 htrades.2, hsealed, hvalid, hv]
  · have hopen : c.openTime ≤ 0 := by omega
    simp [decodeEntry, kline, JsonValue.asInt64, alignDownMs_of_dvd hd, hopen, hpos]

theorem decodeEntry_kline (h : Listed I c) (hpos : 0 < c.openTime) :
    decodeEntry I (kline c) = some (some c) := by
  rw [decodeEntry_kline_eq h.dvd h.closeTime h.trades, if_pos ⟨hpos, h.valid⟩,
    show c.sealed = c by rw [Candle.sealed, ← h.closed]]

theorem mapM_kline (h : ∀ c ∈ cs, Listed I c ∧ 0 < c.openTime) :
    (cs.map kline).mapM (decodeEntry I) = some (cs.map some) := by
  induction cs with
  | nil => rfl
  | cons c cs ih =>
    obtain ⟨hc, hpos⟩ := h c List.mem_cons_self
    rw [List.map_cons, List.mapM_cons, decodeEntry_kline hc hpos,
      ih fun d hd => h d (List.mem_cons_of_mem _ hd)]
    rfl

theorem filterMap_id_map_some (cs : List Candle) : (cs.map some).filterMap id = cs := by
  rw [List.filterMap_map]
  exact List.filterMap_some

/-- A page from a truthful endpoint. -/
theorem fetchRestPage_of_serves {cfg : ExchangeGatewayConfig} {server : RestServer}
    (hserver : Serves history server) (hlisted : ∀ c ∈ history, Listed I c) (n : Nat)
    (symbol label : List Char) {start end_ : Int} (hstart : 0 < start) (hend : 0 < end_)
    {limit : Nat} (hlimit : 0 < limit) (hmax : limit ≤ cfg.restMaxLimit) :
    fetchRestPage cfg server n symbol label start (some end_) limit I =
      some (page Candle.openTime history start end_ limit) := by
  unfold fetchRestPage
  rw [if_neg (by omega), if_pos hstart]
  dsimp only
  rw [hserver n _ start end_ rfl (by simp [hend])]
  dsimp only
  have hpage : ∀ c ∈ page Candle.openTime history start end_ limit, Listed I c ∧ 0 < c.openTime :=
    fun c hc => ⟨hlisted c (mem_of_mem_page hc).1, by have := (mem_of_mem_page hc).2.1; omega⟩
  rw [if_neg (by decide), mapM_kline hpage, Option.map_some, filterMap_id_map_some]

theorem fetchAttempts_of_some {fetch : Nat → Option (List Candle)} {n : Nat} {cs : List Candle}
    (h : fetch n = some cs) (attempts : Nat) : fetchAttempts fetch attempts n = (some cs, n + 1) := by
  cases attempts with
  | zero => rw [fetchAttempts, h]
  | succ attempts => rw [fetchAttempts, h]

end Decode

/-! ## Windows -/

/-- From the grid time `a` on, every grid time of a window of `e` candles before
that of a listed candle is listed. -/
def BlocksFilled (I : Int) (e : Nat) (a end_ : Int) (history : List Candle) : Prop :=
  ∀ c ∈ history, a ≤ c.openTime → c.openTime ≤ end_ → ∀ g, I ∣ g → a ≤ g →
    (g - a) / (I * e) < (c.openTime - a) / (I * e) → g ∈ history.map Candle.openTime

section Windows

variable {I a end_ : Int} {e : Nat} {history : List Candle}

/-- The candles of the window at `a`. -/
def block (I : Int) (e : Nat) (a end_ : Int) (history : List Candle) : List Candle :=
  between Candle.openTime history a (min end_ (a + I * e - 1))

theorem between_eq_block_append (e : Nat) (a end_ : Int) (hI : 0 < I) (hasc : Ascending Candle.openTime history) :
    between Candle.openTime history a end_ =
      block I e a end_ history ++ between Candle.openTime history (a + I * e) end_ :=
  between_split hasc (by have : 0 ≤ I * e := by positivity
                         omega)

/-- A window holds at most `e` candles, and `e` ones only if all are listed. -/
theorem length_block (e : Nat) (end_ : Int) (hI : 0 < I) (hd : I ∣ a)
    (hasc : history.Pairwise fun b c => b.openTime < c.openTime)
    (hgrid : ∀ c ∈ history, I ∣ c.openTime) :
    (block I e a end_ history).length ≤ e ∧
      ((block I e a end_ history).length = e →
        (block I e a end_ history).map Candle.openTime = ticks a I e) := by
  have hp : ((block I e a end_ history).map Candle.openTime).Pairwise (· < ·) :=
    List.pairwise_map.mpr (hasc.sublist List.filter_sublist)
  have hw := window hI hd (n := e) hp fun t ht => by
    obtain ⟨c, hc, rfl⟩ := List.mem_map.mp ht
    obtain ⟨hmem, h₁, h₂⟩ := mem_between.mp hc
    have hcomm : I * (e : Int) = e * I := Int.mul_comm _ _
    exact ⟨hgrid c hmem, h₁, by omega⟩
  rwa [List.length_map] at hw

/-- A window with every grid time is full. -/
theorem length_block_of_filled (hI : 0 < I) (he : a + I * e - 1 ≤ end_)
    (hfilled : ∀ g ∈ ticks a I e, g ∈ history.map Candle.openTime) :
    e ≤ (block I e a end_ history).length := by
  have hsub : ticks a I e ⊆ (block I e a end_ history).map Candle.openTime := by
    intro g hg
    obtain ⟨c, hc, rfl⟩ := List.mem_map.mp (hfilled g hg)
    obtain ⟨h₁, h₂, -⟩ := (mem_ticks_iff hI).mp hg
    have hcomm : I * (e : Int) = e * I := Int.mul_comm _ _
    exact List.mem_map_of_mem (mem_between.mpr ⟨hc, h₁, by omega⟩)
  have hnodup : (ticks a I e).Nodup := (ticks_pairwise hI a e).imp ne_of_lt
  have := (List.subperm_of_subset hnodup hsub).length_le
  rwa [length_ticks, List.length_map] at this

/-- The index of a window, counted from the next one. -/
theorem index_next (hI : 0 < I) (he : 0 < e) (t : Int) :
    (t - a) / (I * e) = (t - (a + I * e)) / (I * e) + 1 := by
  have hne : I * (e : Int) ≠ 0 := (Int.mul_pos hI (by omega)).ne'
  rw [show t - a = t - (a + I * e) + 1 * (I * e) by ring, Int.add_mul_ediv_right _ _ hne]

theorem index_pos_iff (hI : 0 < I) (he : 0 < e) {t : Int} :
    0 < (t - a) / (I * e) ↔ a + I * e ≤ t := by
  have hpos : 0 < I * (e : Int) := Int.mul_pos hI (by omega)
  rw [← Int.add_one_le_iff, Int.zero_add, Int.le_ediv_iff_mul_le hpos]
  omega

/-- After a full window the rest decides. -/
theorem blocksFilled_of_full (hI : 0 < I) (he : 0 < e)
    (hfull : ∀ g ∈ ticks a I e, g ∈ history.map Candle.openTime) (hd : I ∣ a) :
    BlocksFilled I e a end_ history ↔ BlocksFilled I e (a + I * e) end_ history := by
  have hpos : 0 < I * (e : Int) := Int.mul_pos hI (by omega)
  constructor
  · intro h c hc h₁ h₂ g hg h₃ hlt
    apply h c hc (by omega) h₂ g hg (by omega)
    rw [index_next hI he, index_next hI he c.openTime]
    omega
  · intro h c hc h₁ h₂ g hg h₃ hlt
    by_cases hga : g < a + I * e
    · refine hfull g ((mem_ticks_iff hI).mpr ⟨h₃, ?_, Int.dvd_sub hg hd⟩)
      rw [Int.mul_comm (e : Int)]
      exact hga
    · have hg1 := (index_pos_iff hI he).mpr (Int.not_lt.mp hga)
      have hc1 : a + I * e ≤ c.openTime := (index_pos_iff hI he).mp (by omega)
      apply h c hc hc1 h₂ g hg (Int.not_lt.mp hga)
      rw [index_next hI he, index_next hI he c.openTime] at hlt
      omega

/-- A window that is not full must be the last one with a candle. -/
theorem blocksFilled_of_not_full (hI : 0 < I) (he : 0 < e) (hd : I ∣ a)
    (hshort : (block I e a end_ history).length < e) :
    BlocksFilled I e a end_ history ↔ between Candle.openTime history (a + I * e) end_ = [] := by
  have hpos : 0 < I * (e : Int) := Int.mul_pos hI (by omega)
  constructor
  · intro h
    apply List.filter_eq_nil_iff.mpr
    intro c hc hc'
    obtain ⟨-, h₁, h₂⟩ := mem_window.mp (List.mem_filter.mpr ⟨hc, hc'⟩)
    -- All of the window comes before `c`, so that it would be full.
    have := length_block_of_filled (e := e) hI (show a + I * e - 1 ≤ end_ by omega) fun g hg => by
      obtain ⟨h₃, h₄, h₅⟩ := (mem_ticks_iff hI).mp hg
      rw [Int.mul_comm (e : Int)] at h₄
      apply h c hc (by omega) h₂ g ((Int.dvd_iff_dvd_of_dvd_sub h₅).mpr hd) h₃
      have h0 : (g - a) / (I * e) = 0 := Int.ediv_eq_zero_of_lt (by omega) (by omega)
      rw [h0, index_pos_iff hI he]
      exact h₁
    omega
  · intro h c hc h₁ h₂ g hg h₃ hlt
    have hin : c.openTime < a + I * e := by
      by_contra hc'
      have : c ∈ between Candle.openTime history (a + I * e) end_ :=
        mem_between.mpr ⟨hc, Int.not_lt.mp hc', h₂⟩
      rw [h] at this
      cases this
    have h0 : (c.openTime - a) / (I * e) = 0 := Int.ediv_eq_zero_of_lt (by omega) (by omega)
    have hg0 : 0 ≤ (g - a) / (I * e) := Int.ediv_nonneg (by omega) hpos.le
    omega

end Windows

/-! ## The whole range -/

section Range

variable {cfg : ExchangeGatewayConfig} {server : RestServer} {symbol label : List Char} {I a : Int}
  {range : TimeRange} {limit : Nat} {history : List Candle} {s : FetchState}

/-- The window of a request just before the grid time `a` has the same grid times
as the one at `a`. -/
theorem page_at_cursor (e : Nat) (end_ : Int) {cursor : Int} (hI : 0 < I) (hd : I ∣ a)
    (hasc : history.Pairwise fun b c => b.openTime < c.openTime)
    (hdvd : ∀ c ∈ history, I ∣ c.openTime) (hsa : cursor ≤ a) (hlt : a < cursor + I) :
    page Candle.openTime history cursor (min end_ (cursor + I * e - 1)) e =
      block I e a end_ history := by
  have hsame : between Candle.openTime history cursor (min end_ (cursor + I * e - 1)) =
      block I e a end_ history := by
    apply between_congr
    intro c hc
    have hdc := hdvd c hc
    have hde : I ∣ a + I * e := Int.dvd_add hd (Int.dvd_mul_right _ _)
    constructor
    · rintro ⟨h₁, h₂⟩
      have : a ≤ c.openTime := by
        by_contra h
        have := Lib.Grid.add_le_of_lt hdc hd (by omega)
        omega
      omega
    · rintro ⟨h₁, h₂⟩
      have := Lib.Grid.add_le_of_lt hdc hde (by omega)
      omega
  have hlen := (length_block e end_ hI hd hasc hdvd).1
  rw [page_of_length_le (by rw [hsame]; exact hlen), hsame]

/-- One iteration at a cursor just before the grid time `a`. -/
theorem fetchRangeBody_of_serves (symbol label : List Char) (limit : Nat)
    (hserver : Serves history server) (hI : 0 < I)
    (hlisted : ∀ c ∈ history, Listed I c)
    (hasc : history.Pairwise fun b c => b.openTime < c.openTime) (hmax : 1 ≤ cfg.restMaxLimit)
    (h0 : 0 < range.start) (hs : range.start ≤ s.cursor) (hend : s.cursor ≤ range.end_)
    (hd : I ∣ a) (hsa : s.cursor ≤ a) (hlt : a < s.cursor + I) :
    ∃ requests,
      fetchRangeBody cfg server symbol label I range limit s =
        if block I (effectiveLimit cfg limit) a range.end_ history = [] then .inr s.ordered
        else if (block I (effectiveLimit cfg limit) a range.end_ history).length <
            effectiveLimit cfg limit then
          .inr (insertAll Candle.openTime s.ordered
            (block I (effectiveLimit cfg limit) a range.end_ history))
        else .inl
          { cursor := a + I * effectiveLimit cfg limit
            ordered := insertAll Candle.openTime s.ordered
              (block I (effectiveLimit cfg limit) a range.end_ history)
            requests := requests } := by
  have he : 0 < effectiveLimit cfg limit := by
    unfold effectiveLimit
    split <;> omega
  have hle : effectiveLimit cfg limit ≤ cfg.restMaxLimit := by
    unfold effectiveLimit
    split <;> omega
  have hpos : 0 < I * (effectiveLimit cfg limit : Int) := Int.mul_pos hI (by omega)
  unfold fetchRangeBody
  generalize effectiveLimit cfg limit = e at *
  dsimp only
  have hdvd : ∀ c ∈ history, I ∣ c.openTime := fun c hc => (hlisted c hc).dvd
  rw [if_neg (Int.not_lt.mpr hend), if_pos ⟨hI, he⟩,
    fetchAttempts_of_some (fetchRestPage_of_serves hserver hlisted s.requests symbol label (by omega)
      (by omega) he hle), page_at_cursor e range.end_ hI hd hasc hdvd hsa hlt]
  dsimp only
  refine ⟨s.requests + 1, ?_⟩
  cases hlast : (block I e a range.end_ history).getLast? with
  | none => rw [if_pos (List.getLast?_eq_none_iff.mp hlast)]
  | some last =>
    have hne : block I e a range.end_ history ≠ [] := by
      intro h
      rw [h] at hlast
      cases hlast
    have hfilter : (block I e a range.end_ history).filter (fun candle =>
        !(candle.openTime < range.start || range.end_ < candle.openTime)) =
        block I e a range.end_ history := by
      apply List.filter_eq_self.mpr
      intro c hc
      obtain ⟨-, h₁, h₂⟩ := mem_between.mp hc
      simp only [Bool.not_eq_true', Bool.or_eq_false_iff, decide_eq_false_iff_not]
      omega
    dsimp only
    rw [if_neg hne, hfilter]
    by_cases hshort : (block I e a range.end_ history).length < e
    · rw [if_pos hshort, if_pos hshort]
    · rw [if_neg hshort, if_neg hshort]
      -- A full page ends with the last grid time of the window.
      obtain ⟨n, rfl⟩ : ∃ n, e = n + 1 := ⟨e - 1, by omega⟩
      obtain ⟨h₁, h₂⟩ := length_block (n + 1) range.end_ hI hd hasc hdvd
      have htimes := congrArg List.getLast? (h₂ (by omega))
      rw [getLast?_ticks, List.getLast?_map, hlast, Option.map_some, Option.some.injEq] at htimes
      have hn : I * ((n + 1 : Nat) : Int) = n * I + I := by push_cast; ring
      have hn0 : 0 ≤ (n : Int) * I := by positivity
      have hcursor : (if last.openTime ≤ s.cursor then s.cursor + I else last.openTime + I) =
          a + I * (n + 1 : Nat) := by
        split <;> omega
      rw [hcursor]

/-- The loop brings the candles from the grid time at its cursor on, up to the
first window with a hole. -/
theorem ends_of_cursor (symbol label : List Char) (limit : Nat) (hserver : Serves history server) (hI : 0 < I)
    (hlisted : ∀ c ∈ history, Listed I c)
    (hasc : history.Pairwise fun b c => b.openTime < c.openTime) (hmax : 1 ≤ cfg.restMaxLimit)
    (h0 : 0 < range.start) (hs : range.start ≤ s.cursor) (hd : I ∣ a) (hsa : s.cursor ≤ a)
    (hlt : a < s.cursor + I) :
    ∃ got, Ends (fetchRangeBody cfg server symbol label I range limit) s
        (insertAll Candle.openTime s.ordered got) ∧
      got <+: between Candle.openTime history a range.end_ ∧
      (got = between Candle.openTime history a range.end_ ↔
        BlocksFilled I (effectiveLimit cfg limit) a range.end_ history) := by
  have he : 0 < effectiveLimit cfg limit := by
    unfold effectiveLimit
    split <;> omega
  have hgrid : ∀ c ∈ history, I ∣ c.openTime := fun c hc => (hlisted c hc).dvd
  have hle : Ascending Candle.openTime history := hasc.imp Int.le_of_lt
  have hpos : 0 < I * (effectiveLimit cfg limit : Int) := Int.mul_pos hI (by omega)
  induction hn : (range.end_ + 1 - s.cursor).toNat using Nat.strong_induction_on
    generalizing s a with
  | _ n ih =>
    by_cases hend : range.end_ < s.cursor
    · -- The range is over.
      have hnil : between Candle.openTime history a range.end_ = [] :=
        List.filter_eq_nil_iff.mpr fun c _ => by
          simp only [Bool.and_eq_true, decide_eq_true_eq]
          omega
      refine ⟨[], ends_of_done ?_, List.nil_prefix, ?_⟩
      · unfold fetchRangeBody
        rw [if_pos hend]
        rfl
      · apply iff_of_true hnil.symm
        intro c hc h₁ h₂
        omega
    · obtain ⟨requests, hb⟩ := fetchRangeBody_of_serves symbol label limit
        hserver hI hlisted hasc hmax h0 hs (Int.not_lt.mp hend) hd hsa hlt
      have hsplit := between_eq_block_append (effectiveLimit cfg limit) a range.end_ hI hle
      obtain ⟨hlen, hticks⟩ := length_block (effectiveLimit cfg limit) range.end_ hI hd
        hasc hgrid
      generalize hB : block I (effectiveLimit cfg limit) a range.end_ history = B at *
      rw [hsplit]
      by_cases hshort : B.length < effectiveLimit cfg limit
      · -- The page is short, or empty: nothing after it is fetched.
        refine ⟨B, ends_of_done ?_, List.prefix_append _ _, ?_⟩
        · rw [hb, if_pos hshort]
          split
          · rename_i h
            rw [h]
            rfl
          · rfl
        · rw [List.self_eq_append_right]
          exact (blocksFilled_of_not_full hI he hd (by rw [hB]; exact hshort)).symm
      · have hne : B ≠ [] := by
          rintro rfl
          exact hshort he
        rw [if_neg hne, if_neg hshort] at hb
        obtain ⟨got, hgot, hprefix, hiff⟩ := ih _ (by dsimp only; omega) (a := a + I * effectiveLimit cfg limit)
          (s := ⟨a + I * effectiveLimit cfg limit, insertAll Candle.openTime s.ordered B, requests⟩)
          (by dsimp only; omega) (Int.dvd_add hd (Int.dvd_mul_right _ _)) le_rfl (by dsimp only; omega) rfl
        have hfull : ∀ g ∈ ticks a I (effectiveLimit cfg limit), g ∈ history.map Candle.openTime := by
          intro g hg
          rw [← hticks (by omega), ← hB] at hg
          obtain ⟨c, hc, rfl⟩ := List.mem_map.mp hg
          exact List.mem_map_of_mem (mem_between.mp hc).1
        refine ⟨B ++ got, (ends_next_iff hb).mpr (by rw [insertAll_append]; exact hgot),
          (List.prefix_append_right_inj B).mpr hprefix, ?_⟩
        rw [List.append_cancel_left_eq, hiff, blocksFilled_of_full hI he hfull hd]

end Range

/-- Against an endpoint that answers every request from one history, `fetchRange`
brings the candles of the range exactly if no candle of the range comes after a
hole in an earlier window. -/
theorem fetchRange_complete_iff (cfg : ExchangeGatewayConfig) (hmax : 1 ≤ cfg.restMaxLimit)
    (server : RestServer) (history : List Candle) (hserver : Serves history server)
    (hasc : history.Pairwise fun b c => b.openTime < c.openTime) (interval : Interval)
    (hI : 0 < interval.ms) (hlisted : ∀ c ∈ history, Listed interval.ms c) (symbol : List Char)
    (range : TimeRange) (h0 : 0 < range.start) (hrange : range.start < range.end_) (limit : Nat) :
    fetchRange cfg server symbol interval range limit =
        history.filter (fun c => range.start ≤ c.openTime && c.openTime ≤ range.end_) ↔
      BlocksFilled interval.ms (effectiveLimit cfg limit) (ceilTo interval.ms range.start)
        range.end_ history := by
  have hd := dvd_ceilTo interval.ms range.start
  obtain ⟨hle, hlt⟩ := le_ceilTo hI range.start
  -- The range has the same candles from its first grid time on.
  have hsame : between Candle.openTime history range.start range.end_ =
      between Candle.openTime history (ceilTo interval.ms range.start) range.end_ := by
    apply between_congr
    intro c hc
    have hdc := (hlisted c hc).dvd
    constructor
    · rintro ⟨h₁, h₂⟩
      refine ⟨?_, h₂⟩
      by_contra h
      have := Lib.Grid.add_le_of_lt hdc hd (by omega)
      omega
    · rintro ⟨h₁, h₂⟩
      omega
  obtain ⟨got, hgot, hprefix, hiff⟩ := ends_of_cursor (s := { cursor := range.start }) symbol
    (requestLabel interval) limit hserver hI hlisted hasc hmax h0 le_rfl hd hle hlt
  have hfetch : fetchRange cfg server symbol interval range limit = got := by
    obtain ⟨ordered, ho⟩ := fetchRange_ends cfg server symbol (requestLabel interval) limit hI
      hrange.le { cursor := range.start } rfl
    have hempty : range.empty = false := decide_eq_false (by omega)
    have hvalid : interval.valid = true := decide_eq_true hI
    have hgotasc : got.Pairwise fun b c => b.openTime < c.openTime :=
      (hasc.sublist List.filter_sublist).sublist hprefix.sublist
    unfold fetchRange
    rw [hempty, hvalid, if_neg (by decide), if_neg (by decide)]
    dsimp only
    rw [ho, Option.getD_some, Ends.unique ⟨_, ho⟩ hgot, values_insertAll hgotasc]
  rw [hfetch, ← hiff, ← hsame]
  rfl

/-- A history without its second minute. -/
def gappedHistory : List Candle :=
  [⟨60000, 119999, 1, 1, 1, 1, 0, 0, 0, true⟩, ⟨180000, 239999, 1, 1, 1, 1, 0, 0, 0, true⟩]

/-- An endpoint over a history. -/
def historyServer (history : List Candle) : RestServer := fun _ query =>
  .response 200 (some (.array ((page Candle.openTime history (query.startTime.getD 0)
    (query.endTime.getD 0) query.limit).map kline)))

theorem historyServer_serves (history : List Candle) : Serves history (historyServer history) := by
  intro n query start end_ hs he
  rw [historyServer, hs, he]
  rfl

/-- With pages of two candles the third minute is not fetched. -/
theorem fetchRange_gapped :
    fetchRange {} (historyServer gappedHistory) "BTCUSDT".toList ⟨60000⟩ ⟨60000, 239999⟩ 2 ≠
      gappedHistory.filter (fun c => 60000 ≤ c.openTime && c.openTime ≤ 239999) := by
  decide +kernel

/-- With pages of three candles it is. -/
theorem fetchRange_gapped_three :
    fetchRange {} (historyServer gappedHistory) "BTCUSDT".toList ⟨60000⟩ ⟨60000, 239999⟩ 3 =
      gappedHistory.filter (fun c => 60000 ≤ c.openTime && c.openTime ≤ 239999) := by
  refine (fetchRange_complete_iff {} (by decide) _ gappedHistory (historyServer_serves _) (by decide)
    ⟨60000⟩ (by decide) ?_ _ ⟨60000, 239999⟩ (by decide) (by decide) 3).mpr ?_
  · intro c hc
    rcases List.mem_cons.mp hc with rfl | hc
    · exact ⟨by decide, rfl, rfl, by decide, by decide +kernel⟩
    · rcases List.mem_singleton.mp hc with rfl
      exact ⟨by decide, rfl, rfl, by decide, by decide +kernel⟩
  · -- Both candles lie in the first window.
    intro c hc h₁ h₂ g hg h₃ hlt
    have ha : ceilTo 60000 60000 = 60000 := by decide
    simp only [effectiveLimit, ha] at h₃ hlt
    rcases List.mem_cons.mp hc with rfl | hc
    · norm_num at hlt
      omega
    · rcases List.mem_singleton.mp hc with rfl
      norm_num at hlt
      omega

end TCV.Exchange
