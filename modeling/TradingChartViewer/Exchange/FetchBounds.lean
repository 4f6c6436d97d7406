import TradingChartViewer.Exchange.FetchRange

/-!
# What any endpoint can bring

`fetchRange` against an endpoint that answers as it likes.

* `fetchedPage`: the page of an iteration;
* `Decoded`: what is known of a candle from a reply;
* `cursor_add_le_of_next`: every page moves the cursor by an interval at least;
* `fetchRange_bounds`: so the loop ends after one page for each interval of the range, with
  candles of the range in ascending order.
-/

namespace TCV.Exchange

open TCV.Domain Lib.Grid Lib.Loop Lib.TimeMap

/-! ## Pages -/

/-- The page that the iteration from `s` fetches, if one of its attempts is ok. -/
def fetchedPage (cfg : ExchangeGatewayConfig) (server : RestServer)
    (symbol intervalLabel : List Char) (intervalMs : Int) (range : TimeRange) (limit : Nat)
    (s : FetchState) : Option (List Candle) :=
  if range.end_ < s.cursor then none
  else
    let endTime : Option Int :=
      if 0 < intervalMs ∧ 0 < effectiveLimit cfg limit then
        some (min range.end_ (s.cursor + intervalMs * effectiveLimit cfg limit - 1))
      else none
    (fetchAttempts
      (fun n => fetchRestPage cfg server n symbol intervalLabel s.cursor endTime
        (effectiveLimit cfg limit) intervalMs)
      (max cfg.maxRetries 0).toNat s.requests).1

/-- A candle as every candle of a reply is decoded. -/
structure Decoded (I : Int) (c : Candle) : Prop where
  dvd : I ∣ c.openTime
  closeTime : c.closeTime = c.openTime + I - 1
  valid : validateCandle c = true

section Decode

variable {I : Int} {c : Candle}

theorem decoded_of_decodeEntry (hI : 0 < I) {v : JsonValue} (h : decodeEntry I v = some (some c)) :
    Decoded I c := by
  unfold decodeEntry at h
  split at h
  · rename_i arr
    split at h
    · cases h
    · obtain ⟨rawOpen, -, h⟩ := Option.bind_eq_some_iff.mp h
      dsimp only at h
      split at h
      · cases h
      · simp only [Option.bind_eq_bind, Option.bind_eq_some_iff] at h
        obtain ⟨open_, -, high, -, low, -, close, -, baseVolume, -, quoteVolume, -, trades, -, h⟩ := h
        split at h
        · cases h
        · rename_i hv
          obtain rfl := Option.some.inj (Option.some.inj h)
          refine ⟨?_, rfl, by simpa using hv⟩
          dsimp only
          rw [alignDownMs_eq hI]
          exact dvd_floorTo rawOpen I
  · cases h

/-- What comes out of a list of entries comes from one of them. -/
theorem exists_of_mem_mapM {α β : Type*} {f : α → Option β} {l : List α} {out : List β}
    (h : l.mapM f = some out) {b : β} (hb : b ∈ out) : ∃ a ∈ l, f a = some b := by
  induction l generalizing out with
  | nil =>
    obtain rfl := Option.some.inj h
    cases hb
  | cons a l ih =>
    simp only [List.mapM_cons, Option.bind_eq_bind, Option.bind_eq_some_iff] at h
    obtain ⟨b', ha, out', hl, h⟩ := h
    obtain rfl := Option.some.inj h
    rcases List.mem_cons.mp hb with rfl | hb
    · exact ⟨a, List.mem_cons_self, ha⟩
    · obtain ⟨a', ha', hfa⟩ := ih hl hb
      exact ⟨a', List.mem_cons_of_mem a ha', hfa⟩

theorem decoded_of_fetchRestPage (hI : 0 < I) {cfg : ExchangeGatewayConfig} {server : RestServer}
    {n limit : Nat} {symbol label : List Char} {start : Int} {end_ : Option Int} {page : List Candle}
    (h : fetchRestPage cfg server n symbol label start end_ limit I = some page) (hc : c ∈ page) :
    Decoded I c := by
  unfold fetchRestPage at h
  dsimp only at h
  split at h
  · cases h
  · split at h
    · cases h
    · split at h
      · obtain ⟨decoded, hentries, rfl⟩ := Option.map_eq_some_iff.mp h
        obtain ⟨c', hc', rfl⟩ := List.mem_filterMap.mp hc
        obtain ⟨v, -, hv⟩ := exists_of_mem_mapM hentries hc'
        exact decoded_of_decodeEntry hI hv
      · cases h

/-- The page of the attempts is that of one of them. -/
theorem exists_of_fetchAttempts {fetch : Nat → Option (List Candle)} {attempts n : Nat}
    {page : List Candle} (h : (fetchAttempts fetch attempts n).1 = some page) :
    ∃ m, fetch m = some page := by
  induction attempts generalizing n with
  | zero => exact ⟨n, h⟩
  | succ attempts ih =>
    rw [fetchAttempts] at h
    split at h
    · rename_i page' hpage
      obtain rfl := Option.some.inj h
      exact ⟨n, hpage⟩
    · exact ih h

end Decode

/-! ## One iteration -/

section Iteration

variable {cfg : ExchangeGatewayConfig} {server : RestServer} {symbol label : List Char} {I : Int}
  {range : TimeRange} {limit : Nat} {s t : FetchState}

theorem decoded_of_fetchedPage (hI : 0 < I) {page : List Candle}
    (h : fetchedPage cfg server symbol label I range limit s = some page) :
    ∀ c ∈ page, Decoded I c := by
  intro c hc
  unfold fetchedPage at h
  split at h
  · cases h
  · obtain ⟨m, hm⟩ := exists_of_fetchAttempts h
    exact decoded_of_fetchRestPage hI hm hc

/-- The candles of a page that belong to the range. -/
def inRange (range : TimeRange) (page : List Candle) : List Candle :=
  page.filter fun candle => !(candle.openTime < range.start || range.end_ < candle.openTime)

/-- An iteration leaves without a page, or takes in what its page has of the range; then it moves
the cursor behind the last candle of the page. -/
theorem fetchRangeBody_cases (cfg : ExchangeGatewayConfig) (server : RestServer)
    (symbol label : List Char) (I : Int) (range : TimeRange) (limit : Nat) (s : FetchState) :
    fetchRangeBody cfg server symbol label I range limit s = .inr s.ordered ∨
    ∃ page last, fetchedPage cfg server symbol label I range limit s = some page ∧
      page.getLast? = some last ∧
      (fetchRangeBody cfg server symbol label I range limit s =
          .inr (insertAll Candle.openTime s.ordered (inRange range page)) ∨
        ∃ requests, fetchRangeBody cfg server symbol label I range limit s = .inl
          { cursor :=
              if last.openTime ≤ s.cursor then s.cursor + I else last.openTime + I
            ordered := insertAll Candle.openTime s.ordered (inRange range page)
            requests := requests }) := by
  unfold fetchRangeBody fetchedPage
  by_cases hend : range.end_ < s.cursor
  · exact .inl (if_pos hend)
  · rw [if_neg hend, if_neg hend]
    dsimp only
    generalize fetchAttempts _ _ _ = attempt
    obtain ⟨page, requests⟩ := attempt
    cases page with
    | none => exact .inl rfl
    | some page =>
      dsimp only
      cases hlast : page.getLast? with
      | none => exact .inl rfl
      | some last =>
        refine .inr ⟨page, last, rfl, hlast, ?_⟩
        dsimp only
        by_cases hshort : page.length < effectiveLimit cfg limit
        · exact .inl (if_pos hshort)
        · exact .inr ⟨requests, if_neg hshort⟩

theorem cursor_le_of_fetchedPage {page : List Candle}
    (h : fetchedPage cfg server symbol label I range limit s = some page) :
    s.cursor ≤ range.end_ := by
  by_contra hend
  rw [fetchedPage, if_pos (Int.not_le.mp hend)] at h
  cases h

/-- A page moves the cursor by an interval at least, wherever its last candle is. -/
theorem cursor_add_le_of_next
    (h : fetchRangeBody cfg server symbol label I range limit s = .inl t) :
    s.cursor ≤ range.end_ ∧ s.cursor + I ≤ t.cursor := by
  rcases fetchRangeBody_cases cfg server symbol label I range limit s with
    he | ⟨page, last, hpage, -, he | ⟨requests, he⟩⟩ <;> rw [he] at h
  · cases h
  · cases h
  · obtain rfl := Sum.inl.inj h
    refine ⟨cursor_le_of_fetchedPage hpage, ?_⟩
    dsimp only
    split <;> omega

/-- How many intervals of the range are left at the cursor, the one it is in included. -/
def intervalsLeft (I : Int) (range : TimeRange) (s : FetchState) : Nat :=
  ((range.end_ - s.cursor) / I + 1).toNat

theorem intervalsLeft_pos (hI : 0 < I) (h : s.cursor ≤ range.end_) : 0 < intervalsLeft I range s := by
  have := Int.ediv_nonneg (show 0 ≤ range.end_ - s.cursor by omega) hI.le
  unfold intervalsLeft
  omega

theorem intervalsLeft_lt_of_next (hI : 0 < I)
    (h : fetchRangeBody cfg server symbol label I range limit s = .inl t) :
    intervalsLeft I range t < intervalsLeft I range s := by
  obtain ⟨hend, hcursor⟩ := cursor_add_le_of_next h
  have hpos := intervalsLeft_pos hI hend
  have hnext : (range.end_ - t.cursor) / I ≤ (range.end_ - s.cursor) / I - 1 := by
    calc (range.end_ - t.cursor) / I
        ≤ (range.end_ - s.cursor + -1 * I) / I := Int.ediv_le_ediv hI (by omega)
      _ = (range.end_ - s.cursor) / I - 1 := by
        rw [Int.add_mul_ediv_right _ _ hI.ne']
        rfl
  unfold intervalsLeft at hpos ⊢
  omega

/-- The loop gets a page at most once for each of them. -/
theorem countP_fetchedPage_le (cfg : ExchangeGatewayConfig) (server : RestServer)
    (symbol label : List Char) (range : TimeRange) (limit : Nat) (hI : 0 < I) (n : Nat)
    (s : FetchState) :
    ((heads (fetchRangeBody cfg server symbol label I range limit) n s).countP fun s =>
      (fetchedPage cfg server symbol label I range limit s).isSome) ≤ intervalsLeft I range s := by
  refine countP_heads_le _ (intervalsLeft I range) _ (fun s t hb => ?_) (fun s hs => ?_) n s
  · exact intervalsLeft_lt_of_next hI hb
  · obtain ⟨page, hpage⟩ := Option.isSome_iff_exists.mp hs
    exact intervalsLeft_pos hI (cursor_le_of_fetchedPage hpage)

/-- What the map holds: candles of the range, each under its time. -/
def Collected (I : Int) (range : TimeRange) (ordered : Std.ExtTreeMap Int Candle) : Prop :=
  Keyed Candle.openTime ordered ∧ ∀ (t : Int) c, ordered[t]? = some c →
    range.start ≤ c.openTime ∧ c.openTime ≤ range.end_ ∧ Decoded I c

theorem Collected.insertAll {ordered : Std.ExtTreeMap Int Candle} (h : Collected I range ordered)
    {page : List Candle} (hpage : ∀ c ∈ page, Decoded I c) :
    Collected I range (insertAll Candle.openTime ordered (inRange range page)) := by
  refine ⟨h.1.insertAll _, forall_insertAll h.2 fun c hc => ?_⟩
  obtain ⟨hc, hin⟩ := List.mem_filter.mp hc
  simp only [Bool.not_eq_true', Bool.or_eq_false_iff, decide_eq_false_iff_not, Int.not_lt] at hin
  exact ⟨hin.1, hin.2, hpage c hc⟩

theorem Collected.next (hI : 0 < I) (h : Collected I range s.ordered)
    (hb : fetchRangeBody cfg server symbol label I range limit s = .inl t) :
    Collected I range t.ordered := by
  rcases fetchRangeBody_cases cfg server symbol label I range limit s with
    he | ⟨page, last, hpage, -, he | ⟨requests, he⟩⟩ <;> rw [he] at hb
  · cases hb
  · cases hb
  · obtain rfl := Sum.inl.inj hb
    exact h.insertAll (decoded_of_fetchedPage hI hpage)

theorem Collected.exit (hI : 0 < I) (h : Collected I range s.ordered)
    {ordered : Std.ExtTreeMap Int Candle}
    (hb : fetchRangeBody cfg server symbol label I range limit s = .inr ordered) :
    Collected I range ordered := by
  rcases fetchRangeBody_cases cfg server symbol label I range limit s with
    he | ⟨page, last, hpage, -, he | ⟨requests, he⟩⟩ <;> rw [he] at hb
  · exact Sum.inr.inj hb ▸ h
  · exact Sum.inr.inj hb ▸ h.insertAll (decoded_of_fetchedPage hI hpage)
  · cases hb

theorem Collected.of_ends (hI : 0 < I) {cursor : Int} {ordered : Std.ExtTreeMap Int Candle}
    (h : Ends (fetchRangeBody cfg server symbol label I range limit) { cursor := cursor } ordered) :
    Collected I range ordered := by
  refine Ends.rule (fun _ _ h hb => Collected.next hI h hb) (fun _ _ h hb => Collected.exit hI h hb)
    h ⟨keyed_empty, fun t c hc => ?_⟩
  rw [Std.ExtTreeMap.getElem?_empty] at hc
  cases hc

end Iteration

/-- Whatever the endpoint answers, the loop ends, after at most one page for each interval that
begins in the range; the result ascends, and its candles are in the range, on the grid, and valid. -/
theorem fetchRange_bounds (cfg : ExchangeGatewayConfig) (server : RestServer)
    (symbol : List Char) (interval : Interval) (hI : 0 < interval.ms) (range : TimeRange)
    (hrange : range.empty = false) (limit : Nat) :
    let body := fetchRangeBody cfg server symbol (requestLabel interval) interval.ms range limit
    let candles := fetchRange cfg server symbol interval range limit
    (∃ ordered, Ends body { cursor := range.start } ordered ∧ candles = values ordered) ∧
    (∀ n, ((heads body n { cursor := range.start }).countP fun s =>
        (fetchedPage cfg server symbol (requestLabel interval) interval.ms range limit s).isSome) ≤
      (range.end_ - range.start) / interval.ms + 1) ∧
    (candles.Pairwise fun a b => a.openTime < b.openTime) ∧
    ∀ c ∈ candles, range.start ≤ c.openTime ∧ c.openTime ≤ range.end_ ∧
      interval.ms ∣ c.openTime ∧ c.closeTime = c.openTime + interval.ms - 1 ∧
      validateCandle c = true := by
  intro body candles
  have hlt : range.start < range.end_ := by
    have := of_decide_eq_false hrange
    omega
  obtain ⟨ordered, ho⟩ := fetchRange_ends cfg server symbol (requestLabel interval) limit hI
    hlt.le { cursor := range.start } rfl
  have hcandles : candles = values ordered := by
    have hvalid : interval.valid = true := decide_eq_true hI
    show fetchRange cfg server symbol interval range limit = _
    unfold fetchRange
    rw [hrange, hvalid, if_neg (by decide), if_neg (by decide)]
    dsimp only
    rw [ho, Option.getD_some]
  have hcollected : Collected interval.ms range ordered := Collected.of_ends hI ⟨_, ho⟩
  refine ⟨⟨ordered, ⟨_, ho⟩, hcandles⟩, fun n => ?_, ?_, ?_⟩
  · have hcount : ((heads body n { cursor := range.start }).countP fun s =>
        (fetchedPage cfg server symbol (requestLabel interval) interval.ms range limit s).isSome) ≤
          intervalsLeft interval.ms range { cursor := range.start } :=
      countP_fetchedPage_le cfg server symbol (requestLabel interval) range limit hI n _
    have := Int.ediv_nonneg (show 0 ≤ range.end_ - range.start by omega) hI.le
    simp only [intervalsLeft] at hcount
    omega
  · rw [hcandles]
    exact values_pairwise hcollected.1
  · intro c hc
    rw [hcandles] at hc
    obtain ⟨hstart, hend, hdecoded⟩ := hcollected.2 _ c ((mem_values_iff hcollected.1).mp hc)
    exact ⟨hstart, hend, hdecoded.dvd, hdecoded.closeTime, hdecoded.valid⟩

/-- An endpoint that answers every request with four minutes: the third, the second, the second
once more, at another price, and the first. -/
def disorderedServer : RestServer := fun _ _ =>
  .response 200 (some (.array [kline ⟨180000, 239999, 1, 1, 1, 1, 0, 0, 0, true⟩,
    kline ⟨120000, 179999, 1, 1, 1, 1, 0, 0, 0, true⟩,
    kline ⟨120000, 179999, 2, 2, 2, 2, 0, 0, 0, true⟩,
    kline ⟨60000, 119999, 1, 1, 1, 1, 0, 0, 0, true⟩]))

/-- For the second minute and the third, it is asked twice. -/
theorem fetchRange_bounds_disordered :
    let candles := fetchRange {} disorderedServer "BTCUSDT".toList ⟨60000⟩ ⟨120000, 239999⟩ 4
    let pages := (heads (fetchRangeBody {} disorderedServer "BTCUSDT".toList
      (requestLabel ⟨60000⟩) 60000 ⟨120000, 239999⟩ 4) 9 { cursor := 120000 }).countP fun s =>
        (fetchedPage {} disorderedServer "BTCUSDT".toList (requestLabel ⟨60000⟩) 60000
          ⟨120000, 239999⟩ 4 s).isSome
    candles.map (fun c => (c.openTime, c.close)) = [(120000, 2), (180000, 1)] ∧
      pages = 2 ∧ (pages : Int) ≤ (239999 - 120000) / 60000 + 1 ∧
      (candles.Pairwise fun a b => a.openTime < b.openTime) ∧
      ∀ c ∈ candles, 120000 ≤ c.openTime ∧ c.openTime ≤ 239999 := by
  intro candles pages
  obtain ⟨-, hpages, hascends, hcandles⟩ := fetchRange_bounds {} disorderedServer
    "BTCUSDT".toList ⟨60000⟩ (by decide) ⟨120000, 239999⟩ (by decide) 4
  exact ⟨by decide +kernel, by decide +kernel, hpages 9, hascends,
    fun c hc => ⟨(hcandles c hc).1, (hcandles c hc).2.1⟩⟩

end TCV.Exchange
