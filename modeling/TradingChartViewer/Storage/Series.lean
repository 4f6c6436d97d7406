import TradingChartViewer.Lib.Tape
import TradingChartViewer.Storage.Repository

/-!
# The repository as a tape of candles

What one call does to a repository, in terms of the tape of its candles.

* `metadataOf_eq`: the metadata are those of the closed candles;
* `Repository.Sound`: the invariant of every repository a constructor built,
  whatever its file holds;
* `appendOrReplaceLocked_of_accepts`, `appendOrReplaceLocked_of_not_accepts`:
  all that one candle can do to a sound repository;
* `sealOpenTailIfAny_eq`, `appendBatch_eq`: the other two writers are a new
  last candle, and single candles in turn.
-/

namespace TCV.Storage

open TCV.Domain Lib.Tape

/-- Candles as cells of a tape. -/
def candleCells : Cells Candle where
  time := Candle.openTime
  final := Candle.isClosed
  finish := Candle.sealed
  time_finish _ := rfl
  final_finish _ := rfl
  finish_of_final c h := by
    cases c
    simp_all [Candle.sealed]

@[simp] theorem candleCells_time (c : Candle) : candleCells.time c = c.openTime := rfl

@[simp] theorem candleCells_final (c : Candle) : candleCells.final c = c.isClosed := rfl

@[simp] theorem candleCells_finish (c : Candle) : candleCells.finish c = c.sealed := rfl

/-! ## Metadata -/

/-- The closed candles of a list. -/
def closedOf (candles : List Candle) : List Candle := candles.filter (·.isClosed)

theorem closedOf_append (as bs : List Candle) : closedOf (as ++ bs) = closedOf as ++ closedOf bs :=
  List.filter_append ..

theorem closedOf_of_all {cs : List Candle} (h : ∀ c ∈ cs, c.isClosed = true) : closedOf cs = cs :=
  List.filter_eq_self.mpr h

theorem mem_of_mem_closedOf {cs : List Candle} {c : Candle} (h : c ∈ closedOf cs) : c ∈ cs :=
  List.mem_of_mem_filter h

theorem closedOf_singleton (c : Candle) : closedOf [c] = if c.isClosed then [c] else [] := by
  cases h : c.isClosed <;> simp [closedOf, h]

/-- All candles but possibly an open last one. -/
theorem closedOf_prefix_of_closed {cs : List Candle} (h : ∀ c ∈ cs.dropLast, c.isClosed = true) :
    closedOf cs <+: cs := by
  cases hl : cs.getLast? with
  | none =>
    rw [List.getLast?_eq_none_iff.mp hl]
    exact List.prefix_rfl
  | some last =>
    rw [← dropLast_append_of_getLast? hl, closedOf_append, closedOf_of_all h,
      closedOf_singleton]
    split
    · exact List.prefix_rfl
    · rw [List.append_nil]
      exact List.prefix_append _ _

theorem metadata_foldl (candles : List Candle) :
    candles.foldl metadataStep ({}, true) =
      ({ minOpen := ((closedOf candles).head?.map Candle.openTime).getD 0
         maxOpen := ((closedOf candles).getLast?.map Candle.openTime).getD 0
         count := (closedOf candles).length }, (closedOf candles).isEmpty) := by
  induction candles using List.reverseRecOn with
  | nil => rfl
  | append_singleton cs c ih =>
    rw [List.foldl_append, ih, closedOf_append, closedOf_singleton, List.foldl_cons, List.foldl_nil]
    cases hc : c.isClosed with
    | false => simp [metadataStep, hc]
    | true =>
      cases hcs : closedOf cs with
      | nil => simp [metadataStep, hc]
      | cons d ds =>
        have hlast : (d :: (ds ++ [c])).getLast? = some c := List.getLast?_concat (l := d :: ds)
        simp [metadataStep, hc, hlast]

/-- The metadata are those of the closed candles. -/
theorem metadataOf_eq (candles : List Candle) :
    metadataOf candles =
      { minOpen := ((closedOf candles).head?.map Candle.openTime).getD 0
        maxOpen := ((closedOf candles).getLast?.map Candle.openTime).getD 0
        count := (closedOf candles).length } := by
  rw [metadataOf, metadata_foldl]

theorem metadataOf_congr_times {as bs : List Candle}
    (h : (closedOf as).map Candle.openTime = (closedOf bs).map Candle.openTime) :
    metadataOf as = metadataOf bs := by
  have hlen := congrArg List.length h
  rw [List.length_map, List.length_map] at hlen
  rw [metadataOf_eq, metadataOf_eq, ← List.head?_map, ← List.head?_map, ← List.getLast?_map,
    ← List.getLast?_map, h, hlen]

theorem metadataOf_congr {as bs : List Candle} (h : closedOf as = closedOf bs) :
    metadataOf as = metadataOf bs :=
  metadataOf_congr_times (by rw [h])

/-! ## Records -/

section Records

variable {r : Repository} {c : Candle}

/-- The repository's symbol and interval label survive in a record. -/
def Repository.persistable (r : Repository) : Bool :=
  strncpy 16 r.symbol ≠ [] && strncpy 8 r.intervalLabel ≠ []

/-- The record of the normalised candle is valid. -/
def Repository.accepts (r : Repository) (c : Candle) : Bool :=
  isValidRecord (r.toPriceData (r.normalizeCandle c))

theorem normalizeCandle_openTime (hI : 0 < r.intervalMs) (c : Candle) :
    (r.normalizeCandle c).openTime = alignDownMs c.openTime r.intervalMs := by
  rw [Repository.normalizeCandle, if_pos hI]

theorem normalizeCandle_openTime_of_dvd (hI : 0 < r.intervalMs) (hd : r.intervalMs ∣ c.openTime) :
    (r.normalizeCandle c).openTime = c.openTime := by
  rw [normalizeCandle_openTime hI, alignDownMs_of_dvd hd]

theorem normalizeCandle_isClosed (c : Candle) :
    (r.normalizeCandle c).isClosed = c.isClosed := by
  unfold Repository.normalizeCandle
  split <;> rfl

theorem normalizeCandle_trades (c : Candle) : (r.normalizeCandle c).trades = c.trades := by
  unfold Repository.normalizeCandle
  split <;> rfl

theorem dvd_normalizeCandle (hI : 0 < r.intervalMs) (c : Candle) :
    r.intervalMs ∣ (r.normalizeCandle c).openTime := by
  rw [normalizeCandle_openTime hI, alignDownMs_eq hI]
  exact Lib.Grid.dvd_floorTo _ _

theorem isValidRecord_toPriceData (hI : 0 < r.intervalMs) (hd : r.intervalMs ∣ c.openTime) :
    isValidRecord (r.toPriceData c) = true ↔ 0 < c.openTime ∧ r.persistable = true := by
  simp only [isValidRecord_iff, Repository.toPriceData, alignDownMs_of_dvd hd,
    Repository.persistable, hI, decide_true, Bool.and_true, decide_eq_true_eq, Bool.and_eq_true,
    ne_eq]
  constructor
  · rintro ⟨h₁, -, h₃, h₄⟩
    exact ⟨h₁, h₃, h₄⟩
  · rintro ⟨h₁, h₃, h₄⟩
    exact ⟨h₁, by rw [if_pos h₁]; omega, h₃, h₄⟩

theorem accepts_iff (hI : 0 < r.intervalMs) :
    r.accepts c = true ↔ 0 < (r.normalizeCandle c).openTime ∧ r.persistable = true :=
  isValidRecord_toPriceData hI (dvd_normalizeCandle hI c)

theorem persistClosed_of_closed [TimeUtils] (hc : c.isClosed = true)
    (hv : isValidRecord (r.toPriceData c) = true) :
    r.persistClosed c = (true, { r with file := saveRecords r.file [r.toPriceData c] }) := by
  simp [Repository.persistClosed, hc, hv]

end Records

/-! ## One candle -/

/-- An open last candle, closed. -/
def sealedTail (cells : List Candle) : List Candle :=
  match cells.getLast? with
  | some last => if last.isClosed then [] else [last.sealed]
  | none => []

theorem sealedTail_eq_cons {cells rest : List Candle} {tail : Candle}
    (h : sealedTail cells = tail :: rest) :
    ∃ last, cells.getLast? = some last ∧ last.isClosed = false ∧ tail = last.sealed := by
  unfold sealedTail at h
  split at h
  · rename_i last hl
    cases hc : last.isClosed with
    | true =>
      rw [hc, if_pos rfl] at h
      cases h
    | false =>
      rw [hc, if_neg (by decide), List.cons.injEq] at h
      exact ⟨last, hl, hc, h.1.symm⟩
  · cases h

/-- The candles an offer closes, in the order they are persisted. -/
def closings (I : Int) (cells : List Candle) (n : Candle) : List Candle :=
  match place candleCells I cells n with
  | .start | .replace => closedOf [n]
  | .follow => sealedTail cells ++ closedOf [n]
  | .overlap | .gap => []

/-- The file after the records of candles were saved one by one. -/
def Repository.saveAll [TimeUtils] (r : Repository) (file : DataFile) (cs : List Candle) :
    DataFile :=
  cs.foldl (fun file c => saveRecords file [r.toPriceData c]) file

/-- The result of an accepted candle. -/
def resultOf (I : Int) (cells : List Candle) (n : Candle) : AppendResult :=
  let touched := closings I cells n ≠ []
  match place candleCells I cells n with
  | .start | .follow => { appended := 1, touchedDisk := touched, liveOnly := !n.isClosed }
  | .replace => { state := .replaced, touchedDisk := touched, liveOnly := !n.isClosed }
  | .overlap => { state := .overlap }
  | .gap =>
    { state := .gap, expectedFrom := ((cells.getLast?.map Candle.openTime).getD 0) + I,
      expectedTo := n.openTime }

/-- The gap flag after an accepted candle. -/
def gapFlag (I : Int) (cells : List Candle) (n : Candle) (hasGap : Bool) : Bool :=
  match place candleCells I cells n with
  | .start | .replace | .follow => false
  | .overlap => hasGap
  | .gap => true

/-- The invariant of every repository. -/
structure Repository.Sound (r : Repository) : Prop where
  interval_pos : 0 < r.intervalMs
  metadata : r.metadata = metadataOf r.candles
  closed : ∀ c ∈ r.candles.dropLast, c.isClosed = true
  tail : ∀ c ∈ r.candles.getLast?, c.isClosed = false →
    0 < c.openTime ∧ r.intervalMs ∣ c.openTime ∧ r.persistable = true

/-- The record of an open last candle is valid. -/
theorem Repository.Sound.valid_tail {r : Repository} (hs : r.Sound) {last : Candle}
    (hl : r.candles.getLast? = some last) (hopen : last.isClosed = false) :
    isValidRecord (r.toPriceData last) = true := by
  obtain ⟨hpos, hd, hp⟩ := hs.tail last hl hopen
  exact (isValidRecord_toPriceData hs.interval_pos hd).mpr ⟨hpos, hp⟩

section Append

variable {r : Repository} {c : Candle}

theorem appendOrReplaceLocked_of_not_accepts [TimeUtils] (h : r.accepts c = false) :
    r.appendOrReplaceLocked c = ({}, r) := by
  simp only [Repository.appendOrReplaceLocked, show isValidRecord _ = false from h, Bool.not_false,
    if_true]

/-- What the accepting branches do once the new last candle is in place. -/
theorem commit_eq [TimeUtils] {n : Candle} (hv : isValidRecord (r.toPriceData n) = true)
    (state : RangeState) (appended : Nat) (sealedDisk : Bool) :
    r.commit state appended sealedDisk n =
      ({ state := state, appended := appended, touchedDisk := n.isClosed || sealedDisk,
         liveOnly := !n.isClosed },
       { r with
         file := r.saveAll r.file (closedOf [n])
         metadata := if n.isClosed || sealedDisk then metadataOf r.candles else r.metadata
         hasGap := false }) := by
  rw [Repository.commit, closedOf_singleton]
  cases hc : n.isClosed with
  | false => cases sealedDisk <;> rfl
  | true =>
    rw [if_pos rfl, persistClosed_of_closed hc hv]
    rfl

/-- An open last candle that is replaced by an open one leaves the metadata. -/
theorem metadata_replace {n last : Candle} (hs : r.Sound) (hl : r.candles.getLast? = some last)
    (hlast : last.isClosed = false) (hn : n.isClosed = false) :
    r.metadata = metadataOf (r.candles.dropLast ++ [n]) := by
  rw [hs.metadata]
  apply metadataOf_congr
  rw [closedOf_append, closedOf_singleton, ← dropLast_append_of_getLast? hl, closedOf_append,
    closedOf_singleton, hlast, hn, List.dropLast_concat]
  rfl

/-- All that an accepted candle does to a sound repository. -/
theorem appendOrReplaceLocked_of_accepts [TimeUtils] (hs : r.Sound) (h : r.accepts c = true) :
    let n := r.normalizeCandle c
    r.appendOrReplaceLocked c =
      (resultOf r.intervalMs r.candles n,
        { r with
          candles := offer candleCells r.intervalMs r.candles n
          file := r.saveAll r.file (closings r.intervalMs r.candles n)
          metadata := metadataOf (offer candleCells r.intervalMs r.candles n)
          hasGap := gapFlag r.intervalMs r.candles n r.hasGap }) := by
  intro n
  have hv : isValidRecord (r.toPriceData n) = true := h
  have hc : closedOf [n] ≠ [] ↔ n.isClosed = true := by
    cases hn : n.isClosed <;> simp [closedOf_singleton, hn]
  simp only [Repository.appendOrReplaceLocked, show r.normalizeCandle c = n from rfl, hv,
    Bool.not_true, Bool.false_eq_true, if_false]
  cases hl : r.candles.getLast? with
  | none =>
    have hnil := List.getLast?_eq_none_iff.mp hl
    have hp : place candleCells r.intervalMs r.candles n = .start := place_eq_start.mpr hnil
    dsimp only
    rw [commit_eq (by exact hv)]
    simp only [resultOf, gapFlag, closings, hp, offer_start hp]
    simp only [hc, hnil, List.nil_append, Bool.or_false]
    cases hn : n.isClosed with
    | false =>
      have hm : r.metadata = metadataOf [n] := by
        rw [hs.metadata, hnil]
        exact metadataOf_congr (by rw [closedOf_singleton, hn]; rfl)
      simp [hm, Repository.saveAll, Repository.toPriceData]
    | true => simp [Repository.saveAll, Repository.toPriceData]
  | some last =>
    have e := dropLast_append_of_getLast? hl
    have hI := hs.interval_pos
    dsimp only
    by_cases h₁ : n.openTime = last.openTime
    · rw [if_pos h₁]
      by_cases h₀ : (last.isClosed && !n.isClosed) = true
      · rw [if_pos h₀]
        have hp : place candleCells r.intervalMs r.candles n = .overlap := by
          simp [place_some hl, h₁, h₀]
        simp only [resultOf, gapFlag, closings, hp, offer_overlap hp, ← hs.metadata]
        rfl
      rw [if_neg h₀, commit_eq (by exact hv)]
      have hp : place candleCells r.intervalMs r.candles n = .replace := by
        simp [place_some hl, h₁, h₀]
      simp only [resultOf, gapFlag, closings, hp, offer_replace hp, hc]
      cases hn : n.isClosed with
      | false =>
        have hlast : last.isClosed = false := by simpa [hn] using h₀
        simp [← metadata_replace hs hl hlast hn, Repository.saveAll, Repository.toPriceData]
      | true => simp [Repository.saveAll, Repository.toPriceData]
    rw [if_neg h₁]
    by_cases h₂ : n.openTime < last.openTime + r.intervalMs
    · rw [if_pos h₂]
      have hp : place candleCells r.intervalMs r.candles n = .overlap := by
        simp [place_some hl, h₁, h₂]
      simp only [resultOf, gapFlag, closings, hp, offer_overlap hp, ← hs.metadata]
      rfl
    rw [if_neg h₂]
    by_cases h₃ : last.openTime + r.intervalMs < n.openTime
    · rw [if_pos h₃]
      have hp : place candleCells r.intervalMs r.candles n = .gap := (place_eq_gap hI hl).mpr h₃
      simp only [resultOf, gapFlag, closings, hp, offer_gap hp, ← hs.metadata, hl]
      rfl
    rw [if_neg h₃]
    have hp : place candleCells r.intervalMs r.candles n = .follow :=
      (place_eq_follow hI hl).mpr (by simp only [candleCells_time]; omega)
    simp only [resultOf, gapFlag, closings, hp, offer_follow hp hl]
    cases hlast : last.isClosed with
    | false =>
      have hvl := hs.valid_tail hl hlast
      simp only [Bool.not_false, if_true]
      rw [persistClosed_of_closed rfl (by exact hvl)]
      dsimp only
      rw [commit_eq (by exact hv)]
      simp only [sealedTail, hl, hlast, Bool.false_eq_true, if_false, Bool.or_true, decide_true,
        List.cons_append, List.nil_append, ne_eq, reduceCtorEq, not_false_eq_true, if_true]
      rfl
    | true =>
      simp only [Bool.not_true, Bool.false_eq_true, if_false]
      rw [commit_eq (by exact hv), candleCells.finish_of_final last hlast, e]
      cases hn : n.isClosed with
      | false =>
        have hm : r.metadata = metadataOf (r.candles ++ [n]) := by
          rw [hs.metadata]
          exact metadataOf_congr (by rw [closedOf_append, closedOf_singleton, hn]; simp)
        simp only [sealedTail, hl, hlast, if_true, List.nil_append, hc, hn, ← hm]
        rfl
      | true =>
        simp only [sealedTail, hl, hlast, if_true, List.nil_append, hc, hn]
        rfl

/-- The three parts of the result of a candle. -/
theorem resultOf_state (I : Int) (cells : List Candle) (n : Candle) :
    (resultOf I cells n).state =
      match place candleCells I cells n with
      | .start | .follow => .ok
      | .replace => .replaced
      | .overlap => .overlap
      | .gap => .gap := by
  unfold resultOf
  cases place candleCells I cells n <;> rfl

/-- What no operation changes: the symbol, the interval and its label. -/
def Repository.format (r : Repository) : List Char × Interval × Int × List Char :=
  (r.symbol, r.interval, r.intervalMs, r.intervalLabel)

theorem appendOrReplaceLocked_format [TimeUtils] (hs : r.Sound) (c : Candle) :
    (r.appendOrReplaceLocked c).2.format = r.format := by
  cases h : r.accepts c with
  | false => rw [appendOrReplaceLocked_of_not_accepts h]
  | true => rw [appendOrReplaceLocked_of_accepts hs h]; rfl

theorem appendOrReplaceLocked_sound [TimeUtils] (hs : r.Sound) (c : Candle) :
    (r.appendOrReplaceLocked c).2.Sound := by
  cases h : r.accepts c with
  | false => rwa [appendOrReplaceLocked_of_not_accepts h]
  | true =>
    rw [appendOrReplaceLocked_of_accepts hs h]
    refine ⟨hs.interval_pos, rfl, ?_, ?_⟩
    · exact offer_final hs.closed _
    · intro d hd hopen
      rw [Option.mem_def, getLast?_offer] at hd
      split at hd
      · obtain rfl := Option.some.inj hd
        obtain ⟨hpos, hp⟩ := (accepts_iff hs.interval_pos).mp h
        exact ⟨hpos, dvd_normalizeCandle hs.interval_pos c, hp⟩
      · exact hs.tail d hd hopen

theorem appendOrReplace_format [TimeUtils] (hs : r.Sound) (c : Candle) :
    (r.appendOrReplace c).2.format = r.format :=
  appendOrReplaceLocked_format hs c

theorem appendOrReplace_sound [TimeUtils] (hs : r.Sound) (c : Candle) :
    (r.appendOrReplace c).2.Sound :=
  appendOrReplaceLocked_sound hs c

end Append

/-! ## Many candles -/

/-- The repository after candles were offered one by one. -/
def Repository.appends [TimeUtils] (r : Repository) (cs : List Candle) : Repository :=
  cs.foldl (fun r c => (r.appendOrReplace c).2) r

section Many

variable [TimeUtils] {r : Repository}

theorem appends_cons (r : Repository) (c : Candle) (cs : List Candle) :
    r.appends (c :: cs) = (r.appendOrReplace c).2.appends cs := rfl

theorem appends_append (r : Repository) (as bs : List Candle) :
    r.appends (as ++ bs) = (r.appends as).appends bs :=
  List.foldl_append ..

theorem appends_sound (hs : r.Sound) (cs : List Candle) :
    (r.appends cs).Sound ∧ (r.appends cs).format = r.format := by
  induction cs generalizing r with
  | nil => exact ⟨hs, rfl⟩
  | cons c cs ih =>
    obtain ⟨h₁, h₂⟩ := ih (appendOrReplace_sound hs c)
    exact ⟨h₁, h₂.trans (appendOrReplace_format hs c)⟩

theorem appendSorted_eq (cs : List Candle) (r : Repository) (summary : AppendResult) :
    ∃ pre, pre <+: cs ∧ (r.appendSorted summary cs).2 = r.appends pre := by
  induction cs generalizing r summary with
  | nil => exact ⟨[], List.nil_prefix, rfl⟩
  | cons c cs ih =>
    have next : ∀ s, ∃ pre, pre <+: c :: cs ∧
        ((r.appendOrReplaceLocked c).2.appendSorted s cs).2 = r.appends pre := fun s => by
      obtain ⟨pre, hpre, e⟩ := ih (r.appendOrReplaceLocked c).2 s
      exact ⟨c :: pre, List.cons_prefix_cons.mpr ⟨rfl, hpre⟩, e⟩
    unfold Repository.appendSorted
    dsimp only
    split
    · exact ⟨[c], List.prefix_append [c] cs, rfl⟩
    · exact next _
    · exact next _
    · exact next _

/-- A batch is some of its candles in turn, in the order of the sort. -/
theorem appendBatch_eq (sort : StdSort) (r : Repository) (batch : List Candle) :
    ∃ pre, pre <+: sort.run batch ∧ (r.appendBatch sort batch).2 = r.appends pre := by
  unfold Repository.appendBatch
  split
  · exact ⟨[], List.nil_prefix, rfl⟩
  · exact appendSorted_eq _ _ _

/-- Sealing closes and persists an open last candle, and nothing else. -/
theorem sealOpenTailIfAny_eq (hs : r.Sound) :
    r.sealOpenTailIfAny =
      match sealedTail r.candles with
      | [] => ({}, r)
      | tail :: _ =>
        ({ state := .replaced, touchedDisk := true },
          { r with
            candles := r.candles.dropLast ++ [tail]
            file := r.saveAll r.file [tail]
            metadata := metadataOf (r.candles.dropLast ++ [tail]) }) := by
  unfold Repository.sealOpenTailIfAny Repository.hasTailOpenLocked sealedTail
  cases hl : r.candles.getLast? with
  | none => rfl
  | some tail =>
    cases ht : tail.isClosed with
    | true => simp [ht]
    | false =>
      have hv := hs.valid_tail hl ht
      simp only [Option.any_some, ht, Bool.not_false, Bool.not_true, Bool.false_eq_true, if_false]
      rw [persistClosed_of_closed rfl (by exact hv)]
      rfl

theorem sealOpenTailIfAny_sound (hs : r.Sound) : r.sealOpenTailIfAny.2.Sound := by
  rw [sealOpenTailIfAny_eq hs]
  unfold sealedTail
  cases hl : r.candles.getLast? with
  | none => exact hs
  | some last =>
    cases hc : last.isClosed with
    | true => simpa only [hc, if_true] using hs
    | false =>
      simp only [hc, Bool.false_eq_true, if_false]
      refine ⟨hs.interval_pos, rfl, ?_, ?_⟩
      · rw [List.dropLast_concat]
        exact hs.closed
      · intro c hc hopen
        rw [List.getLast?_concat, Option.mem_def, Option.some.injEq] at hc
        rw [← hc] at hopen
        cases hopen

theorem sealOpenTailIfAny_format (hs : r.Sound) : r.sealOpenTailIfAny.2.format = r.format := by
  rw [sealOpenTailIfAny_eq hs]
  split <;> rfl

end Many

/-! ## The constructor -/

theorem clampIntervalMs_pos (interval : Interval) : 0 < clampIntervalMs interval := by
  unfold clampIntervalMs
  split
  · simp_all
  · decide

/-- What every iteration of the loading loop keeps. -/
theorem loadRecord_inv {r : Repository} (record : PriceData)
    (h : 0 < r.intervalMs ∧ ∀ c ∈ r.candles, c.isClosed = true) :
    0 < (r.loadRecord record).intervalMs ∧
      ∀ c ∈ (r.loadRecord record).candles, c.isClosed = true := by
  obtain ⟨hI, hc⟩ := h
  have closed : ∀ d : Candle, d.isClosed = true → ∀ c ∈ r.candles ++ [d], c.isClosed = true := by
    intro d hd c h
    rcases List.mem_append.mp h with h | h
    · exact hc c h
    · rwa [List.mem_singleton.mp h]
  unfold Repository.loadRecord
  split
  · exact ⟨hI, hc⟩
  · dsimp only
    split
    · rename_i hp
      simp only [Bool.and_eq_true, decide_eq_true_eq] at hp
      exact ⟨hp.2, closed _ rfl⟩
    · exact ⟨hI, closed _ rfl⟩

theorem loadRecords_inv (records : List PriceData) {r : Repository}
    (h : 0 < r.intervalMs ∧ ∀ c ∈ r.candles, c.isClosed = true) :
    0 < (records.foldl Repository.loadRecord r).intervalMs ∧
      ∀ c ∈ (records.foldl Repository.loadRecord r).candles, c.isClosed = true := by
  induction records generalizing r with
  | nil => exact h
  | cons record records ih => exact ih (loadRecord_inv record h)

/-- The constructor builds a sound repository from any file. -/
theorem construct_sound (sort : StdSort) (file : DataFile) (symbol : List Char)
    (interval : Interval) : (Repository.construct sort file symbol interval).Sound := by
  unfold Repository.construct Repository.loadHistoricalLocked
  dsimp only
  generalize hr : List.foldl Repository.loadRecord _ _ = r
  obtain ⟨hI, hc⟩ : 0 < r.intervalMs ∧ ∀ c ∈ r.candles, c.isClosed = true := by
    rw [← hr]
    exact loadRecords_inv _ ⟨clampIntervalMs_pos _, fun c h => absurd h List.not_mem_nil⟩
  have hsort : ∀ c ∈ sort.run r.candles, c.isClosed = true := fun c h =>
    hc c ((sort.perm _).mem_iff.mp h)
  rw [if_pos hI]
  refine ⟨hI, rfl, fun c h => hsort c (List.dropLast_subset _ h), fun c h hopen => ?_⟩
  rw [hsort c (List.mem_of_getLast? h)] at hopen
  cases hopen

end TCV.Storage
