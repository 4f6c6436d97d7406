import TradingChartViewer.Lib.Run
import TradingChartViewer.Storage.Contiguous
import TradingChartViewer.Storage.Tail

/-!
# The gap flag

`hasGap` against the gaps that the calls on a repository have reported. A candle after a hole
sets the flag; every candle that is taken in clears it, also one that replaces the last candle
and one that leaves most of the hole.

* `Reporting`: a repository with the gaps reported so far;
* `appendSorted_feed`, `call_feed`: what a call leaves, by the candles it offers;
* `Reporting.Keeps`: a call takes in no candle before the end of a gap, or gets there, or
  reports a gap itself;
* `gapFlag_iff`: exactly then the flag is set as long as a reported gap is open.
-/

namespace TCV.Storage

open TCV.Domain Lib.Tape Lib.Grid Lib.Run

/-! ## Calls by what they offer -/

/-- The candles that a call offers. -/
def Call.candles : Call → List Candle
  | .appendOrReplace candle => [candle]
  | .appendBatch batch => batch
  | .sealOpenTailIfAny => []

/-- In the order of the call's loop. -/
def Call.inOrder (sort : StdSort) : Call → List Candle
  | .appendOrReplace candle => [candle]
  | .appendBatch batch => sort.run batch
  | .sealOpenTailIfAny => []

theorem Call.inOrder_perm (sort : StdSort) (c : Call) : (c.inOrder sort).Perm c.candles := by
  cases c with
  | appendOrReplace candle => exact .refl _
  | appendBatch batch => exact sort.perm batch
  | sealOpenTailIfAny => exact .refl _

theorem Call.inOrder_sorted (sort : StdSort) (c : Call) :
    (c.inOrder sort).Pairwise fun a b => a.openTime ≤ b.openTime := by
  cases c with
  | appendOrReplace candle => exact List.pairwise_singleton _ candle
  | appendBatch batch => exact sort.sorted batch
  | sealOpenTailIfAny => exact .nil

/-- The valid ones of candles, normalised. -/
def Repository.normalized (r : Repository) (cs : List Candle) : List Candle :=
  (cs.filter r.accepts).map r.normalizeCandle

/-- What a call returns. -/
def Repository.answer [TimeUtils] (sort : StdSort) (r : Repository) : Call → AppendResult
  | .appendOrReplace candle => (r.appendOrReplace candle).1
  | .appendBatch batch => (r.appendBatch sort batch).1
  | .sealOpenTailIfAny => r.sealOpenTailIfAny.1

section Feeding

variable {r r' : Repository} {c : Candle}

theorem normalized_congr (h : r'.format = r.format) : r'.normalized = r.normalized := by
  funext cs
  unfold Repository.normalized
  rw [accepts_congr h, normalizeCandle_congr h]

theorem normalized_cons_of_accepts (h : r.accepts c = true) (cs : List Candle) :
    r.normalized (c :: cs) = r.normalizeCandle c :: r.normalized cs := by
  simp [Repository.normalized, h]

theorem normalized_cons_of_not_accepts (h : r.accepts c = false) (cs : List Candle) :
    r.normalized (c :: cs) = r.normalized cs := by
  simp [Repository.normalized, h]

/-- Normalised candles lie on the grid, in the order of the candles. -/
theorem dvd_of_mem_normalized (hI : 0 < r.intervalMs) {cs : List Candle} {n : Candle}
    (h : n ∈ r.normalized cs) : r.intervalMs ∣ n.openTime := by
  obtain ⟨c, -, rfl⟩ := List.mem_map.mp h
  exact dvd_normalizeCandle hI c

theorem normalized_sorted (hI : 0 < r.intervalMs) {cs : List Candle}
    (h : cs.Pairwise fun a b => a.openTime ≤ b.openTime) :
    (r.normalized cs).Pairwise fun a b => a.openTime ≤ b.openTime := by
  unfold Repository.normalized
  rw [List.pairwise_map]
  refine (h.sublist List.filter_sublist).imp fun {a b} hab => ?_
  rw [normalizeCandle_openTime hI, normalizeCandle_openTime hI, alignDownMs_eq hI,
    alignDownMs_eq hI]
  exact floorTo_mono hI hab

variable [TimeUtils]

theorem appendSorted_cons_gap (summary : AppendResult) (cs : List Candle)
    (h : (r.appendOrReplaceLocked c).1.state = .gap) :
    (r.appendSorted summary (c :: cs)).1.state = .gap ∧
      (r.appendSorted summary (c :: cs)).2 = (r.appendOrReplaceLocked c).2 := by
  unfold Repository.appendSorted
  dsimp only
  rw [h]
  exact ⟨rfl, rfl⟩

theorem appendSorted_cons_next {summary : AppendResult} (cs : List Candle)
    (hsum : summary.state ≠ .gap) (h : (r.appendOrReplaceLocked c).1.state ≠ .gap) :
    ∃ summary' : AppendResult, summary'.state ≠ .gap ∧
      r.appendSorted summary (c :: cs) = (r.appendOrReplaceLocked c).2.appendSorted summary' cs := by
  rw [Repository.appendSorted]
  dsimp only
  split
  · rename_i hgap
    exact absurd hgap h
  · refine ⟨_, ?_, rfl⟩
    rw [if_pos hsum]
    simp
  · refine ⟨_, ?_, rfl⟩
    split
    · simp
    · exact hsum
  · refine ⟨_, ?_, rfl⟩
    exact hsum

/-- The loop of `appendBatch` feeds the valid candles to the tape. What is taken in clears the
flag and a gap sets it. -/
theorem appendSorted_feed (hs : r.Sound) (cs : List Candle) {summary : AppendResult}
    (hsum : summary.state ≠ .gap) :
    let out := feed candleCells r.intervalMs r.candles (r.normalized cs)
    (r.appendSorted summary cs).2.candles = out.cells ∧
    (r.appendSorted summary cs).2.hasGap = (out.gap || !out.entered && r.hasGap) ∧
    ((r.appendSorted summary cs).1.state = .gap ↔ out.gap = true) := by
  induction cs generalizing r summary with
  | nil => exact ⟨rfl, rfl, iff_of_false hsum Bool.false_ne_true⟩
  | cons c cs ih =>
    cases ha : r.accepts c with
    | false =>
      have hlocked := appendOrReplaceLocked_of_not_accepts ha
      obtain ⟨summary', hsum', e⟩ := appendSorted_cons_next cs hsum
        (by simp [hlocked] : (r.appendOrReplaceLocked c).1.state ≠ .gap)
      rw [normalized_cons_of_not_accepts ha, e, hlocked]
      exact ih hs hsum'
    | true =>
      have hlocked := appendOrReplaceLocked_of_accepts hs ha
      have hstate := resultOf_state r.intervalMs r.candles (r.normalizeCandle c)
      have hnext := appendOrReplaceLocked_sound hs c
      have hformat := appendOrReplaceLocked_format hs c
      rw [normalized_cons_of_accepts ha]
      -- The rest of the loop, where the candle leaves no gap.
      have next : ∀ flag, gapFlag r.intervalMs r.candles (r.normalizeCandle c) r.hasGap = flag →
          (resultOf r.intervalMs r.candles (r.normalizeCandle c)).state ≠ .gap →
          let out := feed candleCells r.intervalMs
            (offer candleCells r.intervalMs r.candles (r.normalizeCandle c)) (r.normalized cs)
          (r.appendSorted summary (c :: cs)).2.candles = out.cells ∧
          (r.appendSorted summary (c :: cs)).2.hasGap = (out.gap || !out.entered && flag) ∧
          ((r.appendSorted summary (c :: cs)).1.state = .gap ↔ out.gap = true) := by
        rintro flag rfl hne
        obtain ⟨summary', hsum', e⟩ := appendSorted_cons_next cs hsum
          (by rw [hlocked]; exact hne : (r.appendOrReplaceLocked c).1.state ≠ .gap)
        have h := ih hnext hsum'
        rw [normalized_congr hformat] at h
        rw [e]
        rw [hlocked] at h ⊢
        exact h
      cases hp : place candleCells r.intervalMs r.candles (r.normalizeCandle c) with
      | gap =>
        rw [hp] at hstate
        obtain ⟨h₁, h₂⟩ := appendSorted_cons_gap summary cs
          (by rw [hlocked]; exact hstate : (r.appendOrReplaceLocked c).1.state = .gap)
        rw [feed_gap hp, h₂, hlocked]
        refine ⟨offer_gap hp, ?_, iff_of_true h₁ rfl⟩
        simp [gapFlag, hp]
      | overlap =>
        rw [hp] at hstate
        rw [feed_overlap hp]
        have h := next r.hasGap (by rw [gapFlag, hp]) (by rw [hstate]; decide)
        rwa [offer_overlap hp] at h
      | start | replace | follow =>
        rw [hp] at hstate
        rw [feed_enters (by rw [hp]; rfl)]
        have h := next false (by rw [gapFlag, hp]) (by rw [hstate]; decide)
        simpa using h

/-- What a call leaves: the times, and the flag. -/
theorem call_feed (hs : r.Sound) (sort : StdSort) (c : Call) :
    let out := feed candleCells r.intervalMs r.candles (r.normalized (c.inOrder sort))
    (r.call sort c).candles.map Candle.openTime = out.cells.map Candle.openTime ∧
    (r.call sort c).hasGap = (out.gap || !out.entered && r.hasGap) ∧
    ((r.answer sort c).state = .gap ↔ out.gap = true) := by
  have hstart : ({} : AppendResult).state ≠ .gap := by decide
  cases c with
  | appendOrReplace candle =>
    obtain ⟨h₁, h₂, h₃⟩ := appendSorted_feed hs [candle] hstart
    -- One candle is a loop of one iteration.
    have e : (r.appendSorted {} [candle]).2 = (r.appendOrReplace candle).2 ∧
        ((r.appendSorted {} [candle]).1.state = .gap ↔
          (r.appendOrReplace candle).1.state = .gap) := by
      unfold Repository.appendOrReplace
      by_cases hg : (r.appendOrReplaceLocked candle).1.state = .gap
      · obtain ⟨g₁, g₂⟩ := appendSorted_cons_gap {} [] hg
        exact ⟨g₂, iff_of_true g₁ hg⟩
      · obtain ⟨summary', hsum', e⟩ := appendSorted_cons_next [] hstart hg
        rw [e]
        exact ⟨rfl, iff_of_false hsum' hg⟩
    rw [e.1] at h₁ h₂
    rw [e.2] at h₃
    exact ⟨congrArg _ h₁, h₂, h₃⟩
  | appendBatch batch =>
    have e : r.appendBatch sort batch = r.appendSorted {} (sort.run batch) := by
      unfold Repository.appendBatch
      split
      · rename_i h
        rw [List.isEmpty_iff.mp h, (sort.perm []).eq_nil]
        rfl
      · rfl
    obtain ⟨h₁, h₂, h₃⟩ := appendSorted_feed hs (sort.run batch) hstart
    rw [← e] at h₁ h₂ h₃
    exact ⟨congrArg _ h₁, h₂, h₃⟩
  | sealOpenTailIfAny =>
    have hgap : r.sealOpenTailIfAny.2.hasGap = r.hasGap ∧
        r.sealOpenTailIfAny.1.state ≠ .gap := by
      rw [sealOpenTailIfAny_eq hs]
      split <;> exact ⟨rfl, by simp⟩
    refine ⟨?_, hgap.1, iff_of_false hgap.2 Bool.false_ne_true⟩
    obtain e | ⟨pre, last, e, e'⟩ := candles_sealOpenTailIfAny hs
    · exact congrArg _ e
    · show r.sealOpenTailIfAny.2.candles.map Candle.openTime = r.candles.map Candle.openTime
      rw [e, e', List.map_append, List.map_append]
      rfl

theorem call_sound (hs : r.Sound) (sort : StdSort) (c : Call) :
    (r.call sort c).Sound ∧ (r.call sort c).format = r.format :=
  call_induction (P := fun r' => r'.Sound ∧ r'.format = r.format)
    (fun _ c h => ⟨appendOrReplace_sound h.1 c, (appendOrReplace_format h.1 c).trans h.2⟩)
    (fun _ h => ⟨sealOpenTailIfAny_sound h.1, (sealOpenTailIfAny_format h.1).trans h.2⟩) ⟨hs, rfl⟩ c

end Feeding

/-! ## Reported gaps -/

/-- A repository, and the results so far that reported a gap. -/
structure Reporting where
  repo : Repository
  gaps : List AppendResult := []

def Reporting.step [TimeUtils] (sort : StdSort) (s : Reporting) (c : Call) : Option Reporting :=
  let result := s.repo.answer sort c
  some { repo := s.repo.call sort c
         gaps := if result.state = .gap then s.gaps ++ [result] else s.gaps }

/-- The flag is set as long as the last candle is before the end of a reported gap. -/
def Reporting.TellsTruth (s : Reporting) : Prop :=
  ∀ g ∈ s.gaps, ∀ last ∈ s.repo.candles.getLast?,
    last.openTime < g.expectedTo - s.repo.intervalMs → s.repo.hasGap = true

instance (s : Reporting) : Decidable s.TellsTruth :=
  inferInstanceAs (Decidable (∀ g ∈ s.gaps, ∀ last ∈ s.repo.candles.getLast?, _ → _))

/-- A call that has a candle replace the last one or follow it before the end of a reported gap has
one that gets to the end of the gap, or one after another hole. -/
def Reporting.Keeps (s : Reporting) (c : Call) : Prop :=
  let offered := s.repo.normalized c.candles
  ∀ g ∈ s.gaps, ∀ last ∈ s.repo.candles.getLast?,
    last.openTime < g.expectedTo - s.repo.intervalMs →
    (∃ n ∈ offered, Touches candleCells s.repo.intervalMs last n) →
    (∃ n ∈ offered, g.expectedTo - s.repo.intervalMs ≤ n.openTime) ∨
      ∃ n ∈ offered, last.openTime + s.repo.intervalMs < n.openTime ∧
        ∀ m ∈ offered, m.openTime ≠ n.openTime - s.repo.intervalMs

/-- A repository that has reported a gap has a candle. -/
structure Reporting.Ok (s : Reporting) : Prop where
  sound : s.repo.Sound
  nonempty : s.gaps ≠ [] → s.repo.candles ≠ []

section

variable [TimeUtils] {sort : StdSort} {s t : Reporting} {c : Call}

theorem ok_step (h : s.Ok) (ht : s.step sort c = some t) : t.Ok := by
  obtain rfl := Option.some.inj ht
  obtain ⟨htimes, -, hgap⟩ := call_feed h.sound sort c
  refine ⟨(call_sound h.sound sort c).1, fun hne => ?_⟩
  have hfed : (feed candleCells s.repo.intervalMs s.repo.candles
      (s.repo.normalized (c.inOrder sort))).cells ≠ [] := by
    refine feed_ne_nil h.sound.interval_pos ?_
    dsimp only at hne
    split at hne
    · rename_i hg
      exact .inr (hgap.mp hg)
    · exact .inl (h.nonempty hne)
  rw [ne_eq, ← List.map_eq_nil_iff (f := Candle.openTime)] at hfed ⊢
  rwa [htimes]

/-- One call keeps the flag right exactly if it meets the condition. -/
theorem tellsTruth_step_iff (h : s.Ok) (hs : s.TellsTruth) (ht : s.step sort c = some t) :
    t.TellsTruth ↔ s.Keeps c := by
  obtain rfl := Option.some.inj ht
  have hI := h.sound.interval_pos
  obtain ⟨htimes, hflag, hgap⟩ := call_feed h.sound sort c
  have hformat : (s.repo.call sort c).intervalMs = s.repo.intervalMs :=
    congrArg (·.2.2.1) (call_sound h.sound sort c).2
  have hmem : ∀ n, n ∈ s.repo.normalized c.candles ↔ n ∈ s.repo.normalized (c.inOrder sort) :=
    fun n => (((c.inOrder_perm sort).filter _).map _).mem_iff.symm
  -- For a gap reported before, by the last candles before and after the call.
  have hold : ∀ g ∈ s.gaps, ∀ last ∈ s.repo.candles.getLast?, _ := fun g hg last hl =>
    feed_flag_iff (C := candleCells) hI hl
      (fun n hn => dvd_of_mem_normalized hI hn) (normalized_sorted hI (c.inOrder_sorted sort))
      (hs g hg last hl)
  have hlast : ∀ (limit : Int) (flag : Bool),
      (∀ last ∈ (s.repo.call sort c).candles.getLast?, last.openTime < limit → flag = true) ↔
      ∀ last ∈ (feed candleCells s.repo.intervalMs s.repo.candles
        (s.repo.normalized (c.inOrder sort))).cells.getLast?,
          candleCells.time last < limit → flag = true := by
    intro limit flag
    have e := congrArg List.getLast? htimes
    rw [List.getLast?_map, List.getLast?_map] at e
    have hmap : ∀ o : Option Candle, (∀ last ∈ o, last.openTime < limit → flag = true) ↔
        ∀ t ∈ o.map Candle.openTime, t < limit → flag = true := fun o => by cases o <;> simp
    exact (hmap _).trans (e ▸ (hmap _).symm)
  unfold Reporting.TellsTruth Reporting.Keeps
  dsimp only
  simp only [hmem, hformat, hflag]
  constructor
  · intro h' g hg last hl
    refine (hold g hg last hl).mp ((hlast _ _).mp (h' g ?_))
    split
    · exact List.mem_append_left _ hg
    · exact hg
  · intro h' g hg
    split at hg
    · rename_i hreported
      intro last hl hlt
      rw [hgap.mp hreported, Bool.true_or]
    · obtain ⟨last, hl⟩ : ∃ last, s.repo.candles.getLast? = some last :=
        ⟨_, List.getLast?_eq_some_getLast (h.nonempty (List.ne_nil_of_mem hg))⟩
      exact (hlast _ _).mpr ((hold g hg last hl).mpr (h' g hg last hl))

/-- In every run the gap flag is set as long as a reported gap is open, exactly if no call of the
run takes in a candle before the end of the gap without getting there or leaving another hole. -/
theorem gapFlag_iff (sort : StdSort) (file : DataFile) (symbol : List Char) (interval : Interval)
    (cs : List Call) :
    let start : Reporting := { repo := .construct sort file symbol interval }
    (∀ pre, pre <+: cs → ∃ s, run (Reporting.step sort) start pre = some s ∧ s.TellsTruth) ↔
      Along (Reporting.step sort) Reporting.Keeps start cs := by
  intro start
  have hruns : ∀ cs (s : Reporting), ∃ t, run (Reporting.step sort) s cs = some t := by
    intro cs
    induction cs with
    | nil => exact fun s => ⟨s, rfl⟩
    | cons c cs ih => exact fun s => ih _
  obtain ⟨t, ht⟩ := hruns cs start
  have hok : start.Ok := ⟨construct_sound sort file symbol interval, fun h => absurd rfl h⟩
  rw [← always_iff_along (fun _ _ _ h hs => ok_step h hs)
    (fun _ _ _ h hs ht => tellsTruth_step_iff h hs ht) hok
    (show start.TellsTruth from fun g hg => absurd hg List.not_mem_nil) ht]
  apply forall₂_congr
  intro pre _
  obtain ⟨u, hu⟩ := hruns pre start
  rw [hu]
  simp

end

/-- The second minute is offered again after a gap of two minutes, and the flag is gone. -/
theorem gapFlag_cleared :
    ∃ s, run (Reporting.step .insertion) { repo := .construct .insertion {} ['B'] ⟨60000⟩ }
        [.appendOrReplace (flatCandle 60000 true), .appendOrReplace (flatCandle 240000 true),
          .appendOrReplace (flatCandle 60000 true)] = some s ∧
      s.gaps.map (fun g => (g.expectedFrom, g.expectedTo)) = [(120000, 240000)] ∧
      s.repo.candles.map Candle.openTime = [60000] ∧ ¬ s.TellsTruth :=
  ⟨_, rfl, by decide +kernel⟩

end TCV.Storage
