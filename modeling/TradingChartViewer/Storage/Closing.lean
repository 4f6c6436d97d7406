import TradingChartViewer.Lib.Upsert
import TradingChartViewer.Storage.Contiguous

/-!
# Closing candles

What a call that writes does to a repository, by the candles that it closes.

* `store`: what one more closed candle means for those on file;
* `closedOf_offer`: one candle stores the candles it closes;
* `Repository.Closing`: the file gets the records of the candles that a call
  closes, one by one, and the closed candles of the series are stored so;
* `closing_appendOrReplace`, `closing_sealOpenTailIfAny`: both calls do this.
-/

namespace TCV.Storage

open TCV.Domain Lib.Tape Lib.Grid Lib.Upsert

/-! ## Storing a closed candle -/

/-- The candles on file after one more was saved. -/
def store (stored : List Candle) (c : Candle) : List Candle :=
  match stored.getLast? with
  | none => [c]
  | some last =>
    if c.openTime = last.openTime then stored.dropLast ++ [c]
    else if last.openTime < c.openTime then stored ++ [c]
    else stored

theorem store_eq_upsert : store = upsert Candle.openTime := by
  funext stored c
  unfold store upsert
  cases stored.getLast? with
  | none => rfl
  | some last => rfl

theorem store_later {stored : List Candle} {c : Candle}
    (h : ∀ d ∈ stored, d.openTime < c.openTime) : store stored c = stored ++ [c] := by
  rw [store_eq_upsert]
  exact upsert_later fun last hl => h last (List.mem_of_getLast? hl)

theorem store_same {pre : List Candle} {last c : Candle} (h : c.openTime = last.openTime) :
    store (pre ++ [last]) c = pre ++ [c] := by
  rw [store_eq_upsert]
  exact upsert_same pre h

theorem mem_store {cs : List Candle} {c d : Candle} (h : d ∈ store cs c) : d ∈ cs ∨ d = c := by
  rw [store_eq_upsert] at h
  exact mem_upsert h

theorem mem_foldl_store {cs ds : List Candle} {d : Candle} (h : d ∈ ds.foldl store cs) :
    d ∈ cs ∨ d ∈ ds := by
  rw [store_eq_upsert] at h
  exact mem_upsertAll h

/-- One candle stores the candles it closes. -/
theorem closedOf_offer {I : Int} (hI : 0 < I) {cells : List Candle}
    (hok : Ok candleCells I cells) (n : Candle) :
    closedOf (offer candleCells I cells n) = (closings I cells n).foldl store (closedOf cells) := by
  cases hl : cells.getLast? with
  | none =>
    obtain rfl := List.getLast?_eq_none_iff.mp hl
    rw [offer_start (place_nil n), closings, place_nil, closedOf_singleton]
    cases n.isClosed <;> rfl
  | some last =>
    obtain ⟨pre, rfl⟩ : ∃ pre, cells = pre ++ [last] :=
      ⟨_, (dropLast_append_of_getLast? hl).symm⟩
    have hpre : closedOf pre = pre := by
      have := hok.final
      rw [List.dropLast_concat] at this
      exact closedOf_of_all this
    -- Every earlier candle is before the last one.
    have hlt : ∀ d ∈ pre, d.openTime < last.openTime := by
      have := hok.spaced.pairwise hI
      rw [List.map_append, List.pairwise_append] at this
      exact fun d hd => this.2.2 _ (List.mem_map_of_mem hd) _ List.mem_cons_self
    rw [closings]
    cases hp : place candleCells I (pre ++ [last]) n with
    | start => exact absurd (place_eq_start.mp hp) (by simp)
    | overlap => rw [offer_overlap hp]; rfl
    | gap => rw [offer_gap hp]; rfl
    | replace =>
      obtain ⟨ht, hf⟩ := (place_eq_replace hl).mp hp
      simp only [candleCells_time, candleCells_final] at ht hf
      rw [offer_replace hp, List.dropLast_concat, closedOf_append, closedOf_append, hpre,
        closedOf_singleton, closedOf_singleton]
      cases hn : n.isClosed with
      | false =>
        have : last.isClosed = false := by simpa [hn] using hf
        simp [this]
      | true =>
        simp only [if_true, List.foldl_cons, List.foldl_nil]
        cases last.isClosed with
        | false =>
          rw [if_neg (by decide), List.append_nil]
          exact (store_later fun d hd => by rw [ht]; exact hlt d hd).symm
        | true => exact (store_same ht).symm
    | follow =>
      have ht := (place_eq_follow hI hl).mp hp
      simp only [candleCells_time] at ht
      -- The last candle, closed now if it was open.
      have hlast : (sealedTail (pre ++ [last])).foldl store (closedOf (pre ++ [last])) =
          pre ++ [last.sealed] := by
        rw [sealedTail, List.getLast?_concat, closedOf_append, hpre, closedOf_singleton]
        cases hc : last.isClosed with
        | false =>
          simp only [hc, Bool.false_eq_true, if_false, List.append_nil, List.foldl_cons,
            List.foldl_nil]
          exact store_later hlt
        | true =>
          simp only [hc, if_true, List.foldl_nil]
          rw [show last.sealed = last from candleCells.finish_of_final last hc]
      have hlater : ∀ d ∈ pre ++ [last.sealed], d.openTime < n.openTime := by
        intro d hd
        rcases List.mem_append.mp hd with hd | hd
        · have := hlt d hd; omega
        · rw [List.mem_singleton.mp hd, show last.sealed.openTime = last.openTime from rfl]
          omega
      rw [List.foldl_append, hlast, offer_follow hp hl, List.dropLast_concat, closedOf_append,
        closedOf_append, hpre, closedOf_singleton, closedOf_singleton]
      cases n.isClosed with
      | false => simp [Candle.sealed]
      | true => exact (store_later hlater).symm

/-! ## What a candle closes -/

/-- A candle the file can hold. -/
def Repository.OnGrid (r : Repository) (c : Candle) : Prop :=
  0 < c.openTime ∧ r.intervalMs ∣ c.openTime

/-- What an offer closes: itself, or the open last candle right before it. -/
theorem mem_closings {I : Int} (hI : 0 < I) {cells : List Candle} {n c : Candle}
    (h : c ∈ closings I cells n) :
    c = n ∧ n.isClosed = true ∨ ∃ last, cells.getLast? = some last ∧ last.isClosed = false ∧
      n.openTime = last.openTime + I ∧ c = last.sealed := by
  have hn : ∀ d ∈ closedOf [n], d = n ∧ n.isClosed = true := fun d hd => by
    obtain ⟨hd, hc⟩ := List.mem_filter.mp hd
    rw [List.mem_singleton] at hd
    exact ⟨hd, hd ▸ hc⟩
  unfold closings at h
  split at h
  · exact .inl (hn c h)
  · exact .inl (hn c h)
  · rename_i hp
    rcases List.mem_append.mp h with h | h
    · obtain ⟨tail, rest, hs⟩ : ∃ tail rest, sealedTail cells = tail :: rest :=
        List.exists_cons_of_ne_nil (List.ne_nil_of_mem h)
      obtain ⟨last, hl, hopen, rfl⟩ := sealedTail_eq_cons hs
      rw [sealedTail, hl] at h
      simp only [hopen, Bool.false_eq_true, if_false, List.mem_singleton] at h
      exact .inr ⟨last, hl, hopen, (place_eq_follow (C := candleCells) hI hl).mp hp, h⟩
    · exact .inl (hn c h)
  · cases h
  · cases h

theorem rest_of_sealedTail {cells rest : List Candle} {tail : Candle}
    (h : sealedTail cells = tail :: rest) : rest = [] := by
  unfold sealedTail at h
  split at h
  · split at h
    · cases h
    · exact (List.cons.inj h).2.symm
  · cases h

theorem closings_ascending {I : Int} (hI : 0 < I) (cells : List Candle) (n : Candle) :
    (closings I cells n).Pairwise fun c d => c.openTime < d.openTime := by
  have hone : (closedOf [n]).Pairwise fun c d => c.openTime < d.openTime :=
    (List.pairwise_singleton _ n).sublist List.filter_sublist
  unfold closings
  split
  · exact hone
  · exact hone
  · rename_i hp
    cases hs : sealedTail cells with
    | nil => exact hone
    | cons tail rest =>
      obtain ⟨last, hl, hopen, rfl⟩ := sealedTail_eq_cons hs
      have ht := (place_eq_follow (C := candleCells) hI hl).mp hp
      rw [rest_of_sealedTail hs, List.singleton_append, List.pairwise_cons]
      refine ⟨fun d hd => ?_, hone⟩
      rw [List.mem_singleton.mp (mem_of_mem_closedOf hd)]
      simp only [candleCells_time] at ht
      show last.openTime < n.openTime
      omega
  · exact .nil
  · exact .nil

theorem closings_later {I : Int} (hI : 0 < I) {cells : List Candle} {last n : Candle}
    (hl : cells.getLast? = some last) : ∀ d ∈ closings I cells n, last.openTime ≤ d.openTime := by
  intro d hd
  have hplace : closings I cells n ≠ [] := List.ne_nil_of_mem hd
  obtain ⟨rfl, -⟩ | ⟨last', hl', -, -, rfl⟩ := mem_closings hI hd
  · unfold closings at hplace
    split at hplace
    · rename_i hp
      rw [place_eq_start.mp hp] at hl
      cases hl
    · rename_i hp
      exact (((place_eq_replace hl).mp hp).1).ge
    · rename_i hp
      have := (place_eq_follow (C := candleCells) hI hl).mp hp
      simp only [candleCells_time] at this
      omega
    · exact absurd rfl hplace
    · exact absurd rfl hplace
  · rw [hl] at hl'
    obtain rfl := Option.some.inj hl'
    exact le_refl last.openTime

/-- A call closes two candles only if the last one was open. -/
theorem closings_tailOpen {I : Int} {cells : List Candle} {n : Candle}
    (h : 1 < (closings I cells n).length) : ∀ last ∈ cells.getLast?, last.isClosed = false := by
  have hone : (closedOf [n]).length ≤ 1 := List.length_filter_le _ _
  intro last hl
  by_contra hclosed
  have hsealed : sealedTail cells = [] := by
    unfold sealedTail
    rw [hl]
    simp [hclosed]
  unfold closings at h
  rw [hsealed] at h
  split at h
  · omega
  · omega
  · rw [List.nil_append] at h
    omega
  · simp at h
  · simp at h

section Candles

variable {r : Repository}

theorem onGrid_congr {r' : Repository} (h : r'.format = r.format) : r'.OnGrid = r.OnGrid := by
  funext c
  rw [Repository.OnGrid, Repository.OnGrid, show r'.intervalMs = r.intervalMs from
    congrArg (·.2.2.1) h]

theorem Repository.Contiguous.onGrid_of_mem (h : r.Contiguous) {c : Candle} (hc : c ∈ r.candles) :
    r.OnGrid c :=
  ⟨(h.onGrid c hc).1, (h.onGrid c hc).2.1⟩

theorem Repository.Contiguous.onGrid_closings (h : r.Contiguous) {c : Candle}
    (ha : r.accepts c = true) :
    ∀ d ∈ closings r.intervalMs r.candles (r.normalizeCandle c), r.OnGrid d := by
  intro d hd
  obtain ⟨rfl, -⟩ | ⟨last, hl, -, -, rfl⟩ := mem_closings h.interval_pos hd
  · exact ⟨((accepts_iff h.interval_pos).mp ha).1, dvd_normalizeCandle h.interval_pos c⟩
  · have := h.onGrid_of_mem (List.mem_of_getLast? hl)
    exact this

/-- Sealing stores the last candle. -/
theorem Repository.Contiguous.closedOf_sealed (h : r.Contiguous) {last : Candle}
    (hl : r.candles.getLast? = some last) (hopen : last.isClosed = false) :
    closedOf (r.candles.dropLast ++ [last.sealed]) = store (closedOf r.candles) last.sealed := by
  obtain ⟨pre, e⟩ : ∃ pre, r.candles = pre ++ [last] :=
    ⟨_, (dropLast_append_of_getLast? hl).symm⟩
  have hpre : closedOf pre = pre := by
    have := h.closed
    rw [e, List.dropLast_concat] at this
    exact closedOf_of_all this
  have hlt : ∀ d ∈ pre, d.openTime < last.openTime := by
    have := h.spaced.pairwise h.interval_pos
    rw [e, List.map_append, List.pairwise_append] at this
    exact fun d hd => this.2.2 _ (List.mem_map_of_mem hd) _ List.mem_cons_self
  rw [e, List.dropLast_concat, closedOf_append, closedOf_append, hpre, closedOf_singleton,
    closedOf_singleton, show last.sealed.isClosed = true from rfl, if_pos rfl, hopen,
    if_neg (by decide), List.append_nil]
  exact (store_later (c := last.sealed) hlt).symm

end Candles

/-! ## Calls -/

/-- What a writing call does, by the candles that it closes. -/
structure Repository.Closing [TimeUtils] (r : Repository) (ds : List Candle)
    (out : AppendResult × Repository) : Prop where
  contiguous : out.2.Contiguous
  format : out.2.format = r.format
  file : out.2.file = r.saveAll r.file ds
  closed : closedOf out.2.candles = ds.foldl store (closedOf r.candles)
  touched : ds ≠ [] → out.1.touchedDisk = true
  onGrid : ∀ d ∈ ds, r.OnGrid d
  persistable : ds ≠ [] → r.persistable = true
  ascending : ds.Pairwise fun c d => c.openTime < d.openTime
  later : ∀ last ∈ r.candles.getLast?, ∀ d ∈ ds, last.openTime ≤ d.openTime
  tailOpen : 1 < ds.length → ∀ last ∈ r.candles.getLast?, last.isClosed = false

section Calls

variable [TimeUtils] {r : Repository}

theorem closing_nil (h : r.Contiguous) (result : AppendResult) : r.Closing [] (result, r) :=
  ⟨h, rfl, rfl, rfl, fun hne => absurd rfl hne, fun _ hd => absurd hd List.not_mem_nil,
    fun hne => absurd rfl hne, .nil, fun _ _ _ hd => absurd hd List.not_mem_nil, by simp⟩

theorem closing_appendOrReplace (h : r.Contiguous) (c : Candle) :
    r.Closing (if r.accepts c then closings r.intervalMs r.candles (r.normalizeCandle c) else [])
      (r.appendOrReplace c) := by
  have hcont := h.appendOrReplace c
  have hfmt := appendOrReplace_format h.toSound c
  have hI := h.interval_pos
  unfold Repository.appendOrReplace at hcont hfmt ⊢
  cases ha : r.accepts c with
  | false =>
    rw [appendOrReplaceLocked_of_not_accepts ha, if_neg (by decide)]
    exact closing_nil h {}
  | true =>
    rw [appendOrReplaceLocked_of_accepts h.toSound ha] at hcont hfmt ⊢
    rw [if_pos rfl]
    refine ⟨hcont, hfmt, rfl, closedOf_offer hI h.ok _, fun hne => ?_, h.onGrid_closings ha,
      fun _ => ((accepts_iff hI).mp ha).2, closings_ascending hI _ _,
      fun last hl => closings_later hI hl, closings_tailOpen⟩
    have hplace := hne
    unfold closings at hplace
    show (resultOf _ _ _).touchedDisk = true
    unfold resultOf
    cases hp : place candleCells r.intervalMs r.candles (r.normalizeCandle c) with
    | start | replace | follow => simpa using hne
    | overlap | gap =>
      rw [hp] at hplace
      exact absurd rfl hplace

theorem closing_sealOpenTailIfAny (h : r.Contiguous) :
    r.Closing (sealedTail r.candles) r.sealOpenTailIfAny := by
  have hcont := h.sealOpenTailIfAny
  have hfmt := sealOpenTailIfAny_format h.toSound
  rw [sealOpenTailIfAny_eq h.toSound] at hcont hfmt ⊢
  cases hs : sealedTail r.candles with
  | nil => exact closing_nil h {}
  | cons tail rest =>
    rw [hs] at hcont hfmt
    obtain ⟨last, hl, hopen, rfl⟩ := sealedTail_eq_cons hs
    have hlast := List.mem_of_getLast? hl
    obtain rfl := rest_of_sealedTail hs
    refine ⟨hcont, hfmt, rfl, h.closedOf_sealed hl hopen, fun _ => rfl, fun d hd => ?_,
      fun _ => h.persistable (List.ne_nil_of_mem hlast), List.pairwise_singleton _ _,
      fun last' hl' d hd => ?_, by simp⟩
    · exact List.mem_singleton.mp hd ▸ show r.OnGrid last from h.onGrid_of_mem hlast
    · rw [hl] at hl'
      obtain rfl := Option.some.inj hl'
      rw [List.mem_singleton.mp hd]
      exact le_refl last.openTime

end Calls

end TCV.Storage
