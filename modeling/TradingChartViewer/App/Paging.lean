import TradingChartViewer.App.Backfill

/-!
# Paging through consecutive candles

The paging loop of `runBackfill` where the next closed candle is always the one
the repository waits for.

* `Ready`, `appendUntilGap_ready`: consecutive closed candles that continue the
  series are appended whole;
* `ends_of_short_page`, `ends_of_rest`: the loop on one short page, and on the
  pages of a list of consecutive candles;
* `ends_of_no_page`: the loop where every page is empty.
-/

namespace TCV.App

open TCV.Domain TCV.Storage Lib.Page Lib.Grid Lib.Loop Lib.Tape

/-! ## Consecutive candles -/

/-- A closed candle at `t` is appended. -/
structure Ready (r : Repository) (t : Int) : Prop extends r.Contiguous where
  stores : r.persistable = true
  pos : 0 < t
  dvd : r.intervalMs ∣ t
  last : ∀ last ∈ r.candles.getLast?, last.isClosed = true ∧ last.openTime + r.intervalMs = t

section Ready

variable {r : Repository} {c : Candle} {t : Int}

theorem appendOrReplace_ready [TimeUtils] (h : Ready r t) (ht : c.openTime = t)
    (hc : c.isClosed = true) :
    (r.appendOrReplace c).2.candles = r.candles ++ [r.normalizeCandle c] ∧
      (r.appendOrReplace c).1.state ≠ .gap ∧ Ready (r.appendOrReplace c).2 (t + r.intervalMs) := by
  have hI := h.interval_pos
  have hn : (r.normalizeCandle c).openTime = t := by
    rw [normalizeCandle_openTime_of_dvd hI (ht ▸ h.dvd), ht]
  have ha : r.accepts c = true := (accepts_iff hI).mpr ⟨hn ▸ h.pos, h.stores⟩
  have hfmt := appendOrReplace_format h.toSound c
  have hint : (r.appendOrReplace c).2.intervalMs = r.intervalMs := congrArg (·.2.2.1) hfmt
  have hcandles : (r.appendOrReplace c).2.candles = r.candles ++ [r.normalizeCandle c] := by
    unfold Repository.appendOrReplace
    rw [appendOrReplaceLocked_of_accepts h.toSound ha]
    cases hl : r.candles.getLast? with
    | none =>
      have hnil := List.getLast?_eq_none_iff.mp hl
      dsimp only
      rw [offer_start (place_eq_start.mpr hnil), hnil]
      rfl
    | some last =>
      obtain ⟨hclosed, hlast⟩ := h.last last hl
      exact offer_next (C := candleCells) hI hl hclosed (hn.trans hlast.symm)
  refine ⟨hcandles, ?_, h.toContiguous.appendOrReplace c, ?_, ?_, ?_, ?_⟩
  · rw [ne_eq, appendOrReplace_gap_iff h.toSound]
    rintro ⟨-, hb⟩
    cases htail : r.tail with
    | none => rw [htail] at hb; exact hb
    | some p =>
      obtain ⟨last, hl, h₁, -⟩ := tail_eq_some.mp htail
      have := (h.last last hl).2
      rw [htail] at hb
      dsimp only at hb
      omega
  · have hp := h.stores
    simp only [Repository.format, Prod.mk.injEq] at hfmt
    simpa only [Repository.persistable, hfmt] using hp
  · have := h.pos
    omega
  · rw [hint]
    exact Int.dvd_add h.dvd (Int.dvd_refl _)
  · intro last hl
    rw [hcandles, List.getLast?_concat, Option.mem_def, Option.some.injEq] at hl
    rw [← hl, normalizeCandle_isClosed, hn, hint]
    exact ⟨hc, rfl⟩

/-- Consecutive closed candles from `t` on are appended. -/
theorem appendUntilGap_ready [TimeUtils] (h : Ready r t) {cs : List Candle}
    (ht : cs.map Candle.openTime = ticks t r.intervalMs cs.length)
    (hc : ∀ c ∈ cs, c.isClosed = true) :
    (appendUntilGap r cs).1 = none ∧
      (appendUntilGap r cs).2.candles = r.candles ++ cs.map r.normalizeCandle ∧
      Ready (appendUntilGap r cs).2 (t + cs.length * r.intervalMs) := by
  induction cs generalizing r t with
  | nil => exact ⟨rfl, (List.append_nil _).symm, by simpa [appendUntilGap] using h⟩
  | cons c cs ih =>
    rw [List.map_cons, List.length_cons, ticks_succ, List.cons.injEq] at ht
    obtain ⟨h₁, h₂, h₃⟩ := appendOrReplace_ready h ht.1 (hc c List.mem_cons_self)
    have hfmt := appendOrReplace_format h.toSound c
    have hint : (r.appendOrReplace c).2.intervalMs = r.intervalMs := congrArg (·.2.2.1) hfmt
    rw [appendUntilGap_cons, if_neg h₂]
    obtain ⟨e₁, e₂, e₃⟩ := ih h₃ (by rw [hint]; exact ht.2)
      fun d hd => hc d (List.mem_cons_of_mem _ hd)
    refine ⟨e₁, ?_, ?_⟩
    · rw [e₂, h₁, normalizeCandle_congr hfmt, List.append_assoc]
      rfl
    · rw [hint] at e₃
      have e : t + r.intervalMs + cs.length * r.intervalMs =
          t + (c :: cs).length * r.intervalMs := by
        rw [List.length_cons]
        push_cast
        ring
      rwa [e] at e₃

/-- The metadata of a series whose last candle is closed. -/
theorem metadata_of_closed_last (hs : r.Sound) {last : Candle}
    (hl : r.candles.getLast? = some last) (hc : last.isClosed = true) :
    r.metadata.count ≠ 0 ∧ r.metadata.maxOpen = last.openTime := by
  have e := dropLast_append_of_getLast? hl
  have hclosed : closedOf r.candles = r.candles := by
    rw [← e]
    apply closedOf_of_all
    intro d hd
    rcases List.mem_append.mp hd with hd | hd
    · exact hs.closed d hd
    · rw [List.mem_singleton.mp hd, hc]
  rw [hs.metadata, metadataOf_eq, hclosed, hl]
  refine ⟨?_, rfl⟩
  rw [← e]
  simp

theorem Ready.metadata_eq (h : Ready r t) (hne : r.candles ≠ []) :
    r.metadata.count ≠ 0 ∧ r.metadata.maxOpen + r.intervalMs = t := by
  obtain ⟨last, hl⟩ := Option.ne_none_iff_exists'.mp
    (fun e => hne (List.getLast?_eq_none_iff.mp e) : r.candles.getLast? ≠ none)
  obtain ⟨hc, ht⟩ := h.last last hl
  obtain ⟨h₁, h₂⟩ := metadata_of_closed_last h.toSound hl hc
  exact ⟨h₁, by rw [h₂, ht]⟩

end Ready

/-! ## The loop on consecutive candles -/

/-- The loop runs on the repository's interval, and the candle at `n` would be
appended. -/
structure ReadyAt (w : BackfillWindow) (s : BackfillState) (n : Int) : Prop where
  running : s.sync.running = true
  ready : Ready s.sync.repo n
  interval : s.sync.repo.intervalMs = w.intervalMs

section Pages

variable [TimeUtils] {cfg : SyncConfig} {market : Market} {w : BackfillWindow} {s : BackfillState}
  {n : Int}

/-- A page of consecutive candles is appended without a gap, and the next
request is the one after it. -/
theorem afterPage_readyAt (cfg : SyncConfig) (market : Market) (h : ReadyAt w s n) {cs : List Candle} (hne : cs ≠ [])
    (ht : cs.map Candle.openTime = ticks n w.intervalMs cs.length)
    (hc : ∀ c ∈ cs, c.isClosed = true) :
    (appendPage cfg market s.sync cs).1 = false ∧
      (afterPage cfg market w s cs).metadata.count ≠ 0 ∧
      (afterPage cfg market w s cs).sync.repo.candles =
        s.sync.repo.candles ++ cs.map s.sync.repo.normalizeCandle ∧
      (afterPage cfg market w s cs).sync.repo.format = s.sync.repo.format ∧
      ReadyAt w (afterPage cfg market w s cs) (n + cs.length * w.intervalMs) ∧
      (afterPage cfg market w s cs).nextFetch = n + cs.length * w.intervalMs := by
  obtain ⟨hnone, hcandles, hready⟩ := appendUntilGap_ready h.ready (by rw [h.interval]; exact ht) hc
  obtain ⟨hs', hfmt⟩ := appendUntilGap_sound h.ready.toSound cs
  have hint : (appendUntilGap s.sync.repo cs).2.intervalMs = w.intervalMs :=
    (congrArg (·.2.2.1) hfmt).trans h.interval
  obtain ⟨h0, hmax⟩ := hready.metadata_eq (by rw [hcandles]; simp [hne])
  unfold afterPage
  rw [appendPage_of_none hnone]
  dsimp only
  rw [h.interval] at hready
  refine ⟨rfl, h0, hcandles, hfmt, ⟨h.running, hready, hint⟩, ?_⟩
  rw [if_neg h0, ← hint, hmax, h.interval, hint]

/-- A short page ends the loop. -/
theorem ends_of_short_page (h : ReadyAt w s n) {range : TimeRange}
    (hreq : backfillRequest cfg w s.nextFetch = some range) {cs : List Candle}
    (hpage : market range (batchLimit cfg) = cs) (hne : cs ≠ []) (hshort : cs.length < batchLimit cfg)
    (ht : cs.map Candle.openTime = ticks n w.intervalMs cs.length)
    (hc : ∀ c ∈ cs, c.isClosed = true) :
    ∃ t, Ends (backfillBody cfg market w) s t ∧
      t.sync.repo.candles = s.sync.repo.candles ++ cs.map s.sync.repo.normalizeCandle := by
  obtain ⟨hgap, h0, hcandles, -⟩ := afterPage_readyAt cfg market h hne ht hc
  refine ⟨_, ends_of_done ?_, hcandles⟩
  rw [backfillBody_of_page h.running hreq (by rw [hpage]; exact hne), hpage, if_neg]
  rintro (h | h | h)
  · exact h0 h
  · omega
  · rw [hgap] at h
    cases h

/-- The loop fetches a list of consecutive closed candles page by page. -/
theorem ends_of_rest (cfg : SyncConfig) (market : Market) {rest : List Candle} (h : ReadyAt w s n) (hn : s.nextFetch = n)
    (ht : rest.map Candle.openTime = ticks n w.intervalMs rest.length)
    (hc : ∀ c ∈ rest, c.isClosed = true)
    (hpage : ∀ k : Nat, k * batchLimit cfg < rest.length → ∃ range,
      backfillRequest cfg w (n + (k * batchLimit cfg : Nat) * w.intervalMs) = some range ∧
        market range (batchLimit cfg) = (rest.drop (k * batchLimit cfg)).take (batchLimit cfg))
    (hend : ∀ range, backfillRequest cfg w (n + rest.length * w.intervalMs) = some range →
      market range (batchLimit cfg) = [] ∧ (w.repoEmpty = false ∨ s.fetchedAny = true ∨ rest ≠ [])) :
    ∃ t, Ends (backfillBody cfg market w) s t ∧
      t.sync.repo.candles = s.sync.repo.candles ++ rest.map s.sync.repo.normalizeCandle := by
  have hL : 0 < batchLimit cfg := lt_of_lt_of_le Nat.one_pos (Nat.le_max_right _ _)
  induction hlen : rest.length using Nat.strong_induction_on generalizing rest s n with
  | _ q ih =>
    by_cases hrest : rest = []
    · -- Nothing is left: no request, or an empty page that does not widen the window.
      subst hrest
      refine ⟨s, ends_of_done ?_, by simp⟩
      simp only [List.length_nil, Nat.cast_zero, Int.zero_mul, Int.add_zero] at hend
      cases hreq : backfillRequest cfg w n with
      | none => exact backfillBody_of_none (by rw [hn]; exact hreq)
      | some range =>
        obtain ⟨hnil, hstop⟩ := hend range hreq
        rw [backfillBody_of_nil h.running (by rw [hn]; exact hreq) hnil, if_neg]
        simp only [ne_eq, not_true_eq_false, or_false] at hstop
        rcases hstop with hstop | hstop <;> simp [hstop]
    · have hpos : 0 < rest.length := List.length_pos_iff.mpr hrest
      obtain ⟨range, hreq, hp⟩ := hpage 0 (by omega)
      simp only [Nat.zero_mul, Nat.cast_zero, Int.zero_mul, Int.add_zero, List.drop_zero] at hreq hp
      by_cases hshort : rest.length < batchLimit cfg
      · rw [List.take_of_length_le hshort.le] at hp
        exact ends_of_short_page h (hn ▸ hreq) hp hrest hshort ht hc
      · -- A full page, and then the rest of the list.
        obtain ⟨htake, hdrop⟩ := ticks_take_drop ht (Nat.not_lt.mp hshort)
        have hlenp : (rest.take (batchLimit cfg)).length = batchLimit cfg := by
          rw [List.length_take]
          omega
        have hlenr : (rest.drop (batchLimit cfg)).length + batchLimit cfg = rest.length := by
          rw [List.length_drop]
          omega
        have hne : rest.take (batchLimit cfg) ≠ [] := by
          intro e
          rw [e, List.length_nil] at hlenp
          omega
        obtain ⟨-, -, hcandles, hfmt, hat, hnext⟩ := afterPage_readyAt cfg market h hne
          (by rw [hlenp]; exact htake) fun c h => hc c (List.mem_of_mem_take h)
        rw [hlenp] at hat hnext
        have hshift : ∀ m : Nat, n + batchLimit cfg * w.intervalMs + (m : Nat) * w.intervalMs =
            n + (m + batchLimit cfg : Nat) * w.intervalMs := fun m => by push_cast; ring
        obtain ⟨t, hends, ht'⟩ := ih (rest.drop (batchLimit cfg)).length (by omega) hat hnext hdrop
          (fun c h => hc c (List.mem_of_mem_drop h))
          (fun k hk => by
            obtain ⟨range, hr, hm⟩ := hpage (k + 1) (by rw [Nat.succ_mul]; omega)
            refine ⟨range, ?_, ?_⟩
            · rw [hshift, ← Nat.succ_mul]
              exact hr
            · rw [List.drop_drop, Nat.add_comm (batchLimit cfg), ← Nat.succ_mul]
              exact hm)
          (fun range hr => by
            rw [hshift, hlenr] at hr
            exact ⟨(hend range hr).1, .inr (.inl rfl)⟩) rfl
        refine ⟨t, ?_, ?_⟩
        · refine (ends_next_iff ?_).mpr hends
          rw [backfillBody_of_page h.running (by rw [hn]; exact hreq) (by rw [hp]; exact hne), hp,
            if_pos (.inr (.inl hlenp.ge))]
        · rw [ht', hcandles, normalizeCandle_congr hfmt, List.append_assoc, ← List.map_append,
            List.take_append_drop]

/-- A request that brings nothing ends the loop, unless it widens the window. -/
theorem ends_of_no_page (cfg : SyncConfig) (market : Market) (hrun : s.sync.running = true) (hpos : 0 ≤ s.nextFetch)
    (hno : ∀ n range, n ≤ s.nextFetch → backfillRequest cfg w n = some range →
      market range (batchLimit cfg) = []) :
    ∃ t, Ends (backfillBody cfg market w) s t ∧ t.sync.repo = s.sync.repo := by
  have stop : ∀ u : BackfillState, u.sync.running = true → u.sync.widenedOnce = true →
      u.nextFetch ≤ s.nextFetch → Ends (backfillBody cfg market w) u u := by
    intro u hu hw hle
    apply ends_of_done
    cases hreq : backfillRequest cfg w u.nextFetch with
    | none => exact backfillBody_of_none hreq
    | some range =>
      rw [backfillBody_of_nil hu hreq (hno u.nextFetch range hle hreq), if_neg (by simp [hw])]
  cases hreq : backfillRequest cfg w s.nextFetch with
  | none => exact ⟨s, ends_of_done (backfillBody_of_none hreq), rfl⟩
  | some range =>
    have hb := backfillBody_of_nil hrun hreq (hno s.nextFetch range le_rfl hreq)
    split at hb
    · rename_i hw
      simp only [Bool.and_eq_true, decide_eq_true_eq] at hw
      exact ⟨_, (ends_next_iff hb).mpr (stop _ hrun rfl (by dsimp only; omega)), rfl⟩
    · exact ⟨s, ends_of_done hb, rfl⟩

end Pages

end TCV.App
