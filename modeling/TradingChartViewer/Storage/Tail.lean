import TradingChartViewer.Storage.Series

/-!
# The last candle

Whether a candle gets into a repository depends on the open time and the state
of the last candle only. Candles of a finite history move it finitely often.

* `Repository.tail`, `Moves`, `Follows`, `Blocked`: the last candle, the candles
  that move it, those right after it, and those after a gap;
* `appendOrReplace_of_not_moves`: all other candles leave it, and the metadata;
* `potential`, `potential_appendOrReplace`: what a history can still move.
-/

namespace TCV.Storage

open TCV.Domain Lib.Tape Lib.Grid

/-- The open time of the last candle, and whether it is closed. -/
def Repository.tail (r : Repository) : Option (Int × Bool) :=
  r.candles.getLast?.map fun last => (last.openTime, last.isClosed)

/-- The candle gets in and moves the last candle, or closes it. -/
def Repository.Moves (r : Repository) (c : Candle) : Prop :=
  r.accepts c = true ∧
    match r.tail with
    | none => True
    | some (t, closed) =>
      (r.normalizeCandle c).openTime = t + r.intervalMs ∨
        ((r.normalizeCandle c).openTime = t ∧ closed = false ∧ c.isClosed = true)

/-- The candle is reported as a `Gap`. -/
def Repository.Blocked (r : Repository) (c : Candle) : Prop :=
  r.accepts c = true ∧
    match r.tail with
    | none => False
    | some (t, _) => t + r.intervalMs < (r.normalizeCandle c).openTime

/-- The candle comes right after the last one. -/
def Repository.Follows (r : Repository) (c : Candle) : Prop :=
  r.accepts c = true ∧
    match r.tail with
    | none => False
    | some (t, _) => (r.normalizeCandle c).openTime = t + r.intervalMs

instance (r : Repository) (c : Candle) : Decidable (r.Moves c) :=
  @instDecidableAnd _ _ _ (match r.tail with
    | none => .isTrue trivial
    | some (_, _) => inferInstanceAs (Decidable (_ ∨ _)))

instance (r : Repository) (c : Candle) : Decidable (r.Follows c) :=
  @instDecidableAnd _ _ _ (match r.tail with
    | none => .isFalse id
    | some (_, _) => inferInstanceAs (Decidable (_ = _)))

instance (r : Repository) (c : Candle) : Decidable (r.Blocked c) :=
  @instDecidableAnd _ _ _ (match r.tail with
    | none => .isFalse id
    | some (_, _) => inferInstanceAs (Decidable (_ < _)))

section Tail

variable {r r' : Repository} {c : Candle}

theorem tail_eq_some {t : Int} {closed : Bool} :
    r.tail = some (t, closed) ↔
      ∃ last, r.candles.getLast? = some last ∧ last.openTime = t ∧ last.isClosed = closed := by
  simp [Repository.tail]

theorem normalizeCandle_congr (h : r'.format = r.format) : r'.normalizeCandle = r.normalizeCandle := by
  funext c
  simp only [Repository.format, Prod.mk.injEq] at h
  simp only [Repository.normalizeCandle, h.2.2.1]

theorem accepts_congr (h : r'.format = r.format) : r'.accepts = r.accepts := by
  funext c
  simp only [Repository.accepts, normalizeCandle_congr h]
  simp only [Repository.format, Prod.mk.injEq] at h
  simp only [Repository.toPriceData, h]

theorem moves_congr (h : r'.format = r.format) (ht : r'.tail = r.tail) : r'.Moves c ↔ r.Moves c := by
  unfold Repository.Moves
  rw [accepts_congr h, normalizeCandle_congr h, ht, show r'.intervalMs = r.intervalMs from
    congrArg (·.2.2.1) h]

theorem blocked_congr (h : r'.format = r.format) (ht : r'.tail = r.tail) :
    r'.Blocked c ↔ r.Blocked c := by
  unfold Repository.Blocked
  rw [accepts_congr h, normalizeCandle_congr h, ht, show r'.intervalMs = r.intervalMs from
    congrArg (·.2.2.1) h]

/-- A candle that moves the last one becomes it. -/
theorem tail_of_moves [TimeUtils] (hs : r.Sound) (h : r.Moves c) :
    (r.appendOrReplace c).2.tail = some ((r.normalizeCandle c).openTime, c.isClosed) := by
  obtain ⟨ha, hm⟩ := h
  have enters : (place candleCells r.intervalMs r.candles (r.normalizeCandle c)).enters = true := by
    cases hl : r.candles.getLast? with
    | none => rw [place_eq_start.mpr (List.getLast?_eq_none_iff.mp hl)]; rfl
    | some last =>
      simp only [Repository.tail, hl, Option.map_some] at hm
      rcases hm with ht | ⟨ht, hlast, hc⟩
      · rw [(place_eq_follow hs.interval_pos hl).mpr ht]; rfl
      · rw [(place_eq_replace hl).mpr ⟨ht, by simp [hlast]⟩]; rfl
  unfold Repository.appendOrReplace Repository.tail
  rw [appendOrReplaceLocked_of_accepts hs ha]
  dsimp only
  rw [getLast?_offer, if_pos enters, Option.map_some, normalizeCandle_isClosed]

/-- A candle that does not move the last one leaves its time and state, and the
metadata. -/
theorem appendOrReplace_of_not_moves [TimeUtils] (hs : r.Sound) (h : ¬ r.Moves c) :
    (r.appendOrReplace c).2.tail = r.tail ∧ (r.appendOrReplace c).2.metadata = r.metadata := by
  unfold Repository.appendOrReplace
  cases ha : r.accepts c with
  | false => rw [appendOrReplaceLocked_of_not_accepts ha]; exact ⟨rfl, rfl⟩
  | true =>
    rw [appendOrReplaceLocked_of_accepts hs ha]
    have hm : ¬ _ := fun hm => h ⟨ha, hm⟩
    cases hl : r.candles.getLast? with
    | none => simp [Repository.tail, hl] at hm
    | some last =>
      simp only [Repository.tail, hl, Option.map_some, not_or, not_and] at hm ⊢
      obtain ⟨hfollow, hclose⟩ := hm
      cases hp : place candleCells r.intervalMs r.candles (r.normalizeCandle c) with
      | start => rw [place_eq_start.mp hp] at hl; cases hl
      | follow => exact absurd ((place_eq_follow hs.interval_pos hl).mp hp) hfollow
      | overlap => rw [offer_overlap hp, hl, hs.metadata]; exact ⟨rfl, rfl⟩
      | gap => rw [offer_gap hp, hl, hs.metadata]; exact ⟨rfl, rfl⟩
      | replace =>
        obtain ⟨ht, hf⟩ := (place_eq_replace hl).mp hp
        simp only [candleCells_time, candleCells_final, normalizeCandle_isClosed] at ht hf
        -- The state of the last candle stays as well.
        have hc : c.isClosed = last.isClosed := by
          have := hclose ht
          cases hlast : last.isClosed <;> cases hn : c.isClosed <;> simp_all
        rw [offer_replace hp, List.getLast?_concat]
        refine ⟨by simp only [Option.map_some, ht, normalizeCandle_isClosed, hc], ?_⟩
        rw [hs.metadata]
        apply metadataOf_congr_times
        have e := dropLast_append_of_getLast? hl
        rw [← e, closedOf_append, closedOf_append, List.dropLast_concat, closedOf_singleton,
          closedOf_singleton, normalizeCandle_isClosed, hc, List.map_append, List.map_append]
        cases last.isClosed <;> simp [ht]

theorem appendOrReplace_gap_iff [TimeUtils] (hs : r.Sound) :
    (r.appendOrReplace c).1.state = .gap ↔ r.Blocked c := by
  unfold Repository.appendOrReplace Repository.Blocked
  cases ha : r.accepts c with
  | false => rw [appendOrReplaceLocked_of_not_accepts ha]; simp
  | true =>
    rw [appendOrReplaceLocked_of_accepts hs ha]
    dsimp only
    rw [resultOf_state]
    cases hl : r.candles.getLast? with
    | none =>
      rw [place_eq_start.mpr (List.getLast?_eq_none_iff.mp hl)]
      simp [Repository.tail, hl]
    | some last =>
      have hgap := place_eq_gap (C := candleCells) (c := r.normalizeCandle c) hs.interval_pos hl
      simp only [candleCells_time] at hgap
      simp only [Repository.tail, hl, Option.map_some, ← hgap, true_and]
      cases place candleCells r.intervalMs r.candles (r.normalizeCandle c) <;> simp

/-- The range a `Gap` reports. -/
theorem expected_of_blocked [TimeUtils] (hs : r.Sound) (h : r.Blocked c) :
    ∃ t closed, r.tail = some (t, closed) ∧
      (r.appendOrReplace c).1.expectedFrom = t + r.intervalMs ∧
      (r.appendOrReplace c).1.expectedTo = (r.normalizeCandle c).openTime := by
  obtain ⟨ha, hb⟩ := h
  unfold Repository.appendOrReplace
  rw [appendOrReplaceLocked_of_accepts hs ha]
  cases hl : r.candles.getLast? with
  | none => simp [Repository.tail, hl] at hb
  | some last =>
    simp only [Repository.tail, hl, Option.map_some] at hb ⊢
    refine ⟨_, _, rfl, ?_⟩
    have hp := (place_eq_gap (C := candleCells) (c := r.normalizeCandle c) hs.interval_pos hl).mpr hb
    simp only [resultOf, hp, hl, Option.map_some, Option.getD_some, and_self]

theorem Repository.Follows.moves (h : r.Follows c) : r.Moves c := by
  obtain ⟨ha, hf⟩ := h
  refine ⟨ha, ?_⟩
  cases ht : r.tail with
  | none => trivial
  | some p =>
    rw [ht] at hf
    exact .inl hf

theorem follows_congr (h : r'.format = r.format) (ht : r'.tail = r.tail) :
    r'.Follows c ↔ r.Follows c := by
  unfold Repository.Follows
  rw [accepts_congr h, normalizeCandle_congr h, ht, show r'.intervalMs = r.intervalMs from
    congrArg (·.2.2.1) h]

end Tail

/-! ## What a history can still move -/

/-- Fewer elements of a list have a property than a weaker one that some element
has alone. -/
theorem countP_lt_countP {α : Type*} {p q : α → Bool} {l : List α} {a : α}
    (h : ∀ x ∈ l, p x = true → q x = true) (ha : a ∈ l) (hq : q a = true) (hp : p a = false) :
    l.countP p < l.countP q := by
  obtain ⟨as, bs, rfl⟩ := List.append_of_mem ha
  have h₁ : as.countP p ≤ as.countP q :=
    List.countP_mono_left fun x hx => h x (List.mem_append_left _ hx)
  have h₂ : bs.countP p ≤ bs.countP q :=
    List.countP_mono_left fun x hx => h x (List.mem_append_right _ (List.mem_cons_of_mem _ hx))
  rw [List.countP_append, List.countP_append, List.countP_cons_of_pos hq,
    List.countP_cons_of_neg (by rw [hp]; decide)]
  omega

/-- Twice the number of candles of the history after the last candle, and one
more while it is open. -/
def Repository.potential (history : List Candle) (r : Repository) : Nat :=
  match r.tail with
  | none => 2 * (history.length + 1)
  | some (t, closed) =>
    2 * history.countP (fun c => t < (r.normalizeCandle c).openTime) + if closed then 0 else 1

section Potential

variable {r r' : Repository} {c : Candle} {history : List Candle}

theorem potential_congr (h : r'.format = r.format) (ht : r'.tail = r.tail) :
    r'.potential history = r.potential history := by
  unfold Repository.potential
  rw [ht, normalizeCandle_congr h]

/-- A candle of the history that moves the last candle uses the history up. -/
theorem potential_of_moves [TimeUtils] (hs : r.Sound) (hc : c ∈ history) (h : r.Moves c) :
    (r.appendOrReplace c).2.potential history < r.potential history := by
  have hfmt := appendOrReplace_format hs c
  have htail := tail_of_moves hs h
  obtain ⟨-, hm⟩ := h
  have hI := hs.interval_pos
  have hself : history.countP (fun d => (r.normalizeCandle c).openTime < (r.normalizeCandle d).openTime)
      < history.length := by
    have hall : history.countP (fun _ => true) = history.length := by simp
    rw [← hall]
    exact countP_lt_countP (fun _ _ _ => rfl) hc rfl (by simp)
  simp only [Repository.potential, htail, normalizeCandle_congr hfmt]
  cases ht : r.tail with
  | none =>
    dsimp only
    split <;> omega
  | some p =>
    obtain ⟨t, closed⟩ := p
    rw [ht] at hm
    dsimp only at hm ⊢
    rcases hm with hnext | ⟨hsame, rfl, hclose⟩
    · have : history.countP (fun d => (r.normalizeCandle c).openTime < (r.normalizeCandle d).openTime)
          < history.countP (fun d => t < (r.normalizeCandle d).openTime) := by
        refine countP_lt_countP (fun d _ hd => ?_) hc ?_ (by simp)
        · simp only [decide_eq_true_eq] at hd ⊢
          omega
        · simp only [decide_eq_true_eq]
          omega
      split <;> split <;> omega
    · rw [hsame, hclose]
      simp

theorem potential_of_not_moves [TimeUtils] (hs : r.Sound) (h : ¬ r.Moves c) :
    (r.appendOrReplace c).2.potential history = r.potential history :=
  potential_congr (appendOrReplace_format hs c) (appendOrReplace_of_not_moves hs h).1

theorem potential_appendOrReplace [TimeUtils] (hs : r.Sound) (hc : c ∈ history) :
    (r.appendOrReplace c).2.potential history ≤ r.potential history := by
  by_cases h : r.Moves c
  · exact (potential_of_moves hs hc h).le
  · exact (potential_of_not_moves hs h).le

end Potential

end TCV.Storage
