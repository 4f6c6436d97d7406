import TradingChartViewer.Exchange.WsSession
import TradingChartViewer.Lib.Grid

/-!
# The order of closed candles

The klines that one session handles, and the candles it hands to the callback, over any number of
connections.

* `WsEvent`, `WsSession.handle`: a kline message, or a new connection;
* `ClosedInOrder`: the closed candles are handed over in order, each once, and none is lost;
* `InTurn`: what two candles that arrive one after the other have to do with each other;
* `Handed`: the invariant, that the session has handed over what arrived;
* `closedInOrder_iff`: the order is that in which the candles arrive.
-/

namespace TCV.Exchange

open TCV.Domain Lib.Grid

/-! ## What the session handles -/

/-- The kline of a message; its `"t"` is read as a 64-bit integer. -/
structure KlineMessage where
  kline : JsonObject
  int64 : ∀ n, kline.find "t" = some (.int64 n) → n ≤ kLongLongMax

inductive WsEvent
  | kline (message : KlineMessage)
  | reconnect

/-- From `scheduleReconnect` to `onHandshake`: the stream is a new one, the rest stays. -/
def WsSession.reconnect (s : WsSession) : WsSession := { s with reading := false }.doRead

section

variable (stod : List Char → Option Price)

def WsSession.handle (s : WsSession) : WsEvent → WsSession
  | .kline message => (WsSession.handleKline stod { s with reading := false } message.kline).2.doRead
  | .reconnect => s.reconnect

def WsSession.handleAll (s : WsSession) (es : List WsEvent) : WsSession :=
  es.foldl (WsSession.handle stod) s

/-- The candle of a message, if it gets as far as `deliver`. -/
def klineCandle (intervalMs : Int) (message : KlineMessage) : Option LiveCandle :=
  (decodeKline stod intervalMs message.kline).join

/-- The candles that arrive at `deliver`. -/
def arrivals (intervalMs : Int) (es : List WsEvent) : List LiveCandle :=
  es.filterMap fun
    | .kline message => klineCandle stod intervalMs message
    | .reconnect => none

/-- `onRead` of a kline message. -/
theorem onRead_kline (parse : List Char → Option Json) (s : WsSession) {payload : List Char}
    {root : JsonObject} (message : KlineMessage) (hparse : parse payload = some (.object root))
    (he : ∀ value, (payloadOf root).find "e" = some value →
      value.asString = some "kline".toList)
    (hk : (payloadOf root).find "k" = some (.object message.kline)) :
    s.onRead parse stod payload = s.handle stod (.kline message) := by
  have hevent : ∀ s : WsSession, s.handleMessage parse stod payload =
      some (s.handleKline stod message.kline) := by
    intro s
    unfold WsSession.handleMessage
    rw [hparse]
    simp only [Json.asObject, hk, Option.bind_some]
    cases hev : (payloadOf root).find "e" with
    | none => rfl
    | some value =>
      dsimp only
      rw [he value hev]
      rfl
  unfold WsSession.onRead
  dsimp only
  rw [hevent]
  rfl

end

/-! ## Candles in order -/

/-- The closed candles among these ascend. -/
def Ascending (delivered : List LiveCandle) : Prop :=
  (delivered.filter fun live => live.isFinal).Pairwise fun a b =>
    a.candle.openTime < b.candle.openTime

/-- The closed candles that the session hands over ascend, each is newer than `lastClosed`, and a
closed candle newer than `lastClosed` is handed over before the open ones that are later. -/
structure ClosedInOrder (stod : List Char → Option Price) (s : WsSession) (es : List WsEvent) :
    Prop where
  ascending : Ascending (s.handleAll stod es).delivered
  newer : ∀ pre e rest, es = pre ++ e :: rest → let t := s.handleAll stod pre
    ∀ live ∈ (t.handle stod e).delivered.drop t.delivered.length, live.isFinal = true →
      t.lastClosed < live.candle.openTime
  kept : ∀ pre message rest live, es = pre ++ .kline message :: rest →
    klineCandle stod s.intervalMs message = some live → live.isFinal = true →
    let t := s.handleAll stod pre
    t.lastClosed < live.candle.openTime →
    ∀ before g after,
      (s.handleAll stod es).delivered.drop t.delivered.length = before ++ g :: after →
      g.isFinal = false → live.candle.openTime < g.candle.openTime → live ∈ before

/-- After a closed candle `a` no closed candle of its time or before comes; and none at all after
one on which the callback throws, nor an open one at which it is tried again. -/
def InTurn (intervalMs : Int) (onData : LiveCandle → Bool) (a b : LiveCandle) : Prop :=
  a.isFinal = true →
    (b.isFinal = true → a.candle.openTime < b.candle.openTime) ∧
    (onData a = false → b.isFinal = false ∧ b.candle.openTime - intervalMs < a.candle.openTime)

/-! ## What a session keeps -/

/-- What every function of the session keeps; it only hands over more. -/
structure Keeps (s t : WsSession) : Prop where
  intervalMs : t.intervalMs = s.intervalMs
  onData : t.onData = s.onData
  delivered : s.delivered <+: t.delivered

section Keeps

variable {s t u : WsSession}

theorem Keeps.refl (s : WsSession) : Keeps s s := ⟨rfl, rfl, List.prefix_refl _⟩

theorem Keeps.trans (h : Keeps s t) (h' : Keeps t u) : Keeps s u :=
  ⟨h'.intervalMs.trans h.intervalMs, h'.onData.trans h.onData, h.delivered.trans h'.delivered⟩

theorem callOnData_keeps (s : WsSession) (live : LiveCandle) : Keeps s (s.callOnData live).2 := by
  unfold WsSession.callOnData
  split
  · exact .refl s
  · exact ⟨rfl, rfl, List.prefix_append _ _⟩

theorem flushLoop_keeps (s : WsSession) (upTo : Int) (entries : List (Int × LiveCandle)) :
    Keeps s (s.flushLoop upTo entries).2 := by
  induction entries generalizing s with
  | nil => exact ⟨rfl, rfl, List.prefix_refl _⟩
  | cons entry rest ih =>
    obtain ⟨key, live⟩ := entry
    have hcall := callOnData_keeps s live
    unfold WsSession.flushLoop
    split
    · split
      · rename_i h
        rw [h] at hcall
        exact ⟨hcall.intervalMs, hcall.onData, hcall.delivered⟩
      · rename_i s' h
        rw [h] at hcall
        have hrest := ih { s' with lastClosed := key }
        exact ⟨hrest.intervalMs.trans hcall.intervalMs, hrest.onData.trans hcall.onData,
          hcall.delivered.trans hrest.delivered⟩
    · exact ⟨rfl, rfl, List.prefix_refl _⟩

theorem deliver_keeps (s : WsSession) (live : LiveCandle) : Keeps s (s.deliver live).2 := by
  have hflush : ∀ (s : WsSession) upTo, Keeps s (s.flushClosedUpTo upTo).2 :=
    fun s upTo => flushLoop_keeps s upTo s.closedBacklog
  unfold WsSession.deliver
  split
  · exact .refl s
  · split
    · have := hflush { s with closedBacklog := assign live.candle.openTime live s.closedBacklog }
        kLongLongMax
      exact ⟨this.intervalMs, this.onData, this.delivered⟩
    · have := hflush s (live.candle.openTime - s.intervalMs)
      split
      · rename_i h
        rw [h] at this
        exact this
      · rename_i h
        rw [h] at this
        exact this.trans (callOnData_keeps _ live)

theorem doRead_keeps (s : WsSession) : Keeps s s.doRead := by
  unfold WsSession.doRead
  split
  · exact .refl s
  · exact ⟨rfl, rfl, List.prefix_refl _⟩

theorem handle_keeps (stod : List Char → Option Price) (s : WsSession) (e : WsEvent) :
    Keeps s (s.handle stod e) := by
  have hidle : Keeps s { s with reading := false } := ⟨rfl, rfl, List.prefix_refl _⟩
  cases e with
  | reconnect => exact hidle.trans (doRead_keeps _)
  | kline message =>
    refine Keeps.trans ?_ (doRead_keeps _)
    unfold WsSession.handleKline
    split
    · exact hidle
    · exact hidle
    · exact hidle.trans (deliver_keeps _ _)

theorem handleAll_keeps (stod : List Char → Option Price) (s : WsSession) (es : List WsEvent) :
    Keeps s (s.handleAll stod es) := by
  induction es generalizing s with
  | nil => exact .refl s
  | cons e es ih => exact (handle_keeps stod s e).trans (ih _)

theorem doRead_eq (s : WsSession) : ∃ reading, s.doRead = { s with reading := reading } := by
  unfold WsSession.doRead
  split
  · exact ⟨s.reading, rfl⟩
  · exact ⟨true, rfl⟩

/-- A candle that arrives goes to `deliver`. -/
theorem handle_kline {stod : List Char → Option Price} {message : KlineMessage} {live : LiveCandle}
    (h : klineCandle stod s.intervalMs message = some live) :
    s.handle stod (.kline message) =
      (WsSession.deliver { s with reading := false } live).2.doRead := by
  have hdecode : decodeKline stod s.intervalMs message.kline = some (some live) := by
    rw [klineCandle, Option.join_eq_some_iff] at h
    exact h
  rw [WsSession.handle, WsSession.handleKline]
  simp only [hdecode]

/-- Any other message only leads to the next read. -/
theorem handle_of_no_candle {stod : List Char → Option Price} {e : WsEvent}
    (h : arrivals stod s.intervalMs [e] = []) :
    ∃ reading, s.handle stod e = { s with reading := reading } := by
  cases e with
  | reconnect => exact doRead_eq { s with reading := false }
  | kline message =>
    have hjoin : (decodeKline stod s.intervalMs message.kline).join = none := by
      simpa [arrivals, klineCandle] using h
    have hidle : (WsSession.handleKline stod { s with reading := false } message.kline).2 =
        { s with reading := false } := by
      unfold WsSession.handleKline
      split
      · rfl
      · rfl
      · rename_i hdecode
        simp only at hdecode
        rw [hdecode] at hjoin
        cases hjoin
    rw [WsSession.handle, hidle]
    exact doRead_eq { s with reading := false }

end Keeps

/-! ## One candle -/

/-- What is in the backlog after the candles `arrived`: nothing, unless the callback threw on the
last closed one of them. -/
structure Handed (onData : LiveCandle → Bool) (arrived : List LiveCandle) (s : WsSession) :
    Prop where
  callback : s.onData = some onData
  delivered : s.delivered = arrived
  backlog : (s.closedBacklog = [] ∧ ∀ a ∈ arrived, a.isFinal = true → onData a = true) ∨
    ∃ f ∈ arrived, f.isFinal = true ∧ onData f = false ∧
      s.closedBacklog = [(f.candle.openTime, f)] ∧
      ∀ a ∈ arrived, a.isFinal = true → onData a = false → a = f
  lastClosed : s.lastClosed = 0 ∨
    ∃ a ∈ arrived, a.isFinal = true ∧ a.candle.openTime = s.lastClosed

section Handed

variable {onData : LiveCandle → Bool} {arrived : List LiveCandle} {s : WsSession}
  {live : LiveCandle}

theorem Handed.reading (h : Handed onData arrived s) (reading : Bool) :
    Handed onData arrived { s with reading := reading } :=
  ⟨h.callback, h.delivered, h.backlog, h.lastClosed⟩

theorem callOnData_eq (h : s.onData = some onData) (live : LiveCandle) :
    s.callOnData live = (if onData live then .returned else .threw,
      { s with delivered := s.delivered ++ [live] }) := by
  rw [WsSession.callOnData, h]

/-- The first entry within the bound is handed over first. -/
theorem flushLoop_first (h : s.onData = some onData) {upTo key : Int} (hkey : key ≤ upTo)
    (live : LiveCandle) (rest : List (Int × LiveCandle)) :
    s.delivered ++ [live] <+: (s.flushLoop upTo ((key, live) :: rest)).2.delivered := by
  rw [WsSession.flushLoop, if_pos hkey, callOnData_eq h]
  cases onData live with
  | false => exact List.prefix_refl _
  | true =>
    have := flushLoop_keeps { s with lastClosed := key, delivered := s.delivered ++ [live] } upTo rest
    exact this.delivered

/-- A flush below the first entry does nothing. -/
theorem flushClosedUpTo_of_lt {upTo : Int} (h : ∀ entry ∈ s.closedBacklog, upTo < entry.1) :
    s.flushClosedUpTo upTo = (.returned, s) := by
  unfold WsSession.flushClosedUpTo
  cases hb : s.closedBacklog with
  | nil => rw [WsSession.flushLoop, ← hb]
  | cons entry rest =>
    have := h entry (hb ▸ List.mem_cons_self)
    rw [WsSession.flushLoop, if_neg (by omega), ← hb]

theorem deliver_of_closed (h : s.onData = some onData) (hf : live.isFinal = true) :
    s.deliver live = WsSession.flushLoop
      { s with closedBacklog := assign live.candle.openTime live s.closedBacklog } kLongLongMax
      (assign live.candle.openTime live s.closedBacklog) := by
  rw [WsSession.deliver, if_neg (by simp [h]), if_pos hf]
  rfl

/-- A closed candle that finds no backlog is handed over, and stays only if the callback throws. -/
theorem deliver_closed (h : s.onData = some onData) (hb : s.closedBacklog = [])
    (hmax : live.candle.openTime ≤ kLongLongMax) (hf : live.isFinal = true) :
    (s.deliver live).2 =
      if onData live then
        { s with lastClosed := live.candle.openTime, delivered := s.delivered ++ [live] }
      else
        { s with
          closedBacklog := [(live.candle.openTime, live)]
          delivered := s.delivered ++ [live] } := by
  have hcall := callOnData_eq (s := { s with closedBacklog := [(live.candle.openTime, live)] }) h live
  rw [deliver_of_closed h hf, hb, assign, WsSession.flushLoop, if_pos hmax, hcall]
  cases onData live with
  | false => rfl
  | true => simp only [if_true, WsSession.flushLoop]

/-- An open candle before which nothing of the backlog is tried again is handed over. -/
theorem deliver_open (h : s.onData = some onData)
    (hb : ∀ entry ∈ s.closedBacklog, live.candle.openTime - s.intervalMs < entry.1)
    (hf : live.isFinal = false) :
    (s.deliver live).2 = { s with delivered := s.delivered ++ [live] } := by
  rw [WsSession.deliver, if_neg (by simp [h]), if_neg (by simp [hf]), flushClosedUpTo_of_lt hb]
  dsimp only
  rw [callOnData_eq h]

/-- An open candle comes after what it flushes. -/
theorem flush_prefix_deliver (h : s.onData = some onData) (hf : live.isFinal = false) :
    (s.flushClosedUpTo (live.candle.openTime - s.intervalMs)).2.delivered <+:
      (s.deliver live).2.delivered := by
  rw [WsSession.deliver, if_neg (by simp [h]), if_neg (by simp [hf])]
  split
  · rename_i hflush
    rw [hflush]
  · rename_i hflush
    rw [hflush]
    exact (callOnData_keeps _ live).delivered

/-- A candle in turn is handed over, and nothing else. -/
theorem Handed.deliver (h : Handed onData arrived s)
    (hturn : ∀ a ∈ arrived, InTurn s.intervalMs onData a live)
    (hmax : live.candle.openTime ≤ kLongLongMax) :
    Handed onData (arrived ++ [live]) (s.deliver live).2 := by
  have hdelivered : s.delivered ++ [live] = arrived ++ [live] := by rw [h.delivered]
  have hlast : s.lastClosed = 0 ∨
      ∃ a ∈ arrived ++ [live], a.isFinal = true ∧ a.candle.openTime = s.lastClosed := by
    rcases h.lastClosed with h0 | ⟨a, ha, hfinal⟩
    · exact .inl h0
    · exact .inr ⟨a, List.mem_append_left _ ha, hfinal⟩
  rcases h.backlog with ⟨hb, hreturned⟩ | ⟨f, hf, hfinal, hthrew, hb, honly⟩
  · cases hl : live.isFinal with
    | false =>
      rw [deliver_open h.callback (by simp [hb]) hl]
      refine ⟨h.callback, hdelivered, .inl ⟨hb, fun a ha hfinal => ?_⟩, hlast⟩
      rcases List.mem_append.mp ha with ha | ha
      · exact hreturned a ha hfinal
      · rw [List.mem_singleton.mp ha, hl] at hfinal
        cases hfinal
    | true =>
      have hmem : live ∈ arrived ++ [live] := List.mem_append_right _ (List.mem_singleton_self _)
      rw [deliver_closed h.callback hb hmax hl]
      cases hret : onData live with
      | true =>
        refine ⟨h.callback, hdelivered, .inl ⟨hb, fun a ha hfinal => ?_⟩,
          .inr ⟨live, hmem, hl, rfl⟩⟩
        rcases List.mem_append.mp ha with ha | ha
        · exact hreturned a ha hfinal
        · rw [List.mem_singleton.mp ha, hret]
      | false =>
        refine ⟨h.callback, hdelivered, .inr ⟨live, hmem, hl, hret, rfl, fun a ha hfinal hthrew => ?_⟩,
          hlast⟩
        rcases List.mem_append.mp ha with ha | ha
        · rw [hreturned a ha hfinal] at hthrew
          cases hthrew
        · exact List.mem_singleton.mp ha
  · -- Only an open candle close behind the pending one comes in turn.
    obtain ⟨hl, hlt⟩ := (hturn f hf hfinal).2 hthrew
    rw [deliver_open h.callback (by simpa [hb] using hlt) hl]
    refine ⟨h.callback, hdelivered,
      .inr ⟨f, List.mem_append_left _ hf, hfinal, hthrew, hb, fun a ha hfin hthr => ?_⟩, hlast⟩
    rcases List.mem_append.mp ha with ha | ha
    · exact honly a ha hfin hthr
    · rw [List.mem_singleton.mp ha, hl] at hfin
      cases hfin

theorem Ascending.of_prefix {as bs : List LiveCandle} (h : Ascending bs) (hab : as <+: bs) :
    Ascending as :=
  h.sublist (hab.sublist.filter _)

/-- Two closed candles that are not in order. -/
theorem not_ascending {as bs : List LiveCandle} (h : as ++ [live] <+: bs) {a : LiveCandle}
    (ha : a ∈ as) (hfinal : a.isFinal = true) (hl : live.isFinal = true)
    (hle : live.candle.openTime ≤ a.candle.openTime) : ¬ Ascending bs := by
  intro hasc
  have := hasc.of_prefix h
  rw [Ascending, List.filter_append, List.pairwise_append] at this
  have hlt := this.2.2 a (List.mem_filter.mpr ⟨ha, hfinal⟩) live
    (List.mem_filter.mpr ⟨List.mem_singleton_self _, hl⟩)
  omega

/-- While a closed candle is pending, no closed candle keeps the order. -/
theorem not_ascending_of_closed (h : s.onData = some onData) {f : LiveCandle}
    (hf : f ∈ s.delivered) (hfinal : f.isFinal = true)
    (hb : s.closedBacklog = [(f.candle.openTime, f)]) (hfmax : f.candle.openTime ≤ kLongLongMax)
    (hmax : live.candle.openTime ≤ kLongLongMax) (hl : live.isFinal = true) :
    ¬ Ascending (s.deliver live).2.delivered := by
  rw [deliver_of_closed h hl, hb]
  generalize hs : ({ s with closedBacklog := _ } : WsSession) = s'
  have hdata : s'.onData = some onData := hs ▸ h
  have hdelivered : s'.delivered = s.delivered := hs ▸ rfl
  unfold assign
  -- The first candle tried is the earlier one of the two.
  split
  · exact not_ascending (hdelivered ▸ flushLoop_first hdata hmax live _) hf hfinal hl (by omega)
  · split
    · exact not_ascending (hdelivered ▸ flushLoop_first hdata hmax live _) hf hfinal hl (by omega)
    · exact not_ascending (hdelivered ▸ flushLoop_first hdata hfmax f _) hf hfinal hfinal le_rfl

/-- Nor does an open candle at which it is tried again. -/
theorem not_ascending_of_open (h : s.onData = some onData) {f : LiveCandle}
    (hf : f ∈ s.delivered) (hfinal : f.isFinal = true)
    (hb : s.closedBacklog = [(f.candle.openTime, f)]) (hl : live.isFinal = false)
    (hle : f.candle.openTime ≤ live.candle.openTime - s.intervalMs) :
    ¬ Ascending (s.deliver live).2.delivered := by
  have hflush := flush_prefix_deliver h hl
  rw [WsSession.flushClosedUpTo, hb] at hflush
  exact not_ascending ((flushLoop_first h hle f []).trans hflush) hf hfinal hfinal le_rfl

/-- A candle out of turn brings closed candles out of order. -/
theorem Handed.inTurn (h : Handed onData arrived s)
    (harrived : ∀ a ∈ arrived, a.candle.openTime ≤ kLongLongMax)
    (hmax : live.candle.openTime ≤ kLongLongMax) (hasc : Ascending (s.deliver live).2.delivered) :
    ∀ a ∈ arrived, InTurn s.intervalMs onData a live := by
  intro a ha hfinal
  rcases h.backlog with ⟨hb, hreturned⟩ | ⟨f, hf, hfin, hthrew, hb, honly⟩
  · constructor
    · intro hl
      rw [deliver_closed h.callback hb hmax hl] at hasc
      have hnew : arrived ++ [live] <+: arrived ++ [live] := List.prefix_refl _
      by_contra hle
      refine not_ascending hnew ha hfinal hl (Int.not_lt.mp hle) ?_
      split at hasc <;> simpa only [h.delivered] using hasc
    · intro hthrew
      rw [hreturned a ha hfinal] at hthrew
      cases hthrew
  · have hmem : f ∈ s.delivered := h.delivered ▸ hf
    have hopen : live.isFinal = false := by
      by_contra hl
      exact not_ascending_of_closed h.callback hmem hfin hb (harrived f hf) hmax
        (Bool.not_eq_false _ ▸ hl) hasc
    have hfirst : live.isFinal = false ∧ live.candle.openTime - s.intervalMs < f.candle.openTime := by
      refine ⟨hopen, ?_⟩
      by_contra hle
      exact not_ascending_of_open h.callback hmem hfin hb hopen (Int.not_lt.mp hle) hasc
    refine ⟨fun hl => ?_, fun hthr => ?_⟩
    · rw [hfirst.1] at hl
      cases hl
    · rw [honly a ha hfinal hthr]
      exact hfirst

end Handed

/-! ## The candles of a session -/

section

variable {stod : List Char → Option Price}

theorem alignDownMs_le {I t : Int} (h : 0 < alignDownMs t I) : alignDownMs t I ≤ t := by
  rcases lt_or_ge 0 I with hI | hI
  · rw [alignDownMs_eq hI] at h ⊢
    exact floorTo_le (pos_of_floorTo_pos hI h).le
  · rw [alignDownMs, if_neg (Int.not_lt.mpr hI)]

/-- Times of arriving candles are positive 64-bit integers. -/
theorem openTime_of_klineCandle {I : Int} {message : KlineMessage} {live : LiveCandle}
    (h : klineCandle stod I message = some live) :
    0 < live.candle.openTime ∧ live.candle.openTime ≤ kLongLongMax := by
  rw [klineCandle, Option.join_eq_some_iff, decodeKline] at h
  split at h
  · cases h
  · obtain ⟨rawOpen, hopen, h⟩ := Option.bind_eq_some_iff.mp h
    obtain ⟨value, ht, hvalue⟩ := Option.bind_eq_some_iff.mp hopen
    have hraw : rawOpen ≤ kLongLongMax := by
      apply message.int64
      cases value with
      | int64 n => rw [ht, Option.some.inj hvalue]
      | _ => cases hvalue
    dsimp only at h
    split at h
    · cases h
    · rename_i hpos
      simp only [Option.bind_eq_bind, Option.bind_eq_some_iff] at h
      obtain ⟨open_, -, high, -, low, -, close, -, baseVolume, -, quoteVolume, -, trades, -, isClosed,
        -, h⟩ := h
      split at h
      · cases h
      · obtain rfl := Option.some.inj (Option.some.inj h)
        exact ⟨Int.not_le.mp hpos, (alignDownMs_le (Int.not_le.mp hpos)).trans hraw⟩

theorem openTime_of_mem_arrivals {I : Int} {es : List WsEvent} {live : LiveCandle}
    (h : live ∈ arrivals stod I es) :
    0 < live.candle.openTime ∧ live.candle.openTime ≤ kLongLongMax := by
  obtain ⟨e, -, he⟩ := List.mem_filterMap.mp h
  cases e with
  | reconnect => cases he
  | kline message => exact openTime_of_klineCandle he

theorem arrivals_append (I : Int) (es es' : List WsEvent) :
    arrivals stod I (es ++ es') = arrivals stod I es ++ arrivals stod I es' :=
  List.filterMap_append

theorem handleAll_append (s : WsSession) (es es' : List WsEvent) :
    s.handleAll stod (es ++ es') = (s.handleAll stod es).handleAll stod es' :=
  List.foldl_append

/-- A session that has handled nothing. -/
def newSession (intervalMs : Int) (onData : Option (LiveCandle → Bool)) (running reading : Bool) :
    WsSession :=
  { intervalMs := intervalMs, onData := onData, running := running, reading := reading }

variable {intervalMs : Int} {onData : LiveCandle → Bool} {running reading : Bool}

/-- An event hands over its candle if that is in turn, and only then keeps the order. -/
theorem Handed.handle (stod : List Char → Option Price) {s : WsSession}
    {arrived : List LiveCandle} (hs : Handed onData arrived s)
    (harrived : ∀ a ∈ arrived, a.candle.openTime ≤ kLongLongMax) (e : WsEvent) :
    ((∀ a ∈ arrived, ∀ live ∈ arrivals stod s.intervalMs [e], InTurn s.intervalMs onData a live) →
      Handed onData (arrived ++ arrivals stod s.intervalMs [e]) (s.handle stod e)) ∧
    (Ascending (s.handle stod e).delivered →
      ∀ a ∈ arrived, ∀ live ∈ arrivals stod s.intervalMs [e], InTurn s.intervalMs onData a live) := by
  have hidle (reading : Bool) := hs.reading reading
  have hread {arrived : List LiveCandle} {t : WsSession} (h : Handed onData arrived t) :
      Handed onData arrived t.doRead := by
    obtain ⟨reading, hr⟩ := doRead_eq t
    exact hr ▸ h.reading reading
  cases ha : arrivals stod s.intervalMs [e] with
  | nil =>
    obtain ⟨reading, he⟩ := handle_of_no_candle ha
    rw [List.append_nil, he]
    exact ⟨fun _ => hidle reading, fun _ _ _ _ h => absurd h List.not_mem_nil⟩
  | cons live rest =>
    cases e with
    | reconnect => cases ha
    | kline message =>
      obtain ⟨hlive, rfl⟩ : klineCandle stod s.intervalMs message = some live ∧ rest = [] := by
        unfold arrivals at ha
        cases hk : klineCandle stod s.intervalMs message with
        | none => simp [hk] at ha
        | some live' => simpa [hk] using ha
      have hmax := (openTime_of_klineCandle hlive).2
      rw [handle_kline hlive]
      simp only [List.mem_singleton, forall_eq]
      constructor
      · intro hturn
        exact hread ((hidle false).deliver hturn hmax)
      · intro hasc
        obtain ⟨reading, hr⟩ := doRead_eq (WsSession.deliver { s with reading := false } live).2
        rw [hr] at hasc
        exact (hidle false).inTurn harrived hmax hasc

/-- The candles in turn are the ones handed over, and out of turn there is no order. -/
theorem ascending_iff (stod : List Char → Option Price) (intervalMs : Int)
    (running reading : Bool) (es : List WsEvent) :
    let s := newSession intervalMs (some onData) running reading
    ((arrivals stod intervalMs es).Pairwise (InTurn intervalMs onData) →
      Handed onData (arrivals stod intervalMs es) (s.handleAll stod es)) ∧
    (Ascending (s.handleAll stod es).delivered →
      (arrivals stod intervalMs es).Pairwise (InTurn intervalMs onData)) := by
  intro s
  induction es using List.reverseRecOn with
  | nil =>
    refine ⟨fun _ => ⟨rfl, rfl, .inl ⟨rfl, fun a ha => ?_⟩, .inl rfl⟩, fun _ => List.Pairwise.nil⟩
    exact absurd ha List.not_mem_nil
  | append_singleton es e ih =>
    obtain ⟨hto, hfrom⟩ := ih
    have hI : (s.handleAll stod es).intervalMs = intervalMs := (handleAll_keeps stod s es).intervalMs
    have hstep (h : (arrivals stod intervalMs es).Pairwise (InTurn intervalMs onData)) :=
      (hto h).handle stod (fun a ha => (openTime_of_mem_arrivals ha).2) e
    rw [hI] at hstep
    rw [arrivals_append, List.pairwise_append, handleAll_append]
    constructor
    · rintro ⟨h, -, hturn⟩
      exact (hstep h).1 hturn
    · intro hasc
      have h := hfrom (hasc.of_prefix (handle_keeps stod _ e).delivered)
      refine ⟨h, ?_, (hstep h).2 hasc⟩
      have hone : (arrivals stod intervalMs [e]).length ≤ 1 := List.length_filterMap_le _ _
      generalize arrivals stod intervalMs [e] = last at hone
      cases last with
      | nil => exact List.Pairwise.nil
      | cons live rest =>
        obtain rfl : rest = [] := List.eq_nil_of_length_eq_zero (by simpa using hone)
        exact List.pairwise_singleton _ live

/-- Without a callback nothing is handed over. -/
theorem handleAll_of_no_callback {s : WsSession} (h : s.onData = none) (es : List WsEvent) :
    (s.handleAll stod es).delivered = s.delivered := by
  induction es using List.reverseRecOn with
  | nil => rfl
  | append_singleton es e ih =>
    rw [handleAll_append, ← ih]
    have hnone := (handleAll_keeps stod s es).onData.trans h
    generalize s.handleAll stod es = t at hnone
    show (t.handle stod e).delivered = t.delivered
    cases e with
    | reconnect =>
      obtain ⟨reading, hr⟩ := doRead_eq { t with reading := false }
      rw [WsSession.handle, WsSession.reconnect, hr]
    | kline message =>
      cases hk : klineCandle stod t.intervalMs message with
      | none =>
        obtain ⟨reading, he⟩ := handle_of_no_candle (e := .kline message)
          (show arrivals stod t.intervalMs [.kline message] = [] by simp [arrivals, hk])
        rw [he]
      | some live =>
        obtain ⟨reading, hr⟩ := doRead_eq (WsSession.deliver { t with reading := false } live).2
        rw [handle_kline hk, hr, WsSession.deliver, if_pos (by simp [hnone])]

/-- What arrives in turn is in order. -/
theorem ascending_of_inTurn {I : Int} {arrived : List LiveCandle}
    (h : arrived.Pairwise (InTurn I onData)) : Ascending arrived := by
  have hfinal : (arrived.filter fun live => live.isFinal).Pairwise (InTurn I onData) :=
    h.sublist List.filter_sublist
  refine hfinal.imp_of_mem fun ha hb hturn => ?_
  exact (hturn (List.mem_filter.mp ha).2).1 (List.mem_filter.mp hb).2

theorem closedInOrder_of_no_callback (intervalMs : Int) (running reading : Bool)
    (es : List WsEvent) : ClosedInOrder stod (newSession intervalMs none running reading) es := by
  have hnone (es : List WsEvent) :
      ((newSession intervalMs none running reading).handleAll stod es).delivered = [] :=
    handleAll_of_no_callback rfl es
  refine ⟨by rw [hnone]; exact List.Pairwise.nil, ?_, ?_⟩
  · intro pre e rest _ t live hlive
    have hone : t.handle stod e =
        (newSession intervalMs none running reading).handleAll stod (pre ++ [e]) := by
      rw [handleAll_append]
      rfl
    rw [hone, hnone (pre ++ [e]), List.drop_nil] at hlive
    exact absurd hlive List.not_mem_nil
  · intro pre message rest live _ _ _ t _ before g after hdrop
    rw [hnone es, List.drop_nil] at hdrop
    simp at hdrop

theorem closedInOrder_of_inTurn (running reading : Bool) {es : List WsEvent}
    (hpair : (arrivals stod intervalMs es).Pairwise (InTurn intervalMs onData)) :
    ClosedInOrder stod (newSession intervalMs (some onData) running reading) es := by
  -- Every prefix of the events has handed over what arrived.
  have hhanded (pre rest : List WsEvent) (he : es = pre ++ rest) :=
    (ascending_iff stod intervalMs running reading pre).1
      (by rw [he, arrivals_append] at hpair; exact (List.pairwise_append.mp hpair).1)
  have hall := hhanded es [] (List.append_nil es).symm
  refine ⟨by rw [hall.delivered]; exact ascending_of_inTurn hpair, ?_, ?_⟩
  · intro pre e rest he t live hlive hfinal
    have ht := hhanded pre (e :: rest) he
    have hone : t.handle stod e =
        (newSession intervalMs (some onData) running reading).handleAll stod (pre ++ [e]) := by
      rw [handleAll_append]
      rfl
    rw [hone, (hhanded (pre ++ [e]) rest (by rw [he]; simp)).delivered, ht.delivered,
      arrivals_append, List.drop_left] at hlive
    rcases ht.lastClosed with h0 | ⟨a, ha, hafinal, hat⟩
    · rw [h0]
      exact (openTime_of_mem_arrivals hlive).1
    · have hturn : InTurn intervalMs onData a live := by
        rw [he, show pre ++ e :: rest = pre ++ [e] ++ rest by simp, arrivals_append,
          List.pairwise_append, arrivals_append, List.pairwise_append] at hpair
        exact hpair.1.2.2 a ha live hlive
      rw [← hat]
      exact (hturn hafinal).1 hfinal
  · intro pre message rest live he hlive hfinal t _ before g after hdrop hg _
    have ht := hhanded pre (.kline message :: rest) he
    have hnew : arrivals stod intervalMs (.kline message :: rest) =
        live :: arrivals stod intervalMs rest :=
      List.filterMap_cons_some hlive
    rw [hall.delivered, ht.delivered, he, arrivals_append, List.drop_left, hnew] at hdrop
    cases before with
    | nil =>
      obtain ⟨rfl, -⟩ := List.cons.inj hdrop
      rw [hfinal] at hg
      cases hg
    | cons first before =>
      obtain ⟨rfl, -⟩ := List.cons.inj hdrop
      exact List.mem_cons_self

/-- A session keeps the order of closed candles exactly if they arrive in it, and after one on which
the callback throws only open candles come that do not lead to another try. -/
theorem closedInOrder_iff (stod : List Char → Option Price) (intervalMs : Int)
    (onData : Option (LiveCandle → Bool)) (running reading : Bool) (es : List WsEvent) :
    ClosedInOrder stod (newSession intervalMs onData running reading) es ↔
      ∀ callback, onData = some callback →
        (arrivals stod intervalMs es).Pairwise (InTurn intervalMs callback) := by
  constructor
  · rintro h callback rfl
    exact (ascending_iff stod intervalMs running reading es).2 h.ascending
  · intro h
    cases onData with
    | none => exact closedInOrder_of_no_callback intervalMs running reading es
    | some callback => exact closedInOrder_of_inTurn running reading (h callback rfl)

end

/-! ## A repeated kline -/

/-- The closed candle of the first minute, every price being one. -/
def closedKline : KlineMessage where
  kline := [("t".toList, .int64 60000), ("T".toList, .int64 119999), ("o".toList, .string []),
    ("h".toList, .string []), ("l".toList, .string []), ("c".toList, .string []),
    ("v".toList, .string []), ("q".toList, .string []), ("n".toList, .int64 1),
    ("x".toList, .bool true)]
  int64 n h := by
    obtain rfl := Json.int64.inj (Option.some.inj (show some (Json.int64 60000) = _ from h))
    decide

/-- The same message twice: its candle is handed over twice. -/
theorem not_closedInOrder_repeated :
    ¬ ClosedInOrder (fun _ => some 1) (newSession 60000 (some fun _ => true) true true)
      [.kline closedKline, .reconnect, .kline closedKline] := by
  intro h
  have hasc := h.ascending
  revert hasc
  unfold Ascending
  decide +kernel

end TCV.Exchange
