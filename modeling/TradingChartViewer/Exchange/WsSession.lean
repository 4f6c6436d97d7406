import TradingChartViewer.Exchange.Gateway
import TradingChartViewer.Lib.Run

/-!
# The live session

`WsSession` from a message to the callback: `onRead`, `handleKline`, `deliver`. The JSON
parser and `std::stod` are parameters, which may throw; so may the callback. A message is
read only while a read is pending (`reading`). Connecting again, the idle timer and the
log lines are left out.

* `WsSession.onRead`: one message, on each way out of the handler;
* `onRead_reading_iff`: after which messages the next read is pending;
* `listens_iff`: every message of a sequence is read, and a read is pending after each,
  exactly when every message is one of these.
-/

namespace TCV.Exchange

open TCV.Domain

/-! ## Values -/

/-- What the session tells apart in a JSON value. A number that is no 64-bit integer is
`number`; the last of the equal keys of an object comes first. -/
inductive Json
  | null
  | bool (b : Bool)
  | int64 (n : Int)
  | number
  | string (text : List Char)
  | array
  | object (fields : List (List Char × Json))

abbrev JsonObject := List (List Char × Json)

/-- `if_contains`, and `at`, which throws where this is `none`. -/
def JsonObject.find (o : JsonObject) (key : String) : Option Json := o.lookup key.toList

/-- `is_object` and `as_object`. -/
def Json.asObject : Json → Option JsonObject
  | .object fields => some fields
  | _ => none

/-- `as_string`, which throws on other values. -/
def Json.asString : Json → Option (List Char)
  | .string text => some text
  | _ => none

def Json.asInt64 : Json → Option Int
  | .int64 n => some n
  | _ => none

def Json.asBool : Json → Option Bool
  | .bool b => some b
  | _ => none

/-! ## The session -/

structure WsSession where
  intervalMs : Int
  /-- The callback, if there is one, and whether it returns. -/
  onData : Option (LiveCandle → Bool)
  running : Bool
  /-- An `async_read` has been issued and not completed. -/
  reading : Bool
  /-- The entries of the `std::map`, in ascending order. -/
  closedBacklog : List (Int × LiveCandle) := []
  lastClosed : Int := 0
  /-- The calls of `onData`. -/
  delivered : List LiveCandle := []

/-- How a function ends that may throw. -/
inductive Exit
  | returned
  | threw
  deriving DecidableEq, Repr

def WsSession.doRead (s : WsSession) : WsSession :=
  if !s.running then s else { s with reading := true }

/-- The call of the callback. -/
def WsSession.callOnData (s : WsSession) (live : LiveCandle) : Exit × WsSession :=
  match s.onData with
  | none => (.returned, s)
  | some onData =>
    (if onData live then .returned else .threw, { s with delivered := s.delivered ++ [live] })

/-- `map[key] = value`. -/
def assign (key : Int) (value : LiveCandle) : List (Int × LiveCandle) → List (Int × LiveCandle)
  | [] => [(key, value)]
  | (k, v) :: rest =>
    if key < k then (key, value) :: (k, v) :: rest
    else if key = k then (key, value) :: rest
    else (k, v) :: assign key value rest

/-- The loop of `flushClosedUpTo`, over the entries that are left. -/
def WsSession.flushLoop (s : WsSession) (upTo : Int) : List (Int × LiveCandle) → Exit × WsSession
  | [] => (.returned, { s with closedBacklog := [] })
  | (key, live) :: rest =>
    if key ≤ upTo then
      match s.callOnData live with
      | (.threw, s) => (.threw, { s with closedBacklog := (key, live) :: rest })
      | (.returned, s) => { s with lastClosed := key }.flushLoop upTo rest
    else (.returned, { s with closedBacklog := (key, live) :: rest })

def WsSession.flushClosedUpTo (s : WsSession) (upTo : Int) : Exit × WsSession :=
  s.flushLoop upTo s.closedBacklog

def WsSession.flushClosed (s : WsSession) : Exit × WsSession := s.flushClosedUpTo kLongLongMax

def WsSession.deliver (s : WsSession) (live : LiveCandle) : Exit × WsSession :=
  if s.onData.isNone then (.returned, s)
  else if live.isFinal then
    { s with closedBacklog := assign live.candle.openTime live s.closedBacklog }.flushClosed
  else
    match s.flushClosedUpTo (live.candle.openTime - s.intervalMs) with
    | (.threw, s) => (.threw, s)
    | (.returned, s) => s.callOnData live

section

variable (parse : List Char → Option Json) (stod : List Char → Option Price)

/-- `parseDecimal(kline.at(key))`. -/
def decimalAt (kline : JsonObject) (key : String) : Option Price := do
  let value ← kline.find key
  let text ← value.asString
  stod text

/-- `handleKline` up to the delivery: `none` if it throws, else the candle unless it
returns early. -/
def decodeKline (intervalMs : Int) (kline : JsonObject) : Option (Option LiveCandle) :=
  if (kline.find "t").isNone || (kline.find "T").isNone then some none
  else do
    let rawOpen ← (kline.find "t").bind Json.asInt64
    let openTime := alignDownMs rawOpen intervalMs
    if openTime ≤ 0 then return none
    let open_ ← decimalAt stod kline "o"
    let high ← decimalAt stod kline "h"
    let low ← decimalAt stod kline "l"
    let close ← decimalAt stod kline "c"
    let baseVolume ← decimalAt stod kline "v"
    let quoteVolume ← decimalAt stod kline "q"
    let trades ← (kline.find "n").bind Json.asInt64
    let isClosed ← (kline.find "x").bind Json.asBool
    let candle : Candle :=
      { openTime := openTime, closeTime := openTime + intervalMs - 1, open_ := open_
        high := high, low := low, close := close, baseVolume := baseVolume
        quoteVolume := quoteVolume, trades := toTradeCount (max trades 0), isClosed := isClosed }
    if !validateCandle candle then return none
    return some { candle := candle, isFinal := isClosed }

def WsSession.handleKline (s : WsSession) (kline : JsonObject) : Exit × WsSession :=
  match decodeKline stod s.intervalMs kline with
  | none => (.threw, s)
  | some none => (.returned, s)
  | some (some live) => s.deliver live

/-- The object that holds the event: `data` of a combined stream, or the message. -/
def payloadOf (root : JsonObject) : JsonObject :=
  ((root.find "data").bind Json.asObject).getD root

/-- The `try` block of `onRead`: `none` where it returns from `onRead`. -/
def WsSession.handleMessage (s : WsSession) (payload : List Char) : Option (Exit × WsSession) :=
  match parse payload with
  | none => some (.threw, s)
  | some value =>
    match value.asObject with
    | none => none
    | some root =>
      let payloadObj := payloadOf root
      let handleEvent :=
        match (payloadObj.find "k").bind Json.asObject with
        | none => none
        | some kline => some (s.handleKline stod kline)
      match payloadObj.find "e" with
      | none => handleEvent
      | some eventValue =>
        match eventValue.asString with
        | none => some (.threw, s)
        | some evt => if evt ≠ "kline".toList then none else handleEvent

/-- `onRead` of a message, whose read has completed. -/
def WsSession.onRead (s : WsSession) (payload : List Char) : WsSession :=
  let s := { s with reading := false }
  match s.handleMessage parse stod payload with
  | none => s
  | some (_, s) => s.doRead

/-- A message that arrives while a read is pending. -/
def WsSession.receive (s : WsSession) (payload : List Char) : Option WsSession :=
  if s.reading then some (s.onRead parse stod payload) else none

end

/-! ## The next read -/

/-- The messages after which `onRead` issues the next read: text that does not parse, and
objects whose event is ill-typed or is that of a kline. -/
def Rearms : Option Json → Prop
  | none => True
  | some (.object root) =>
    let payloadObj := payloadOf root
    (∃ eventValue, payloadObj.find "e" = some eventValue ∧ eventValue.asString = none) ∨
      (∀ eventValue, payloadObj.find "e" = some eventValue →
          eventValue.asString = some "kline".toList) ∧
        ∃ kline, payloadObj.find "k" = some (.object kline)
  | some _ => False

section

variable {parse : List Char → Option Json} {stod : List Char → Option Price} {s : WsSession}

@[simp] theorem callOnData_running (live : LiveCandle) :
    (s.callOnData live).2.running = s.running := by
  unfold WsSession.callOnData
  split <;> rfl

@[simp] theorem flushLoop_running (upTo : Int) (entries : List (Int × LiveCandle)) :
    (s.flushLoop upTo entries).2.running = s.running := by
  induction entries generalizing s with
  | nil => rfl
  | cons entry rest ih =>
    obtain ⟨key, live⟩ := entry
    have hcall := callOnData_running (s := s) live
    unfold WsSession.flushLoop
    split
    · split
      · rename_i h
        rw [h] at hcall
        exact hcall
      · rename_i s' h
        rw [h] at hcall
        exact ih.trans hcall
    · rfl

@[simp] theorem flushClosedUpTo_running (upTo : Int) :
    (s.flushClosedUpTo upTo).2.running = s.running :=
  flushLoop_running upTo s.closedBacklog

@[simp] theorem deliver_running (live : LiveCandle) : (s.deliver live).2.running = s.running := by
  have hflush := flushClosedUpTo_running (s := s) (live.candle.openTime - s.intervalMs)
  unfold WsSession.deliver
  split
  · rfl
  · split
    · exact flushClosedUpTo_running _
    · split
      · rename_i h
        rw [h] at hflush
        exact hflush
      · rename_i h
        rw [h] at hflush
        exact (callOnData_running live).trans hflush

/-- Handling a kline changes what was delivered, not whether the session runs. -/
@[simp] theorem handleKline_running (kline : JsonObject) :
    (s.handleKline stod kline).2.running = s.running := by
  unfold WsSession.handleKline
  split
  · rfl
  · rfl
  · exact deliver_running _

theorem handleMessage_running {payload : List Char} {e : Exit} {s' : WsSession}
    (h : s.handleMessage parse stod payload = some (e, s')) : s'.running = s.running := by
  have hevent : ∀ {o : Option Json}, (match o.bind Json.asObject with
      | none => none
      | some kline => some (s.handleKline stod kline)) = some (e, s') → s'.running = s.running := by
    intro o ho
    split at ho
    · exact nomatch ho
    · rename_i kline _
      have : (s.handleKline stod kline).2.running = s.running := handleKline_running kline
      rw [Option.some.inj ho] at this
      exact this
  unfold WsSession.handleMessage at h
  split at h
  · obtain ⟨-, rfl⟩ := Prod.mk.inj (Option.some.inj h)
    rfl
  · dsimp only at h
    split at h
    · exact nomatch h
    · split at h
      · exact hevent h
      · split at h
        · obtain ⟨-, rfl⟩ := Prod.mk.inj (Option.some.inj h)
          rfl
        · split at h
          · exact nomatch h
          · exact hevent h

theorem asObject_eq_some {value : Json} {fields : JsonObject} :
    value.asObject = some fields ↔ value = .object fields := by
  cases value <;> simp [Json.asObject]

/-- The handler gets to its end exactly on such messages. -/
theorem handleMessage_isSome (payload : List Char) :
    (s.handleMessage parse stod payload).isSome = true ↔ Rearms (parse payload) := by
  have hevent : ∀ o : Option Json, (match o.bind Json.asObject with
      | none => none
      | some kline => some (s.handleKline stod kline)).isSome = true ↔
        ∃ kline, o = some (.object kline) := by
    intro o
    rcases o with _ | value
    · simp
    · rw [Option.bind_some]
      split
      · rename_i h
        simp only [Option.isSome_none, Bool.false_eq_true, Option.some.injEq, false_iff]
        rintro ⟨kline, rfl⟩
        exact nomatch h
      · rename_i kline h
        simp only [Option.isSome_some, Option.some.injEq, true_iff]
        exact ⟨kline, asObject_eq_some.mp h⟩
  unfold WsSession.handleMessage
  rcases hp : parse payload with _ | value
  · exact iff_of_true rfl trivial
  · dsimp only
    rcases ho : value.asObject with _ | root
    · cases value with
      | object root => exact nomatch ho
      | _ => simp [Rearms]
    · obtain rfl := asObject_eq_some.mp ho
      simp only [Rearms]
      rcases he : (payloadOf root).find "e" with _ | eventValue
      · rw [hevent]
        simp
      · dsimp only
        rcases hs : eventValue.asString with _ | evt
        · simp [hs]
        · dsimp only
          split
          · rename_i hne
            refine iff_of_false nofun ?_
            rintro (⟨value, e, h⟩ | ⟨h, -⟩)
            · rw [← Option.some.inj e, hs] at h
              exact nomatch h
            · exact hne (Option.some.inj (hs.symm.trans (h eventValue rfl)))
          · rename_i heq
            rw [hevent]
            simp [hs, not_not.mp heq]

variable (parse stod) in
/-- After which messages the next read is pending. -/
theorem onRead_reading_iff (hs : s.running = true) (payload : List Char) :
    (s.onRead parse stod payload).running = true ∧
      ((s.onRead parse stod payload).reading = true ↔ Rearms (parse payload)) := by
  have hsome : (WsSession.handleMessage parse stod { s with reading := false } payload).isSome =
      true ↔ Rearms (parse payload) := handleMessage_isSome payload
  rw [← hsome]
  unfold WsSession.onRead
  dsimp only
  rcases h : WsSession.handleMessage parse stod { s with reading := false } payload with
    _ | ⟨e, s'⟩
  · exact ⟨hs, by simp⟩
  · have hrun : s'.running = true := (handleMessage_running h).trans hs
    simp [WsSession.doRead, hrun]

/-- Every message of a sequence is read, and the next read is pending after each, exactly
when each is malformed, ill-typed in its event, or a kline. -/
theorem listens_iff (hs : s.running = true) (hr : s.reading = true)
    (messages : List (List Char)) :
    (∀ pre, pre <+: messages → ∃ t, Lib.Run.run (WsSession.receive parse stod) s pre = some t ∧
        t.reading = true) ↔
      ∀ payload ∈ messages, Rearms (parse payload) := by
  induction messages generalizing s with
  | nil =>
    refine iff_of_true (fun pre hpre => ?_) nofun
    rw [List.prefix_nil.mp hpre]
    exact ⟨s, rfl, hr⟩
  | cons payload rest ih =>
    have hstep : s.receive parse stod payload = some (s.onRead parse stod payload) := if_pos hr
    obtain ⟨hrun, hread⟩ := onRead_reading_iff parse stod hs payload
    rw [List.forall_mem_cons]
    constructor
    · intro h
      -- The first message is followed by a read, and so the rest goes on from there.
      obtain ⟨t, ht, htr⟩ := h [payload] (List.prefix_append [payload] rest)
      rw [Lib.Run.run_cons, hstep] at ht
      obtain rfl := Option.some.inj ht
      refine ⟨hread.mp htr, (ih hrun htr).mp fun pre hpre => ?_⟩
      obtain ⟨u, hu, hur⟩ := h (payload :: pre) (List.cons_prefix_cons.mpr ⟨rfl, hpre⟩)
      rw [Lib.Run.run_cons, hstep] at hu
      exact ⟨u, hu, hur⟩
    · rintro ⟨hfirst, hrest⟩ pre hpre
      rcases List.prefix_cons_iff.mp hpre with rfl | ⟨more, rfl, hmore⟩
      · exact ⟨s, rfl, hr⟩
      · rw [Lib.Run.run_cons, hstep]
        exact (ih hrun (hread.mpr hfirst)).mpr hrest more hmore

end

/-! ## A subscription's answer -/

/-- The acknowledgement of a subscription. -/
def acknowledgement : List Char := "\x7b\"result\":null,\"id\":1\x7d".toList

/-- A parser on that text. -/
def parseAcknowledgement (text : List Char) : Option Json :=
  if text = acknowledgement then
    some (.object [("result".toList, .null), ("id".toList, .int64 1)])
  else none

/-- A session of minutes that waits for its first message. -/
def freshSession : WsSession :=
  { intervalMs := 60000, onData := some fun _ => true, running := true, reading := true }

/-- A message of a combined stream: the first minute, closed. -/
def klineMessage : Json :=
  .object [("data".toList, .object [("e".toList, .string "kline".toList),
    ("k".toList, .object [("t".toList, .int64 60000), ("T".toList, .int64 119999),
      ("o".toList, .string "1".toList), ("h".toList, .string "2".toList),
      ("l".toList, .string "1".toList), ("c".toList, .string "2".toList),
      ("v".toList, .string "1".toList), ("q".toList, .string "2".toList),
      ("n".toList, .int64 1), ("x".toList, .bool true)])])]

/-- A parser that knows a kline and an object whose event is no string. -/
def parseStream (text : List Char) : Option Json :=
  if text = "kline".toList then some klineMessage
  else if text = "number".toList then some (.object [("e".toList, .int64 1)])
  else none

def stodDigit (text : List Char) : Option Price :=
  if text = "1".toList then some 1 else if text = "2".toList then some 2 else none

/-- A text that is no JSON, an event that is no string, and a kline are read one after the other. -/
theorem listens_iff_mixed :
    let messages := ["x".toList, "number".toList, "kline".toList]
    (∀ pre, pre <+: messages → ∃ t, Lib.Run.run (WsSession.receive parseStream stodDigit)
      freshSession pre = some t ∧ t.reading = true) ∧
    (Lib.Run.run (WsSession.receive parseStream stodDigit) freshSession messages).map
      (fun t => t.delivered.map fun live => (live.candle.openTime, live.isFinal)) =
        some [(60000, true)] := by
  refine ⟨(listens_iff rfl rfl _).mpr ?_, by decide +kernel⟩
  rw [List.forall_mem_cons, List.forall_mem_cons, List.forall_mem_singleton]
  refine ⟨trivial, .inl ⟨.int64 1, rfl, rfl⟩, .inr ⟨fun eventValue he => ?_, _, rfl⟩⟩
  obtain rfl := Option.some.inj he
  rfl

/-- After the acknowledgement no read is pending, and the next message is not read. -/
theorem deaf_after_acknowledgement :
    ¬ (∀ (parse : List Char → Option Json) (stod : List Char → Option Price)
        (messages : List (List Char)), ∀ pre, pre <+: messages →
        ∃ t, Lib.Run.run (WsSession.receive parse stod) freshSession pre = some t ∧
          t.reading = true) ∧
      (Lib.Run.run (WsSession.receive parseAcknowledgement fun _ => none) freshSession
        [acknowledgement, "x".toList]).isNone = true := by
  refine ⟨fun h => ?_, by decide⟩
  obtain ⟨t, ht, hr⟩ := h parseAcknowledgement (fun _ => none) [acknowledgement] [acknowledgement]
    (List.prefix_refl _)
  have : ((Lib.Run.run (WsSession.receive parseAcknowledgement fun _ => none) freshSession
      [acknowledgement]).map WsSession.reading) = some false := by decide
  rw [ht, Option.map_some, hr] at this
  exact absurd this (by decide)

end TCV.Exchange
