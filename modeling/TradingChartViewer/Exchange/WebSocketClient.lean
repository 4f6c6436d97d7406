import TradingChartViewer.Exchange.WsSession
import TradingChartViewer.Exchange.WsTarget
import TradingChartViewer.Lib.Completion
import TradingChartViewer.Storage.PriceDataManager

/-!
# The WebSocket client

`WebSocketClient`: the connection that feeds the database engine, as a program on completion
handlers. The network decides how each operation completes. Of a timer's waits only a cancelled
one completes with an error. The strings of the log, and the stream with its options, are left
out.

* `WebSocketClient.handle`, `WebSocketClient.call`: the handlers, and the owner's calls;
* `decodeMessage`: a message as a record;
* `pending_while_connected`: while it is connected, the client waits for something, and for no
  more than it was connected for;
* `single_until_disconnect`: until it is first disconnected it waits for one thing, and the delay
  before it connects again doubles up to the limit;
* `handed_eq`: what the data handler gets, and the time of the last tick.
-/

namespace TCV.Exchange

open TCV.Domain TCV.Storage Lib.Completion Lib.Run

/-! ## The client -/

/-- The asynchronous operations, and the handler that `disconnect` posts. -/
inductive WsOp
  | resolve
  | connect
  | sslHandshake
  | handshake
  | read
  | reconnectTimer
  | close
  deriving DecidableEq, Repr

/-- How a read completes. -/
inductive ReadResult
  | closed
  | failed
  | message (payload : List Char)
  deriving DecidableEq, Repr

/-- The handlers. `ec` says that they get an error, `sni` that the host name could be set. -/
inductive WsHandler
  | onResolve (ec : Bool)
  | onConnect (ec sni : Bool)
  | onSslHandshake (ec : Bool)
  | onHandshake (ec : Bool)
  | onRead (result : ReadResult)
  | onReconnectTimer (ec : Bool)
  | close
  deriving DecidableEq, Repr

/-- `dataHandler` says that there is one, and `handed` holds its calls; `ioRunning` says that the
thread of `run` has not been joined. -/
structure WebSocketClient where
  symbol : List Char
  interval : List Char
  host : List Char
  target : List Char
  dataHandler : Bool := false
  connected : Bool := false
  wsOpen : Bool := false
  lastTickMs : Int := 0
  reconnectDelay : Nat := 1
  ioRunning : Bool := false
  handed : List PriceData := []
  deriving DecidableEq, Repr

def maxReconnectDelay : Nat := 30

def toLowerCopy (value : List Char) : List Char := value.map Char.toLower

/-- The constructor. -/
def WebSocketClient.construct (symbolParam intervalParam hostOverride pathTemplate : List Char) :
    WebSocketClient :=
  let lowercaseSymbol := toLowerCopy symbolParam
  let templ := if pathTemplate.isEmpty then "/ws/%s@kline_%s".toList else pathTemplate
  let target := WebSocketClient.formatWsTarget templ lowercaseSymbol intervalParam
  { symbol := symbolParam
    interval := intervalParam
    host := if hostOverride.isEmpty then "stream.binance.com".toList else hostOverride
    target :=
      if target.isEmpty then "/ws/".toList ++ lowercaseSymbol ++ "@kline_".toList ++ intervalParam
      else target }

def WebSocketClient.setDataHandler (c : WebSocketClient) (handler : Bool) : WebSocketClient :=
  { c with dataHandler := handler }

def WebSocketClient.isWsConnected (c : WebSocketClient) : Bool := c.connected && c.wsOpen

/-! ## Messages -/

section

variable (parse : List Char → Option Json) (stod : List Char → Option Price)

/-- The record of a kline: `none` if reading it throws. -/
def klineRecord (symbol interval : List Char) (kline : JsonObject) : Option PriceData := do
  let openTime ← (kline.find "t").bind Json.asInt64
  let closeTime ← (kline.find "T").bind Json.asInt64
  let openPrice ← decimalAt stod kline "o"
  let closePrice ← decimalAt stod kline "c"
  let highPrice ← decimalAt stod kline "h"
  let lowPrice ← decimalAt stod kline "l"
  let volume ← decimalAt stod kline "v"
  let baseAssetVolume ← decimalAt stod kline "q"
  let numberOfTrades ← (kline.find "n").bind Json.asInt64
  let takerBuyVolume ← decimalAt stod kline "V"
  let takerBuyBaseAssetVolume ← decimalAt stod kline "Q"
  return { openTime, openPrice, highPrice, lowPrice, closePrice, volume, closeTime, baseAssetVolume,
           numberOfTrades := toTradeCount numberOfTrades, takerBuyVolume, takerBuyBaseAssetVolume,
           symbol := strncpy 16 symbol, interval := strncpy 8 interval }

/-- The `try` block of `onRead`, up to the record that it stores the time of. -/
def decodeMessage (symbol interval : List Char) (message : List Char) : Option PriceData := do
  let jsonData ← parse message
  let obj ← jsonData.asObject
  let event ← (obj.find "e").bind Json.asString
  if event = "kline".toList then
    let kline ← (obj.find "k").bind Json.asObject
    klineRecord stod symbol interval kline
  else none

/-! ## The handlers -/

abbrev ClientTurn := Turn WebSocketClient WsOp

def WebSocketClient.scheduleReconnect (c : WebSocketClient) : ClientTurn :=
  if !c.connected then { state := c }
  else
    { state := { c with
        wsOpen := false, reconnectDelay := min (c.reconnectDelay * 2) maxReconnectDelay }
      -- `expires_after` cancels the waits of the timer.
      cancels := (· = .reconnectTimer)
      issues := [.reconnectTimer] }

def WebSocketClient.handleFailure (c : WebSocketClient) : ClientTurn :=
  if !c.connected then { state := c } else { c with wsOpen := false }.scheduleReconnect

def WebSocketClient.onMessage (c : WebSocketClient) (message : List Char) : WebSocketClient :=
  match decodeMessage parse stod c.symbol c.interval message with
  | none => c
  | some data => { c with
      lastTickMs := data.closeTime
      handed := if c.dataHandler then c.handed ++ [data] else c.handed }

def WebSocketClient.handle (c : WebSocketClient) : WsHandler → ClientTurn
  | .onResolve ec =>
    if ec then c.handleFailure else { state := c, issues := [.connect] }
  | .onConnect ec sni =>
    if ec then c.handleFailure
    else if !sni then c.handleFailure
    else { state := c, issues := [.sslHandshake] }
  | .onSslHandshake ec =>
    if ec then c.handleFailure else { state := c, issues := [.handshake] }
  | .onHandshake ec =>
    if ec then c.handleFailure
    else { state := { c with reconnectDelay := 1, wsOpen := true }, issues := [.read] }
  | .onRead .closed => { c with wsOpen := false }.scheduleReconnect
  | .onRead .failed => c.handleFailure
  | .onRead (.message payload) => { state := c.onMessage parse stod payload, issues := [.read] }
  | .onReconnectTimer ec =>
    if ec || !c.connected then { state := c }
    else { state := c, cancels := (· = .reconnectTimer), issues := [.resolve] }
  | .close => { state := c }

/-- The operation of a handler. -/
def WsHandler.op : WsHandler → WsOp
  | .onResolve _ => .resolve
  | .onConnect _ _ => .connect
  | .onSslHandshake _ => .sslHandshake
  | .onHandshake _ => .handshake
  | .onRead _ => .read
  | .onReconnectTimer _ => .reconnectTimer
  | .close => .close

/-- Handlers run on the thread of `run`. -/
def WebSocketClient.can (c : WebSocketClient) (q : Pending WsOp) (h : WsHandler) : Bool :=
  c.ioRunning && (q.cancelled || h ≠ .onReconnectTimer true)

/-- `disconnect` in two: up to `ioc.stop()`, and the `join`. -/
inductive ClientCall
  | connect
  | disconnect
  | join
  deriving DecidableEq, Repr

/-- `connectionMutex` keeps the calls apart. -/
def WebSocketClient.call (c : WebSocketClient) : ClientCall → Option ClientTurn
  | .connect =>
    if !c.connected && c.ioRunning then none
    else if c.connected then some { state := c }
    else some
      { state := { c with
          connected := true, wsOpen := false, lastTickMs := 0, reconnectDelay := 1, ioRunning := true }
        cancels := (· = .reconnectTimer)
        issues := [.resolve] }
  | .disconnect =>
    if !c.connected && c.ioRunning then none
    else if !c.connected then some { state := c }
    else some
      { state := { c with connected := false, wsOpen := false }
        cancels := (· = .reconnectTimer)
        issues := [.close] }
  | .join =>
    if !c.connected && c.ioRunning then some { state := { c with ioRunning := false } } else none

def WebSocketClient.program : Program WebSocketClient WsOp ClientCall WsHandler where
  call := WebSocketClient.call
  op := WsHandler.op
  can := WebSocketClient.can
  handle := WebSocketClient.handle parse stod

end

abbrev ClientEvent := Event ClientCall WsHandler

/-! ## What a handler does -/

section

variable {parse : List Char → Option Json} {stod : List Char → Option Price} {c : WebSocketClient}

theorem scheduleReconnect_of_connected (h : c.connected = true) : c.scheduleReconnect =
    { state := { c with
        wsOpen := false, reconnectDelay := min (c.reconnectDelay * 2) maxReconnectDelay }
      cancels := (· = .reconnectTimer), issues := [.reconnectTimer] } := by
  rw [WebSocketClient.scheduleReconnect, if_neg (by simp [h])]

theorem handleFailure_of_connected (h : c.connected = true) :
    c.handleFailure = c.scheduleReconnect := by
  rw [WebSocketClient.handleFailure, if_neg (by simp [h]), scheduleReconnect_of_connected h]
  exact scheduleReconnect_of_connected h

@[simp] theorem scheduleReconnect_connected : c.scheduleReconnect.state.connected = c.connected := by
  unfold WebSocketClient.scheduleReconnect
  split <;> rfl

@[simp] theorem handleFailure_connected : c.handleFailure.state.connected = c.connected := by
  unfold WebSocketClient.handleFailure
  split
  · rfl
  · exact scheduleReconnect_connected

@[simp] theorem onMessage_connected (message : List Char) :
    (c.onMessage parse stod message).connected = c.connected := by
  unfold WebSocketClient.onMessage
  split <;> rfl

variable (parse stod c) in
/-- No handler connects or disconnects. -/
@[simp] theorem handle_connected (h : WsHandler) :
    (c.handle parse stod h).state.connected = c.connected := by
  cases h with
  | onRead result => cases result <;> simp [WebSocketClient.handle]
  | close => rfl
  | _ =>
    simp only [WebSocketClient.handle]
    split_ifs <;> simp

/-- The handler gets an error after which the client connects again. -/
def WsHandler.fails : WsHandler → Bool
  | .onResolve ec => ec
  | .onConnect ec sni => ec || !sni
  | .onSslHandshake ec => ec
  | .onHandshake ec => ec
  | .onRead .closed => true
  | .onRead .failed => true
  | _ => false

/-- The handler of the wait of a timer that is not to go on. -/
def WsHandler.Ends : WsHandler → Prop
  | .onReconnectTimer ec => ec = true
  | .close => True
  | _ => False

variable (parse stod) in
theorem handle_of_fails (hc : c.connected = true) {h : WsHandler} (hf : h.fails = true) :
    c.handle parse stod h = c.scheduleReconnect := by
  have hfail := handleFailure_of_connected hc
  cases h with
  | onRead result =>
    cases result with
    | closed =>
      rw [WebSocketClient.handle, scheduleReconnect_of_connected hc]
      exact scheduleReconnect_of_connected hc
    | failed => exact hfail
    | message payload => exact nomatch hf
  | onConnect ec sni => cases ec <;> cases sni <;> first | exact hfail | exact nomatch hf
  | onReconnectTimer ec => exact nomatch hf
  | close => exact nomatch hf
  | _ =>
    obtain rfl := hf
    exact hfail

/-- The operation after one that completed as it should. -/
def WsHandler.next : WsHandler → WsOp
  | .onResolve _ => .connect
  | .onConnect _ _ => .sslHandshake
  | .onSslHandshake _ => .handshake
  | .onHandshake _ => .read
  | .onRead _ => .read
  | .onReconnectTimer _ => .resolve
  | .close => .close

theorem next_ne_close {h : WsHandler} (hh : ¬ h.Ends) : h.next ≠ .close := by
  cases h with
  | close => exact absurd trivial hh
  | _ => simp [WsHandler.next]

variable (parse stod c) in
theorem onMessage_kept (message : List Char) :
    (c.onMessage parse stod message).wsOpen = c.wsOpen ∧
      (c.onMessage parse stod message).reconnectDelay = c.reconnectDelay ∧
      (c.onMessage parse stod message).ioRunning = c.ioRunning := by
  unfold WebSocketClient.onMessage
  split <;> exact ⟨rfl, rfl, rfl⟩

variable (parse stod) in
theorem handle_of_goes (hc : c.connected = true) {h : WsHandler} (hf : h.fails = false)
    (hh : ¬ h.Ends) : (c.handle parse stod h).issues = [h.next] ∧
      (c.handle parse stod h).state.wsOpen = (h = .onHandshake false || c.wsOpen) ∧
      (c.handle parse stod h).state.reconnectDelay =
        (if h = .onHandshake false then 1 else c.reconnectDelay) ∧
      (c.handle parse stod h).state.ioRunning = c.ioRunning := by
  cases h with
  | onRead result =>
    cases result with
    | message payload =>
      obtain ⟨hopen, hdelay, hio⟩ := onMessage_kept parse stod c payload
      exact ⟨rfl, by simp [WebSocketClient.handle, hopen], by simp [WebSocketClient.handle, hdelay], hio⟩
    | _ => exact nomatch hf
  | onReconnectTimer ec =>
    obtain rfl : ec = false := Bool.eq_false_iff.mpr hh
    simp [WebSocketClient.handle, WsHandler.next, hc]
  | close => exact absurd trivial hh
  | _ => simp_all [WsHandler.fails, WebSocketClient.handle, WsHandler.next]

variable (parse stod) in
/-- On a connected client each other handler issues one operation. -/
theorem handle_issues (hc : c.connected = true) {h : WsHandler} (hh : ¬ h.Ends) :
    ∃ op, op ≠ .close ∧ (c.handle parse stod h).issues = [op] := by
  by_cases hf : h.fails = true
  · rw [handle_of_fails parse stod hc hf, scheduleReconnect_of_connected hc]
    exact ⟨.reconnectTimer, by decide, rfl⟩
  · exact ⟨h.next, next_ne_close hh,
      (handle_of_goes parse stod hc (Bool.not_eq_true _ ▸ hf) hh).1⟩

variable (parse stod c) in
theorem handle_of_ends {h : WsHandler} (hh : h.Ends) : c.handle parse stod h = { state := c } := by
  cases h with
  | onReconnectTimer ec =>
    obtain rfl : ec = true := hh
    rfl
  | close => rfl
  | _ => exact False.elim hh

variable (parse stod c) in
theorem length_handle_issues (h : WsHandler) : (c.handle parse stod h).issues.length ≤ 1 := by
  have hschedule : ∀ d : WebSocketClient, d.scheduleReconnect.issues.length ≤ 1 := fun d => by
    unfold WebSocketClient.scheduleReconnect
    split <;> simp
  have hfail : c.handleFailure.issues.length ≤ 1 := by
    unfold WebSocketClient.handleFailure
    split
    · simp
    · exact hschedule _
  cases h with
  | onRead result =>
    cases result with
    | closed => exact hschedule _
    | failed => exact hfail
    | message payload => exact le_rfl
  | close => exact Nat.zero_le 1
  | _ =>
    simp only [WebSocketClient.handle]
    split_ifs <;> simp [hfail]

/-! ## Never without an operation -/

variable (parse stod) in
theorem program_carries : (WebSocketClient.program parse stod).Carries (fun _ => True)
    (fun c => c.connected = true) (· ≠ .close) where
  call p k t _ ht hon := by
    cases k with
    | connect =>
      simp only [WebSocketClient.program, WebSocketClient.call] at ht
      split_ifs at ht with hbusy hc
      · cases ht
        exact .inr ⟨hc, fun _ _ => rfl⟩
      · cases ht
        exact .inl ⟨.resolve, List.mem_singleton_self _, by decide⟩
    | disconnect =>
      simp only [WebSocketClient.program, WebSocketClient.call] at ht
      split_ifs at ht with hbusy hc
      · cases ht
        exact .inr ⟨hon, fun _ _ => rfl⟩
      · cases ht
        exact nomatch hon
    | join =>
      simp only [WebSocketClient.program, WebSocketClient.call] at ht
      split_ifs at ht with hbusy
      cases ht
      rw [Bool.and_eq_true, Bool.not_eq_true'] at hbusy
      exact nomatch hbusy.1.symm.trans hon
  live p q h _ _ hop hcan hlive hcarries hon := by
    have hc : p.state.connected = true := (handle_connected parse stod p.state h).symm.trans hon
    have hh : ¬ h.Ends := by
      intro hends
      cases h with
      | onReconnectTimer ec =>
        obtain rfl : ec = true := hends
        simp [WebSocketClient.program, WebSocketClient.can, hlive] at hcan
      | close => exact hcarries hop
      | _ => exact hends
    obtain ⟨op, hne, e⟩ := handle_issues parse stod hc hh
    exact ⟨op, by rw [WebSocketClient.program, e]; exact List.mem_singleton_self op, hne⟩
  other p q h _ _ _ _ hon := by
    have hc : p.state.connected = true := (handle_connected parse stod p.state h).symm.trans hon
    by_cases hh : h.Ends
    · refine .inr ⟨hc, fun _ _ => ?_⟩
      show (p.state.handle parse stod h).cancels _ = false
      rw [handle_of_ends parse stod p.state hh]
    · obtain ⟨op, hne, e⟩ := handle_issues parse stod hc hh
      exact .inl ⟨op, by rw [WebSocketClient.program, e]; exact List.mem_singleton_self op, hne⟩

/-- The calls that connect. -/
def ClientCall.starts : ClientCall → Nat
  | .connect => 1
  | _ => 0

variable (parse stod) in
theorem program_linear :
    (WebSocketClient.program parse stod).Linear (· ≠ .close) ClientCall.starts where
  call c k t ht := by
    cases k <;> simp only [WebSocketClient.program, WebSocketClient.call] at ht <;>
      split_ifs at ht <;> cases ht <;> simp [ClientCall.starts]
  handle c h := by
    by_cases hh : h = .close
    · subst hh
      exact Nat.zero_le _
    · have hop : h.op ≠ .close := by cases h <;> simp_all [WsHandler.op]
      rw [if_pos (show (WebSocketClient.program parse stod).op h ≠ .close from hop)]
      exact List.countP_le_length.trans (length_handle_issues parse stod c h)

end

/-- From the constructor on. -/
def runClient (parse : List Char → Option Json) (stod : List Char → Option Price)
    (c : WebSocketClient) (es : List ClientEvent) : Option (Pool WebSocketClient WsOp) :=
  run (WebSocketClient.program parse stod).step { state := c } es

/-- While it is connected, the client waits for the network or for its timer, however its
operations complete and however often it was disconnected; and it waits for no more operations
than it was told to connect. -/
theorem pending_while_connected (parse : List Char → Option Json) (stod : List Char → Option Price)
    (symbol interval host pathTemplate : List Char) (handler : Bool) (es : List ClientEvent)
    (p : Pool WebSocketClient WsOp)
    (hr : runClient parse stod
      ((WebSocketClient.construct symbol interval host pathTemplate).setDataHandler handler) es =
      some p) :
    (p.state.connected = true → p.Alive (· ≠ .close)) ∧
      p.count (· ≠ .close) ≤ (es.map (Event.started ClientCall.starts)).sum := by
  refine ⟨(program_carries parse stod).alive (fun _ _ _ _ _ => trivial) trivial
    (fun h => absurd h Bool.false_ne_true) hr, ?_⟩
  exact ((program_linear parse stod).count_le hr).trans (Nat.zero_add _).le

/-- The first attempt fails, and the second gets as far as the TLS handshake. -/
def retryEvents : List ClientEvent :=
  [.complete 0 (.onResolve true), .complete 0 (.onReconnectTimer false),
    .complete 0 (.onResolve false), .complete 0 (.onConnect false true)]

/-- A client of no particular symbol. -/
def idleClient : WebSocketClient :=
  (WebSocketClient.construct ['B'] ['1', 'm'] [] []).setDataHandler true

/-- A disconnection leaves the handshake pending, which does not keep the client from connecting
again. -/
theorem pending_while_connected_again : ∃ p, runClient (fun _ => none) (fun _ => none) idleClient
      (.call .connect :: retryEvents ++ [.call .disconnect, .call .join, .call .connect]) = some p ∧
    p.state.connected = true ∧ p.Alive (· ≠ .close) ∧ p.count (· ≠ .close) ≤ 2 :=
  ⟨_, rfl, rfl, (pending_while_connected (fun _ => none) (fun _ => none) ['B'] ['1', 'm'] [] [] true
      (.call .connect :: retryEvents ++ [.call .disconnect, .call .join, .call .connect]) _ rfl).1
        rfl,
    (pending_while_connected (fun _ => none) (fun _ => none) ['B'] ['1', 'm'] [] [] true
      (.call .connect :: retryEvents ++ [.call .disconnect, .call .join, .call .connect]) _ rfl).2⟩

/-! ## One connection -/

/-- The attempts to connect that failed since the last that succeeded. -/
def failuresAfter (n : Nat) : ClientEvent → Nat
  | .complete _ h => if h = .onHandshake false then 0 else if h.fails then n + 1 else n
  | .call _ => n

def failures (es : List ClientEvent) : Nat := es.foldl failuresAfter 0

/-- One operation is pending. -/
structure Serving (n : Nat) (p : Pool WebSocketClient WsOp) : Prop where
  connected : p.state.connected = true
  ioRunning : p.state.ioRunning = true
  delay : p.state.reconnectDelay = min (2 ^ n) maxReconnectDelay
  single : ∃ op, p.pending = [{ op := op }] ∧ op ≠ .close ∧ (p.state.wsOpen = true ↔ op = .read)

section

variable {parse : List Char → Option Json} {stod : List Char → Option Price}
  {p p' : Pool WebSocketClient WsOp} {n : Nat} {e : ClientEvent}

theorem Serving.complete (hp : Serving n p) {i : Nat} {q : Pending WsOp} {h : WsHandler}
    (hi : p.pending[i]? = some q) (hop : q.op = h.op) (hcan : p.state.can q h = true) :
    Serving (failuresAfter n (.complete i h)) (p.complete i (p.state.handle parse stod h)) := by
  obtain ⟨op, hpending, hclose, hopen⟩ := hp.single
  obtain ⟨rfl, hnew⟩ := complete_pending_of_single hpending hi
  have hh : ¬ h.Ends := by
    intro hends
    cases h with
    | onReconnectTimer ec =>
      obtain rfl : ec = true := hends
      simp [WebSocketClient.can] at hcan
    | close => exact hclose hop
    | _ => exact hends
  have hc := (handle_connected parse stod p.state h).trans hp.connected
  by_cases hf : h.fails = true
  · have e := (handle_of_fails parse stod hp.connected hf).trans
      (scheduleReconnect_of_connected hp.connected)
    have hne : h ≠ .onHandshake false := fun he => by
      rw [he] at hf
      exact nomatch hf
    refine ⟨hc, ?_, ?_, .reconnectTimer, ?_, by decide, ?_⟩
    · rw [complete_state, e]
      exact hp.ioRunning
    · rw [complete_state, e, failuresAfter, if_neg hne, if_pos hf, Nat.pow_succ]
      show min (p.state.reconnectDelay * 2) maxReconnectDelay = _
      have := hp.delay
      omega
    · rw [hnew, e]
      rfl
    · rw [complete_state, e]
      exact iff_of_false Bool.false_ne_true (by decide)
  · obtain ⟨hissues, hwsOpen, hdelay, hio⟩ :=
      handle_of_goes parse stod hp.connected (Bool.not_eq_true _ ▸ hf) hh
    refine ⟨hc, hio.trans hp.ioRunning, ?_, h.next, ?_, next_ne_close hh, ?_⟩
    · rw [complete_state, hdelay, failuresAfter, if_neg hf]
      split
      · rfl
      · exact hp.delay
    · rw [hnew, hissues]
      rfl
    · rw [complete_state, hwsOpen, Bool.or_eq_true, decide_eq_true_eq, hopen]
      obtain rfl : op = h.op := hop
      cases h <;> simp_all [WsHandler.next, WsHandler.op, WsHandler.fails]

theorem Serving.step (hp : Serving n p) (he : e ≠ .call .disconnect)
    (h : (WebSocketClient.program parse stod).step p e = some p') :
    Serving (failuresAfter n e) p' := by
  obtain ⟨k, t, rfl, ht, rfl⟩ | ⟨i, q, g, rfl, hq, hop, hcan, rfl⟩ := step_cases h
  · have hc := hp.connected
    cases k with
    | connect =>
      -- It is connected already.
      simp only [WebSocketClient.program, WebSocketClient.call, hc, Bool.not_true, Bool.false_and,
        Bool.false_eq_true, if_false, if_true, Option.some.injEq] at ht
      subst ht
      obtain ⟨op, hpending, hrest⟩ := hp.single
      exact ⟨hc, hp.ioRunning, hp.delay, op, by rw [Pool.take, hpending]; rfl, hrest⟩
    | disconnect => exact absurd rfl he
    | join => simp [WebSocketClient.program, WebSocketClient.call, hc] at ht
  · exact hp.complete hq hop hcan

end

/-- Until it is disconnected, a client that was connected waits for one operation. It says that it
is connected exactly while that is a read, and the delay of the reconnection timer doubles with
each failure since the last handshake, up to the limit. -/
theorem single_until_disconnect (parse : List Char → Option Json) (stod : List Char → Option Price)
    (symbol interval host pathTemplate : List Char) (handler : Bool) (es : List ClientEvent)
    (hes : ∀ e ∈ es, e ≠ .call .disconnect) (p : Pool WebSocketClient WsOp)
    (hr : runClient parse stod
      ((WebSocketClient.construct symbol interval host pathTemplate).setDataHandler handler)
      (.call .connect :: es) = some p) :
    ∃ op, p.pending = [{ op := op }] ∧ (p.state.isWsConnected = true ↔ op = .read) ∧
      p.state.reconnectDelay = min (2 ^ failures es) maxReconnectDelay := by
  rw [runClient, run_cons, Option.bind_eq_some_iff] at hr
  obtain ⟨p₀, hfirst, hr⟩ := hr
  obtain rfl := Option.some.inj hfirst
  have hp : Serving (failures es) p := by
    refine run_induction (P := fun es p => (∀ e ∈ es, e ≠ .call .disconnect) →
      Serving (failures es) p) (fun _ => ⟨rfl, rfl, rfl, .resolve, rfl, by decide, ?_⟩)
      (fun es e t u _ ih h hes => ?_) hr hes
    · exact iff_of_false Bool.false_ne_true (by decide)
    · rw [failures, List.foldl_append]
      exact (ih fun f hf => hes f (List.mem_append_left _ hf)).step
        (hes e (List.mem_append_right _ (List.mem_singleton_self e))) h
  obtain ⟨op, hpending, -, hopen⟩ := hp.single
  refine ⟨op, hpending, ?_, hp.delay⟩
  rw [WebSocketClient.isWsConnected, hp.connected, Bool.true_and, hopen]

theorem single_until_disconnect_retry : ∃ p, runClient (fun _ => none) (fun _ => none) idleClient
      (.call .connect :: retryEvents) = some p ∧
    p.pending = [{ op := .sslHandshake }] ∧ ∃ op, p.pending = [{ op := op }] ∧
      (p.state.isWsConnected = true ↔ op = .read) ∧ p.state.reconnectDelay = 2 :=
  ⟨_, rfl, rfl, single_until_disconnect (fun _ => none) (fun _ => none) ['B'] ['1', 'm'] [] [] true
    retryEvents (by decide) _ rfl⟩

/-! ## What is handed on -/

/-- The message that a handler gets. -/
def WsHandler.message? : WsHandler → Option (List Char)
  | .onRead (.message payload) => some payload
  | _ => none

/-- The messages read, in order. -/
def payloads (es : List ClientEvent) : List (List Char) :=
  es.filterMap fun
    | .complete _ h => h.message?
    | .call _ => none

section

variable {parse : List Char → Option Json} {stod : List Char → Option Price} {c : WebSocketClient}

theorem scheduleReconnect_data :
    ∃ wsOpen delay, c.scheduleReconnect.state =
      { c with wsOpen := wsOpen, reconnectDelay := delay } := by
  unfold WebSocketClient.scheduleReconnect
  split <;> exact ⟨_, _, rfl⟩

theorem handleFailure_data :
    ∃ wsOpen delay, c.handleFailure.state = { c with wsOpen := wsOpen, reconnectDelay := delay } := by
  unfold WebSocketClient.handleFailure
  split
  · exact ⟨_, _, rfl⟩
  · exact scheduleReconnect_data

variable (parse stod c) in
/-- Only a message changes anything but the state of the connection. -/
theorem handle_data {h : WsHandler} (hh : h.message? = none) :
    ∃ wsOpen delay, (c.handle parse stod h).state =
      { c with wsOpen := wsOpen, reconnectDelay := delay } := by
  have hsame : ∃ wsOpen delay, c = { c with wsOpen := wsOpen, reconnectDelay := delay } :=
    ⟨_, _, rfl⟩
  have hfail := handleFailure_data (c := c)
  cases h with
  | onRead result =>
    cases result with
    | closed => exact scheduleReconnect_data
    | failed => exact hfail
    | message payload => exact nomatch hh
  | onHandshake ec =>
    cases ec with
    | true => exact hfail
    | false => exact ⟨true, 1, rfl⟩
  | close => exact hsame
  | onConnect ec sni => cases ec <;> cases sni <;> first | exact hfail | exact hsame
  | onReconnectTimer ec =>
    simp only [WebSocketClient.handle]
    split <;> exact hsame
  | onResolve ec => cases ec <;> first | exact hfail | exact hsame
  | onSslHandshake ec => cases ec <;> first | exact hfail | exact hsame

/-- What the client has done with the messages since it was connected: the record of each that is
one of a kline was handed on, and the time of the last is the last tick. -/
structure Tracks (decode : List Char → Option PriceData) (symbol interval : List Char)
    (before : List PriceData) (messages : List (List Char)) (c : WebSocketClient) : Prop where
  symbol : c.symbol = symbol
  interval : c.interval = interval
  dataHandler : c.dataHandler = true
  handed : c.handed = before ++ messages.filterMap decode
  lastTickMs : c.lastTickMs = ((messages.filterMap decode).getLast?.map (·.closeTime)).getD 0

variable {symbol interval : List Char} {before : List PriceData} {messages : List (List Char)}

theorem Tracks.onMessage
    (hc : Tracks (decodeMessage parse stod symbol interval) symbol interval before messages c)
    (payload : List Char) :
    Tracks (decodeMessage parse stod symbol interval) symbol interval before
      (messages ++ [payload]) (c.onMessage parse stod payload) := by
  obtain ⟨rfl, rfl, hhandler, hhanded, htick⟩ := hc
  unfold WebSocketClient.onMessage
  split
  · rename_i hd
    have e : (messages ++ [payload]).filterMap (decodeMessage parse stod c.symbol c.interval) =
        messages.filterMap (decodeMessage parse stod c.symbol c.interval) := by
      rw [List.filterMap_append, List.filterMap_cons_none hd, List.filterMap_nil, List.append_nil]
    exact ⟨rfl, rfl, hhandler, by rw [e, hhanded], by rw [e, htick]⟩
  · rename_i data hd
    have e : (messages ++ [payload]).filterMap (decodeMessage parse stod c.symbol c.interval) =
        messages.filterMap (decodeMessage parse stod c.symbol c.interval) ++ [data] := by
      rw [List.filterMap_append, List.filterMap_cons_some hd, List.filterMap_nil]
    refine ⟨rfl, rfl, hhandler, ?_, by rw [e, List.getLast?_concat]; rfl⟩
    rw [e, ← List.append_assoc, ← hhanded]
    exact if_pos hhandler

theorem Tracks.handle
    (hc : Tracks (decodeMessage parse stod symbol interval) symbol interval before messages c)
    (h : WsHandler) :
    Tracks (decodeMessage parse stod symbol interval) symbol interval before
      (messages ++ h.message?.toList) (c.handle parse stod h).state := by
  cases hm : h.message? with
  | none =>
    obtain ⟨wsOpen, delay, e⟩ := handle_data parse stod c hm
    rw [e, Option.toList_none, List.append_nil]
    exact ⟨hc.symbol, hc.interval, hc.dataHandler, hc.handed, hc.lastTickMs⟩
  | some payload =>
    obtain rfl : h = .onRead (.message payload) := by
      cases h with
      | onRead result =>
        cases result with
        | message text => rw [Option.some.inj hm]
        | _ => exact nomatch hm
      | _ => exact nomatch hm
    exact hc.onMessage payload

/-- The calls leave the messages alone, but for one that connects the client again. -/
theorem Tracks.call (hc : Tracks (decodeMessage parse stod symbol interval) symbol interval before
      messages c) {k : ClientCall} {t : ClientTurn} (ht : c.call k = some t) :
    (k = .connect ∧ c.connected = false ∧ Tracks (decodeMessage parse stod symbol interval) symbol
      interval (before ++ messages.filterMap (decodeMessage parse stod symbol interval)) []
      t.state) ∨
    ¬ (k = .connect ∧ c.connected = false) ∧
      Tracks (decodeMessage parse stod symbol interval) symbol interval before messages t.state := by
  cases k with
  | connect =>
    simp only [WebSocketClient.call] at ht
    split_ifs at ht with hbusy hon
    · cases ht
      exact .inr ⟨fun h => absurd (hon.symm.trans h.2) (by decide), hc⟩
    · cases ht
      refine .inl ⟨rfl, Bool.not_eq_true _ ▸ hon, hc.symbol, hc.interval, hc.dataHandler, ?_, rfl⟩
      rw [List.filterMap_nil, List.append_nil]
      exact hc.handed
  | disconnect =>
    simp only [WebSocketClient.call] at ht
    split_ifs at ht <;> cases ht <;>
      exact .inr ⟨by simp, hc.symbol, hc.interval, hc.dataHandler, hc.handed, hc.lastTickMs⟩
  | join =>
    simp only [WebSocketClient.call] at ht
    split_ifs at ht
    cases ht
    exact .inr ⟨by simp, hc.symbol, hc.interval, hc.dataHandler, hc.handed, hc.lastTickMs⟩

variable {p p' : Pool WebSocketClient WsOp} {e : ClientEvent}

theorem Tracks.step (hc : Tracks (decodeMessage parse stod symbol interval) symbol interval before
      messages p.state) (h : (WebSocketClient.program parse stod).step p e = some p') :
    (e = .call .connect ∧ p.state.connected = false ∧ Tracks (decodeMessage parse stod symbol
      interval) symbol interval
      (before ++ messages.filterMap (decodeMessage parse stod symbol interval)) [] p'.state) ∨
    ¬ (e = .call .connect ∧ p.state.connected = false) ∧ Tracks (decodeMessage parse stod symbol
      interval) symbol interval before (messages ++ payloads [e]) p'.state := by
  obtain ⟨k, t, rfl, ht, rfl⟩ | ⟨i, q, g, rfl, -, -, -, rfl⟩ := step_cases h
  · obtain ⟨rfl, hoff, h⟩ | ⟨hne, h⟩ := hc.call ht
    · exact .inl ⟨rfl, hoff, h⟩
    · refine .inr ⟨fun h => hne ⟨Event.call.inj h.1, h.2⟩, ?_⟩
      rw [show payloads [.call k] = [] from rfl, List.append_nil]
      exact h
  · refine .inr ⟨by simp, ?_⟩
    have e : payloads [.complete i g] = g.message?.toList := by
      simp only [payloads, List.filterMap_cons, List.filterMap_nil]
      cases g.message? <;> rfl
    rw [e]
    exact hc.handle g

end

theorem payloads_append (es fs : List ClientEvent) :
    payloads (es ++ fs) = payloads es ++ payloads fs := List.filterMap_append

/-- The data handler gets the record of every message of a kline, in order and once. The last tick
is the time of the last one since the client was last connected, or 0. -/
theorem handed_eq (parse : List Char → Option Json) (stod : List Char → Option Price)
    (symbol interval host pathTemplate : List Char) (es : List ClientEvent)
    (p : Pool WebSocketClient WsOp)
    (hr : runClient parse stod
      ((WebSocketClient.construct symbol interval host pathTemplate).setDataHandler true) es =
      some p) :
    p.state.handed = (payloads es).filterMap (decodeMessage parse stod symbol interval) ∧
    ∀ pre post p₀, es = pre ++ .call .connect :: post →
      runClient parse stod
        ((WebSocketClient.construct symbol interval host pathTemplate).setDataHandler true) pre =
        some p₀ →
      p₀.state.connected = false → .call .connect ∉ post →
      p.state.lastTickMs = (((payloads post).filterMap
        (decodeMessage parse stod symbol interval)).getLast?.map (·.closeTime)).getD 0 := by
  have htracks : ∀ es p, runClient parse stod
      ((WebSocketClient.construct symbol interval host pathTemplate).setDataHandler true) es =
      some p → ∃ before messages, Tracks (decodeMessage parse stod symbol interval) symbol interval
        before messages p.state ∧
        before ++ messages.filterMap (decodeMessage parse stod symbol interval) =
          (payloads es).filterMap (decodeMessage parse stod symbol interval) := fun es p hr => by
    refine run_induction (P := fun es p => ∃ before messages, Tracks (decodeMessage parse stod
      symbol interval) symbol interval before messages p.state ∧
      before ++ messages.filterMap (decodeMessage parse stod symbol interval) =
        (payloads es).filterMap (decodeMessage parse stod symbol interval))
      ⟨[], [], ⟨rfl, rfl, rfl, rfl, rfl⟩, rfl⟩ (fun es e t u _ ih h => ?_) hr
    obtain ⟨before, messages, hc, hall⟩ := ih
    rw [payloads_append, List.filterMap_append, ← hall]
    obtain ⟨rfl, -, hc⟩ | ⟨-, hc⟩ := hc.step h
    · exact ⟨_, [], hc, rfl⟩
    · exact ⟨before, _, hc, by rw [List.filterMap_append, List.append_assoc]⟩
  refine ⟨?_, fun pre post p₀ he hpre hoff hpost => ?_⟩
  · obtain ⟨before, messages, hc, hall⟩ := htracks es p hr
    exact hc.handed.trans hall
  · subst he
    obtain ⟨before, messages, hc, -⟩ := htracks pre p₀ hpre
    rw [runClient] at hr hpre
    rw [run_append, hpre, Option.bind_some, run_cons, Option.bind_eq_some_iff] at hr
    obtain ⟨p₁, hconnect, hr⟩ := hr
    obtain ⟨-, -, hc⟩ | ⟨hne, -⟩ := hc.step hconnect
    · refine Tracks.lastTickMs (run_induction (P := fun post p => .call .connect ∉ post → Tracks
        (decodeMessage parse stod symbol interval) symbol interval _ (payloads post) p.state)
        (fun _ => hc) (fun post e t u _ ih h hpost => ?_) hr hpost)
      rw [List.mem_append, not_or, List.mem_singleton] at hpost
      obtain ⟨he, -⟩ | ⟨-, hc⟩ := (ih hpost.1).step h
      · exact absurd he.symm hpost.2
      · rw [payloads_append]
        exact hc
    · exact absurd ⟨rfl, hoff⟩ hne

/-- A kline of one minute, with every price 1. -/
def tickKline : JsonObject :=
  [("t".toList, .int64 60000), ("T".toList, .int64 119999), ("n".toList, .int64 1)] ++
    ["o", "c", "h", "l", "v", "q", "V", "Q"].map fun key => (key.toList, .string ['1'])

def parseTick (text : List Char) : Option Json :=
  if text = ['k'] then
    some (.object [("e".toList, .string "kline".toList), ("k".toList, .object tickKline)])
  else none

/-- From the connection to one message of a kline between two others. -/
def tickEvents : List ClientEvent :=
  [.complete 0 (.onResolve false), .complete 0 (.onConnect false true),
    .complete 0 (.onSslHandshake false), .complete 0 (.onHandshake false),
    .complete 0 (.onRead (.message ['x'])), .complete 0 (.onRead (.message ['k'])),
    .complete 0 (.onRead (.message ['x']))]

theorem handed_eq_tick : ∃ p,
    runClient parseTick (fun _ => some 1) idleClient (.call .connect :: tickEvents) = some p ∧
      p.state.handed.length = 1 ∧ p.state.lastTickMs = 119999 := by
  obtain ⟨p, hp⟩ : ∃ p, runClient parseTick (fun _ => some 1) idleClient
      (.call .connect :: tickEvents) = some p := ⟨_, rfl⟩
  obtain ⟨hhanded, htick⟩ := handed_eq parseTick (fun _ => some 1) ['B'] ['1', 'm'] [] [] _ p hp
  refine ⟨p, hp, ?_, ?_⟩
  · rw [hhanded]
    decide
  · rw [htick [] tickEvents _ rfl rfl rfl (by decide)]
    decide

end TCV.Exchange
