import TradingChartViewer.Exchange.WsSession
import TradingChartViewer.Lib.Completion

/-!
# The connection of the live session

`WsSession` from `streamLive` to `stop`: the handlers from the resolver to the reads, the
reconnection with its back-off, and the idle timer. A message is what it is in `WsSession.onRead`.
The network decides how each operation completes; of a timer's waits only a cancelled one
completes with an error. A handler that follows the null pointer `ws_` ends the run (`crashed`).

* `SessionState.handle`, `SessionState.call`: the handlers, and `stop`;
* `Sound`: what every state that is reached has;
* `alive_while_running`, `recovers`: with an idle timer a session always waits for something that
  leads it back to a read;
* `crashed_only_late`: the null pointer is followed only in the handler of an operation that had
  succeeded when its stream was dropped;
* `delays_in_rounds`: the waits before the reconnections.
-/

namespace TCV.Exchange

open TCV.Domain Lib.Completion Lib.Run

/-! ## The session -/

/-- `domain::StreamError`. -/
structure StreamError where
  code : Int
  message : List Char
  deriving DecidableEq, Repr

/-- What `WsSession` takes from `ExchangeGatewayConfig` besides the target. -/
structure StreamConfig where
  backoffBaseMs : Int := 250
  backoffCapMs : Int := 8000
  idleTimeoutSec : Int := 30
  deriving DecidableEq, Repr

def computeBackoffMs (cfg : StreamConfig) (attempt : Nat) : Nat :=
  if cfg.backoffBaseMs ≤ 0 then 0
  else
    let cappedAttempt := min attempt 16
    let factor := 2 ^ cappedAttempt
    let raw := cfg.backoffBaseMs.toNat * factor
    min raw (if 0 < cfg.backoffCapMs then cfg.backoffCapMs.toNat else raw)

/-- The asynchronous operations, and the handlers that `start` and `stop` post. -/
inductive SessionOp
  | beginResolve
  | resolve
  | connect
  | sslHandshake
  | handshake
  | read
  | reconnectTimer
  | idleTimer
  | shutdown
  | close
  deriving DecidableEq, Repr

/-- The operations on the stream of `ws_`, which it takes with it. -/
def SessionOp.onStream : SessionOp → Bool
  | .connect | .sslHandshake | .handshake | .read | .close => true
  | _ => false

inductive SessionRead
  | closed
  | failed (ec : StreamError)
  | message (payload : List Char)
  deriving DecidableEq, Repr

/-- The handlers; `ec` is the error that they get, `sniEc` the one of setting the host name. -/
inductive SessionHandler
  | beginResolve
  | onResolve (ec : Option StreamError)
  | onConnect (ec sniEc : Option StreamError)
  | onSslHandshake (ec : Option StreamError)
  | onHandshake (ec : Option StreamError)
  | onRead (result : SessionRead)
  | onReconnectTimer (ec : Bool)
  | onIdleTimeout (ec : Bool)
  | shutdown
  | onClose
  deriving DecidableEq, Repr

/-- `ws` says that `ws_` is not null, and `ioRunning` that the thread has not been joined.
`errors` holds the calls of `onError`, if there is one, and `delays` the waits before the
reconnections. -/
structure SessionState where
  cfg : StreamConfig
  session : WsSession
  onError : Bool
  ws : Bool := true
  reconnectAttempts : Nat := 0
  ioRunning : Bool := true
  errors : List StreamError := []
  delays : List Nat := []
  crashed : Bool := false

abbrev SessionTurn := Turn SessionState SessionOp

def SessionState.running (s : SessionState) : Bool := s.session.running

/-- The call of `onError`. -/
def SessionState.report (s : SessionState) (error : StreamError) : SessionState :=
  if s.onError then { s with errors := s.errors ++ [error] } else s

/-- `draw` is what the random generator gives. -/
def jitterMs (draw base : Nat) : Nat := if base = 0 then 0 else draw

def SessionState.scheduleReconnect (s : SessionState) (draw : Nat) (reason : String) :
    SessionTurn :=
  if !s.running then { state := s }
  else
    let reconnectAttempts := s.reconnectAttempts + 1
    let backoff := computeBackoffMs s.cfg (reconnectAttempts - 1)
    let delay := backoff + jitterMs draw backoff
    { state := { s with
          ws := false, reconnectAttempts := reconnectAttempts, delays := s.delays ++ [delay] }.report
        ⟨0, "reconnecting: ".toList ++ reason.toList⟩
      cancels := fun op => op.onStream || op = .reconnectTimer
      issues := [.reconnectTimer] }

def SessionState.handleFailure (s : SessionState) (draw : Nat) (stage : String) (ec : StreamError) :
    SessionTurn :=
  if !s.running then { state := s } else (s.report ec).scheduleReconnect draw stage

/-- The wait of `scheduleIdleTimer`. -/
def SessionState.idleWait (s : SessionState) : List SessionOp :=
  if s.cfg.idleTimeoutSec ≤ 0 then [] else [.idleTimer]

/-- The use of `ws_` before an operation is issued on it. -/
def SessionState.onWs (s : SessionState) (op : SessionOp) : SessionTurn :=
  if s.ws then { state := s, issues := [op] } else { state := { s with crashed := true } }

/-- `scheduleIdleTimer`, and what else the handler does. -/
def SessionState.afterIdle (s : SessionState) (t : SessionTurn) : SessionTurn :=
  { t with
    cancels := fun op => s.idleWait.contains op || t.cancels op
    issues := s.idleWait ++ t.issues }

/-- `doRead`. -/
def SessionState.doRead (s : SessionState) : SessionTurn :=
  if !s.running then { state := s } else s.onWs .read

section

variable (parse : List Char → Option Json) (stod : List Char → Option Price)

/-- The `try` block of `onRead`, and the next read. -/
def SessionState.onMessage (s : SessionState) (payload : List Char) : SessionTurn :=
  match s.session.handleMessage parse stod payload with
  | none => { state := s }
  | some (_, session) => { s with session := session }.doRead

def SessionState.handle (s : SessionState) : SessionHandler × Nat → SessionTurn
  | (.beginResolve, _) => if !s.running then { state := s } else { state := s, issues := [.resolve] }
  | (.onResolve (some ec), draw) => s.handleFailure draw "resolve" ec
  | (.onResolve none, _) => { state := { s with ws := true }, issues := [.connect] }
  | (.onConnect (some ec) _, draw) => s.handleFailure draw "connect" ec
  | (.onConnect none (some sniEc), draw) =>
    if s.ws then s.handleFailure draw "sni" sniEc else { state := { s with crashed := true } }
  | (.onConnect none none, _) => s.onWs .sslHandshake
  | (.onSslHandshake (some ec), draw) => s.handleFailure draw "ssl_handshake" ec
  | (.onSslHandshake none, _) => s.onWs .handshake
  | (.onHandshake (some ec), draw) => s.handleFailure draw "handshake" ec
  | (.onHandshake none, _) => s.afterIdle { s with reconnectAttempts := 0 }.doRead
  | (.onRead .closed, draw) => s.scheduleReconnect draw "closed"
  | (.onRead (.failed ec), draw) => s.handleFailure draw "read" ec
  | (.onRead (.message payload), _) => s.afterIdle (s.onMessage parse stod payload)
  | (.onReconnectTimer ec, _) =>
    if ec || !s.running then { state := s }
    -- `createStream` drops the stream there was.
    else { state := { s with ws := true }, cancels := SessionOp.onStream, issues := [.resolve] }
  | (.onIdleTimeout ec, draw) =>
    if ec || !s.running then { state := s }
    else (s.report ⟨0, "heartbeat timeout".toList⟩).scheduleReconnect draw "timeout"
  | (.shutdown, _) =>
    { state := s
      cancels := fun op => op = .reconnectTimer || op = .idleTimer
      issues := if s.ws then [.close] else [] }
  | (.onClose, _) => { state := s }

/-- The operation of a handler. -/
def SessionHandler.op : SessionHandler → SessionOp
  | .beginResolve => .beginResolve
  | .onResolve _ => .resolve
  | .onConnect _ _ => .connect
  | .onSslHandshake _ => .sslHandshake
  | .onHandshake _ => .handshake
  | .onRead _ => .read
  | .onReconnectTimer _ => .reconnectTimer
  | .onIdleTimeout _ => .idleTimer
  | .shutdown => .shutdown
  | .onClose => .close

/-- The handlers of a wait that is not to go on. -/
def SessionHandler.aborted : SessionHandler → Bool
  | .onReconnectTimer ec => ec
  | .onIdleTimeout ec => ec
  | _ => false

def SessionState.can (s : SessionState) (q : Pending SessionOp) (h : SessionHandler × Nat) : Bool :=
  s.ioRunning && !s.crashed && (q.cancelled || !h.1.aborted) &&
    h.2 ≤ computeBackoffMs s.cfg s.reconnectAttempts / 5 + 1

/-- `stop` in two: up to `ioc_.stop()`, and the `join`. -/
inductive SessionCall
  | stop
  | join
  deriving DecidableEq, Repr

def SessionState.call (s : SessionState) : SessionCall → Option SessionTurn
  | .stop =>
    if !s.running then some { state := s }
    else some
      { state := { s with session := { s.session with running := false } }, issues := [.shutdown] }
  | .join => if !s.running && s.ioRunning then some { state := { s with ioRunning := false } } else none

def SessionState.program :
    Program SessionState SessionOp SessionCall (SessionHandler × Nat) where
  call := SessionState.call
  op h := h.1.op
  can := SessionState.can
  handle := SessionState.handle parse stod

end

abbrev SessionEvent := Event SessionCall (SessionHandler × Nat)

/-- `streamLive`: a new session, after `start`. -/
def streamLive (cfg : StreamConfig) (intervalMs : Int) (onData : Option (LiveCandle → Bool))
    (onError : Bool) : Pool SessionState SessionOp :=
  { state :=
      { cfg := cfg
        session := { intervalMs := intervalMs, onData := onData, running := true, reading := false }
        onError := onError }
    pending := [{ op := .beginResolve }] }

/-! ## What a handler keeps -/

/-- A turn from `s` keeps the session running or stopped, and where it leaves `ws_` null no
operation on a stream goes on. -/
structure Steady (s : SessionState) (t : SessionTurn) : Prop where
  running : t.state.running = s.running
  ioRunning : t.state.ioRunning = s.ioRunning
  cfg : t.state.cfg = s.cfg
  noShutdown : .shutdown ∉ t.issues
  noStream : t.state.ws = false → ∀ op ∈ t.issues, op.onStream = false
  dropped : t.state.ws = false → s.ws = false ∨ ∀ op, op.onStream = true → t.cancels op = true

section

variable {parse : List Char → Option Json} {stod : List Char → Option Price} {s s' : SessionState}
  {t : SessionTurn}

theorem steady_same (hrunning : s'.running = s.running) (hio : s'.ioRunning = s.ioRunning)
    (hcfg : s'.cfg = s.cfg) (hws : s'.ws = s.ws) : Steady s { state := s' } :=
  ⟨hrunning, hio, hcfg, by simp, by simp, fun h => .inl (hws.symm.trans h)⟩

theorem Steady.of_eq (h : Steady s' t) (hrunning : s'.running = s.running)
    (hio : s'.ioRunning = s.ioRunning) (hcfg : s'.cfg = s.cfg) (hws : s'.ws = s.ws) : Steady s t :=
  ⟨h.running.trans hrunning, h.ioRunning.trans hio, h.cfg.trans hcfg, h.noShutdown, h.noStream,
    fun hw => (h.dropped hw).imp_left hws.symm.trans⟩

/-- What `report` keeps. -/
theorem report_eq (s : SessionState) (error : StreamError) :
    ∃ errors, s.report error = { s with errors := errors } := by
  unfold SessionState.report
  split <;> exact ⟨_, rfl⟩

theorem scheduleReconnect_of_running (hs : s.running = true) (draw : Nat) (reason : String) :
    ∃ errors, s.scheduleReconnect draw reason =
      { state := { s with
          ws := false, reconnectAttempts := s.reconnectAttempts + 1, errors := errors
          delays := s.delays ++ [computeBackoffMs s.cfg s.reconnectAttempts +
            jitterMs draw (computeBackoffMs s.cfg s.reconnectAttempts)] }
        cancels := fun op => op.onStream || op = .reconnectTimer, issues := [.reconnectTimer] } := by
  rw [SessionState.scheduleReconnect, if_neg (by simp [hs])]
  simp only [Nat.add_sub_cancel]
  generalize hreport : SessionState.report _ _ = r
  obtain ⟨errors, e⟩ := report_eq { s with
    ws := false, reconnectAttempts := s.reconnectAttempts + 1
    delays := s.delays ++ [computeBackoffMs s.cfg s.reconnectAttempts +
      jitterMs draw (computeBackoffMs s.cfg s.reconnectAttempts)] }
    ⟨0, "reconnecting: ".toList ++ reason.toList⟩
  exact ⟨errors, by rw [← hreport, e]⟩

theorem scheduleReconnect_steady (draw : Nat) (reason : String) :
    Steady s (s.scheduleReconnect draw reason) := by
  by_cases hs : s.running = true
  · obtain ⟨errors, e⟩ := scheduleReconnect_of_running hs draw reason
    rw [e]
    exact ⟨rfl, rfl, rfl, by simp, by simp [SessionOp.onStream], fun _ => .inr (by simp +contextual)⟩
  · rw [SessionState.scheduleReconnect, if_pos (by simpa using hs)]
    exact steady_same rfl rfl rfl rfl

theorem handleFailure_steady (draw : Nat) (stage : String) (ec : StreamError) :
    Steady s (s.handleFailure draw stage ec) := by
  unfold SessionState.handleFailure
  split
  · exact steady_same rfl rfl rfl rfl
  · obtain ⟨errors, e⟩ := report_eq s ec
    rw [e]
    exact (scheduleReconnect_steady draw stage).of_eq rfl rfl rfl rfl

theorem onWs_steady {op : SessionOp} (hop : op ≠ .shutdown) : Steady s (s.onWs op) := by
  unfold SessionState.onWs
  split
  · rename_i hws
    have hno : ∀ {P : Prop}, s.ws = false → P := fun h => nomatch hws.symm.trans h
    exact ⟨rfl, rfl, rfl, by simpa using hop.symm, hno, hno⟩
  · exact steady_same rfl rfl rfl rfl

theorem doRead_steady : Steady s s.doRead := by
  unfold SessionState.doRead
  split
  · exact steady_same rfl rfl rfl rfl
  · exact onWs_steady (by decide)

theorem Steady.afterIdle (h : Steady s t) : Steady s (s.afterIdle t) := by
  have hidle : ∀ op ∈ s.idleWait, op = .idleTimer := by
    unfold SessionState.idleWait
    split <;> simp
  refine ⟨h.running, h.ioRunning, h.cfg, ?_, fun hws op hop => ?_, fun hws => ?_⟩
  · intro hmem
    rcases List.mem_append.mp hmem with hmem | hmem
    · exact nomatch hidle _ hmem
    · exact h.noShutdown hmem
  · rcases List.mem_append.mp hop with hop | hop
    · rw [hidle op hop]
      rfl
    · exact h.noStream hws op hop
  · refine (h.dropped hws).imp_right fun hc op hop => ?_
    show (_ || t.cancels op) = true
    rw [hc op hop, Bool.or_true]

theorem onMessage_steady (payload : List Char) : Steady s (s.onMessage parse stod payload) := by
  unfold SessionState.onMessage
  split
  · exact steady_same rfl rfl rfl rfl
  · rename_i session hm
    exact doRead_steady.of_eq (handleMessage_running hm) rfl rfl rfl

variable (parse stod s) in
theorem handle_steady (h : SessionHandler × Nat) : Steady s (s.handle parse stod h) := by
  have hsame : Steady s { state := s } := steady_same rfl rfl rfl rfl
  obtain ⟨h, draw⟩ := h
  cases h with
  | beginResolve =>
    simp only [SessionState.handle]
    split
    · exact hsame
    · exact ⟨rfl, rfl, rfl, by simp, by simp [SessionOp.onStream], .inl⟩
  | onResolve ec =>
    cases ec with
    | some ec => exact handleFailure_steady draw _ ec
    | none =>
      have hno : ∀ {P : Prop}, true = false → P := fun h => nomatch h
      exact ⟨rfl, rfl, rfl, by simp [SessionState.handle], hno, hno⟩
  | onConnect ec sniEc =>
    cases ec with
    | some ec => exact handleFailure_steady draw _ ec
    | none =>
      cases sniEc with
      | some ec =>
        simp only [SessionState.handle]
        split
        · exact handleFailure_steady draw _ ec
        · exact steady_same rfl rfl rfl rfl
      | none => exact onWs_steady (by decide)
  | onSslHandshake ec =>
    cases ec with
    | some ec => exact handleFailure_steady draw _ ec
    | none => exact onWs_steady (by decide)
  | onHandshake ec =>
    cases ec with
    | some ec => exact handleFailure_steady draw _ ec
    | none =>
      have hread : Steady s { s with reconnectAttempts := 0 }.doRead :=
        doRead_steady.of_eq rfl rfl rfl rfl
      exact hread.afterIdle
  | onRead result =>
    cases result with
    | closed => exact scheduleReconnect_steady draw _
    | failed ec => exact handleFailure_steady draw _ ec
    | message payload => exact (onMessage_steady payload).afterIdle
  | onReconnectTimer ec =>
    simp only [SessionState.handle]
    split
    · exact hsame
    · have hno : ∀ {P : Prop}, true = false → P := fun h => nomatch h
      exact ⟨rfl, rfl, rfl, by simp, hno, hno⟩
  | onIdleTimeout ec =>
    simp only [SessionState.handle]
    split
    · exact hsame
    · obtain ⟨errors, e⟩ := report_eq s ⟨0, "heartbeat timeout".toList⟩
      rw [e]
      exact (scheduleReconnect_steady draw _).of_eq rfl rfl rfl rfl
  | shutdown =>
    refine ⟨rfl, rfl, rfl, ?_, fun hws => ?_, .inl⟩
    · simp only [SessionState.handle]
      split <;> simp
    · have hnull : s.ws = false := hws
      simp [SessionState.handle, hnull]
  | onClose => exact hsame

end

/-! ## Every state -/

/-- The operations on a stream that was dropped are cancelled, and a session that runs has not been
shut down. -/
structure Sound (p : Pool SessionState SessionOp) : Prop where
  dropped : p.state.ws = false → ∀ q ∈ p.pending, q.op.onStream = true → q.cancelled = true
  stopped : ∀ q ∈ p.pending, q.op = .shutdown → p.state.running = false
  ioRunning : p.state.running = true → p.state.ioRunning = true

section

variable {parse : List Char → Option Json} {stod : List Char → Option Price}
  {p p' : Pool SessionState SessionOp} {e : SessionEvent}

theorem streamLive_sound (cfg : StreamConfig) (intervalMs : Int)
    (onData : Option (LiveCandle → Bool)) (onError : Bool) :
    Sound (streamLive cfg intervalMs onData onError) := by
  refine ⟨(fun h => nomatch h), fun q hq hop => ?_, fun _ => rfl⟩
  rw [List.mem_singleton.mp hq] at hop
  cases hop

/-- A turn keeps the pool sound. -/
theorem Sound.take {pending : List (Pending SessionOp)} (hp : Sound p)
    (hpending : pending ⊆ p.pending) {t : SessionTurn} (ht : Steady p.state t) :
    Sound ({ p with pending := pending }.take t) := by
  have hmem : ∀ q ∈ ({ p with pending := pending }.take t).pending,
      (∃ r ∈ p.pending, q = r.cancelIf t.cancels) ∨ ∃ op ∈ t.issues, q = { op := op } := by
    intro q hq
    rcases List.mem_append.mp hq with hq | hq
    · obtain ⟨r, hr, rfl⟩ := List.mem_map.mp hq
      exact .inl ⟨r, hpending hr, rfl⟩
    · obtain ⟨op, hop, rfl⟩ := List.mem_map.mp hq
      exact .inr ⟨op, hop, rfl⟩
  refine ⟨fun hws q hq hstream => ?_, fun q hq hop => ?_, fun h => ?_⟩
  · obtain ⟨r, hr, rfl⟩ | ⟨op, hop, rfl⟩ := hmem q hq
    · show (r.cancelled || t.cancels r.op) = true
      obtain hnull | hcancels := ht.dropped hws
      · rw [hp.dropped hnull r hr hstream, Bool.true_or]
      · rw [hcancels r.op hstream, Bool.or_true]
    · exact nomatch (ht.noStream hws op hop).symm.trans hstream
  · obtain ⟨r, hr, rfl⟩ | ⟨op, hmem, rfl⟩ := hmem q hq
    · exact ht.running.trans (hp.stopped r hr hop)
    · obtain rfl : op = .shutdown := hop
      exact absurd hmem ht.noShutdown
  · exact ht.ioRunning.trans (hp.ioRunning (ht.running.symm.trans h))

theorem Sound.step (hp : Sound p) (h : (SessionState.program parse stod).step p e = some p') :
    Sound p' := by
  obtain ⟨k, t, rfl, ht, rfl⟩ | ⟨i, q, g, rfl, -, -, -, rfl⟩ := step_cases h
  · cases k with
    | stop =>
      simp only [SessionState.program, SessionState.call] at ht
      split at ht
      · cases ht
        exact hp.take (List.Subset.refl _) (steady_same rfl rfl rfl rfl)
      · cases ht
        refine ⟨fun hws q hq hstream => ?_, fun _ _ _ => rfl, (fun h => nomatch h)⟩
        rcases List.mem_append.mp hq with hq | hq
        · obtain ⟨r, hr, rfl⟩ := List.mem_map.mp hq
          exact (Bool.or_false _).trans (hp.dropped hws r hr hstream)
        · obtain rfl : q = { op := .shutdown } := by simpa using hq
          exact nomatch hstream
    | join =>
      simp only [SessionState.program, SessionState.call] at ht
      split at ht
      · rename_i hoff
        cases ht
        rw [Bool.and_eq_true, Bool.not_eq_true'] at hoff
        have hs := hp.take (List.Subset.refl _) (steady_same (s := p.state) rfl rfl rfl rfl)
        exact ⟨hs.dropped, hs.stopped, fun h => nomatch hoff.1.symm.trans h⟩
      · cases ht
  · exact hp.take (List.eraseIdx_subset) (handle_steady parse stod p.state g)

end

/-! ## A session that runs waits for something -/

/-- The session runs, with an idle timer. -/
structure SessionState.On (s : SessionState) : Prop where
  running : s.running = true
  crashed : s.crashed = false
  idleTimeout : 0 < s.cfg.idleTimeoutSec

/-- The operations whose handlers lead on. -/
def SessionOp.carries : SessionOp → Bool
  | .shutdown | .close => false
  | _ => true

section

variable {parse : List Char → Option Json} {stod : List Char → Option Price} {s : SessionState}

theorem handleFailure_issues (hs : s.running = true) (draw : Nat) (stage : String)
    (ec : StreamError) : (s.handleFailure draw stage ec).issues = [.reconnectTimer] := by
  rw [SessionState.handleFailure, if_neg (by simp [hs])]
  obtain ⟨errors, e⟩ := report_eq s ec
  obtain ⟨errors', e'⟩ := scheduleReconnect_of_running (s := { s with errors := errors }) hs draw stage
  rw [e, e']

theorem onWs_issues {op : SessionOp} (h : (s.onWs op).state.crashed = false) :
    (s.onWs op).issues = [op] := by
  unfold SessionState.onWs at h ⊢
  split at h
  · rename_i hws
    rw [if_pos hws]
  · exact nomatch h

theorem idleTimer_mem_afterIdle (hidle : 0 < s.cfg.idleTimeoutSec) (t : SessionTurn) :
    .idleTimer ∈ (s.afterIdle t).issues := by
  refine List.mem_append_left _ ?_
  rw [SessionState.idleWait, if_neg (by omega)]
  exact List.mem_singleton_self _

variable (parse stod) in
/-- On a session that runs each handler that is not told to let it be issues an operation. -/
theorem handle_issues_carries (hs : s.running = true) (hidle : 0 < s.cfg.idleTimeoutSec)
    {h : SessionHandler × Nat} (hh : h.1.aborted = false) (hop : h.1.op.carries = true)
    (hcrash : (s.handle parse stod h).state.crashed = false) :
    ∃ op ∈ (s.handle parse stod h).issues, op.carries = true := by
  have hfail : ∀ draw stage ec, ∃ op ∈ (s.handleFailure draw stage ec).issues, op.carries = true :=
    fun draw stage ec => ⟨.reconnectTimer, by rw [handleFailure_issues hs]; exact List.mem_singleton_self _,
      rfl⟩
  have hws : ∀ op : SessionOp, op.carries = true → (s.onWs op).state.crashed = false →
      ∃ o ∈ (s.onWs op).issues, o.carries = true :=
    fun op hc h => ⟨op, by rw [onWs_issues h]; exact List.mem_singleton_self op, hc⟩
  obtain ⟨h, draw⟩ := h
  cases h with
  | beginResolve =>
    rw [SessionState.handle, if_neg (by simp [hs])]
    exact ⟨.resolve, List.mem_singleton_self _, rfl⟩
  | onResolve ec =>
    cases ec with
    | some ec => exact hfail draw _ ec
    | none => exact ⟨.connect, List.mem_singleton_self _, rfl⟩
  | onConnect ec sniEc =>
    cases ec with
    | some ec => exact hfail draw _ ec
    | none =>
      cases sniEc with
      | some ec =>
        rw [SessionState.handle] at hcrash ⊢
        split at hcrash
        · rename_i hstream
          rw [if_pos hstream]
          exact hfail draw _ ec
        · exact nomatch hcrash
      | none => exact hws .sslHandshake (rfl) hcrash
  | onSslHandshake ec =>
    cases ec with
    | some ec => exact hfail draw _ ec
    | none => exact hws .handshake (rfl) hcrash
  | onHandshake ec =>
    cases ec with
    | some ec => exact hfail draw _ ec
    | none => exact ⟨.idleTimer, idleTimer_mem_afterIdle hidle _, rfl⟩
  | onRead result =>
    cases result with
    | closed =>
      obtain ⟨errors, e⟩ := scheduleReconnect_of_running hs draw "closed"
      exact ⟨.reconnectTimer, by rw [SessionState.handle, e]; exact List.mem_singleton_self _, rfl⟩
    | failed ec => exact hfail draw _ ec
    | message payload => exact ⟨.idleTimer, idleTimer_mem_afterIdle hidle _, rfl⟩
  | onReconnectTimer ec =>
    obtain rfl : ec = false := hh
    rw [SessionState.handle, if_neg (by simp [hs])]
    exact ⟨.resolve, List.mem_singleton_self _, rfl⟩
  | onIdleTimeout ec =>
    obtain rfl : ec = false := hh
    rw [SessionState.handle, if_neg (by simp [hs])]
    obtain ⟨errors, e⟩ := report_eq s ⟨0, "heartbeat timeout".toList⟩
    obtain ⟨errors', e'⟩ := scheduleReconnect_of_running (s := { s with errors := errors }) hs draw
      "timeout"
    exact ⟨.reconnectTimer, by rw [e, e']; exact List.mem_singleton_self _, rfl⟩
  | shutdown => exact nomatch hop
  | onClose => exact nomatch hop

theorem handle_of_aborted {h : SessionHandler × Nat} (hh : h.1.aborted = true) :
    s.handle parse stod h = { state := s } := by
  obtain ⟨h, draw⟩ := h
  cases h with
  | onReconnectTimer ec =>
    obtain rfl : ec = true := hh
    rfl
  | onIdleTimeout ec =>
    obtain rfl : ec = true := hh
    rfl
  | _ => exact nomatch hh

variable (parse stod) in
/-- A handler starts from a session that is on where it leaves one. -/
theorem SessionState.On.of_handle {h : SessionHandler × Nat} (hon : (s.handle parse stod h).state.On)
    (hcrash : s.crashed = false) : s.On :=
  have hkeep := handle_steady parse stod s h
  ⟨hkeep.running.symm.trans hon.running, hcrash, hkeep.cfg ▸ hon.idleTimeout⟩

theorem can_crashed {q : Pending SessionOp} {h : SessionHandler × Nat} (hcan : s.can q h = true) :
    s.crashed = false ∧ (q.cancelled = true ∨ h.1.aborted = false) := by
  simp only [SessionState.can, Bool.and_eq_true, Bool.or_eq_true, Bool.not_eq_true'] at hcan
  exact ⟨hcan.1.1.2, hcan.1.2⟩

variable (parse stod) in
theorem session_carries : (SessionState.program parse stod).Carries Sound SessionState.On
    (fun op => op.carries = true) where
  call p k t hp ht hon := by
    cases k with
    | stop =>
      simp only [SessionState.program, SessionState.call] at ht
      split at ht
      · rename_i hoff
        cases ht
        rw [Bool.not_eq_true'] at hoff
        exact nomatch hoff.symm.trans hon.running
      · cases ht
        exact nomatch hon.running
    | join =>
      simp only [SessionState.program, SessionState.call] at ht
      split at ht
      · rename_i hoff
        cases ht
        rw [Bool.and_eq_true, Bool.not_eq_true'] at hoff
        exact nomatch hoff.1.symm.trans hon.running
      · cases ht
  live p q h hp hq hop hcan hlive hcarries hon := by
    obtain ⟨hcrash, haborted⟩ := can_crashed hcan
    have hs := SessionState.On.of_handle parse stod hon hcrash
    exact handle_issues_carries parse stod hs.running hs.idleTimeout
      (haborted.resolve_left fun h => nomatch hlive.symm.trans h)
      ((show q.op = h.1.op from hop) ▸ hcarries) hon.crashed
  other p q h hp hq hop hcan hon := by
    obtain ⟨hcrash, -⟩ := can_crashed hcan
    have hs := SessionState.On.of_handle parse stod hon hcrash
    by_cases haborted : h.1.aborted = true
    · refine .inr ⟨hs, fun _ _ => ?_⟩
      show (p.state.handle parse stod h).cancels _ = false
      rw [handle_of_aborted haborted]
    · by_cases hc : h.1.op.carries = true
      · exact .inl (handle_issues_carries parse stod hs.running hs.idleTimeout
          (Bool.eq_false_iff.mpr haborted) hc hon.crashed)
      · have hop : q.op = h.1.op := hop
        obtain ⟨h, draw⟩ := h
        cases h with
        | shutdown => exact nomatch (hp.stopped q hq hop).symm.trans hs.running
        | onClose => exact .inr ⟨hs, fun _ _ => rfl⟩
        | _ => exact absurd rfl hc

end

/-! ## The way back to a read -/

/-- The handler of an operation that completes as it should. -/
def SessionOp.succeeds : SessionOp → SessionHandler
  | .beginResolve => .beginResolve
  | .resolve => .onResolve none
  | .connect => .onConnect none none
  | .sslHandshake => .onSslHandshake none
  | .handshake => .onHandshake none
  | .read => .onRead .closed
  | .reconnectTimer => .onReconnectTimer false
  | .idleTimer => .onIdleTimeout false
  | .shutdown => .shutdown
  | .close => .onClose

/-- The operation that it issues then. -/
def SessionOp.next : SessionOp → SessionOp
  | .beginResolve => .resolve
  | .resolve => .connect
  | .connect => .sslHandshake
  | .sslHandshake => .handshake
  | .handshake => .read
  | .idleTimer => .reconnectTimer
  | .reconnectTimer => .resolve
  | op => op

/-- How many operations a read is away. -/
def SessionOp.toRead : SessionOp → Nat
  | .read => 0
  | .handshake => 1
  | .sslHandshake => 2
  | .connect => 3
  | .resolve => 4
  | .beginResolve => 5
  | .reconnectTimer => 5
  | .idleTimer => 6
  | .shutdown => 0
  | .close => 0

theorem next_toRead {op : SessionOp} (h : op ≠ .read) (hc : op.carries = true) :
    op.next.carries = true ∧ op.next.toRead + 1 = op.toRead := by
  cases op <;> simp_all [SessionOp.next, SessionOp.toRead, SessionOp.carries]

section

variable {parse : List Char → Option Json} {stod : List Char → Option Price} {s : SessionState}
  {p : Pool SessionState SessionOp} {op : SessionOp}

variable (parse stod) in
theorem handle_succeeds (hs : s.On) (hc : op.carries = true) (hread : op ≠ .read)
    (hws : op.onStream = true → s.ws = true) :
    op.next ∈ (s.handle parse stod (op.succeeds, 0)).issues ∧
      (s.handle parse stod (op.succeeds, 0)).state.On := by
  have hrun := hs.running
  have honWs : ∀ o : SessionOp, s.ws = true → s.onWs o = { state := s, issues := [o] } := fun o h => by
    rw [SessionState.onWs, if_pos h]
  cases op with
  | beginResolve =>
    simp only [SessionOp.succeeds, SessionState.handle, if_neg (show ¬ (!s.running) = true by simp [hrun])]
    exact ⟨List.mem_singleton_self _, hs⟩
  | resolve => exact ⟨List.mem_singleton_self _, hs.running, hs.crashed, hs.idleTimeout⟩
  | connect =>
    simp only [SessionOp.succeeds, SessionState.handle, honWs .sslHandshake (hws rfl)]
    exact ⟨List.mem_singleton_self _, hs⟩
  | sslHandshake =>
    simp only [SessionOp.succeeds, SessionState.handle, honWs .handshake (hws rfl)]
    exact ⟨List.mem_singleton_self _, hs⟩
  | handshake =>
    have hdoRead : { s with reconnectAttempts := 0 }.doRead =
        { state := { s with reconnectAttempts := 0 }, issues := [.read] } := by
      rw [SessionState.doRead, if_neg (by simpa [SessionState.running] using hrun),
        SessionState.onWs, if_pos (hws rfl)]
    simp only [SessionOp.succeeds, SessionState.handle, hdoRead]
    exact ⟨List.mem_append_right _ (List.mem_singleton_self _), hs.running, hs.crashed, hs.idleTimeout⟩
  | read => exact absurd rfl hread
  | reconnectTimer =>
    simp only [SessionOp.succeeds, SessionState.handle,
      if_neg (show ¬ (false || !s.running) = true by simp [hrun])]
    exact ⟨List.mem_singleton_self _, hs.running, hs.crashed, hs.idleTimeout⟩
  | idleTimer =>
    obtain ⟨errors, e⟩ := report_eq s ⟨0, "heartbeat timeout".toList⟩
    obtain ⟨errors', e'⟩ := scheduleReconnect_of_running (s := { s with errors := errors }) hrun 0
      "timeout"
    simp only [SessionOp.succeeds, SessionState.handle,
      if_neg (show ¬ (false || !s.running) = true by simp [hrun]), e, e']
    exact ⟨List.mem_singleton_self _, hs.running, hs.crashed, hs.idleTimeout⟩
  | shutdown => exact nomatch hc
  | close => exact nomatch hc

/-- A live operation on a stream has its stream. -/
theorem Sound.ws (hp : Sound p) (hlive : p.Alive (· = op)) (hop : op.onStream = true) :
    p.state.ws = true := by
  obtain ⟨q, hq, hcancelled, rfl⟩ := hlive
  by_contra hws
  exact nomatch hcancelled.symm.trans (hp.dropped (Bool.not_eq_true _ ▸ hws) q hq hop)

theorem recovers_from (n : Nat) (hn : op.toRead = n) (hp : Sound p) (hon : p.state.On)
    (hc : op.carries = true) (hlive : p.Alive (· = op)) :
    ∃ p', RunsBy (SessionState.program parse stod).step (fun e => ∃ i h, e = .complete i h) p p' ∧
      p'.state.On ∧ p'.state.ws = true ∧ p'.Alive (· = .read) := by
  induction n generalizing op p with
  | zero =>
    obtain rfl : op = .read := by cases op <;> simp_all [SessionOp.toRead, SessionOp.carries]
    exact ⟨p, .refl p, hon, hp.ws hlive rfl, hlive⟩
  | succ n ih =>
    have hread : op ≠ .read := by
      rintro rfl
      exact nomatch hn
    obtain ⟨hc', hnext⟩ := next_toRead hread hc
    obtain ⟨hissues, hon'⟩ := handle_succeeds parse stod hon hc hread
      fun hop => hp.ws hlive hop
    have hcan : p.state.can { op := op } (op.succeeds, 0) = true := by
      have : op.succeeds.aborted = false := by cases op <;> rfl
      simp [SessionState.can, hp.ioRunning hon.running, hon.crashed, this]
    have hop : (op.succeeds).op = op := by cases op <;> rfl
    obtain ⟨i, p₁, hstep, hstate, hlive'⟩ := hlive.step (P := SessionState.program parse stod)
      (h := (op.succeeds, 0)) hop hcan hissues
    obtain ⟨p₂, hruns, hrest⟩ := ih (by omega) (hp.step hstep) (hstate ▸ hon') hc' hlive'
    exact ⟨p₂, .head ⟨i, _, rfl⟩ hstep hruns, hrest⟩

end

/-- A session with an idle timer, as long as it runs, waits for the network or for a timer,
whatever messages and errors it got, also those after which it issues no read; and from every such
state completions lead back to one in which a read is pending on its stream. -/
theorem alive_and_recovers (parse : List Char → Option Json) (stod : List Char → Option Price)
    (cfg : StreamConfig) (hidle : 0 < cfg.idleTimeoutSec) (intervalMs : Int)
    (onData : Option (LiveCandle → Bool)) (onError : Bool) (es : List SessionEvent)
    (p : Pool SessionState SessionOp)
    (hr : run (SessionState.program parse stod).step (streamLive cfg intervalMs onData onError) es =
      some p)
    (hrunning : p.state.running = true) (hcrashed : p.state.crashed = false) :
    p.Alive (fun op => op.carries = true) ∧
    ∃ p', RunsBy (SessionState.program parse stod).step (fun e => ∃ i h, e = .complete i h) p p' ∧
      p'.state.running = true ∧ p'.state.ws = true ∧ p'.Alive (· = .read) := by
  have hkept : Sound p ∧ p.state.cfg = cfg := by
    refine run_induction (P := fun _ p => Sound p ∧ p.state.cfg = cfg)
      ⟨streamLive_sound cfg intervalMs onData onError, rfl⟩ (fun es e t u _ ih h => ?_) hr
    refine ⟨ih.1.step h, ?_⟩
    obtain ⟨k, t, rfl, ht, rfl⟩ | ⟨i, q, g, rfl, -, -, -, rfl⟩ := step_cases h
    · refine Eq.trans ?_ ih.2
      cases k <;> simp only [SessionState.program, SessionState.call] at ht <;> split at ht <;>
        cases ht <;> rfl
    · exact (handle_steady parse stod _ g).cfg.trans ih.2
  have hon : p.state.On := ⟨hrunning, hcrashed, hkept.2 ▸ hidle⟩
  have halive := (session_carries parse stod).alive (fun _ _ _ hp h => hp.step h)
    (streamLive_sound cfg intervalMs onData onError)
    (fun _ => ⟨_, List.mem_singleton_self _, rfl, rfl⟩) hr hon
  obtain ⟨q, hq, hlive, hc⟩ := halive
  obtain ⟨p', hruns, hon', hrest⟩ := recovers_from q.op.toRead rfl hkept.1 hon hc
    ⟨q, hq, hlive, rfl⟩
  exact ⟨⟨q, hq, hlive, hc⟩, p', hruns, hon'.running, hrest⟩

/-- From the connection to the answer to a subscription. -/
def acknowledgedEvents : List SessionEvent :=
  [.complete 0 (.beginResolve, 0), .complete 0 (.onResolve none, 0),
    .complete 0 (.onConnect none none, 0), .complete 0 (.onSslHandshake none, 0),
    .complete 0 (.onHandshake none, 0), .complete 1 (.onRead (.message acknowledgement), 0)]

/-- After the answer no read is pending, and the idle timer leads back to one. -/
theorem alive_and_recovers_acknowledged : ∃ p,
    run (SessionState.program parseAcknowledgement fun _ => none).step
      (streamLive {} 60000 none true) acknowledgedEvents = some p ∧
    (∀ q ∈ p.pending, q.op = .idleTimer) ∧
    p.Alive (fun op => op.carries = true) ∧
    ∃ p', RunsBy (SessionState.program parseAcknowledgement fun _ => none).step
        (fun e => ∃ i h, e = .complete i h) p p' ∧
      p'.state.running = true ∧ p'.state.ws = true ∧ p'.Alive (· = .read) :=
  ⟨_, rfl, by decide, alive_and_recovers parseAcknowledgement (fun _ => none) {} (by decide) 60000
    none true acknowledgedEvents _ rfl rfl rfl⟩

/-! ## The null pointer -/

/-- The handlers that follow `ws_`. -/
def SessionHandler.followsWs : SessionHandler → Bool
  | .onConnect none _ => true
  | .onSslHandshake none => true
  | .onHandshake none => true
  | .onRead (.message _) => true
  | _ => false

/-- An operation succeeds although it was cancelled with its stream. -/
def Late (p : Pool SessionState SessionOp) : SessionEvent → Prop
  | .complete i h => ∃ q, p.pending[i]? = some q ∧ q.cancelled = true ∧ h.1.followsWs = true
  | .call _ => False

section

variable {parse : List Char → Option Json} {stod : List Char → Option Price} {s : SessionState}

theorem scheduleReconnect_crashed (draw : Nat) (reason : String) :
    (s.scheduleReconnect draw reason).state.crashed = s.crashed := by
  by_cases hs : s.running = true
  · obtain ⟨errors, e⟩ := scheduleReconnect_of_running hs draw reason
    rw [e]
  · rw [SessionState.scheduleReconnect, if_pos (by simpa using hs)]

theorem handleFailure_crashed (draw : Nat) (stage : String) (ec : StreamError) :
    (s.handleFailure draw stage ec).state.crashed = s.crashed := by
  unfold SessionState.handleFailure
  split
  · rfl
  · obtain ⟨errors, e⟩ := report_eq s ec
    rw [e, scheduleReconnect_crashed]

theorem onWs_crashed {op : SessionOp} (hs : s.crashed = false)
    (h : (s.onWs op).state.crashed = true) : s.ws = false := by
  unfold SessionState.onWs at h
  split at h
  · exact nomatch hs.symm.trans h
  · rename_i hws
    exact Bool.not_eq_true _ ▸ hws

theorem doRead_crashed (hs : s.crashed = false) (h : s.doRead.state.crashed = true) :
    s.ws = false := by
  unfold SessionState.doRead at h
  split at h
  · exact nomatch hs.symm.trans h
  · exact onWs_crashed hs h

/-- Only a handler that follows the null pointer ends the run. -/
theorem handle_crashed (hs : s.crashed = false) {h : SessionHandler × Nat}
    (hcrash : (s.handle parse stod h).state.crashed = true) :
    s.ws = false ∧ h.1.followsWs = true := by
  have hno : ∀ {P : Prop}, s.crashed = true → P := fun h => nomatch hs.symm.trans h
  have hfail : ∀ {P : Prop} draw stage ec,
      (s.handleFailure draw stage ec).state.crashed = true → P := fun draw stage ec h =>
    hno ((handleFailure_crashed draw stage ec).symm.trans h)
  obtain ⟨h, draw⟩ := h
  cases h with
  | beginResolve =>
    simp only [SessionState.handle] at hcrash
    split at hcrash <;> exact hno hcrash
  | onResolve ec =>
    cases ec with
    | some ec => exact hfail draw _ ec hcrash
    | none => exact hno hcrash
  | onConnect ec sniEc =>
    cases ec with
    | some ec => exact hfail draw _ ec hcrash
    | none =>
      cases sniEc with
      | some ec =>
        simp only [SessionState.handle] at hcrash
        split at hcrash
        · exact hfail draw _ ec hcrash
        · rename_i hws
          exact ⟨Bool.not_eq_true _ ▸ hws, rfl⟩
      | none => exact ⟨onWs_crashed hs hcrash, rfl⟩
  | onSslHandshake ec =>
    cases ec with
    | some ec => exact hfail draw _ ec hcrash
    | none => exact ⟨onWs_crashed hs hcrash, rfl⟩
  | onHandshake ec =>
    cases ec with
    | some ec => exact hfail draw _ ec hcrash
    | none => exact ⟨doRead_crashed (s := { s with reconnectAttempts := 0 }) hs hcrash, rfl⟩
  | onRead result =>
    cases result with
    | closed => exact hno ((scheduleReconnect_crashed draw _).symm.trans hcrash)
    | failed ec => exact hfail draw _ ec hcrash
    | message payload =>
      have hcrash : (s.onMessage parse stod payload).state.crashed = true := hcrash
      unfold SessionState.onMessage at hcrash
      split at hcrash
      · exact hno hcrash
      · rename_i session hm
        exact ⟨doRead_crashed (s := { s with session := session }) hs hcrash, rfl⟩
  | onReconnectTimer ec =>
    simp only [SessionState.handle] at hcrash
    split at hcrash <;> exact hno hcrash
  | onIdleTimeout ec =>
    simp only [SessionState.handle] at hcrash
    split at hcrash
    · exact hno hcrash
    · obtain ⟨errors, e⟩ := report_eq s ⟨0, "heartbeat timeout".toList⟩
      rw [e, scheduleReconnect_crashed] at hcrash
      exact hno hcrash
  | shutdown => exact hno hcrash
  | onClose => exact hno hcrash

end

theorem step_not_crashed {parse : List Char → Option Json} {stod : List Char → Option Price}
    {p p' : Pool SessionState SessionOp} {e : SessionEvent} (hsound : Sound p)
    (hcrash : p.state.crashed = false) (he : ¬ Late p e)
    (h : (SessionState.program parse stod).step p e = some p') : p'.state.crashed = false := by
  obtain ⟨k, t, rfl, ht, rfl⟩ | ⟨i, q, g, rfl, hq, hop, -, rfl⟩ := step_cases h
  · refine Eq.trans ?_ hcrash
    cases k <;> simp only [SessionState.program, SessionState.call] at ht <;> split at ht <;>
      cases ht <;> rfl
  · by_contra hnew
    obtain ⟨hws, hfollows⟩ := handle_crashed hcrash (Bool.not_eq_false _ ▸ hnew)
    have hstream : q.op.onStream = true := by
      rw [show q.op = g.1.op from hop]
      obtain ⟨g, draw⟩ := g
      cases g <;> simp_all [SessionHandler.followsWs, SessionHandler.op, SessionOp.onStream]
    exact he ⟨q, hq, hsound.dropped hws q (List.mem_of_getElem? hq) hstream, hfollows⟩

/-- While the operations that are cancelled with their stream complete with an error, no handler
follows the null pointer, whichever timers fire in between. -/
theorem crashed_only_late (parse : List Char → Option Json) (stod : List Char → Option Price)
    (cfg : StreamConfig) (intervalMs : Int) (onData : Option (LiveCandle → Bool)) (onError : Bool)
    (es : List SessionEvent) (p : Pool SessionState SessionOp)
    (hr : run (SessionState.program parse stod).step (streamLive cfg intervalMs onData onError) es =
      some p)
    (hes : Along (SessionState.program parse stod).step (fun p e => ¬ Late p e)
      (streamLive cfg intervalMs onData onError) es) : p.state.crashed = false := by
  have hstep (p : Pool SessionState SessionOp) (e : SessionEvent) (p' : Pool SessionState SessionOp)
      (hp : Sound p ∧ p.state.crashed = false) (he : ¬ Late p e)
      (h : (SessionState.program parse stod).step p e = some p') :
      Sound p' ∧ p'.state.crashed = false :=
    ⟨hp.1.step h, step_not_crashed hp.1 hp.2 he h⟩
  exact (inv_of_along hstep ⟨streamLive_sound cfg intervalMs onData onError, rfl⟩ hes hr).2

instance (p : Pool SessionState SessionOp) (e : SessionEvent) : Decidable (Late p e) :=
  match e with
  | .call _ => .isFalse id
  | .complete i h =>
    decidable_of_iff ((p.pending[i]?.any fun q => q.cancelled) = true ∧ h.1.followsWs = true) (by
      cases hq : p.pending[i]? <;> simp [Late, hq])

/-- The idle timer fires while a read is pending, which then fails. -/
def heartbeatEvents : List SessionEvent :=
  [.complete 0 (.beginResolve, 0), .complete 0 (.onResolve none, 0),
    .complete 0 (.onConnect none none, 0), .complete 0 (.onSslHandshake none, 0),
    .complete 0 (.onHandshake none, 0), .complete 0 (.onIdleTimeout false, 0),
    .complete 0 (.onRead (.failed ⟨125, []⟩), 7), .complete 0 (.onReconnectTimer true, 0),
    .complete 0 (.onReconnectTimer false, 0)]

theorem crashed_only_late_heartbeat : ∃ p,
    run (SessionState.program (fun _ => none) fun _ => none).step (streamLive {} 60000 none true)
      heartbeatEvents = some p ∧ p.state.crashed = false :=
  ⟨_, rfl, crashed_only_late (fun _ => none) (fun _ => none) {} 60000 none true heartbeatEvents _ rfl
    (by decide)⟩

/-! ## The waits -/

/-- The waits of a round: the `k`-th is the `k`-th back-off with at most a fifth of it, and a
millisecond, more. -/
def Paced (cfg : StreamConfig) (round : List Nat) : Prop :=
  ∀ k delay, round[k]? = some delay → computeBackoffMs cfg k ≤ delay ∧
    delay ≤ computeBackoffMs cfg k + (computeBackoffMs cfg k / 5 + 1)

def SessionHandler.opens : SessionHandler → Bool
  | .onHandshake none => true
  | _ => false

/-- A handshake that succeeds. -/
def opening : SessionEvent → Bool
  | .complete _ h => h.1.opens
  | .call _ => false

/-- The handshakes that succeeded. -/
def handshakes (es : List SessionEvent) : Nat := es.countP opening

/-- The waits so far: rounds between the handshakes, and the round of this connection. -/
structure InRounds (cfg : StreamConfig) (earlier : List (List Nat)) (s : SessionState) : Prop where
  sameCfg : s.cfg = cfg
  paced : ∀ round ∈ earlier, Paced cfg round
  current : ∃ round, s.delays = earlier.flatten ++ round ∧ round.length = s.reconnectAttempts ∧
    Paced cfg round

section

variable {parse : List Char → Option Json} {stod : List Char → Option Price} {s : SessionState}
  {cfg : StreamConfig} {earlier : List (List Nat)}

theorem Paced.concat {round : List Nat} {delay : Nat} (h : Paced cfg round)
    (hlo : computeBackoffMs cfg round.length ≤ delay)
    (hhi : delay ≤ computeBackoffMs cfg round.length + (computeBackoffMs cfg round.length / 5 + 1)) :
    Paced cfg (round ++ [delay]) := by
  intro k d hk
  rw [List.getElem?_append] at hk
  split at hk
  · exact h k d hk
  · obtain ⟨hlt, rfl⟩ := List.getElem?_eq_some_iff.mp hk
    rw [List.length_singleton] at hlt
    obtain rfl : k = round.length := by omega
    simpa using ⟨hlo, hhi⟩

/-- A turn adds a wait to the round, or lets the waits be. -/
def Waits (s : SessionState) (draw : Nat) (s' : SessionState) : Prop :=
  s'.delays = s.delays ∧ s'.reconnectAttempts = s.reconnectAttempts ∨
  s'.delays = s.delays ++ [computeBackoffMs s.cfg s.reconnectAttempts +
      jitterMs draw (computeBackoffMs s.cfg s.reconnectAttempts)] ∧
    s'.reconnectAttempts = s.reconnectAttempts + 1

theorem scheduleReconnect_waits (draw : Nat) (reason : String) :
    Waits s draw (s.scheduleReconnect draw reason).state := by
  by_cases hs : s.running = true
  · obtain ⟨errors, e⟩ := scheduleReconnect_of_running hs draw reason
    rw [e]
    exact .inr ⟨rfl, rfl⟩
  · rw [SessionState.scheduleReconnect, if_pos (by simpa using hs)]
    exact .inl ⟨rfl, rfl⟩

theorem handleFailure_waits (draw : Nat) (stage : String) (ec : StreamError) :
    Waits s draw (s.handleFailure draw stage ec).state := by
  unfold SessionState.handleFailure
  split
  · exact .inl ⟨rfl, rfl⟩
  · obtain ⟨errors, e⟩ := report_eq s ec
    rw [e]
    exact scheduleReconnect_waits (s := { s with errors := errors }) draw stage

theorem onWs_waits (draw : Nat) (op : SessionOp) : Waits s draw (s.onWs op).state := by
  unfold SessionState.onWs
  split <;> exact .inl ⟨rfl, rfl⟩

theorem doRead_delays : s.doRead.state.delays = s.delays ∧
    s.doRead.state.reconnectAttempts = s.reconnectAttempts := by
  unfold SessionState.doRead SessionState.onWs
  split_ifs <;> exact ⟨rfl, rfl⟩

variable (parse stod) in
theorem handle_waits {h : SessionHandler × Nat} (hh : h.1.opens = false) :
    Waits s h.2 (s.handle parse stod h).state := by
  obtain ⟨h, draw⟩ := h
  have hsame : Waits s draw s := .inl ⟨rfl, rfl⟩
  cases h with
  | beginResolve =>
    simp only [SessionState.handle]
    split <;> exact hsame
  | onResolve ec =>
    cases ec with
    | some ec => exact handleFailure_waits draw _ ec
    | none => exact .inl ⟨rfl, rfl⟩
  | onConnect ec sniEc =>
    cases ec with
    | some ec => exact handleFailure_waits draw _ ec
    | none =>
      cases sniEc with
      | some ec =>
        simp only [SessionState.handle]
        split
        · exact handleFailure_waits draw _ ec
        · exact .inl ⟨rfl, rfl⟩
      | none => exact onWs_waits draw _
  | onSslHandshake ec =>
    cases ec with
    | some ec => exact handleFailure_waits draw _ ec
    | none => exact onWs_waits draw _
  | onHandshake ec =>
    cases ec with
    | some ec => exact handleFailure_waits draw _ ec
    | none => exact nomatch hh
  | onRead result =>
    cases result with
    | closed => exact scheduleReconnect_waits draw _
    | failed ec => exact handleFailure_waits draw _ ec
    | message payload =>
      show Waits s draw (s.onMessage parse stod payload).state
      unfold SessionState.onMessage
      split
      · exact hsame
      · exact .inl doRead_delays
  | onReconnectTimer ec =>
    simp only [SessionState.handle]
    split <;> exact .inl ⟨rfl, rfl⟩
  | onIdleTimeout ec =>
    simp only [SessionState.handle]
    split
    · exact hsame
    · obtain ⟨errors, e⟩ := report_eq s ⟨0, "heartbeat timeout".toList⟩
      rw [e]
      exact scheduleReconnect_waits (s := { s with errors := errors }) draw _
  | shutdown => exact hsame
  | onClose => exact hsame

theorem forall_mem_concat {P : List Nat → Prop} {round : List Nat} (h : ∀ r ∈ earlier, P r)
    (hround : P round) : ∀ r ∈ earlier ++ [round], P r := by
  intro r hr
  rcases List.mem_append.mp hr with hr | hr
  · exact h r hr
  · exact List.mem_singleton.mp hr ▸ hround

/-- A handshake that succeeds ends the round. -/
theorem InRounds.opens (hs : InRounds cfg earlier s) {h : SessionHandler × Nat}
    (hopen : h.1.opens = true) : ∃ round, InRounds cfg (earlier ++ [round])
      (s.handle parse stod h).state ∧
        (s.handle parse stod h).state.delays = (earlier ++ [round]).flatten := by
  obtain ⟨round, hdelays, -, hround⟩ := hs.current
  have hcfg := (handle_steady parse stod s h).cfg.trans hs.sameCfg
  obtain ⟨h, draw⟩ := h
  obtain rfl : h = .onHandshake none := by
    cases h with
    | onHandshake ec => cases ec <;> simp_all [SessionHandler.opens]
    | _ => exact nomatch hopen
  obtain ⟨hd, ha⟩ := doRead_delays (s := { s with reconnectAttempts := 0 })
  have hflat : (s.handle parse stod (.onHandshake none, draw)).state.delays =
      (earlier ++ [round]).flatten := by
    rw [List.flatten_append, List.flatten_singleton, ← hdelays]
    exact hd
  refine ⟨round, ⟨hcfg, forall_mem_concat hs.paced hround, [], ?_, ha.symm, fun k d hk => ?_⟩,
    hflat⟩
  · rw [List.append_nil, hflat]
  · simp at hk

theorem InRounds.handle (hs : InRounds cfg earlier s) {h : SessionHandler × Nat}
    (hopen : h.1.opens = false) (hdraw : h.2 ≤ computeBackoffMs s.cfg s.reconnectAttempts / 5 + 1) :
    InRounds cfg earlier (s.handle parse stod h).state := by
  obtain ⟨round, hdelays, hlen, hround⟩ := hs.current
  have hcfg := (handle_steady parse stod s h).cfg.trans hs.sameCfg
  obtain ⟨hd, ha⟩ | ⟨hd, ha⟩ := handle_waits (s := s) parse stod hopen
  · exact ⟨hcfg, hs.paced, round, hd.trans hdelays, hlen.trans ha.symm, hround⟩
  · rw [hs.sameCfg] at hd hdraw
    rw [← hlen] at hd hdraw
    have hjitter : jitterMs h.2 (computeBackoffMs cfg round.length) ≤
        computeBackoffMs cfg round.length / 5 + 1 := by
      unfold jitterMs
      split
      · exact Nat.zero_le _
      · exact hdraw
    refine ⟨hcfg, hs.paced, round ++ [_], ?_, ?_,
      hround.concat (Nat.le_add_right _ _) (Nat.add_le_add_left hjitter _)⟩
    · rw [hd, hdelays, List.append_assoc]
    · rw [ha, List.length_append, hlen, List.length_singleton]

/-- What one event adds to the rounds: the one that a handshake ends. -/
theorem InRounds.step {p p' : Pool SessionState SessionOp} {e : SessionEvent}
    (hs : InRounds cfg earlier p.state) (h : (SessionState.program parse stod).step p e = some p') :
    opening e = false ∧ InRounds cfg earlier p'.state ∨
      opening e = true ∧ ∃ round, InRounds cfg (earlier ++ [round]) p'.state ∧
        p'.state.delays = (earlier ++ [round]).flatten := by
  obtain ⟨k, turn, rfl, ht, rfl⟩ | ⟨i, q, g, rfl, -, -, hcan, rfl⟩ := step_cases h
  · refine .inl ⟨rfl, ?_⟩
    cases k <;> simp only [SessionState.program, SessionState.call] at ht <;> split at ht <;>
      cases ht <;> exact ⟨hs.sameCfg, hs.paced, hs.current⟩
  · have hdraw : g.2 ≤ computeBackoffMs p.state.cfg p.state.reconnectAttempts / 5 + 1 := by
      have hcan : p.state.can q g = true := hcan
      rw [SessionState.can, Bool.and_eq_true, decide_eq_true_eq] at hcan
      exact hcan.2
    cases hopen : g.1.opens with
    | false => exact .inl ⟨hopen, hs.handle hopen hdraw⟩
    | true => exact .inr ⟨hopen, hs.opens hopen⟩

end

/-- After every handshake the waits so far are those of the rounds so far. -/
def EndRounds
    (step : Pool SessionState SessionOp → SessionEvent → Option (Pool SessionState SessionOp))
    (start : Pool SessionState SessionOp) (es : List SessionEvent) (rounds : List (List Nat)) :
    Prop :=
  ∀ pre e, pre ++ [e] <+: es → opening e = true → ∀ q, run step start (pre ++ [e]) = some q →
    q.state.delays = (rounds.take (handshakes (pre ++ [e]))).flatten

theorem EndRounds.concat_round
    {step : Pool SessionState SessionOp → SessionEvent → Option (Pool SessionState SessionOp)}
    {start : Pool SessionState SessionOp} {es : List SessionEvent} {earlier : List (List Nat)}
    (h : EndRounds step start es earlier) (hlen : handshakes es ≤ earlier.length)
    (round : List Nat) : EndRounds step start es (earlier ++ [round]) := by
  intro pre e hpre he q hq
  have hle : handshakes (pre ++ [e]) ≤ earlier.length := hpre.sublist.countP_le.trans hlen
  rw [List.take_append_of_le_length hle]
  exact h pre e hpre he q hq

/-- The rounds that are over after a run. -/
theorem run_inRounds (parse : List Char → Option Json) (stod : List Char → Option Price)
    {cfg : StreamConfig} {start p : Pool SessionState SessionOp} (hs : InRounds cfg [] start.state)
    {es : List SessionEvent} (hr : run (SessionState.program parse stod).step start es = some p) :
    ∃ earlier, InRounds cfg earlier p.state ∧ earlier.length = handshakes es ∧
      EndRounds (SessionState.program parse stod).step start es earlier := by
  refine run_induction (P := fun es p => ∃ earlier, InRounds cfg earlier p.state ∧
    earlier.length = handshakes es ∧
      EndRounds (SessionState.program parse stod).step start es earlier) ?_ ?_ hr
  · refine ⟨[], hs, rfl, fun pre e hpre => ?_⟩
    exact absurd (List.prefix_nil.mp hpre)
      (List.append_ne_nil_of_right_ne_nil _ (List.cons_ne_nil _ _))
  · rintro es e p p' hrun ⟨earlier, hin, hlen, hends⟩ h
    have hcount : handshakes (es ++ [e]) = handshakes es + if opening e then 1 else 0 := by
      rw [handshakes, List.countP_append, List.countP_singleton]
      rfl
    obtain ⟨hopen, hin⟩ | ⟨hopen, round, hin, hdelays⟩ := hin.step h
    · rw [hopen] at hcount
      refine ⟨earlier, hin, hlen.trans hcount.symm, fun pre f hpre hf => ?_⟩
      rcases List.prefix_concat_iff.mp hpre with he | hpre
      · obtain ⟨-, he⟩ := List.append_inj' he rfl
        rw [(List.cons.inj he).1, hopen] at hf
        cases hf
      · exact hends pre f hpre hf
    · rw [hopen] at hcount
      have hlen' : (earlier ++ [round]).length = handshakes (es ++ [e]) := by
        rw [List.length_append, List.length_singleton, hlen, hcount, if_pos rfl]
      refine ⟨earlier ++ [round], hin, hlen', fun pre f hpre hf q hq => ?_⟩
      rcases List.prefix_concat_iff.mp hpre with he | hpre
      · rw [he] at hq ⊢
        rw [run_append, hrun, Option.bind_some, run_cons, h] at hq
        rw [← hlen', List.take_length, ← hdelays, Option.some.inj hq]
      · exact hends.concat_round hlen.ge round pre f hpre hf q hq

/-- The waits before the reconnections come in rounds, one up to each handshake that succeeded and
one for what came after the last, and each round starts again with the shortest back-off. -/
theorem delays_in_rounds (parse : List Char → Option Json) (stod : List Char → Option Price)
    (cfg : StreamConfig) (intervalMs : Int) (onData : Option (LiveCandle → Bool)) (onError : Bool)
    (es : List SessionEvent) (p : Pool SessionState SessionOp)
    (hr : run (SessionState.program parse stod).step (streamLive cfg intervalMs onData onError) es =
      some p) :
    ∃ rounds : List (List Nat), p.state.delays = rounds.flatten ∧ rounds.length = handshakes es + 1 ∧
      (∀ round ∈ rounds, Paced cfg round) ∧
      EndRounds (SessionState.program parse stod).step (streamLive cfg intervalMs onData onError) es
        rounds := by
  have hstart : InRounds cfg [] (streamLive cfg intervalMs onData onError).state :=
    ⟨rfl, fun r hr => absurd hr List.not_mem_nil, [], rfl, rfl, fun k d hk => by simp at hk⟩
  obtain ⟨earlier, hin, hlen, hends⟩ := run_inRounds parse stod hstart hr
  obtain ⟨round, hdelays, -, hround⟩ := hin.current
  refine ⟨earlier ++ [round], ?_, by simp [hlen], forall_mem_concat hin.paced hround,
    hends.concat_round hlen.ge round⟩
  rw [List.flatten_append, List.flatten_singleton]
  exact hdelays

/-- A resolver that fails once, and an idle timer that fires after the handshake. -/
def retriedEvents : List SessionEvent :=
  [.complete 0 (.beginResolve, 0), .complete 0 (.onResolve (some ⟨1, []⟩), 7),
    .complete 0 (.onReconnectTimer false, 0), .complete 0 (.onResolve none, 0),
    .complete 0 (.onConnect none none, 0), .complete 0 (.onSslHandshake none, 0),
    .complete 0 (.onHandshake none, 0), .complete 0 (.onIdleTimeout false, 0)]

theorem delays_in_rounds_retried : ∃ p,
    run (SessionState.program (fun _ => none) fun _ => none).step (streamLive {} 60000 none true)
      retriedEvents = some p ∧ p.state.delays = [257, 250] ∧
    ∃ rounds : List (List Nat), p.state.delays = rounds.flatten ∧ rounds.length = 2 ∧
      (∀ round ∈ rounds, Paced {} round) ∧
      EndRounds (SessionState.program (fun _ => none) fun _ => none).step
        (streamLive {} 60000 none true) retriedEvents rounds :=
  ⟨_, rfl, rfl, delays_in_rounds (fun _ => none) (fun _ => none) {} 60000 none true retriedEvents _
    rfl⟩

end TCV.Exchange
