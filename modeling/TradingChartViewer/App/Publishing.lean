import TradingChartViewer.App.Orchestrator
import TradingChartViewer.Lib.Run
import TradingChartViewer.Storage.Latest

/-!
# Publishing snapshots

`publishSnapshot` in any number of threads, over a repository that threads
append to at any time. The event bus is there; `seeded_` and the log lines are
left out.

* `PublishPc`, `publishStep`: the steps of one call, each atomic;
* `Publishing.Ok`: the invariant; `step_ok`;
* `run_published`: what is handed out in a run.
-/

namespace TCV.App

open TCV.Domain TCV.Storage Lib.Grid Lib.Run

/-! ## The calls -/

/-- `core::EventBus::SeriesUpdated`. -/
structure SeriesUpdated where
  count : Nat
  firstOpen : Int
  lastOpen : Int
  lastClosed : Bool
  deriving DecidableEq, Repr

/-- The event for a series. -/
def seriesUpdated (lastClosed : Bool) (series : CandleSeries) : SeriesUpdated :=
  { count := series.data.length
    firstOpen := if series.data.isEmpty then 0 else series.firstOpen
    lastOpen := if series.data.isEmpty then 0 else series.lastOpen
    lastClosed := lastClosed }

/-- What a call of `publishSnapshot` does next: wait for `publishMutex_`, read the
repository, hand the series to the cache, announce it, release the mutex. -/
inductive PublishPc
  | lock
  | read
  | update (series : CandleSeries)
  | announce (series : CandleSeries)
  | unlock
  deriving DecidableEq, Repr

/-- The calls the threads make to the repository, to `SeriesCache::update` and to
the event bus. -/
inductive Output
  | appendOrReplace (candle : Candle)
  | update (series : CandleSeries)
  | publishSeriesUpdated (event : SeriesUpdated)
  deriving DecidableEq, Repr

def Output.series? : Output → Option CandleSeries
  | .update series => some series
  | _ => none

def Output.event? : Output → Option SeriesUpdated
  | .publishSeriesUpdated event => some event
  | _ => none

/-- The repository, the mutex with the thread that holds it, the calls of
`publishSnapshot` under way with their `lastClosed`, and the calls made so far. -/
structure Publishing (τ : Type) where
  repo : Repository
  holder : Option τ := none
  calls : τ → Option (Bool × PublishPc) := fun _ => none
  log : List Output := []

/-- The series handed to the cache so far. -/
def Publishing.published {τ : Type} (s : Publishing τ) : List CandleSeries :=
  s.log.filterMap Output.series?

/-- The events published so far. -/
def Publishing.announced {τ : Type} (s : Publishing τ) : List SeriesUpdated :=
  s.log.filterMap Output.event?

section

variable {τ : Type}

def Publishing.emit (s : Publishing τ) (output : Output) : Publishing τ :=
  { s with log := s.log ++ [output] }

def Publishing.append [TimeUtils] (s : Publishing τ) (candle : Candle) :
    AppendResult × Publishing τ :=
  let (result, repo) := s.repo.appendOrReplace candle
  (result, { s with repo := repo }.emit (.appendOrReplace candle))

variable [DecidableEq τ]

/-- The state with the call of `t` at another place, or ended. -/
def Publishing.goto (s : Publishing τ) (t : τ) (call : Option (Bool × PublishPc)) : Publishing τ :=
  { s with calls := Function.update s.calls t call }

/-- One step of the call of `t`, unless it waits for the mutex. -/
def Publishing.publishStep (publishCandles : Nat) (s : Publishing τ) (t : τ) :
    Option (Publishing τ) :=
  match s.calls t with
  | none => none
  | some (lastClosed, .lock) =>
    if s.holder.isSome then none
    else some ({ s with holder := some t }.goto t (some (lastClosed, .read)))
  | some (lastClosed, .read) =>
    some (s.goto t (some (lastClosed, .update (s.repo.getLatest publishCandles))))
  | some (lastClosed, .update series) =>
    some ((s.emit (.update series)).goto t (some (lastClosed, .announce series)))
  | some (lastClosed, .announce series) =>
    some ((s.emit (.publishSeriesUpdated (seriesUpdated lastClosed series))).goto t
      (some (lastClosed, .unlock)))
  | some (_, .unlock) => some ({ s with holder := none }.goto t none)

/-- A thread appends a candle, calls `publishSnapshot`, or takes a step of its
call. -/
inductive PublishEvent (τ : Type)
  | append (candle : Candle)
  | call (t : τ) (lastClosed : Bool)
  | step (t : τ)
  deriving DecidableEq, Repr

def Publishing.step [TimeUtils] (publishCandles : Nat) (s : Publishing τ) :
    PublishEvent τ → Option (Publishing τ)
  | .append candle => some (s.append candle).2
  | .call t lastClosed =>
    if (s.calls t).isSome then none else some (s.goto t (some (lastClosed, .lock)))
  | .step t => s.publishStep publishCandles t

end

/-! ## The invariant -/

/-- The event is the one made for the series. -/
def Announces (event : SeriesUpdated) (series : CandleSeries) : Prop :=
  event = seriesUpdated event.lastClosed series

section

variable {τ : Type}

/-- Where the thread that holds the mutex is. -/
def Publishing.inside (s : Publishing τ) : Option (Option PublishPc) :=
  s.holder.map fun t => (s.calls t).map Prod.snd

/-- Series and events match, but for the series still to be announced; the series
that was read lies between those published and what a read finds now. -/
def Publishing.Stage (publishCandles : Nat) (s : Publishing τ) : Option (Option PublishPc) → Prop
  | none | some (some .read) | some (some .unlock) => List.Forall₂ Announces s.announced s.published
  | some (some (.update series)) =>
    List.Forall₂ Announces s.announced s.published ∧
      (∀ p ∈ s.published, Advances p series) ∧ Advances series (s.repo.getLatest publishCandles)
  | some (some (.announce series)) =>
    ∃ pre, s.published = pre ++ [series] ∧ List.Forall₂ Announces s.announced pre
  | some (some .lock) | some none => False

theorem Publishing.Stage.matched {publishCandles : Nat} {s : Publishing τ}
    {inside : Option (Option PublishPc)} (h : s.Stage publishCandles inside) :
    List.Forall₂ Announces s.announced (s.published.take s.announced.length) ∧
      s.published.length ≤ s.announced.length + 1 := by
  have whole : List.Forall₂ Announces s.announced s.published →
      List.Forall₂ Announces s.announced (s.published.take s.announced.length) ∧
        s.published.length ≤ s.announced.length + 1 := fun hm => by
    have hlen := hm.length_eq
    rw [hlen, List.take_length]
    exact ⟨hm, by omega⟩
  unfold Publishing.Stage at h
  split at h
  · exact whole h
  · exact whole h
  · exact whole h
  · exact whole h.1
  · obtain ⟨pre, hp, hm⟩ := h
    rw [hp, hm.length_eq, List.take_left]
    exact ⟨hm, by simp⟩
  · exact h.elim
  · exact h.elim

structure Publishing.Ok (publishCandles : Nat) (s : Publishing τ) : Prop where
  contiguous : s.repo.Contiguous
  exclusive : ∀ t call, s.calls t = some call → call.2 = .lock ∨ s.holder = some t
  ordered : s.published.Pairwise Advances
  latest : ∀ p ∈ s.published, Advances p (s.repo.getLatest publishCandles)
  stage : s.Stage publishCandles s.inside

/-- No call is under way, and none was made. -/
structure Publishing.Initial (s : Publishing τ) : Prop where
  contiguous : s.repo.Contiguous
  holder : s.holder = none
  calls : ∀ t, s.calls t = none
  log : s.log = []

variable {publishCandles : Nat} {s s' : Publishing τ} {t : τ}

theorem Publishing.Initial.ok (h : s.Initial) : s.Ok publishCandles := by
  have hp : s.published = [] := by rw [Publishing.published, h.log]; rfl
  have ha : s.announced = [] := by rw [Publishing.announced, h.log]; rfl
  refine ⟨h.contiguous, fun t call hc => ?_, ?_, ?_, ?_⟩
  · rw [h.calls] at hc
    cases hc
  · rw [hp]
    exact .nil
  · rw [hp]
    exact fun p hp => absurd hp List.not_mem_nil
  · rw [Publishing.inside, h.holder]
    show List.Forall₂ Announces s.announced s.published
    rw [ha, hp]
    exact .nil

@[simp] theorem published_emit (s : Publishing τ) (output : Output) :
    (s.emit output).published = s.published ++ output.series?.toList := by
  unfold Publishing.published Publishing.emit
  rw [List.filterMap_append]
  cases output <;> rfl

@[simp] theorem announced_emit (s : Publishing τ) (output : Output) :
    (s.emit output).announced = s.announced ++ output.event?.toList := by
  unfold Publishing.announced Publishing.emit
  rw [List.filterMap_append]
  cases output <;> rfl

theorem published_append [TimeUtils] (s : Publishing τ) (candle : Candle) :
    (s.append candle).2.published = s.published := by
  rw [Publishing.append, published_emit]
  exact List.append_nil _

theorem announced_append [TimeUtils] (s : Publishing τ) (candle : Candle) :
    (s.append candle).2.announced = s.announced := by
  rw [Publishing.append, announced_emit]
  exact List.append_nil _

/-- Another candle in the repository. -/
theorem append_ok [TimeUtils] (h : s.Ok publishCandles) (candle : Candle) :
    (s.append candle).2.Ok publishCandles := by
  have hadv := getLatest_advances h.contiguous candle publishCandles
  have hp := published_append s candle
  have ha := announced_append s candle
  have hstage := h.stage
  refine ⟨h.contiguous.appendOrReplace candle, h.exclusive, hp ▸ h.ordered,
    fun p hpub => (h.latest p (hp ▸ hpub)).trans hadv, ?_⟩
  show Publishing.Stage publishCandles _ s.inside
  unfold Publishing.Stage at hstage ⊢
  rw [hp, ha]
  split at hstage
  · exact hstage
  · exact hstage
  · exact hstage
  · exact ⟨hstage.1, hstage.2.1, hstage.2.2.trans hadv⟩
  · exact hstage
  · exact hstage
  · exact hstage

/-- A call past the mutex holds it. -/
theorem Publishing.Ok.inside_eq (h : s.Ok publishCandles) {lastClosed : Bool} {pc : PublishPc}
    (hc : s.calls t = some (lastClosed, pc)) (hpc : pc ≠ .lock) :
    s.holder = some t ∧ s.Stage publishCandles (some (some pc)) := by
  have hh := (h.exclusive t _ hc).resolve_left hpc
  have hstage := h.stage
  rw [Publishing.inside, hh, Option.map_some, hc] at hstage
  exact ⟨hh, hstage⟩

variable [DecidableEq τ]

@[simp] theorem published_goto (s : Publishing τ) (t : τ) (call : Option (Bool × PublishPc)) :
    (s.goto t call).published = s.published := rfl

@[simp] theorem calls_goto_self (s : Publishing τ) (t : τ) (call : Option (Bool × PublishPc)) :
    (s.goto t call).calls t = call := Function.update_self ..

theorem calls_goto_of_ne {u : τ} (h : u ≠ t) (call : Option (Bool × PublishPc)) :
    (s.goto t call).calls u = s.calls u := Function.update_of_ne h ..

theorem calls_goto_eq {u : τ} {call : Bool × PublishPc} {call' : Option (Bool × PublishPc)}
    (h : (s.goto t call').calls u = some call) :
    u = t ∧ call' = some call ∨ u ≠ t ∧ s.calls u = some call := by
  by_cases e : u = t
  · subst e
    rw [calls_goto_self] at h
    exact .inl ⟨rfl, h⟩
  · rw [calls_goto_of_ne e] at h
    exact .inr ⟨e, h⟩

theorem inside_goto_self (h : s.holder = some t) (call : Option (Bool × PublishPc)) :
    (s.goto t call).inside = some (call.map Prod.snd) := by
  show s.holder.map (fun u => ((s.goto t call).calls u).map Prod.snd) = _
  rw [h, Option.map_some, calls_goto_self]

theorem inside_goto_of_ne (h : s.holder ≠ some t) (call : Option (Bool × PublishPc)) :
    (s.goto t call).inside = s.inside := by
  show s.holder.map (fun u => ((s.goto t call).calls u).map Prod.snd) = _
  unfold Publishing.inside
  cases hh : s.holder with
  | none => rfl
  | some u =>
    have hu : u ≠ t := fun e => h (e ▸ hh)
    rw [Option.map_some, Option.map_some, calls_goto_of_ne hu]

/-- At most one call is past the mutex. -/
theorem exclusive_goto {holder : Option τ} {call' : Option (Bool × PublishPc)}
    (h : ∀ u call, u ≠ t → s.calls u = some call → call.2 = .lock ∨ holder = some u)
    (ht : ∀ call, call' = some call → call.2 = .lock ∨ holder = some t) :
    ∀ u call, (s.goto t call').calls u = some call → call.2 = .lock ∨ holder = some u := by
  intro u call hu
  obtain ⟨rfl, e⟩ | ⟨e, hu⟩ := calls_goto_eq hu
  · exact ht call e
  · exact h u call e hu

/-- The holder of the mutex goes on with its call. -/
theorem Publishing.Ok.goto (h : s.Ok publishCandles) (hh : s.holder = some t)
    {call : Option (Bool × PublishPc)} {s₁ : Publishing τ} (hs₁ : s₁ = { s with log := s₁.log })
    (hord : s₁.published.Pairwise Advances)
    (hlatest : ∀ p ∈ s₁.published, Advances p (s.repo.getLatest publishCandles))
    (hstage : s₁.Stage publishCandles (some (call.map Prod.snd))) :
    (s₁.goto t call).Ok publishCandles := by
  have hh₁ : s₁.holder = some t := by rw [hs₁]; exact hh
  have hcalls : s₁.calls = s.calls := by rw [hs₁]
  have hrepo : s₁.repo = s.repo := by rw [hs₁]
  refine ⟨?_, exclusive_goto (fun u c _ hc => ?_) fun _ _ => .inr hh₁, hord, ?_, ?_⟩
  · show s₁.repo.Contiguous
    rw [hrepo]
    exact h.contiguous
  · rw [hcalls] at hc
    exact (h.exclusive u c hc).imp_right fun hu => hh₁.trans (hh.symm.trans hu)
  · show ∀ p ∈ s₁.published, Advances p (s₁.repo.getLatest publishCandles)
    rw [hrepo]
    exact hlatest
  · rw [inside_goto_self hh₁]
    exact hstage

/-- What one step of a call can do. -/
inductive PublishStep (publishCandles : Nat) (s : Publishing τ) (t : τ) : Publishing τ → Prop
  | lock (lastClosed : Bool) (call : s.calls t = some (lastClosed, .lock)) (free : s.holder = none) :
    PublishStep publishCandles s t ({ s with holder := some t }.goto t (some (lastClosed, .read)))
  | read (lastClosed : Bool) (call : s.calls t = some (lastClosed, .read)) :
    PublishStep publishCandles s t
      (s.goto t (some (lastClosed, .update (s.repo.getLatest publishCandles))))
  | update (lastClosed : Bool) (series : CandleSeries)
    (call : s.calls t = some (lastClosed, .update series)) :
    PublishStep publishCandles s t
      ((s.emit (.update series)).goto t (some (lastClosed, .announce series)))
  | announce (lastClosed : Bool) (series : CandleSeries)
    (call : s.calls t = some (lastClosed, .announce series)) :
    PublishStep publishCandles s t
      ((s.emit (.publishSeriesUpdated (seriesUpdated lastClosed series))).goto t
        (some (lastClosed, .unlock)))
  | unlock (lastClosed : Bool) (call : s.calls t = some (lastClosed, .unlock)) :
    PublishStep publishCandles s t ({ s with holder := none }.goto t none)

theorem publishStep_cases (hs : s.publishStep publishCandles t = some s') :
    PublishStep publishCandles s t s' := by
  unfold Publishing.publishStep at hs
  split at hs
  · cases hs
  · rename_i lastClosed hc
    split at hs
    · cases hs
    · rename_i hh
      exact Option.some.inj hs ▸ .lock lastClosed hc (Option.not_isSome_iff_eq_none.mp hh)
  · rename_i lastClosed hc
    exact Option.some.inj hs ▸ .read lastClosed hc
  · rename_i lastClosed series hc
    exact Option.some.inj hs ▸ .update lastClosed series hc
  · rename_i lastClosed series hc
    exact Option.some.inj hs ▸ .announce lastClosed series hc
  · rename_i lastClosed hc
    exact Option.some.inj hs ▸ .unlock lastClosed hc

theorem publishStep_ok (h : s.Ok publishCandles) (hs : PublishStep publishCandles s t s') :
    s'.Ok publishCandles := by
  have hstage := h.stage
  cases hs with
  | lock lastClosed call free =>
    rw [Publishing.inside, free] at hstage
    refine ⟨h.contiguous, exclusive_goto (fun u call _ hu => .inl ?_) fun _ _ => .inr rfl,
      h.ordered, h.latest, ?_⟩
    · apply (h.exclusive u call hu).resolve_right
      intro hu'
      rw [free] at hu'
      cases hu'
    · rw [inside_goto_self rfl]
      exact hstage
  | read lastClosed call =>
    obtain ⟨hh, hmatch⟩ := h.inside_eq call (by simp)
    exact h.goto hh rfl h.ordered h.latest ⟨hmatch, h.latest, .refl _⟩
  | update lastClosed series call =>
    obtain ⟨hh, hmatch, hbefore, hafter⟩ := h.inside_eq call (by simp)
    have hp := published_emit s (.update series)
    refine h.goto hh rfl ?_ ?_ ⟨s.published, hp, ?_⟩
    · rw [hp]
      refine List.pairwise_append.mpr ⟨h.ordered, List.pairwise_singleton _ _, fun p hpub q hq => ?_⟩
      rw [List.mem_singleton.mp hq]
      exact hbefore p hpub
    · rw [hp]
      intro p hpub
      rcases List.mem_append.mp hpub with hpub | hpub
      · exact h.latest p hpub
      · rwa [List.mem_singleton.mp hpub]
    · rw [announced_emit]
      exact (List.append_nil _).symm ▸ hmatch
  | announce lastClosed series call =>
    obtain ⟨hh, pre, hpre, hmatch⟩ := h.inside_eq call (by simp)
    have hp : (s.emit (.publishSeriesUpdated (seriesUpdated lastClosed series))).published =
        s.published := by
      rw [published_emit]
      exact List.append_nil _
    apply h.goto hh rfl (by rw [hp]; exact h.ordered) (by rw [hp]; exact h.latest)
    show List.Forall₂ Announces _ _
    rw [hp, announced_emit, hpre]
    exact List.rel_append hmatch (.cons rfl .nil)
  | unlock lastClosed call =>
    obtain ⟨hh, hmatch⟩ := h.inside_eq call (by simp)
    refine ⟨h.contiguous, exclusive_goto (fun u call hu hcall => .inl ?_)
      (fun _ hcall => nomatch hcall), h.ordered, h.latest, hmatch⟩
    refine (h.exclusive u call hcall).resolve_right fun hu' => hu ?_
    exact Option.some.inj (hu'.symm.trans hh)

theorem step_ok [TimeUtils] (h : s.Ok publishCandles) {e : PublishEvent τ}
    (hs : s.step publishCandles e = some s') : s'.Ok publishCandles := by
  cases e with
  | append candle =>
    obtain rfl := Option.some.inj hs
    exact append_ok h candle
  | call t lastClosed =>
    rw [Publishing.step] at hs
    split at hs
    · cases hs
    rename_i hc
    rw [Option.not_isSome_iff_eq_none] at hc
    obtain rfl := Option.some.inj hs
    have hh : s.holder ≠ some t := by
      intro hh
      have hstage := h.stage
      rw [Publishing.inside, hh, Option.map_some, hc] at hstage
      exact hstage
    refine ⟨h.contiguous, exclusive_goto (fun u call _ => h.exclusive u call)
      fun call hcall => .inl ?_, h.ordered, h.latest, ?_⟩
    · rw [← Option.some.inj hcall]
    · rw [inside_goto_of_ne hh]
      exact h.stage
  | step t => exact publishStep_ok h (publishStep_cases hs)

/-! ## Runs -/

variable [TimeUtils]

/-- What was handed out stays handed out. -/
theorem step_published {e : PublishEvent τ} (hs : s.step publishCandles e = some s') :
    s.published <+: s'.published := by
  cases e with
  | append candle =>
    obtain rfl := Option.some.inj hs
    rw [published_append]
  | call t lastClosed =>
    rw [Publishing.step] at hs
    split_ifs at hs
    exact Option.some.inj hs ▸ List.prefix_rfl
  | step t =>
    cases publishStep_cases hs with
    | update | announce =>
      rw [published_goto, published_emit]
      exact List.prefix_append ..
    | _ => exact List.prefix_rfl

theorem run_ok (h : s.Initial) {es : List (PublishEvent τ)}
    (hr : run (Publishing.step publishCandles) s es = some s') : s'.Ok publishCandles :=
  inv_of_along (P := fun _ _ => True) (fun _ _ _ hok _ hs => step_ok hok hs) h.ok
    (along_of_forall fun _ _ => trivial) hr

/-- At a point of the run a thread that held the mutex read the series in a call with
`lastClosed`, when `i` series and `i` events had been handed out. -/
def ReadAt (publishCandles : Nat) (s₀ : Publishing τ) (es : List (PublishEvent τ)) (i : Nat)
    (lastClosed : Bool) (series : CandleSeries) : Prop :=
  ∃ es₁ es₂ r t, es = es₁ ++ es₂ ∧ run (Publishing.step publishCandles) s₀ es₁ = some r ∧
    r.holder = some t ∧ r.calls t = some (lastClosed, .read) ∧ r.published.length = i ∧
    r.announced.length = i ∧ series = r.repo.getLatest publishCandles

theorem ReadAt.concat {s₀ : Publishing τ} {es : List (PublishEvent τ)} {i : Nat}
    {lastClosed : Bool} {series : CandleSeries}
    (h : ReadAt publishCandles s₀ es i lastClosed series) (e : PublishEvent τ) :
    ReadAt publishCandles s₀ (es ++ [e]) i lastClosed series := by
  obtain ⟨es₁, es₂, r, t, rfl, h⟩ := h
  exact ⟨es₁, es₂ ++ [e], r, t, List.append_assoc .., h⟩

/-- What was handed to the cache, and what a call is about to hand to it or to announce, was read
during the run, and each event is that of the call that read its series. -/
structure SeriesRead (publishCandles : Nat) (s₀ : Publishing τ) (es : List (PublishEvent τ))
    (s : Publishing τ) : Prop where
  published : ∀ i series, s.published[i]? = some series →
    ∃ lastClosed, ReadAt publishCandles s₀ es i lastClosed series ∧
      ∀ event, s.announced[i]? = some event → event = seriesUpdated lastClosed series
  update : ∀ t lastClosed series, s.calls t = some (lastClosed, .update series) →
    ReadAt publishCandles s₀ es s.published.length lastClosed series
  announce : ∀ t lastClosed series, s.calls t = some (lastClosed, .announce series) →
    ReadAt publishCandles s₀ es s.announced.length lastClosed series

theorem SeriesRead.concat {s₀ : Publishing τ} {es : List (PublishEvent τ)}
    (h : SeriesRead publishCandles s₀ es s) (e : PublishEvent τ) :
    SeriesRead publishCandles s₀ (es ++ [e]) s := by
  refine ⟨fun i series hi => ?_, fun t b series hc => (h.update t b series hc).concat e,
    fun t b series hc => (h.announce t b series hc).concat e⟩
  obtain ⟨lastClosed, hread, hevent⟩ := h.published i series hi
  exact ⟨lastClosed, hread.concat e, hevent⟩

/-- A call goes on to something else than to hand over or to announce a series. -/
theorem SeriesRead.goto {s₀ : Publishing τ} {es : List (PublishEvent τ)}
    (h : SeriesRead publishCandles s₀ es s) (t : τ) (call : Option (Bool × PublishPc))
    (hupdate : ∀ lastClosed series, call ≠ some (lastClosed, .update series))
    (hannounce : ∀ lastClosed series, call ≠ some (lastClosed, .announce series)) :
    SeriesRead publishCandles s₀ es (s.goto t call) := by
  refine ⟨h.published, fun u lastClosed series hu => ?_, fun u lastClosed series hu => ?_⟩
  · obtain ⟨-, e⟩ | ⟨-, hu⟩ := calls_goto_eq hu
    · exact absurd e (hupdate lastClosed series)
    · exact h.update u lastClosed series hu
  · obtain ⟨-, e⟩ | ⟨-, hu⟩ := calls_goto_eq hu
    · exact absurd e (hannounce lastClosed series)
    · exact h.announce u lastClosed series hu

/-- The call that is to hand over its series does so. -/
theorem SeriesRead.emit_update {s₀ : Publishing τ} {es : List (PublishEvent τ)}
    (h : SeriesRead publishCandles s₀ es s) {t : τ} {lastClosed : Bool} {series : CandleSeries}
    (hc : s.calls t = some (lastClosed, .update series))
    (hlength : s.announced.length = s.published.length) {i : Nat} {q : CandleSeries}
    (hq : (s.emit (.update series)).published[i]? = some q) :
    ∃ b, ReadAt publishCandles s₀ es i b q ∧
      ∀ event, s.announced[i]? = some event → event = seriesUpdated b q := by
  rw [published_emit] at hq
  rcases Nat.lt_or_ge i s.published.length with hi | hi
  · rw [List.getElem?_append_left hi] at hq
    exact h.published i q hq
  · rw [List.getElem?_append_right hi] at hq
    replace hq : [series][i - s.published.length]? = some q := hq
    rw [List.getElem?_singleton] at hq
    split at hq
    · obtain rfl := Option.some.inj hq
      have hi : i = s.published.length := by omega
      refine ⟨lastClosed, hi ▸ h.update t lastClosed series hc, fun event hevent => ?_⟩
      rw [List.getElem?_eq_none (by omega)] at hevent
      cases hevent
    · cases hq

/-- The call that is to announce its series does so. -/
theorem SeriesRead.emit_announce {s₀ : Publishing τ} {es : List (PublishEvent τ)}
    (h : SeriesRead publishCandles s₀ es s) {t : τ} {lastClosed : Bool} {series : CandleSeries}
    (hc : s.calls t = some (lastClosed, .announce series))
    (hlast : s.published[s.announced.length]? = some series) {i : Nat} {q : CandleSeries}
    (hq : s.published[i]? = some q) :
    ∃ b, ReadAt publishCandles s₀ es i b q ∧
      ∀ event, (s.announced ++ [seriesUpdated lastClosed series])[i]? = some event →
        event = seriesUpdated b q := by
  by_cases hi : i = s.announced.length
  · subst hi
    obtain rfl := Option.some.inj (hlast.symm.trans hq)
    refine ⟨lastClosed, h.announce t lastClosed series hc, fun event hevent => ?_⟩
    rw [List.getElem?_concat_length] at hevent
    exact (Option.some.inj hevent).symm
  · obtain ⟨b, hread, hevent⟩ := h.published i q hq
    refine ⟨b, hread, fun event he => hevent event ?_⟩
    rcases Nat.lt_or_ge i s.announced.length with hlt | hge
    · rwa [List.getElem?_append_left hlt] at he
    · rw [List.getElem?_eq_none (by rw [List.length_append, List.length_singleton]; omega)] at he
      cases he

theorem run_readAt {s₀ : Publishing τ} (h : s₀.Initial) {es : List (PublishEvent τ)}
    (hr : run (Publishing.step publishCandles) s₀ es = some s) :
    SeriesRead publishCandles s₀ es s := by
  refine run_induction (P := fun es s => SeriesRead publishCandles s₀ es s) ?_ ?_ hr
  · have hp : s₀.published = [] := by rw [Publishing.published, h.log]; rfl
    refine ⟨fun i series hi => ?_, fun t lastClosed series hc => ?_,
      fun t lastClosed series hc => ?_⟩
    · rw [hp] at hi
      cases hi
    · rw [h.calls] at hc
      cases hc
    · rw [h.calls] at hc
      cases hc
  · intro es e s s' hrun hread hstep
    have hok := run_ok h hrun
    have hread' : SeriesRead publishCandles s₀ (es ++ [e]) s := hread.concat e
    cases e with
    | append candle =>
      obtain rfl := Option.some.inj hstep
      have hp := published_append s candle
      have ha := announced_append s candle
      refine ⟨?_, ?_, ?_⟩ <;> simp only [hp, ha]
      · exact hread'.published
      · exact hread'.update
      · exact hread'.announce
    | call t lastClosed =>
      rw [Publishing.step] at hstep
      split at hstep
      · cases hstep
      obtain rfl := Option.some.inj hstep
      exact hread'.goto t (some (lastClosed, .lock)) nofun nofun
    | step t =>
      -- Only a step that reads, hands over or announces a series says something new.
      cases publishStep_cases hstep with
      | lock lastClosed call free =>
        have hgoto := hread'.goto t (some (lastClosed, .read)) nofun nofun
        exact ⟨hread'.published, hgoto.update, hgoto.announce⟩
      | read lastClosed call =>
        obtain ⟨hh, hmatch⟩ := hok.inside_eq call (by simp)
        refine ⟨hread'.published, fun u b series hu => ?_, fun u b series hu => ?_⟩
        · obtain ⟨-, e⟩ | ⟨-, hu⟩ := calls_goto_eq hu
          · cases e
            exact ⟨es, [_], s, t, rfl, hrun, hh, call, rfl, hmatch.length_eq, rfl⟩
          · exact hread'.update u b series hu
        · obtain ⟨-, e⟩ | ⟨-, hu⟩ := calls_goto_eq hu
          · cases e
          · exact hread'.announce u b series hu
      | update lastClosed series call =>
        obtain ⟨hh, hmatch, -⟩ := hok.inside_eq call (by simp)
        have ha : (s.emit (.update series)).announced = s.announced := by
          rw [announced_emit]
          exact List.append_nil _
        refine ⟨fun i q hq => ?_, fun u b q hu => ?_, fun u b q hu => ?_⟩
        · change ∃ b, _ ∧ ∀ event, (s.emit (.update series)).announced[i]? = _ → _
          rw [ha]
          exact hread'.emit_update call hmatch.length_eq hq
        -- No other call is inside.
        · obtain ⟨-, e⟩ | ⟨hne, hu⟩ := calls_goto_eq hu
          · cases e
          · have hu' := (hok.inside_eq hu (by simp)).1
            exact absurd (Option.some.inj (hu'.symm.trans hh)) hne
        · change ReadAt publishCandles s₀ _ (s.emit (.update series)).announced.length b q
          rw [ha, hmatch.length_eq]
          obtain ⟨-, e⟩ | ⟨hne, hu⟩ := calls_goto_eq hu
          · cases e
            exact hread'.update t _ _ call
          · have hu' := (hok.inside_eq hu (by simp)).1
            exact absurd (Option.some.inj (hu'.symm.trans hh)) hne
      | announce lastClosed series call =>
        obtain ⟨hh, pre, hpre, hmatch⟩ := hok.inside_eq call (by simp)
        have hlast : s.published[s.announced.length]? = some series := by
          rw [hpre, hmatch.length_eq, List.getElem?_concat_length]
        have hp : (s.emit (.publishSeriesUpdated (seriesUpdated lastClosed series))).published =
            s.published := by
          rw [published_emit]
          exact List.append_nil _
        have ha : (s.emit (.publishSeriesUpdated (seriesUpdated lastClosed series))).announced =
            s.announced ++ [seriesUpdated lastClosed series] := announced_emit ..
        have other {u : τ} {b : Bool} {pc : PublishPc} (hpc : pc ≠ .lock) (hpc' : pc ≠ .unlock) :
            ((s.emit (.publishSeriesUpdated (seriesUpdated lastClosed series))).goto t
              (some (lastClosed, .unlock))).calls u ≠ some (b, pc) := by
          intro hu
          obtain ⟨-, e⟩ | ⟨hne, hu⟩ := calls_goto_eq hu
          · exact hpc' (Prod.mk.inj (Option.some.inj e)).2.symm
          · have hu' := (hok.inside_eq hu hpc).1
            exact absurd (Option.some.inj (hu'.symm.trans hh)) hne
        refine ⟨fun i q hq => ?_, fun u b q hu => absurd hu (other nofun nofun),
          fun u b q hu => absurd hu (other nofun nofun)⟩
        change (s.emit (.publishSeriesUpdated _)).published[i]? = some q at hq
        change ∃ b, _ ∧ ∀ event, (s.emit (.publishSeriesUpdated _)).announced[i]? = _ → _
        rw [hp] at hq
        rw [ha]
        exact hread'.emit_announce call hlast hq
      | unlock lastClosed call =>
        have hgoto := hread'.goto t none nofun nofun
        exact ⟨hread'.published, hgoto.update, hgoto.announce⟩

/-- The last `publishCandles` candles of the repository, at consecutive times,
with their first and last times. -/
structure IsLatest (publishCandles : Nat) (r : Repository) (series : CandleSeries) : Prop where
  suffix : series.data <:+ r.candles
  length : series.data.length = min publishCandles r.candles.length
  spaced : Spaced r.intervalMs (series.data.map Candle.openTime)
  firstOpen : series.firstOpen = (series.data.map Candle.openTime).head?.getD 0
  lastOpen : series.lastOpen = (series.data.map Candle.openTime).getLast?.getD 0

omit [DecidableEq τ] [TimeUtils] in
theorem getLatest_isLatest {r : Repository} (h : r.Contiguous) :
    IsLatest publishCandles r (r.getLatest publishCandles) := by
  have hdata : (r.getLatest publishCandles).data =
      r.candles.drop (r.candles.length - publishCandles) := by rw [getLatest_eq]
  have hsuffix : (r.getLatest publishCandles).data <:+ r.candles := by
    rw [hdata]
    exact List.drop_suffix _ _
  refine ⟨hsuffix, ?_, ?_, ?_, ?_⟩
  · rw [hdata, List.length_drop]
    omega
  · exact h.spaced.suffix (hsuffix.map _)
  · rw [latestTimes_eq, getLatest_eq]
  · rw [latestTimes_eq, getLatest_eq]

/-- The event of a call names the number of candles of the series, the times of the first and the
last of them, 0 where there is none, and what the call was told. -/
structure Describes (event : SeriesUpdated) (lastClosed : Bool) (series : CandleSeries) : Prop where
  count : event.count = series.data.length
  firstOpen : event.firstOpen = (series.data.map Candle.openTime).head?.getD 0
  lastOpen : event.lastOpen = (series.data.map Candle.openTime).getLast?.getD 0
  lastClosed : event.lastClosed = lastClosed

omit [DecidableEq τ] [TimeUtils] in
theorem IsLatest.describes {r : Repository} {series : CandleSeries}
    (h : IsLatest publishCandles r series) (lastClosed : Bool) :
    Describes (seriesUpdated lastClosed series) lastClosed series := by
  unfold seriesUpdated
  refine ⟨rfl, ?_, ?_, rfl⟩
  · rw [← h.firstOpen]
    split
    · rename_i hd
      rw [h.firstOpen, List.isEmpty_iff.mp hd]
      rfl
    · rfl
  · rw [← h.lastOpen]
    split
    · rename_i hd
      rw [h.lastOpen, List.isEmpty_iff.mp hd]
      rfl
    · rfl

end

/-- In every run of appends and calls of `publishSnapshot` from a contiguous
repository, the last times of the series handed to the cache never go back; each
series is the latest part of the repository at a moment when its call held the
mutex, and the event of that call describes it. Every event is of a series that was
handed out, and at most the last series has still to be announced. -/
theorem run_published [TimeUtils] {τ : Type} [DecidableEq τ] (publishCandles : Nat)
    (s₀ s : Publishing τ) (h : s₀.Initial) (es : List (PublishEvent τ))
    (hr : run (Publishing.step publishCandles) s₀ es = some s) :
    (s.published.map CandleSeries.lastOpen).Pairwise (· ≤ ·) ∧
    (∀ i series, s.published[i]? = some series → ∃ es₁ es₂ r t lastClosed, es = es₁ ++ es₂ ∧
      run (Publishing.step publishCandles) s₀ es₁ = some r ∧ r.holder = some t ∧
      r.calls t = some (lastClosed, .read) ∧ r.published.length = i ∧ r.announced.length = i ∧
      IsLatest publishCandles r.repo series ∧
      ∀ event, s.announced[i]? = some event → Describes event lastClosed series) ∧
    s.announced.length ≤ s.published.length ∧
    s.published.length ≤ s.announced.length + 1 := by
  have hok : s.Ok publishCandles := run_ok h hr
  refine ⟨?_, fun i series hi => ?_, ?_, hok.stage.matched.2⟩
  · exact List.pairwise_map.mpr (hok.ordered.imp Advances.lastOpen)
  · obtain ⟨b, ⟨es₁, es₂, r, t, he, hrun, hh, hc, h₁, h₂, rfl⟩, hevent⟩ :=
      (run_readAt h hr).published i series hi
    have hlatest : IsLatest publishCandles r.repo (r.repo.getLatest publishCandles) :=
      getLatest_isLatest (run_ok h hrun).contiguous
    refine ⟨es₁, es₂, r, t, b, he, hrun, hh, hc, h₁, h₂, hlatest, fun event ha => ?_⟩
    rw [hevent event ha]
    exact hlatest.describes b
  · have := hok.stage.matched.1.length_eq
    rw [List.length_take] at this
    omega

/-- Two calls over a repository that grows while the first holds the mutex. -/
theorem run_published_two :
    let s₀ : Publishing Nat := { repo := Repository.construct .insertion {} ['B'] ⟨60000⟩ }
    let es : List (PublishEvent Nat) :=
      [.append (flatCandle 60000 true), .call 0 true, .step 0, .step 0,
        .append (flatCandle 120000 true), .call 1 false, .step 0, .step 0, .step 0, .step 1,
        .step 1, .append (flatCandle 180000 false), .step 1, .step 1]
    ∃ s, run (Publishing.step 2) s₀ es = some s ∧
      s.published.map CandleSeries.lastOpen = [60000, 120000] ∧
      s.announced = [⟨1, 60000, 60000, true⟩, ⟨2, 60000, 120000, false⟩] ∧
      ∀ (i : Nat) series, s.published[i]? = some series → ∃ lastClosed,
        ∀ event, s.announced[i]? = some event → Describes event lastClosed series := by
  intro s₀ es
  obtain ⟨s, hrun, hs⟩ : ∃ s, run (Publishing.step 2) s₀ es = some s ∧
      (s.published.map CandleSeries.lastOpen, s.announced) =
        ([60000, 120000], [⟨1, 60000, 60000, true⟩, ⟨2, 60000, 120000, false⟩]) :=
    Option.map_eq_some_iff.mp (by decide +kernel)
  obtain ⟨hpublished, hannounced⟩ := Prod.mk.inj hs
  refine ⟨s, hrun, hpublished, hannounced, fun i series hi => ?_⟩
  obtain ⟨_, _, _, _, b, -, -, -, -, -, -, -, hevent⟩ := (run_published 2 s₀ s
    ⟨construct_contiguous .insertion rfl ['B'] (by decide), rfl, fun _ => rfl, rfl⟩ es hrun).2.1
      i series hi
  exact ⟨b, hevent⟩

end TCV.App
