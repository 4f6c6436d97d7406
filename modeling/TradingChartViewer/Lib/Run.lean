import Mathlib.Data.List.Induction
import TradingChartViewer.Lib.Loop

/-!
# Runs of events

A system as a function from a state and an event to the next state, if the
event can happen there.

* `run`: the state after a list of events;
* `Along`: every event of a run meets a condition on the state before it;
* `inv_of_along`: the invariant rule for such runs; `always_iff_along`: the same for exact
  conditions; `along_of_along`, `along_congr`: a condition that implies another, or agrees with it;
* `seen`: what the steps of a run show;
* `RunsBy`: a run of some of the events only;
* `RunsBy.of_reaches`: a loop that a system runs iteration by iteration;
* `Forces`: moves that lead to a goal, whatever the answers to them are.
-/

namespace Lib.Run

variable {σ ε : Type*} {step : σ → ε → Option σ}

def run (step : σ → ε → Option σ) (s : σ) (es : List ε) : Option σ := es.foldlM step s

theorem run_cons (s : σ) (e : ε) (es : List ε) :
    run step s (e :: es) = (step s e).bind fun t => run step t es := rfl

theorem run_append (s : σ) (es fs : List ε) :
    run step s (es ++ fs) = (run step s es).bind fun t => run step t fs := List.foldlM_append

/-- Induction on a run from its end: one more event after a run. -/
theorem run_induction {s : σ} {P : List ε → σ → Prop} (nil : P [] s)
    (concat : ∀ es e t u, run step s es = some t → P es t → step t e = some u → P (es ++ [e]) u)
    {es : List ε} {t : σ} (hr : run step s es = some t) : P es t := by
  induction es using List.reverseRecOn generalizing t with
  | nil => exact Option.some.inj hr ▸ nil
  | append_singleton es e ih =>
    rw [run_append, Option.bind_eq_some_iff] at hr
    obtain ⟨u, hu, hr⟩ := hr
    rw [run_cons, Option.bind_eq_some_iff] at hr
    obtain ⟨v, hv, hr⟩ := hr
    exact concat es e u t hu (ih hu) (Option.some.inj hr ▸ hv)

/-- Every event of the run meets `P` where it happens. -/
def Along (step : σ → ε → Option σ) (P : σ → ε → Prop) : σ → List ε → Prop
  | _, [] => True
  | s, e :: es => P s e ∧ ∀ t, step s e = some t → Along step P t es

instance Along.decidable (P : σ → ε → Prop) [∀ s e, Decidable (P s e)] :
    ∀ s es, Decidable (Along step P s es)
  | _, [] => .isTrue trivial
  | s, e :: es =>
    match h : step s e with
    | none => decidable_of_iff (P s e) ⟨fun hp => ⟨hp, fun t ht => by rw [h] at ht; cases ht⟩, And.left⟩
    | some t =>
      have := Along.decidable P t es
      decidable_of_iff (P s e ∧ Along step P t es)
        ⟨fun hp => ⟨hp.1, fun u hu => by rw [h] at hu; exact Option.some.inj hu ▸ hp.2⟩,
          fun hp => ⟨hp.1, hp.2 t h⟩⟩

variable {P : σ → ε → Prop} {Inv : σ → Prop} {s t : σ} {es : List ε}

theorem along_of_mem (h : ∀ e ∈ es, ∀ s, P s e) : Along step P s es := by
  induction es generalizing s with
  | nil => trivial
  | cons e es ih =>
    exact ⟨h e List.mem_cons_self s, fun t _ => ih fun f hf => h f (List.mem_cons_of_mem _ hf)⟩

theorem along_of_forall (h : ∀ s e, P s e) : Along step P s es := along_of_mem fun e _ s => h s e

/-- One more event. -/
theorem along_concat {e : ε} (hr : run step s es = some t) :
    Along step P s (es ++ [e]) ↔ Along step P s es ∧ P t e := by
  induction es generalizing s with
  | nil =>
    obtain rfl := Option.some.inj hr
    exact ⟨fun h => ⟨trivial, h.1⟩, fun h => ⟨h.2, fun _ _ => trivial⟩⟩
  | cons f es ih =>
    rw [run_cons, Option.bind_eq_some_iff] at hr
    obtain ⟨u, hu, hr⟩ := hr
    constructor
    · rintro ⟨hf, hrest⟩
      have := (ih hr).mp (hrest u hu)
      exact ⟨⟨hf, fun v hv => Option.some.inj (hu.symm.trans hv) ▸ this.1⟩, this.2⟩
    · rintro ⟨⟨hf, hrest⟩, he⟩
      exact ⟨hf, fun v hv => Option.some.inj (hu.symm.trans hv) ▸ (ih hr).mpr ⟨hrest u hu, he⟩⟩

/-- What holds at the start and is kept by every event that meets `P` holds
after every run of such events. -/
theorem inv_of_along (hstep : ∀ s e t, Inv s → P s e → step s e = some t → Inv t) (hs : Inv s)
    (h : Along step P s es) (hr : run step s es = some t) : Inv t := by
  induction es generalizing s with
  | nil => exact Option.some.inj hr ▸ hs
  | cons e es ih =>
    rw [run_cons, Option.bind_eq_some_iff] at hr
    obtain ⟨u, hu, hr⟩ := hr
    exact ih (hstep s e u hs h.1 hu) (h.2 u hu) hr

/-- Where steps that meet one condition also meet another, so does a run. -/
theorem along_of_along {Q : σ → ε → Prop}
    (h : ∀ s, Inv s → ∀ e, P s e → Q s e ∧ ∀ t, step s e = some t → Inv t) (hs : Inv s)
    (hp : Along step P s es) : Along step Q s es := by
  induction es generalizing s with
  | nil => trivial
  | cons e es ih =>
    obtain ⟨hq, hnext⟩ := h s hs e hp.1
    exact ⟨hq, fun t ht => ih (hnext t ht) (hp.2 t ht)⟩

/-- Where two conditions agree in every state that they lead to, a run meets both or neither. -/
theorem along_congr {Q : σ → ε → Prop}
    (h : ∀ s, Inv s → ∀ e ∈ es, (Q s e ↔ P s e) ∧ ∀ t, P s e → step s e = some t → Inv t)
    (hs : Inv s) : Along step Q s es ↔ Along step P s es := by
  induction es generalizing s with
  | nil => exact Iff.rfl
  | cons e es ih =>
    have ih := fun {t} => ih (s := t) fun s hs f hf => h s hs f (List.mem_cons_of_mem _ hf)
    obtain ⟨he, hnext⟩ := h s hs e List.mem_cons_self
    constructor
    · rintro ⟨hq, hrest⟩
      have hp := he.mp hq
      exact ⟨hp, fun t ht => (ih (hnext t hp ht)).mp (hrest t ht)⟩
    · rintro ⟨hp, hrest⟩
      exact ⟨he.mpr hp, fun t ht => (ih (hnext t hp ht)).mpr (hrest t ht)⟩

/-- Where one step keeps `Inv` exactly if it meets `P`, a run has `Inv` in every state it reaches
exactly if all of its steps meet `P`. -/
theorem always_iff_along {J : σ → Prop} (hJ : ∀ s e t, J s → step s e = some t → J t)
    (hstep : ∀ s e t, J s → Inv s → step s e = some t → (Inv t ↔ P s e)) (hj : J s) (hs : Inv s)
    (hr : run step s es = some t) :
    (∀ pre, pre <+: es → ∀ u, run step s pre = some u → Inv u) ↔ Along step P s es := by
  induction es generalizing s with
  | nil =>
    refine iff_of_true (fun pre hpre u hu => ?_) trivial
    rw [List.prefix_nil.mp hpre] at hu
    exact Option.some.inj hu ▸ hs
  | cons e es ih =>
    rw [run_cons, Option.bind_eq_some_iff] at hr
    obtain ⟨v, hv, hr⟩ := hr
    have ih := fun hi => ih (hJ s e v hj hv) hi hr
    have he := hstep s e v hj hs hv
    constructor
    · intro h
      have hi : Inv v := h [e] (List.prefix_append [e] es) v (by rw [run_cons, hv]; rfl)
      refine ⟨he.mp hi, fun w hw => Option.some.inj (hv.symm.trans hw) ▸ (ih hi).mp ?_⟩
      intro pre hpre u hu
      exact h (e :: pre) (List.cons_prefix_cons.mpr ⟨rfl, hpre⟩) u (by rw [run_cons, hv]; exact hu)
    · rintro ⟨hp, hrest⟩ pre hpre u hu
      rcases List.prefix_cons_iff.mp hpre with rfl | ⟨more, rfl, hmore⟩
      · exact Option.some.inj hu ▸ hs
      · rw [run_cons, hv] at hu
        exact (ih (he.mpr hp)).mpr (hrest v hv) more hmore u hu

/-! ## What a run shows -/

section Seen

variable {ω : Type*} {look : σ → ε → σ → Option ω}

/-- What the steps of a run show, in their order. -/
def seen (step : σ → ε → Option σ) (look : σ → ε → σ → Option ω) : σ → List ε → List ω
  | _, [] => []
  | s, e :: es =>
    match step s e with
    | none => []
    | some t => (look s e t).toList ++ seen step look t es

theorem seen_cons {e : ε} (h : step s e = some t) (es : List ε) :
    seen step look s (e :: es) = (look s e t).toList ++ seen step look t es := by
  rw [seen, h]

theorem seen_concat {e : ε} {u : σ} (hr : run step s es = some t) (h : step t e = some u) :
    seen step look s (es ++ [e]) = seen step look s es ++ (look t e u).toList := by
  induction es generalizing s with
  | nil =>
    obtain rfl := Option.some.inj hr
    exact (seen_cons h []).trans (List.append_nil _)
  | cons f es ih =>
    rw [run_cons, Option.bind_eq_some_iff] at hr
    obtain ⟨v, hv, hr⟩ := hr
    rw [List.cons_append, seen_cons hv, ih hr, seen_cons hv, List.append_assoc]

end Seen

/-! ## Runs of some of the events -/

/-- Events of the kind `E` lead from `s` to `t`. -/
def RunsBy (step : σ → ε → Option σ) (E : ε → Prop) (s t : σ) : Prop :=
  ∃ es, (∀ e ∈ es, E e) ∧ run step s es = some t

variable {E : ε → Prop} {u : σ}

theorem RunsBy.refl (s : σ) : RunsBy step E s s := ⟨[], nofun, rfl⟩

theorem RunsBy.head {e : ε} (he : E e) (hs : step s e = some t) (h : RunsBy step E t u) :
    RunsBy step E s u := by
  obtain ⟨es, hes, hr⟩ := h
  exact ⟨e :: es, List.forall_mem_cons.mpr ⟨he, hes⟩, by rw [run_cons, hs, Option.bind_some, hr]⟩

theorem RunsBy.single {e : ε} (he : E e) (hs : step s e = some t) : RunsBy step E s t :=
  .head he hs (.refl t)

theorem RunsBy.trans (h : RunsBy step E s t) (h' : RunsBy step E t u) : RunsBy step E s u := by
  obtain ⟨es, hes, hr⟩ := h
  obtain ⟨fs, hfs, hr'⟩ := h'
  refine ⟨es ++ fs, fun e he => (List.mem_append.mp he).elim (hes e) (hfs e), ?_⟩
  rw [run_append, hr, Option.bind_some, hr']

/-- A system that runs every iteration of a loop. -/
theorem RunsBy.of_reaches {α ρ : Type*} {body : α → α ⊕ ρ} {R : α → σ → Prop}
    (hnext : ∀ a b s, R a s → body a = .inl b → ∃ t, RunsBy step E s t ∧ R b t) {a b : α}
    (h : Loop.Reaches body a b) {s : σ} (hs : R a s) : ∃ t, RunsBy step E s t ∧ R b t := by
  induction h with
  | refl => exact ⟨s, .refl s, hs⟩
  | tail _ hb ih =>
    obtain ⟨t, ht, hR⟩ := ih
    obtain ⟨u, hu, hR'⟩ := hnext _ _ t hR hb
    exact ⟨u, ht.trans hu, hR'⟩

/-! ## Moves and answers -/

section Forces

variable {μ α : Type*} {event : μ → α → ε} {G H : σ → Prop}

/-- The events of moves. An answer may depend on all that has happened before. -/
def played (event : μ → α → ε) : (List ε → α) → List μ → List ε
  | _, [] => []
  | answers, m :: ms =>
    event m (answers []) ::
      played event (fun past => answers (event m (answers []) :: past)) ms

variable (step event G) in
/-- There are moves from `s` that lead to `G`, whatever the answers to them are. -/
inductive Forces : σ → Prop
  | here {s : σ} (h : G s) : Forces s
  | move {s : σ} (m : μ) {next : α → σ} (hs : ∀ a, step s (event m a) = some (next a))
      (h : ∀ a, Forces (next a)) : Forces s

theorem Forces.of_step (m : μ)
    (h : ∀ a, ∃ t, step s (event m a) = some t ∧ Forces step event G t) :
    Forces step event G s := by
  choose next hs hnext using h
  exact .move m hs hnext

theorem Forces.bind (h : Forces step event G s) (hG : ∀ t, G t → Forces step event H t) :
    Forces step event H s := by
  induction h with
  | here h => exact hG _ h
  | move m hs _ ih => exact .move m hs ih

theorem Forces.mono (h : Forces step event G s) (hG : ∀ t, G t → H t) :
    Forces step event H s := h.bind fun t ht => .here (hG t ht)

/-- What every move keeps holds at the goal. -/
theorem Forces.inv (hstep : ∀ s m a t, Inv s → step s (event m a) = some t → Inv t) (hs : Inv s)
    (h : Forces step event G s) : Forces step event (fun t => G t ∧ Inv t) s := by
  induction h with
  | here h => exact .here ⟨h, hs⟩
  | move m he _ ih => exact .move m he fun a => ih a (hstep _ m a _ hs (he a))

theorem Forces.run (h : Forces step event G s) (answers : List ε → α) :
    ∃ ms t, run step s (played event answers ms) = some t ∧ G t := by
  induction h generalizing answers with
  | here h => exact ⟨[], _, rfl, h⟩
  | move m hs _ ih =>
    obtain ⟨ms, t, hr, ht⟩ := ih (answers []) fun past => answers (event m (answers []) :: past)
    refine ⟨m :: ms, t, ?_, ht⟩
    rw [played, run_cons, hs, Option.bind_some, hr]

end Forces

end Lib.Run
