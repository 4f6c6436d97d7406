import Mathlib.Algebra.Ring.Nat
import Mathlib.Data.List.Perm.Basic
import TradingChartViewer.Lib.Run

/-!
# Completion handlers

A program on asynchronous operations. An operation stays pending from where it is issued to its
completion, whose handler changes the state, cancels pending operations and issues others. A
cancelled operation completes all the same.

* `Pool`, `Turn`: a state with the pending operations, and what a call or a handler does to them;
* `Program.step`: a call of the owner, or the completion of a pending operation;
* `Pool.Alive`: an operation that carries the program on is pending and not cancelled;
* `Program.Carries.alive`: handlers that carry on keep every run alive;
* `Program.Linear.count_le`: handlers that issue one operation for another do not multiply.
-/

namespace Lib.Completion

open Lib.Run

/-! ## Pending operations -/

structure Pending (ι : Type*) where
  op : ι
  cancelled : Bool := false
  deriving DecidableEq, Repr

/-- What a call or a handler does: first it cancels, then it issues. -/
structure Turn (σ ι : Type*) where
  state : σ
  cancels : ι → Bool := fun _ => false
  issues : List ι := []

structure Pool (σ ι : Type*) where
  state : σ
  pending : List (Pending ι) := []

variable {σ ι κ η : Type*}

def Pending.cancelIf (cancels : ι → Bool) (q : Pending ι) : Pending ι :=
  { q with cancelled := q.cancelled || cancels q.op }

def Pool.take (p : Pool σ ι) (t : Turn σ ι) : Pool σ ι :=
  { state := t.state
    pending := p.pending.map (Pending.cancelIf t.cancels) ++ t.issues.map fun op => { op := op } }

/-- The `i`-th pending operation completes. -/
def Pool.complete (p : Pool σ ι) (i : Nat) (t : Turn σ ι) : Pool σ ι :=
  { p with pending := p.pending.eraseIdx i }.take t

/-- An operation is pending that carries the program on. -/
def Pool.Alive (carries : ι → Prop) (p : Pool σ ι) : Prop :=
  ∃ q ∈ p.pending, q.cancelled = false ∧ carries q.op

section Pools

variable {p : Pool σ ι} {t : Turn σ ι} {carries : ι → Prop} {i : Nat} {q : Pending ι}

@[simp] theorem take_state : (p.take t).state = t.state := rfl

@[simp] theorem complete_state : (p.complete i t).state = t.state := rfl

theorem alive_take {op : ι} (h : op ∈ t.issues) (hc : carries op) : (p.take t).Alive carries :=
  ⟨{ op := op }, List.mem_append_right _ (List.mem_map.mpr ⟨op, h, rfl⟩), rfl, hc⟩

/-- What a turn does not cancel goes on. -/
theorem Pool.Alive.take (h : p.Alive carries) (ht : ∀ op, carries op → t.cancels op = false) :
    (p.take t).Alive carries := by
  obtain ⟨q, hq, hlive, hc⟩ := h
  refine ⟨q.cancelIf t.cancels, List.mem_append_left _ (List.mem_map.mpr ⟨q, hq, rfl⟩), ?_, hc⟩
  rw [Pending.cancelIf, hlive, ht q.op hc]
  rfl

theorem mem_eraseIdx_of_ne {l : List (Pending ι)} {r : Pending ι} (hr : r ∈ l)
    (hi : l[i]? = some q) (hne : r ≠ q) : r ∈ l.eraseIdx i := by
  obtain ⟨j, hj, rfl⟩ := List.mem_iff_getElem.mp hr
  refine List.mem_eraseIdx_iff_getElem.mpr ⟨j, hj, fun e => hne ?_, rfl⟩
  subst e
  rw [List.getElem?_eq_getElem hj] at hi
  exact Option.some.inj hi

/-- The completed operation is replaced, or it was none that carried on. -/
theorem Pool.Alive.complete (h : p.Alive carries) (hi : p.pending[i]? = some q)
    (ht : (∃ op ∈ t.issues, carries op) ∨
      ¬ (q.cancelled = false ∧ carries q.op) ∧ ∀ op, carries op → t.cancels op = false) :
    (p.complete i t).Alive carries := by
  obtain ⟨op, hop, hc⟩ | ⟨hq, hcancels⟩ := ht
  · exact alive_take hop hc
  · obtain ⟨r, hr, hlive⟩ := h
    have hne : r ≠ q := fun e => hq (e ▸ hlive)
    exact Pool.Alive.take ⟨r, mem_eraseIdx_of_ne hr hi hne, hlive⟩ hcancels

/-! ## Their number -/

variable (carries) in
/-- The pending operations of a kind, cancelled or not. -/
def Pool.count [DecidablePred carries] (p : Pool σ ι) : Nat :=
  p.pending.countP fun q => carries q.op

variable [DecidablePred carries]

theorem countP_cancelIf (cancels : ι → Bool) (l : List (Pending ι)) :
    (l.map (Pending.cancelIf cancels)).countP (fun q => decide (carries q.op)) =
      l.countP fun q => decide (carries q.op) := by
  rw [List.countP_map]
  rfl

theorem count_take : (p.take t).count carries =
    p.count carries + t.issues.countP fun op => carries op := by
  rw [Pool.count, Pool.take, List.countP_append, countP_cancelIf, List.countP_map]
  rfl

theorem count_complete (hi : p.pending[i]? = some q) : (p.complete i t).count carries +
    (if carries q.op then 1 else 0) = p.count carries + t.issues.countP fun op => carries op := by
  obtain ⟨hlt, rfl⟩ := List.getElem?_eq_some_iff.mp hi
  have herase := (List.getElem_cons_eraseIdx_perm hlt).countP_eq
    fun q : Pending ι => decide (carries q.op)
  rw [List.countP_cons] at herase
  simp only [decide_eq_true_eq] at herase
  rw [Pool.complete, count_take]
  unfold Pool.count
  dsimp only
  omega

/-- While one operation is pending, its handler decides what is. -/
theorem complete_pending_of_single {op : ι} (h : p.pending = [{ op := op }])
    (hi : p.pending[i]? = some q) :
    q = { op := op } ∧ (p.complete i t).pending = t.issues.map fun op => { op := op } := by
  rw [h] at hi
  obtain ⟨hlt, rfl⟩ := List.getElem?_eq_some_iff.mp hi
  obtain rfl : i = 0 := by simpa using hlt
  exact ⟨rfl, by rw [Pool.complete, Pool.take, h]; rfl⟩

end Pools

/-! ## Programs -/

/-- The owner's calls `κ`, and the handlers `η` with the outcome they are given. -/
structure Program (σ ι κ η : Type*) where
  /-- A call, unless it cannot be made. -/
  call : σ → κ → Option (Turn σ ι)
  /-- The operation whose completion the handler is for. -/
  op : η → ι
  /-- Whether a pending operation may complete with that outcome. -/
  can : σ → Pending ι → η → Bool
  handle : σ → η → Turn σ ι

inductive Event (κ η : Type*)
  | call (k : κ)
  | complete (i : Nat) (h : η)
  deriving DecidableEq, Repr

def Program.step [DecidableEq ι] (P : Program σ ι κ η) (p : Pool σ ι) :
    Event κ η → Option (Pool σ ι)
  | .call k => (P.call p.state k).map p.take
  | .complete i h =>
    match p.pending[i]? with
    | none => none
    | some q =>
      if q.op = P.op h ∧ P.can p.state q h = true then some (p.complete i (P.handle p.state h))
      else none

/-- In the states `on`, whatever completes leaves an operation that carries on, as long as `inv`
holds. -/
structure Program.Carries (P : Program σ ι κ η) (inv : Pool σ ι → Prop) (on : σ → Prop)
    (carries : ι → Prop) : Prop where
  call : ∀ p k t, inv p → P.call p.state k = some t → on t.state →
    (∃ op ∈ t.issues, carries op) ∨ on p.state ∧ ∀ op, carries op → t.cancels op = false
  /-- The handler of an operation that carries on issues another one. -/
  live : ∀ p q h, inv p → q ∈ p.pending → q.op = P.op h → P.can p.state q h = true →
    q.cancelled = false → carries q.op → on (P.handle p.state h).state →
    ∃ op ∈ (P.handle p.state h).issues, carries op
  /-- Any other handler does too, or it lets the others be. -/
  other : ∀ p q h, inv p → q ∈ p.pending → q.op = P.op h → P.can p.state q h = true →
    on (P.handle p.state h).state → (∃ op ∈ (P.handle p.state h).issues, carries op) ∨
    on p.state ∧ ∀ op, carries op → (P.handle p.state h).cancels op = false

/-- A handler of the operations of a kind issues at most one of them, and other handlers none; a
call issues at most `starts`. -/
structure Program.Linear (P : Program σ ι κ η) (carries : ι → Prop) [DecidablePred carries]
    (starts : κ → Nat) : Prop where
  call : ∀ s k t, P.call s k = some t → (t.issues.countP fun op => carries op) ≤ starts k
  handle : ∀ s h, ((P.handle s h).issues.countP fun op => carries op) ≤
    if carries (P.op h) then 1 else 0

section Programs

variable [DecidableEq ι] {P : Program σ ι κ η} {inv : Pool σ ι → Prop} {on : σ → Prop}
  {carries : ι → Prop} {p p' : Pool σ ι} {e : Event κ η}

theorem step_cases (h : P.step p e = some p') :
    (∃ k t, e = .call k ∧ P.call p.state k = some t ∧ p' = p.take t) ∨
    ∃ i q g, e = .complete i g ∧ p.pending[i]? = some q ∧ q.op = P.op g ∧
      P.can p.state q g = true ∧ p' = p.complete i (P.handle p.state g) := by
  cases e with
  | call k =>
    obtain ⟨t, ht, rfl⟩ := Option.map_eq_some_iff.mp h
    exact .inl ⟨k, t, rfl, ht, rfl⟩
  | complete i g =>
    rw [Program.step] at h
    split at h
    · cases h
    · rename_i q hq
      split at h
      · rename_i hg
        exact .inr ⟨i, q, g, rfl, hq, hg.1, hg.2, (Option.some.inj h).symm⟩
      · cases h

theorem Program.Carries.step (hP : P.Carries inv on carries) (hinv : inv p)
    (hp : on p.state → p.Alive carries) (h : P.step p e = some p') :
    on p'.state → p'.Alive carries := by
  intro hon
  obtain ⟨k, t, -, ht, rfl⟩ | ⟨i, q, g, -, hq, hop, hcan, rfl⟩ := step_cases h
  · obtain ⟨op, hop, hc⟩ | ⟨hs, hcancels⟩ := hP.call p k t hinv ht hon
    · exact alive_take hop hc
    · exact (hp hs).take hcancels
  · have hmem := List.mem_of_getElem? hq
    by_cases hlive : q.cancelled = false ∧ carries q.op
    · obtain ⟨op, ho, hc⟩ := hP.live p q g hinv hmem hop hcan hlive.1 hlive.2 hon
      exact alive_take ho hc
    · obtain ⟨op, ho, hc⟩ | ⟨hs, hcancels⟩ := hP.other p q g hinv hmem hop hcan hon
      · exact alive_take ho hc
      · exact (hp hs).complete hq (.inr ⟨hlive, hcancels⟩)

/-- In every run some operation that carries on is pending wherever the program is on. -/
theorem Program.Carries.alive (hP : P.Carries inv on carries)
    (hstep : ∀ p e p', inv p → P.step p e = some p' → inv p') (hinv : inv p)
    (hp : on p.state → p.Alive carries) {es : List (Event κ η)} (hr : run P.step p es = some p') :
    on p'.state → p'.Alive carries := by
  have hboth (q : Pool σ ι) (e : Event κ η) (q' : Pool σ ι)
      (hq : inv q ∧ (on q.state → q.Alive carries)) (_ : True) (h : P.step q e = some q') :
      inv q' ∧ (on q'.state → q'.Alive carries) :=
    ⟨hstep q e q' hq.1 h, hP.step hq.1 hq.2 h⟩
  exact (inv_of_along hboth ⟨hinv, hp⟩ (along_of_forall fun _ _ => trivial) hr).2

/-- A pending operation of a kind that is not cancelled can complete, and its handler leaves the
operations that it issues. -/
theorem Pool.Alive.step {op next : ι} (hp : p.Alive (· = op)) {h : η} (hop : P.op h = op)
    (hcan : P.can p.state { op := op } h = true) (hnext : next ∈ (P.handle p.state h).issues) :
    ∃ i, ∃ p', P.step p (.complete i h) = some p' ∧ p'.state = (P.handle p.state h).state ∧
      p'.Alive (· = next) := by
  obtain ⟨⟨op', cancelled⟩, hq, hlive, heq⟩ := hp
  obtain rfl : cancelled = false := hlive
  obtain rfl : op' = op := heq
  obtain ⟨i, hi⟩ := List.mem_iff_getElem?.mp hq
  refine ⟨i, p.complete i (P.handle p.state h), ?_, rfl, alive_take hnext rfl⟩
  rw [Program.step, hi]
  exact if_pos ⟨hop.symm, hcan⟩

def Event.started (starts : κ → Nat) : Event κ η → Nat
  | .call k => starts k
  | .complete _ _ => 0

variable [DecidablePred carries] {starts : κ → Nat}

theorem Program.Linear.step (hP : P.Linear carries starts) (h : P.step p e = some p') :
    p'.count carries ≤ p.count carries + e.started starts := by
  obtain ⟨k, t, rfl, ht, rfl⟩ | ⟨i, q, g, rfl, hq, hop, -, rfl⟩ := step_cases h
  · rw [count_take]
    exact Nat.add_le_add_left (hP.call p.state k t ht) _
  · have hcount : (p.complete i (P.handle p.state g)).count carries + (if carries q.op then 1 else 0)
        = p.count carries + (P.handle p.state g).issues.countP fun op => carries op :=
      count_complete hq
    have hissues := hP.handle p.state g
    rw [hop] at hcount
    show _ ≤ _ + 0
    omega

/-- The operations of the kind that are pending are at most those that the calls started. -/
theorem Program.Linear.count_le (hP : P.Linear carries starts) {es : List (Event κ η)}
    (hr : run P.step p es = some p') :
    p'.count carries ≤ p.count carries + (es.map (Event.started starts)).sum := by
  refine run_induction (P := fun es p' => p'.count carries ≤
    p.count carries + (es.map (Event.started starts)).sum) (by simp) (fun es e t u _ ih h => ?_) hr
  have := hP.step h
  rw [List.map_append, List.sum_append, List.map_singleton, List.sum_singleton]
  omega

end Programs

end Lib.Completion
