import Mathlib.Logic.Relation
import Mathlib.Tactic.Cases

/-!
# While loops

A loop is its body: one iteration goes on with a new state (`inl`) or leaves
with a result (`inr`). What a proof about a loop needs:

* `runFor`, `Ends`, `Halts`, `Reaches`: the run of at most `n` iterations, its
  result, and the states at the head of its iterations;
* `Returns`: a result that enough iterations give;
* `Ends.rule`, `Reaches.inv`: the invariant rule;
* `halts_of_measure`, `runFor_of_measure`: a measure that every iteration
  decreases; `heads`, `countP_heads_le`: it bounds how many there are;
* `not_halts_of_trap`, `halts_iff_no_trap`: a set of states no iteration
  leaves, and the exact condition when all other iterations decrease the
  measure.
-/

namespace Lib.Loop

variable {σ ρ : Type*}

/-- The result of at most `n` iterations from `s`, if one of them leaves. -/
def runFor (body : σ → σ ⊕ ρ) : Nat → σ → Option ρ
  | 0, _ => none
  | n + 1, s =>
    match body s with
    | .inl t => runFor body n t
    | .inr r => some r

/-- The loop from `s` leaves with `r`. -/
def Ends (body : σ → σ ⊕ ρ) (s : σ) (r : ρ) : Prop := ∃ n, runFor body n s = some r

/-- The loop from `s` leaves after finitely many iterations. -/
def Halts (body : σ → σ ⊕ ρ) (s : σ) : Prop := ∃ r, Ends body s r

/-- What is computed with enough iterations, however many more are allowed. -/
def Returns {α : Type*} (f : Nat → Option α) (a : α) : Prop := ∃ n, ∀ m ≥ n, f m = some a

/-- `t` is the state at the head of some iteration of the loop from `s`. -/
def Reaches (body : σ → σ ⊕ ρ) : σ → σ → Prop :=
  Relation.ReflTransGen fun s t => body s = .inl t

/-- The states at the head of at most `n` iterations from `s`. -/
def heads (body : σ → σ ⊕ ρ) : Nat → σ → List σ
  | 0, _ => []
  | n + 1, s =>
    match body s with
    | .inl t => s :: heads body n t
    | .inr _ => [s]

variable {body : σ → σ ⊕ ρ}

theorem runFor_next {s t : σ} (h : body s = .inl t) (n : Nat) :
    runFor body (n + 1) s = runFor body n t := by
  simp only [runFor, h]

theorem runFor_done {s : σ} {r : ρ} (h : body s = .inr r) (n : Nat) :
    runFor body (n + 1) s = some r := by
  simp only [runFor, h]

/-- More iterations than needed change nothing. -/
theorem runFor_mono {n m : Nat} (hm : n ≤ m) {s : σ} {r : ρ} (h : runFor body n s = some r) :
    runFor body m s = some r := by
  induction n generalizing m s with
  | zero => cases h
  | succ n ih =>
    obtain ⟨m, rfl⟩ : ∃ k, m = k + 1 := ⟨m - 1, by omega⟩
    cases hb : body s with
    | inl t =>
      rw [runFor_next hb] at h ⊢
      exact ih (by omega) h
    | inr r' =>
      rw [runFor_done hb] at h ⊢
      exact h

theorem Ends.unique {s : σ} {r r' : ρ} (h : Ends body s r) (h' : Ends body s r') : r = r' := by
  obtain ⟨n, hn⟩ := h
  obtain ⟨m, hm⟩ := h'
  have e₁ := runFor_mono (Nat.le_max_left n m) hn
  have e₂ := runFor_mono (Nat.le_max_right n m) hm
  exact Option.some.inj (e₁.symm.trans e₂)

theorem Ends.returns {s : σ} {r : ρ} (h : Ends body s r) :
    Returns (fun n => runFor body n s) r := by
  obtain ⟨n, hn⟩ := h
  exact ⟨n, fun _ hm => runFor_mono hm hn⟩

theorem Returns.unique {α : Type*} {f : Nat → Option α} {a b : α} (h : Returns f a)
    (h' : Returns f b) : a = b := by
  obtain ⟨n, hn⟩ := h
  obtain ⟨m, hm⟩ := h'
  exact Option.some.inj ((hn _ (Nat.le_max_left n m)).symm.trans (hm _ (Nat.le_max_right n m)))

theorem Returns.bind {α β : Type*} {f : Nat → Option α} {g : Nat → α → Option β} {a : α} {b : β}
    (h : Returns f a) (h' : Returns (fun n => g n a) b) : Returns (fun n => (f n).bind (g n)) b := by
  obtain ⟨n, hn⟩ := h
  obtain ⟨m, hm⟩ := h'
  refine ⟨max n m, fun k hk => ?_⟩
  show (f k).bind (g k) = some b
  rw [hn k (Nat.le_trans (Nat.le_max_left n m) hk), Option.bind_some]
  exact hm k (Nat.le_trans (Nat.le_max_right n m) hk)

theorem ends_of_done {s : σ} {r : ρ} (h : body s = .inr r) : Ends body s r :=
  ⟨1, runFor_done h 0⟩

theorem ends_next_iff {s t : σ} (h : body s = .inl t) {r : ρ} :
    Ends body s r ↔ Ends body t r := by
  constructor
  · rintro ⟨n, hn⟩
    cases n with
    | zero => cases hn
    | succ n => exact ⟨n, by rwa [runFor_next h] at hn⟩
  · rintro ⟨n, hn⟩
    exact ⟨n + 1, by rwa [runFor_next h]⟩

theorem Reaches.ends_iff {s t : σ} (h : Reaches body s t) {r : ρ} :
    Ends body s r ↔ Ends body t r := by
  induction h with
  | refl => rfl
  | tail _ h ih => rw [ih, ends_next_iff h]

theorem Reaches.halts_iff {s t : σ} (h : Reaches body s t) : Halts body s ↔ Halts body t := by
  simp only [Halts, h.ends_iff]

/-- A loop that passes through `f 0`, …, `f n` and leaves there. -/
theorem ends_of_trace {f : Nat → σ} {n : Nat} {r : ρ} (hnext : ∀ k < n, body (f k) = .inl (f (k + 1)))
    (hdone : body (f n) = .inr r) : Ends body (f 0) r := by
  have hreach : ∀ k ≤ n, Reaches body (f 0) (f k) := by
    intro k hk
    induction k with
    | zero => exact .refl
    | succ k ih => exact .tail (ih (Nat.le_of_succ_le hk)) (hnext k hk)
  exact (hreach n (Nat.le_refl n)).ends_iff.mpr (ends_of_done hdone)

/-! ## Invariants -/

/-- An invariant of the body holds at the head of every iteration. -/
theorem Reaches.inv {I : σ → Prop} (hstep : ∀ s t, I s → body s = .inl t → I t) {s t : σ}
    (h : Reaches body s t) (hs : I s) : I t := by
  induction h with
  | refl => exact hs
  | tail _ h ih => exact hstep _ _ ih h

/-- A loop that leaves does so from a state it reaches. -/
theorem Ends.exit {s : σ} {r : ρ} (h : Ends body s r) :
    ∃ t, Reaches body s t ∧ body t = .inr r := by
  obtain ⟨n, hn⟩ := h
  induction n generalizing s with
  | zero => cases hn
  | succ n ih =>
    cases hb : body s with
    | inl t =>
      rw [runFor_next hb] at hn
      obtain ⟨u, hu, hr⟩ := ih hn
      exact ⟨u, .head hb hu, hr⟩
    | inr r' =>
      rw [runFor_done hb] at hn
      exact ⟨s, .refl, by rw [hb, Option.some.inj hn]⟩

/-- The invariant rule: what the invariant gives at every exit holds of the
result. -/
theorem Ends.rule {I : σ → Prop} {Q : ρ → Prop} (hstep : ∀ s t, I s → body s = .inl t → I t)
    (hexit : ∀ s r, I s → body s = .inr r → Q r) {s : σ} {r : ρ} (h : Ends body s r)
    (hs : I s) : Q r := by
  obtain ⟨t, ht, hr⟩ := h.exit
  exact hexit t r (Reaches.inv hstep ht hs) hr

/-! ## Termination -/

/-- A measure that every iteration decreases bounds the number of
iterations. -/
theorem runFor_of_measure {I : σ → Prop} (μ : σ → Nat)
    (hstep : ∀ s t, I s → body s = .inl t → I t ∧ μ t < μ s) :
    ∀ {n : Nat} {s : σ}, I s → μ s < n → ∃ r, runFor body n s = some r
  | 0, _, _, h => absurd h (Nat.not_lt_zero _)
  | n + 1, s, hs, h => by
    cases hb : body s with
    | inl t =>
      obtain ⟨ht, hμ⟩ := hstep s t hs hb
      rw [runFor_next hb]
      exact runFor_of_measure μ hstep ht (by omega)
    | inr r => exact ⟨r, runFor_done hb n⟩

theorem halts_of_measure {I : σ → Prop} (μ : σ → Nat)
    (hstep : ∀ s t, I s → body s = .inl t → I t ∧ μ t < μ s) {s : σ} (hs : I s) :
    Halts body s := by
  obtain ⟨r, hr⟩ := runFor_of_measure μ hstep hs (Nat.lt_succ_self _)
  exact ⟨r, _, hr⟩

/-- So it bounds the number of iterations with a property that only a positive measure has. -/
theorem countP_heads_le (body : σ → σ ⊕ ρ) (μ : σ → Nat) (p : σ → Bool)
    (hstep : ∀ s t, body s = .inl t → μ t < μ s) (hp : ∀ s, p s = true → 0 < μ s) (n : Nat)
    (s : σ) : (heads body n s).countP p ≤ μ s := by
  induction n generalizing s with
  | zero => exact Nat.zero_le _
  | succ n ih =>
    have hone : (if p s = true then 1 else 0) ≤ μ s := by
      split
      · exact hp s ‹_›
      · exact Nat.zero_le _
    cases hb : body s with
    | inl t =>
      have := hstep s t hb
      have := ih t
      simp only [heads, hb, List.countP_cons]
      split <;> omega
    | inr r =>
      simp only [heads, hb, List.countP_cons, List.countP_nil, Nat.zero_add]
      exact hone

/-- A loop that stays among states it goes on from never leaves. -/
theorem not_halts_of_trap {T : σ → Prop} (htrap : ∀ s, T s → ∃ t, body s = .inl t ∧ T t)
    {s : σ} (hs : T s) : ¬ Halts body s := by
  rintro ⟨r, h⟩
  obtain ⟨t, ht, hr⟩ := h.exit
  have hT : T t := ht.inv (fun s t hs h => by
    obtain ⟨t', ht', hT⟩ := htrap s hs
    rw [h] at ht'
    exact Sum.inl.inj ht' ▸ hT) hs
  obtain ⟨u, hu, -⟩ := htrap t hT
  rw [hr] at hu
  cases hu

/-- When every iteration outside a trap decreases the measure, the loop leaves
exactly if it never reaches the trap. -/
theorem halts_iff_no_trap {I T : σ → Prop} (μ : σ → Nat)
    (htrap : ∀ s, T s → ∃ t, body s = .inl t ∧ T t)
    (hstep : ∀ s t, I s → ¬ T s → body s = .inl t → I t ∧ μ t < μ s) {s : σ} (hs : I s) :
    Halts body s ↔ ∀ t, Reaches body s t → ¬ T t := by
  constructor
  · intro h t ht hT
    exact not_halts_of_trap htrap hT (ht.halts_iff.mp h)
  · intro h
    refine halts_of_measure (I := fun t => I t ∧ Reaches body s t) μ ?_ ⟨hs, .refl⟩
    rintro t u ⟨ht, hr⟩ hb
    obtain ⟨hu, hμ⟩ := hstep t u ht (h t hr) hb
    exact ⟨⟨hu, hr.tail hb⟩, hμ⟩

end Lib.Loop
