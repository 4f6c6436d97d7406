import TradingChartViewer.Lib.Run
import Mathlib.Logic.Function.Basic

/-!
# Deferred results

Jobs that fill keyed slots. A job is started for a key and finishes at any later
time, when its result takes the slot of its key; slots can be dropped meanwhile.
Jobs are numbered in the order they are started.

* `Moves`: what one step of a system does to the slots and the jobs;
* `Keeps`: a job that finishes neither replaces the result of a later one nor fills
  a slot dropped since it was started;
* `InOrder`: no later job of its key finished before it, and the slot was not dropped;
* `along_keeps_iff`: over a run the two are the same.
-/

namespace Lib.Deferred

open Lib.Run

/-- `dropped` says whether the slot of the key was dropped since the job was started. -/
structure Job (κ : Type*) where
  key : κ
  finished : Bool := false
  dropped : Bool := false

/-- `held key` is the job whose result is in the slot of `key`. -/
structure View (κ : Type*) where
  held : κ → Option Nat
  jobs : List (Job κ)

variable {κ : Type*}

/-- The steps of a system, by the job that finishes. -/
inductive Moves [DecidableEq κ] (v : View κ) : Option Nat → View κ → Prop
  | stay : Moves v none v
  | start (key : κ) : Moves v none { v with jobs := v.jobs ++ [{ key := key }] }
  | finish {n : Nat} {job : Job κ} (started : v.jobs[n]? = some job) :
      Moves v (some n)
        { held := Function.update v.held job.key (some n)
          jobs := v.jobs.set n { job with finished := true } }
  | drop (p : κ → Prop) [DecidablePred p] :
      Moves v none
        { held := fun key => if p key then none else v.held key
          jobs := v.jobs.map fun job => { job with dropped := job.dropped || p job.key } }

/-- Job `n`, which finishes between the two views, leaves what it must. -/
def Keeps (v : View κ) (n : Nat) (w : View κ) : Prop :=
  ∀ job, v.jobs[n]? = some job →
    (∀ m, v.held job.key = some m → n < m → w.held job.key = some m) ∧
    (job.dropped = true → w.held job.key ≠ some n)

def InOrder (v : View κ) (n : Nat) : Prop :=
  ∀ job, v.jobs[n]? = some job → job.dropped = false ∧
    ∀ m, n < m → ∀ other, v.jobs[m]? = some other → other.key = job.key → other.finished = false

/-! ## One step -/

/-- A slot holds the result of a finished job, and a drop reaches every job started
before. -/
structure Ok (v : View κ) : Prop where
  held : ∀ key m, v.held key = some m →
    ∃ job, v.jobs[m]? = some job ∧ job.key = key ∧ job.finished = true
  dropped : ∀ (n m : Nat) (job other : Job κ), n < m → v.jobs[n]? = some job → v.jobs[m]? = some other →
    other.key = job.key → other.dropped = true → job.dropped = true

/-- A slot holds the result of the last of the finished jobs of its key. -/
def Newest (v : View κ) : Prop :=
  ∀ m job, v.jobs[m]? = some job → job.finished = true → job.dropped = false →
    ∃ n, m ≤ n ∧ v.held job.key = some n

variable {v w : View κ} {f : Option Nat} {n : Nat}

theorem getElem?_set_finished {jobs : List (Job κ)} {job : Job κ} (h : jobs[n]? = some job) {m : Nat}
    {other : Job κ} (hm : (jobs.set n { job with finished := true })[m]? = some other) :
    ∃ old, jobs[m]? = some old ∧ old.key = other.key ∧ old.dropped = other.dropped ∧
      (m ≠ n → old.finished = other.finished) := by
  by_cases hn : m = n
  · subst hn
    rw [List.getElem?_set_self (List.getElem?_eq_some_iff.mp h).1] at hm
    obtain rfl := Option.some.inj hm
    exact ⟨job, h, rfl, rfl, fun hne => absurd rfl hne⟩
  · rw [List.getElem?_set_ne (Ne.symm hn)] at hm
    exact ⟨other, hm, rfl, rfl, fun _ => rfl⟩

variable [DecidableEq κ]

theorem ok_of_moves (h : Ok v) (hm : Moves v f w) : Ok w := by
  cases hm with
  | stay => exact h
  | start key =>
    refine ⟨fun k m hk => ?_, fun n m job other hlt hn hm hkey hd => ?_⟩
    · obtain ⟨job, hj, rest⟩ := h.held k m hk
      exact ⟨job, by rw [List.getElem?_append_left (List.getElem?_eq_some_iff.mp hj).1, hj], rest⟩
    · -- A job just started is not dropped.
      rw [List.getElem?_append] at hn hm
      split at hm
      · rename_i hml
        rw [if_pos (Nat.lt_trans hlt hml)] at hn
        exact h.dropped n m job other hlt hn hm hkey hd
      · rw [List.getElem?_singleton] at hm
        split at hm
        · obtain rfl := Option.some.inj hm
          cases hd
        · cases hm
  | @finish n job hj =>
    refine ⟨fun k m hk => ?_, fun i m a b hlt hi hm hkey hd => ?_⟩
    · dsimp only at hk
      rw [Function.update_apply] at hk
      split at hk
      · rename_i hkey
        obtain rfl := Option.some.inj hk
        exact ⟨_, List.getElem?_set_self (List.getElem?_eq_some_iff.mp hj).1, hkey.symm, rfl⟩
      · obtain ⟨old, ho, hok, hof⟩ := h.held k m hk
        by_cases hn : n = m
        · subst hn
          obtain rfl := Option.some.inj (hj.symm.trans ho)
          exact ⟨_, List.getElem?_set_self (List.getElem?_eq_some_iff.mp hj).1, hok, rfl⟩
        · exact ⟨old, by rw [List.getElem?_set_ne hn, ho], hok, hof⟩
    · obtain ⟨a', ha, hak, had, -⟩ := getElem?_set_finished hj hi
      obtain ⟨b', hb, hbk, hbd, -⟩ := getElem?_set_finished hj hm
      rw [← had]
      exact h.dropped i m a' b' hlt ha hb (hbk.trans (hkey.trans hak.symm)) (hbd.trans hd)
  | drop p =>
    refine ⟨fun k m hk => ?_, fun i m a b hlt hi hm hkey hd => ?_⟩
    · dsimp only at hk
      split at hk
      · cases hk
      · obtain ⟨job, hj, hjk, hjf⟩ := h.held k m hk
        refine ⟨{ job with dropped := job.dropped || p job.key }, ?_, hjk, hjf⟩
        rw [List.getElem?_map, hj]
        rfl
    · rw [List.getElem?_map, Option.map_eq_some_iff] at hi hm
      obtain ⟨a, hi, rfl⟩ := hi
      obtain ⟨b, hm, rfl⟩ := hm
      dsimp only at hkey hd ⊢
      rw [Bool.or_eq_true, hkey] at hd
      rw [Bool.or_eq_true]
      exact hd.imp_left (h.dropped i m a b hlt hi hm hkey)

/-- Where each slot holds its newest result, a job that finishes leaves what it must
exactly when it finishes in order. -/
theorem keeps_iff_inOrder (h : Ok v) (hnew : Newest v) (hm : Moves v (some n) w) :
    Keeps v n w ↔ InOrder v n := by
  cases hm with
  | @finish n job hj =>
    have hself : (Function.update v.held job.key (some n)) job.key = some n :=
      Function.update_self ..
    constructor
    · intro hk job' hj'
      obtain rfl := Option.some.inj (hj.symm.trans hj')
      obtain ⟨hlater, hdropped⟩ := hk job hj
      have hnd : job.dropped = false := by
        by_contra hd
        exact hdropped (Bool.not_eq_false _ ▸ hd) hself
      refine ⟨hnd, fun m hlt other ho hkey => ?_⟩
      by_contra hf
      have hod : other.dropped = false := by
        by_contra hd
        have := h.dropped n m job other hlt hj ho hkey (Bool.not_eq_false _ ▸ hd)
        rw [hnd] at this
        cases this
      obtain ⟨last, hle, hheld⟩ := hnew m other ho (Bool.not_eq_false _ ▸ hf) hod
      rw [hkey] at hheld
      obtain rfl := Option.some.inj (hself.symm.trans (hlater last hheld (by omega)))
      omega
    · intro hin job' hj'
      obtain rfl := Option.some.inj (hj.symm.trans hj')
      obtain ⟨hnd, hlast⟩ := hin job hj
      refine ⟨fun m hheld hlt => ?_, fun hd => ?_⟩
      · obtain ⟨other, ho, hkey, hf⟩ := h.held _ m hheld
        rw [hlast m hlt other ho hkey] at hf
        cases hf
      · rw [hnd] at hd
        cases hd

theorem newest_of_moves (hnew : Newest v) (hm : Moves v f w) (hk : ∀ n, f = some n → Keeps v n w) :
    Newest w := by
  cases hm with
  | stay => exact hnew
  | start key =>
    intro m job hj hf hd
    rw [List.getElem?_append] at hj
    split at hj
    · exact hnew m job hj hf hd
    · rw [List.getElem?_singleton] at hj
      split at hj
      · obtain rfl := Option.some.inj hj
        cases hf
      · cases hj
  | @finish n job hj =>
    intro m other ho hf hd
    obtain ⟨old, hold, hkey, hod, hof⟩ := getElem?_set_finished hj ho
    dsimp only
    rw [← hkey, Function.update_apply]
    by_cases hn : m = n
    · subst hn
      obtain rfl := Option.some.inj (hj.symm.trans hold)
      exact ⟨m, Nat.le_refl m, if_pos rfl⟩
    · obtain ⟨last, hle, hheld⟩ := hnew m old hold ((hof hn).trans hf) (hod.trans hd)
      split
      · rename_i hjob
        refine ⟨n, ?_, rfl⟩
        by_contra hlt
        have := (hk n rfl job hj).1 last (hjob ▸ hheld) (by omega)
        dsimp only at this
        rw [Function.update_self] at this
        obtain rfl := Option.some.inj this
        omega
      · exact ⟨last, hle, hheld⟩
  | drop p =>
    intro m job hj hf hd
    rw [List.getElem?_map, Option.map_eq_some_iff] at hj
    obtain ⟨old, hj, rfl⟩ := hj
    dsimp only at hf hd ⊢
    rw [Bool.or_eq_false_iff, decide_eq_false_iff_not] at hd
    rw [if_neg hd.2]
    exact hnew m old hj hf hd.1

/-! ## Runs -/

variable {σ ε : Type*} {step : σ → ε → Option σ} {view : σ → View κ} {finishes : ε → Option Nat}

omit [DecidableEq κ] in
def KeepsAt (step : σ → ε → Option σ) (view : σ → View κ) (finishes : ε → Option Nat) (s : σ)
    (e : ε) : Prop :=
  ∀ n t, finishes e = some n → step s e = some t → Keeps (view s) n (view t)

omit [DecidableEq κ] in
def InOrderAt (view : σ → View κ) (finishes : ε → Option Nat) (s : σ) (e : ε) : Prop :=
  ∀ n, finishes e = some n → InOrder (view s) n

/-- Over a run that starts with no jobs, every job that finishes leaves what it must
exactly when they all finish in order. -/
theorem along_keeps_iff (hmoves : ∀ s e t, step s e = some t → Moves (view s) (finishes e) (view t))
    {s t : σ} {es : List ε} (hjobs : (view s).jobs = []) (hheld : ∀ key, (view s).held key = none)
    (hr : run step s es = some t) :
    Along step (KeepsAt step view finishes) s es ↔ Along step (InOrderAt view finishes) s es := by
  refine (run_induction (P := fun es t => Ok (view t) ∧
    (Along step (KeepsAt step view finishes) s es → Newest (view t)) ∧
    (Along step (KeepsAt step view finishes) s es ↔ Along step (InOrderAt view finishes) s es))
    ?_ ?_ hr).2.2
  · refine ⟨⟨fun key m h => ?_, fun n m job other _ h => ?_⟩, fun _ m job h => ?_, ?_⟩
    · rw [hheld] at h
      cases h
    · rw [hjobs] at h
      cases h
    · rw [hjobs] at h
      cases h
    · exact ⟨fun _ => trivial, fun _ => trivial⟩
  · intro es e u w hr ⟨hok, hnew, hiff⟩ hstep
    have hm := hmoves u e w hstep
    rw [along_concat hr, along_concat hr, ← hiff]
    refine ⟨ok_of_moves hok hm, fun ⟨hk, hke⟩ => ?_, and_congr_right fun hk => ?_⟩
    · exact newest_of_moves (hnew hk) hm fun n hn => hke n w hn hstep
    · constructor
      · intro h n hn
        exact (keeps_iff_inOrder hok (hnew hk) (hn ▸ hm)).mp (h n w hn hstep)
      · intro h n w' hn hstep'
        obtain rfl := Option.some.inj (hstep.symm.trans hstep')
        exact (keeps_iff_inOrder hok (hnew hk) (hn ▸ hm)).mpr (h n hn)

end Lib.Deferred
