import Mathlib.Data.List.Basic

/-!
# Assignments in layers

Lists of assignments to the keys of a record, where some of the raw values are
well formed and the last one counts.

* `lastGiven`: the last well-formed value for a key; `lastGiven_append`: a later
  list goes before an earlier one;
* `lastGiven_layers`: layers, the first of which goes first;
* `Assigns`: each step of a loop assigns to one key at most, and only a value
  that is well formed; `Assigns.get_foldl`: the record after the loop.
-/

namespace Lib.Override

variable {κ ρ ν μ σ τ : Type*} [DecidableEq κ]

/-- The raw values for `k`, in order. -/
def valuesFor (l : List (κ × ρ)) (k : κ) : List ρ :=
  l.filterMap fun a => if a.1 = k then some a.2 else none

/-- The last value for `k` that `parse` accepts. -/
def lastGiven (parse : κ → ρ → Option ν) (l : List (κ × ρ)) (k : κ) : Option ν :=
  ((valuesFor l k).filterMap (parse k)).getLast?

variable {parse : κ → ρ → Option ν} {l m : List (κ × ρ)} {k : κ}

theorem valuesFor_append : valuesFor (l ++ m) k = valuesFor l k ++ valuesFor m k :=
  List.filterMap_append

theorem valuesFor_singleton (a : κ × ρ) :
    valuesFor [a] k = if a.1 = k then [a.2] else [] := by
  unfold valuesFor
  rw [List.filterMap_cons, List.filterMap_nil]
  split_ifs <;> rfl

theorem lastGiven_singleton (a : κ × ρ) :
    lastGiven parse [a] k = if a.1 = k then parse k a.2 else none := by
  rw [lastGiven, valuesFor_singleton]
  split
  · rw [List.filterMap_cons, List.filterMap_nil]
    cases parse k a.2 <;> rfl
  · rfl

theorem lastGiven_append :
    lastGiven parse (l ++ m) k = (lastGiven parse m k).or (lastGiven parse l k) := by
  rw [lastGiven, valuesFor_append, List.filterMap_append, List.getLast?_append]
  rfl

theorem lastGiven_congr {parse' : κ → ρ → Option ν} (h : ∀ r, parse k r = parse' k r) :
    lastGiven parse l k = lastGiven parse' l k :=
  congrArg List.getLast? (List.filterMap_congr fun r _ => h r)

theorem lastGiven_map (f : ν → μ) :
    lastGiven (fun k r => (parse k r).map f) l k = (lastGiven parse l k).map f := by
  rw [lastGiven, lastGiven, ← List.getLast?_map, List.map_filterMap]

/-- Layers from the one that goes first, as one list with it at the end. -/
theorem lastGiven_layers (layers : List (List (κ × ρ))) :
    lastGiven parse layers.reverse.flatten k = layers.findSome? (lastGiven parse · k) := by
  induction layers with
  | nil => rfl
  | cons l layers ih =>
    rw [List.reverse_cons, List.flatten_append, List.flatten_singleton, lastGiven_append, ih,
      List.findSome?_cons]
    cases lastGiven parse l k <;> rfl

/-- What one step does to the keys of a record: it assigns what it is `given`. -/
structure Assigns (get : σ → κ → ν) (step : σ → τ → σ) (given : τ → Option (κ × ρ))
    (parse : κ → ρ → Option ν) : Prop where
  get_step : ∀ s t k, get (step s t) k = (lastGiven parse (given t).toList k).getD (get s k)

theorem Assigns.get_foldl {get : σ → κ → ν} {step : σ → τ → σ} {given : τ → Option (κ × ρ)}
    (h : Assigns get step given parse) (ts : List τ) (s : σ) (k : κ) :
    get (ts.foldl step s) k = (lastGiven parse (ts.filterMap given) k).getD (get s k) := by
  induction ts generalizing s with
  | nil => rfl
  | cons t ts ih =>
    have hcons : (t :: ts).filterMap given = (given t).toList ++ ts.filterMap given := by
      cases ht : given t with
      | none => rw [List.filterMap_cons_none ht]; rfl
      | some a => rw [List.filterMap_cons_some ht]; rfl
    rw [List.foldl_cons, ih, h.get_step, hcons, lastGiven_append]
    cases lastGiven parse (ts.filterMap given) k <;> rfl

end Lib.Override
