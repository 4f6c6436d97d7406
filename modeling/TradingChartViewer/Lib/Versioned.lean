import Mathlib.Data.List.Pairwise
import Mathlib.Data.Nat.Basic
import Mathlib.Order.Lattice

/-!
# Versioned cells

A cell that is written with ever greater versions, and a reader that takes the
version first and the content later, so that what it takes may be newer than
the version it remembers, but not older.

* `Cell`, `Cell.update`: the cell with all that it has held;
* `Cell.Since`: a content that the cell held at a version or later;
* `Cell.Within`: one that it held between two versions;
* `eq_content_of_since`: at the cell's own version there is only its content.
-/

namespace Lib.Versioned

/-- A cell, and what it held before, newest first. -/
structure Cell (α : Type*) where
  version : Nat
  content : α
  past : List (Nat × α) := []
  increasing : ((version, content) :: past).Pairwise fun a b => b.1 < a.1

namespace Cell

variable {α : Type*}

/-- A cell that has not been written. -/
def fresh (version : Nat) (content : α) : Cell α := ⟨version, content, [], List.pairwise_singleton ..⟩

def history (c : Cell α) : List (Nat × α) := (c.version, c.content) :: c.past

theorem le_version {c : Cell α} {w : Nat} {a : α} (h : (w, a) ∈ c.history) : w ≤ c.version := by
  obtain e | h := List.mem_cons.mp h
  · exact (congrArg Prod.fst e).le
  · exact ((List.pairwise_cons.mp c.increasing).1 _ h).le

def update (c : Cell α) (version : Nat) (content : α) (h : c.version < version) : Cell α :=
  ⟨version, content, c.history, List.pairwise_cons.mpr
    ⟨fun _ hm => (le_version hm).trans_lt h, c.increasing⟩⟩

/-- The cell held `a` at a version from `v` to `v'`. -/
def Within (c : Cell α) (v v' : Nat) (a : α) : Prop := ∃ w, v ≤ w ∧ w ≤ v' ∧ (w, a) ∈ c.history

/-- The cell held `a` at version `v` or later. -/
def Since (c : Cell α) (v : Nat) (a : α) : Prop := c.Within v c.version a

variable {c : Cell α} {v v' w : Nat} {a b : α}

theorem since_content (h : v ≤ c.version) : c.Since v c.content :=
  ⟨c.version, h, le_rfl, List.mem_cons_self⟩

theorem Within.mono (h : c.Within v v' a) (hv : w ≤ v) {w' : Nat} (hv' : v' ≤ w') :
    c.Within w w' a := by
  obtain ⟨u, hu, hu', hm⟩ := h
  exact ⟨u, hv.trans hu, hu'.trans hv', hm⟩

theorem Within.update (h : c.Within v v' a) (hw : c.version < w) :
    (c.update w b hw).Within v v' a := by
  obtain ⟨u, hu, hu', hm⟩ := h
  exact ⟨u, hu, hu', List.mem_cons_of_mem _ hm⟩

theorem Since.update (h : c.Since v a) (hw : c.version < w) : (c.update w b hw).Since v a :=
  (Within.update h hw).mono le_rfl hw.le

/-- The cell held one content at a version. -/
theorem Within.unique (ha : c.Within v v a) (hb : c.Within v v b) : a = b := by
  obtain ⟨w, hw, hw', hm⟩ := ha
  obtain ⟨u, hu, hu', hn⟩ := hb
  obtain rfl := le_antisymm hw hw'
  obtain rfl := le_antisymm hu hu'
  have unique (l : List (Nat × α)) (hl : l.Pairwise fun a b => b.1 < a.1) (hm : (v, a) ∈ l)
      (hn : (v, b) ∈ l) : a = b := by
    induction l with
    | nil => cases hm
    | cons x l ih =>
      obtain ⟨hx, hl⟩ := List.pairwise_cons.mp hl
      rcases List.mem_cons.mp hm with rfl | hm' <;> rcases List.mem_cons.mp hn with e | hn'
      · exact (congrArg Prod.snd e).symm
      · exact absurd (hx _ hn') (lt_irrefl _)
      · subst e
        exact absurd (hx _ hm') (lt_irrefl _)
      · exact ih hl hm' hn'
  exact unique c.history c.increasing hm hn

theorem eq_content_of_since (h : c.Since c.version a) : a = c.content := by
  obtain ⟨u, hu, -, hm⟩ := h
  obtain e | hm := List.mem_cons.mp hm
  · exact congrArg Prod.snd e
  · exact absurd ((List.pairwise_cons.mp c.increasing).1 _ hm) (not_lt.mpr hu)

end Cell

end Lib.Versioned
