import Mathlib.Data.Set.Basic

/-!
# Announced values

Values that are announced to observers by callbacks. A change queues a callback for every
observer and a registration one for the new observer; each callback is made at any later time,
in any order.

* `Board`, `Board.Moves`: the values, the callbacks still to be made, and one step;
* `Board.Fresh`: every observer has the current values, or gets them by a callback to come;
* `Board.InTime`: a callback is made while one with the current value is to be made;
* `Board.Fresh.moves`: such callbacks keep the observers up to date;
* `Board.Fresh.behind`, `Board.Behind.moves`: an observer that gets a late one is behind, and no
  other callback changes that.
-/

namespace Lib.Announce

/-- A call that brings an observer a value of a topic. -/
structure Callback (ι κ β : Type*) where
  observer : ι
  topic : κ
  value : β
  deriving DecidableEq, Repr

/-- `received` is the last value of each topic that an observer got. -/
structure Board (ι κ β : Type*) where
  value : κ → Option β
  observers : Set ι
  pending : Set (Callback ι κ β)
  received : ι → κ → Option β

variable {ι κ β : Type*}

/-- What is received once the callback is made. -/
def receive [DecidableEq ι] [DecidableEq κ] (received : ι → κ → Option β) (c : Callback ι κ β) :
    ι → κ → Option β :=
  fun o k => if c.observer = o ∧ c.topic = k then some c.value else received o k

/-- One step, by the callback it makes. -/
inductive Board.Moves [DecidableEq ι] [DecidableEq κ] (b : Board ι κ β) :
    Option (Callback ι κ β) → Board ι κ β → Prop
  | change {value : κ → Option β} {pending : Set (Callback ι κ β)} (changed : κ → Option β)
      (hvalue : ∀ k, value k = (changed k).or (b.value k))
      (hpending : ∀ c, c ∈ pending ↔
        c ∈ b.pending ∨ c.observer ∈ b.observers ∧ changed c.topic = some c.value) :
      Moves b none { b with value := value, pending := pending }
  | register {observers : Set ι} {pending : Set (Callback ι κ β)} (o : ι)
      (hobservers : ∀ p, p ∈ observers ↔ p ∈ b.observers ∨ p = o)
      (hpending : ∀ c, c ∈ pending ↔
        c ∈ b.pending ∨ c.observer = o ∧ b.value c.topic = some c.value) :
      Moves b none { b with observers := observers, pending := pending }
  | deliver {pending : Set (Callback ι κ β)} (c : Callback ι κ β)
      (hpending : ∀ d, d ∈ b.pending ↔ d = c ∨ d ∈ pending) :
      Moves b (some c) { b with pending := pending, received := receive b.received c }

structure Board.Fresh (b : Board ι κ β) : Prop where
  current : ∀ o ∈ b.observers, ∀ k v, b.value k = some v →
    b.received o k = some v ∨ ⟨o, k, v⟩ ∈ b.pending
  known : ∀ c ∈ b.pending, c.observer ∈ b.observers

def Board.InTime (b : Board ι κ β) (c : Callback ι κ β) : Prop :=
  ∀ v, b.value c.topic = some v → ⟨c.observer, c.topic, v⟩ ∈ b.pending

/-- The observer has not the current value of the topic, nor is it to get it. -/
def Board.Behind (b : Board ι κ β) (o : ι) (k : κ) : Prop :=
  o ∈ b.observers ∧ ∃ v, b.value k = some v ∧ b.received o k ≠ some v ∧ ⟨o, k, v⟩ ∉ b.pending

variable {b d : Board ι κ β} {made : Option (Callback ι κ β)}

section Steps

variable [DecidableEq ι] [DecidableEq κ]

theorem receive_self (received : ι → κ → Option β) (c : Callback ι κ β) :
    receive received c c.observer c.topic = some c.value :=
  if_pos ⟨rfl, rfl⟩

theorem receive_of_ne {received : ι → κ → Option β} {c : Callback ι κ β} {o : ι} {k : κ}
    (h : ¬ (c.observer = o ∧ c.topic = k)) : receive received c o k = received o k :=
  if_neg h

theorem Board.Fresh.moves (h : b.Fresh) (hm : b.Moves made d) (hc : ∀ c ∈ made, b.InTime c) :
    d.Fresh := by
  cases hm with
  | change changed hvalue hpending =>
    refine ⟨fun o ho k v hv => ?_, fun c hc => ?_⟩
    · have hv := (hvalue k).symm.trans hv
      cases hk : changed k with
      | some w =>
        rw [hk, Option.some_or] at hv
        exact .inr ((hpending _).mpr (.inr ⟨ho, hk.trans hv⟩))
      | none =>
        rw [hk, Option.none_or] at hv
        exact (h.current o ho k v hv).imp_right fun hp => (hpending _).mpr (.inl hp)
    · rcases (hpending c).mp hc with hc | ⟨hc, -⟩
      · exact h.known c hc
      · exact hc
  | register o hobservers hpending =>
    refine ⟨fun p hp k v hv => ?_, fun c hc => ?_⟩
    · rcases (hobservers p).mp hp with hp | rfl
      · exact (h.current p hp k v hv).imp_right fun hc => (hpending _).mpr (.inl hc)
      · exact .inr ((hpending _).mpr (.inr ⟨rfl, hv⟩))
    · rcases (hpending c).mp hc with hc | ⟨rfl, -⟩
      · exact (hobservers _).mpr (.inl (h.known c hc))
      · exact (hobservers _).mpr (.inr rfl)
  | deliver c hpending =>
    refine ⟨fun o ho k v hv => ?_, fun e he => h.known e ((hpending e).mpr (.inr he))⟩
    show receive b.received c o k = some v ∨ _
    by_cases hck : c.observer = o ∧ c.topic = k
    · -- The value is the current one, or that comes later.
      obtain ⟨rfl, rfl⟩ := hck
      rw [receive_self]
      refine ((hpending _).mp (hc c rfl v hv)).imp_left fun he => ?_
      rw [← he]
    · rw [receive_of_ne hck]
      refine (h.current o ho k v hv).imp_right fun he => ((hpending _).mp he).resolve_left ?_
      rintro rfl
      exact hck ⟨rfl, rfl⟩

/-- A late callback leaves its observer behind. -/
theorem Board.Fresh.behind (h : b.Fresh) {c : Callback ι κ β} (hm : b.Moves (some c) d)
    (hlate : ¬ b.InTime c) : d.Behind c.observer c.topic := by
  unfold Board.InTime at hlate
  push Not at hlate
  obtain ⟨v, hv, hnot⟩ := hlate
  cases hm with
  | deliver _ hpending =>
    refine ⟨h.known c ((hpending c).mpr (.inl rfl)), v, hv, ?_,
      fun he => hnot ((hpending _).mpr (.inr he))⟩
    show receive b.received c c.observer c.topic ≠ some v
    rw [receive_self]
    intro he
    exact hnot ((hpending _).mpr (.inl (by rw [← Option.some.inj he])))

/-- No other callback brings it the current value. -/
theorem Board.Behind.moves {o : ι} {k : κ} (h : b.Behind o k) {c : Callback ι κ β}
    (hm : b.Moves (some c) d) : d.Behind o k := by
  obtain ⟨ho, v, hv, hne, hnot⟩ := h
  cases hm with
  | deliver _ hpending =>
    refine ⟨ho, v, hv, ?_, fun he => hnot ((hpending _).mpr (.inr he))⟩
    show receive b.received c o k ≠ some v
    by_cases hck : c.observer = o ∧ c.topic = k
    · obtain ⟨rfl, rfl⟩ := hck
      rw [receive_self]
      intro he
      exact hnot ((hpending _).mpr (.inl (by rw [← Option.some.inj he])))
    · rwa [receive_of_ne hck]

end Steps

/-- When no callback is to be made, everyone has the current values. -/
theorem Board.Fresh.received_eq (h : b.Fresh) (hp : ∀ c, c ∉ b.pending) {o : ι}
    (ho : o ∈ b.observers) {k : κ} {v : β} (hv : b.value k = some v) : b.received o k = some v :=
  (h.current o ho k v hv).resolve_right (hp _)

end Lib.Announce
