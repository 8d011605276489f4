/-
# Operations with their events

A recorded operation is an outcome together with the events that led to it.  Operations are put one
after the other by `bind`: events add up, and nothing happens after a failure.

* `outcome_bind`, `outcome_bind_eq_ok_iff`: the outcome of a sequence is the sequence of the
  outcomes, so that a fact about outcomes can be shown without looking at events;
* `ok_bind`, `error_bind`: the events of a sequence;
* `bind_assoc`: how operations are put together does not show.
-/
import Recognizer.Error
import Recognizer.Event

namespace Recognizer

/-- The outcome of an operation on automata over `α`, and the events that led to it. -/
structure Recorded (α β : Type) where
  events : List (Event α)
  outcome : Except (BuildError α) β

namespace Recorded

variable {α β γ : Type}

/-- One operation after another. -/
def bind (x : Recorded α β) (f : β → Recorded α γ) : Recorded α γ :=
  match x.outcome with
  | .ok b =>
    let y := f b
    ⟨x.events ++ y.events, y.outcome⟩
  | .error e => ⟨x.events, .error e⟩

instance : Monad (Recorded α) where
  pure b := ⟨[], .ok b⟩
  bind := bind

/-- A failure without events. -/
def fail (e : BuildError α) : Recorded α β := ⟨[], .error e⟩

/-- An operation without events. -/
def silent (outcome : Except (BuildError α) β) : Recorded α β := ⟨[], outcome⟩

/-- An event by itself. -/
def tell (event : Event α) : Recorded α Unit := ⟨[event], .ok ()⟩

/-- An operation whose result comes with the proof that it is the result. -/
def attach : (x : Recorded α β) → Recorded α { b : β // x.outcome = .ok b }
  | ⟨events, .ok b⟩ => ⟨events, .ok ⟨b, rfl⟩⟩
  | ⟨events, .error e⟩ => ⟨events, .error e⟩

/-- An operation that reports its result, and nothing when it fails. -/
def report (outcome : Except (BuildError α) β) (event : β → Event α) : Recorded α β :=
  ⟨match outcome with
    | .ok b => [event b]
    | .error _ => [], outcome⟩

theorem outcome_bind (x : Recorded α β) (f : β → Recorded α γ) :
    (x >>= f).outcome = x.outcome >>= fun b => (f b).outcome := by
  obtain ⟨events, outcome⟩ := x
  cases outcome with
  | ok b => rfl
  | error e => rfl

theorem outcome_bind_eq_ok_iff {x : Recorded α β} {f : β → Recorded α γ} {c : γ} :
    (x >>= f).outcome = .ok c ↔ ∃ b, x.outcome = .ok b ∧ (f b).outcome = .ok c := by
  rw [outcome_bind]
  cases x.outcome with
  | ok b => simp [Bind.bind, Except.bind]
  | error e => simp [Bind.bind, Except.bind]

theorem ok_bind (events : List (Event α)) (b : β) (f : β → Recorded α γ) :
    (⟨events, .ok b⟩ : Recorded α β) >>= f = ⟨events ++ (f b).events, (f b).outcome⟩ := rfl

theorem error_bind (events : List (Event α)) (e : BuildError α) (f : β → Recorded α γ) :
    (⟨events, .error e⟩ : Recorded α β) >>= f = ⟨events, .error e⟩ := rfl

/-- What has no events of its own adds none. -/
theorem append_silent (events : List (Event α)) (outcome : Except (BuildError α) β) :
    (⟨events ++ (silent outcome).events, outcome⟩ : Recorded α β) = ⟨events, outcome⟩ :=
  congrArg (mk · outcome) (List.append_nil events)

theorem bind_assoc {δ : Type} (x : Recorded α β) (f : β → Recorded α γ) (g : γ → Recorded α δ) :
    x >>= f >>= g = x >>= fun b => f b >>= g := by
  obtain ⟨events, outcome⟩ := x
  cases outcome with
  | error e => rfl
  | ok b =>
    rw [ok_bind, ok_bind]
    generalize f b = y
    obtain ⟨more, outcome⟩ := y
    cases outcome with
    | ok c => rw [ok_bind, ok_bind, List.append_assoc]
    | error e => rw [error_bind, error_bind]

/-- The proof makes no difference to what comes after. -/
theorem attach_bind (x : Recorded α β) (f : β → Recorded α γ) :
    (x.attach >>= fun b => f b.1) = x >>= f := by
  obtain ⟨events, outcome⟩ := x
  cases outcome with
  | ok b => rfl
  | error e => rfl

end Recorded

end Recognizer
