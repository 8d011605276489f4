/-
# Why an automaton could not be built

Each constructor is one cause, with what a reader needs to see it; the wording is in `message`
alone.
-/
import Recognizer.State.Id
import Recognizer.Symbol.Spelling

namespace Recognizer

/-- Why an automaton over the symbols `α` could not be built. -/
inductive BuildError (α : Type) where
  /-- An operand has not exactly one accepting state, but `accepting` of them. -/
  | malformedFragment (accepting : Nat)
  /-- The operands label their silent transitions with different symbols. -/
  | epsilonMismatch (left right : α)
  /-- Moving `state` by `delta` leaves the range of identifiers. -/
  | stateOutOfRange (state : StateId) (delta : Int)
  /-- A deterministic automaton came to need `states` states where `max` were allowed. -/
  | stateLimitExceeded (states max : Nat)
  /-- An expression names an automaton that is not there. -/
  | unboundName (name : String)
  deriving DecidableEq

namespace BuildError

variable {α : Type} [Spelling α]

/-- The text of an error. -/
def message : BuildError α → String
  | malformedFragment accepting =>
    "fragment must have exactly one accepting state, found " ++ toString accepting
  | epsilonMismatch left right =>
    "operands disagree on the epsilon symbol: " ++ Spelling.quoted left ++ " vs "
      ++ Spelling.quoted right
  | stateOutOfRange state delta =>
    "offsetting state " ++ toString state ++ " by " ++ toString delta
      ++ " leaves the state id range"
  | stateLimitExceeded states max =>
    "DFA state limit exceeded: " ++ toString states ++ " states (max: " ++ toString max ++ ")"
  | unboundName name => "no automaton is named " ++ Quoted.text name

end BuildError

end Recognizer
