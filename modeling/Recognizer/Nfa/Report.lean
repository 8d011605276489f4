/-
# The algebra with its events

Each operator of `Recognizer.Nfa.Algebra` with the event that reports the size of its result.
-/
import Recognizer.Nfa.Algebra
import Recognizer.Recorded

namespace Recognizer

namespace Nfa

variable {α : Type} [Ord α]

/-- An operator with the event made from the numbers of states and transitions of its result. -/
def reportSizes (outcome : Except (BuildError α) (Nfa α)) (event : Nat → Nat → Event α) :
    Recorded α (Nfa α) :=
  .report outcome fun n => event n.states.size n.transitions.length

/-- Concatenation, reported. -/
def concatReported (n m : Nfa α) : Recorded α (Nfa α) := reportSizes (n.concat m) .concatenation

/-- Alternation, reported. -/
def alternateReported (n m : Nfa α) : Recorded α (Nfa α) :=
  reportSizes (n.alternate m) .alternation

/-- Star, reported. -/
def starReported (n : Nfa α) : Recorded α (Nfa α) := reportSizes n.star .star

/-- Expansion, reported with the number of transitions that it replaced. -/
def expandReported (n : Nfa α) (symbol : α) (m : Nfa α) : Recorded α (Nfa α) :=
  reportSizes (n.expand symbol m) (.expansion (n.transitionsOn symbol).length symbol)

end Nfa

end Recognizer
