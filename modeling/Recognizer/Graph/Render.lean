/-
# Rendered graphs

A graph is written as one line per transition, in the order of the transitions: source, symbol and
target with arrows between them.  The initial state is marked by an angle bracket in front, an
accepting state by parentheses around its number.
-/
import Recognizer.Graph.Basic
import Recognizer.Symbol.Spelling

namespace Recognizer

namespace StateGraph

variable {α : Type}

/-- A state with its marks. -/
def stateText (g : StateGraph α) (q : StateId) : String :=
  (if q = g.initial then ">" else "")
    ++ (if g.IsAccepting q then "(" ++ toString q ++ ")" else toString q)

/-- A transition with the marks of its ends. -/
def transitionText [Spelling α] (g : StateGraph α) (t : Transition α) : String :=
  g.stateText t.source ++ "->" ++ Spelling.text t.symbol ++ "->" ++ g.stateText t.target

/-- The whole graph, by source, symbol and target. -/
def text [Ord α] [Spelling α] (g : StateGraph α) : String :=
  "\n".intercalate (g.sortedTransitions.map g.transitionText)

end StateGraph

end Recognizer
