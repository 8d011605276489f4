/-
# Running an automaton on a word

The run holds the set of states that the word read so far can lead to.  It starts in the closure of
the initial state, and the word is accepted when the last set holds an accepting state.
-/
import Recognizer.Nfa.Basic

namespace Recognizer

namespace Nfa

variable {α : Type} [Ord α]

/-- The set of states before anything is read. -/
def startSet (n : Nfa α) : StateSet := n.closure (.singleton n.initial)

/-- The accepting states as a set. -/
def acceptingSet (n : Nfa α) : StateSet := .ofList n.accepting

/-- The set of states after a word. -/
def after (n : Nfa α) (word : List α) : StateSet := word.foldl n.move n.startSet

/-- The sets of states along a word, from the one before it to the one after it. -/
def stages (n : Nfa α) (word : List α) : List StateSet := List.scanl n.move n.startSet word

/-- Whether the word leads to an accepting state. -/
def accepts (n : Nfa α) (word : List α) : Bool := (n.after word).intersects n.acceptingSet

theorem after_append (n : Nfa α) (u v : List α) :
    n.after (u ++ v) = v.foldl n.move (n.after u) :=
  List.foldl_append

theorem after_concat (n : Nfa α) (u : List α) (a : α) : n.after (u ++ [a]) = n.move (n.after u) a :=
  n.after_append u [a]

end Nfa

end Recognizer
