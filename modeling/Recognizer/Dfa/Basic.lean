/-
# Deterministic automata

A deterministic automaton is a state graph in which a state has at most one transition on each
symbol.  It remembers the alphabet it was made for and, for each of its states, the set of states of
the automaton that it simulates.
-/
import Recognizer.Graph.Render

namespace Recognizer

/-- A deterministic automaton with states `0`, `1`, … and the subset that each stands for. -/
structure Dfa (α : Type) extends StateGraph α where
  alphabet : List α
  subsets : List StateSet
  deriving DecidableEq

namespace Dfa

variable {α : Type}

/-- The number of states. -/
def numStates (d : Dfa α) : Nat := d.subsets.length

/-- The subset that a state stands for. -/
def subset (d : Dfa α) (q : StateId) : Option StateSet := d.subsets[q.toNat]?

variable [Ord α]

/-- Two automata that differ at most in how symbols are spelled. -/
def Alike (d e : Dfa α) : Prop :=
  d.toStateGraph.Alike e.toStateGraph ∧ Pointwise Same d.alphabet e.alphabet ∧
    d.subsets = e.subsets

instance (d e : Dfa α) : Decidable (d.Alike e) := inferInstanceAs (Decidable (_ ∧ _ ∧ _))

/-! ## Reading symbols -/

/-- The steps that the symbols of the alphabet make from state to state. -/
def steps (d : Dfa α) : List (StateId × StateId) :=
  (List.range d.numStates).flatMap fun i =>
    d.alphabet.filterMap fun a => (d.nextState (.ofNat i) a).map fun q => (.ofNat i, q)

/-- Whether the symbols of the alphabet never lead from the initial state to an accepting one.  A
state that stands for no subset is not looked at. -/
def isEmpty (d : Dfa α) : Bool :=
  d.accepting.isEmpty || noneReachable d.steps [d.initial]
    fun q => decide (q.toNat < d.numStates) && decide (d.IsAccepting q)

/-! ## Running on a word -/

/-- The state after a word, if each of its symbols can be read. -/
def after (d : Dfa α) (word : List α) : Option StateId := word.foldlM d.nextState d.initial

/-- The states along a word from a given one on, up to the first symbol that cannot be read. -/
def stagesFrom (d : Dfa α) : Option StateId → List α → List (Option StateId)
  | none, _ => [none]
  | some q, [] => [some q]
  | some q, a :: word => some q :: d.stagesFrom (d.nextState q a) word

/-- The states along a word, from the initial one on. -/
def stages (d : Dfa α) (word : List α) : List (Option StateId) := d.stagesFrom d.initial word

/-- Whether the word can be read and leads to an accepting state. -/
def accepts (d : Dfa α) (word : List α) : Bool :=
  match d.after word with
  | some q => decide (d.IsAccepting q)
  | none => false

end Dfa

end Recognizer
