/-
# Automata with silent transitions

An automaton is a state graph together with the symbol that labels its silent transitions.  It is
simulated on sets of states: such a set is closed under silent transitions, and moves on a symbol
to the closure of all that the transitions on that symbol lead to.

* `mem_closure`: the closure of a set holds what silent transitions lead to from its members;
* `mem_move`: a set moves to what one transition on the symbol and then silent ones lead to.
-/
import Recognizer.Graph.Rename
import Recognizer.Graph.Render

namespace Recognizer

/-- A state graph in which the transitions on one symbol read nothing. -/
structure Nfa (α : Type) extends StateGraph α where
  epsilon : α
  deriving DecidableEq

namespace Nfa

variable {α : Type}

/-- The automaton that leads from one initial state to one accepting state. -/
def between (initial exit : StateId) (transitions : List (Transition α)) (epsilon : α) : Nfa α :=
  ⟨⟨initial, transitions, [exit], by simp⟩, epsilon⟩

/-- Two states with one transition on a symbol between them. -/
def literal (symbol epsilon : α) : Nfa α := between 0 1 [⟨0, symbol, 1⟩] epsilon

/-- A literal over a type of symbols that sets an epsilon aside. -/
def ofSymbol [ReservedEpsilon α] (symbol : α) : Nfa α := literal symbol ReservedEpsilon.epsilon

/-- The automaton with every state renamed. -/
def rename (f : StateId → StateId) (n : Nfa α) : Nfa α :=
  { n.toStateGraph.rename f with epsilon := n.epsilon }

/-- Replaces one identifier by another. -/
def renumber (n : Nfa α) (old new : StateId) : Nfa α :=
  { n.toStateGraph.renumber old new with epsilon := n.epsilon }

/-- Shifts every state so that the initial state becomes `target`. -/
def shiftTo (n : Nfa α) (target : StateId) : Except (BuildError α) (Nfa α) :=
  (n.toStateGraph.shiftTo target).map fun g => { g with epsilon := n.epsilon }

variable [Ord α]

/-- Two automata that differ at most in how symbols are spelled. -/
def Alike (n m : Nfa α) : Prop :=
  n.toStateGraph.Alike m.toStateGraph ∧ Same n.epsilon m.epsilon

instance (n m : Nfa α) : Decidable (n.Alike m) := inferInstanceAs (Decidable (_ ∧ _))

/-! ## 1. Symbols -/

/-- `n.IsEpsilon a`: transitions on `a` are silent. -/
def IsEpsilon (n : Nfa α) (a : α) : Prop := Same a n.epsilon

instance (n : Nfa α) (a : α) : Decidable (n.IsEpsilon a) :=
  inferInstanceAs (Decidable (Same _ _))

/-- The symbols that the automaton reads, ascending. -/
def alphabet (n : Nfa α) : List α := n.symbols.filter fun a => !n.IsEpsilon a

/-! ## 2. Silent transitions -/

/-- The silent transitions, as edges. -/
def silentEdges (n : Nfa α) : List (StateId × StateId) :=
  (n.transitions.filter fun t => n.IsEpsilon t.symbol).map fun t => (t.source, t.target)

/-- All that silent transitions lead to from the members of a set, the members included. -/
def closure (n : Nfa α) (s : StateSet) : StateSet := reachable n.silentEdges s.members

theorem mem_silentEdges {n : Nfa α} {p q : StateId} :
    (p, q) ∈ n.silentEdges ↔
      ∃ t ∈ n.transitions, n.IsEpsilon t.symbol ∧ t.source = p ∧ t.target = q := by
  simp [silentEdges, and_assoc]

theorem mem_closure {n : Nfa α} {s : StateSet} {q : StateId} :
    q ∈ n.closure s ↔ ∃ p ∈ s, Leads n.silentEdges p q :=
  mem_reachable

/-! ## 3. Reading a symbol -/

/-- All that one transition on `a` leads to from the members of a set. -/
def step (n : Nfa α) (s : StateSet) (a : α) : StateSet :=
  .ofList (s.members.flatMap fun q => n.targets q a)

/-- All that one transition on `a` and then silent ones lead to. -/
def move (n : Nfa α) (s : StateSet) (a : α) : StateSet := n.closure (n.step s a)

theorem mem_step {n : Nfa α} {s : StateSet} {a : α} {q : StateId} :
    q ∈ n.step s a ↔ ∃ t ∈ n.transitions, t.source ∈ s ∧ Same t.symbol a ∧ t.target = q := by
  rw [step, StateSet.mem_ofList]
  simp only [List.mem_flatMap, StateGraph.mem_targets, StateSet.mem_members]
  constructor
  · rintro ⟨p, hp, t, ht, rfl, ha, hq⟩
    exact ⟨t, ht, hp, ha, hq⟩
  · rintro ⟨t, ht, hs, ha, hq⟩
    exact ⟨t.source, hs, t, ht, rfl, ha, hq⟩

theorem mem_move {n : Nfa α} {s : StateSet} {a : α} {q : StateId} :
    q ∈ n.move s a ↔
      ∃ t ∈ n.transitions, t.source ∈ s ∧ Same t.symbol a ∧ Leads n.silentEdges t.target q := by
  rw [move, mem_closure]
  constructor
  · rintro ⟨p, hp, h⟩
    obtain ⟨t, ht, hs, ha, rfl⟩ := mem_step.mp hp
    exact ⟨t, ht, hs, ha, h⟩
  · rintro ⟨t, ht, hs, ha, h⟩
    exact ⟨t.target, mem_step.mpr ⟨t, ht, hs, ha, rfl⟩, h⟩

end Nfa

end Recognizer
