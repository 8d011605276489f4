/-
# What the order of the transitions decides

Transitions and accepting states are kept in the order in which they were added, and a transition
that was added twice is kept twice.  The order is seen wherever an automaton is written down, and by
the searches that make a set of states.  But the simulation only ever holds sets, which forget how
their members were found, and an alphabet has only one order.  So automata with the same transitions
and the same accepting states have the same simulation, set by set, and are made deterministic in
the same way, with the same numbers and the same events.

Two spellings of one symbol would be told apart by the alphabet, which keeps the last one.  This is
why symbols have to be equal when neither comes before the other.

* `SameParts.move_eq`, `SameParts.alphabet_eq`: the sets and the symbols do not depend on the order;
* `SameParts.subsets_eq`: nor does any step of the exploration;
* `determinize_reordered`: nor does the construction.
-/
import Recognizer.Proofs.Lockstep

namespace Recognizer

namespace Nfa

variable {α : Type} {n m : Nfa α} {s : StateSet} {p q : StateId} {a : α} {o : DeterminizeOptions}

/-- `n.SameParts m`: the automata differ at most in the order of their transitions and accepting
states, and in how often they list a transition. -/
structure SameParts (n m : Nfa α) : Prop where
  initial_eq : n.initial = m.initial
  epsilon_eq : n.epsilon = m.epsilon
  mem_transitions_iff : ∀ t, t ∈ n.transitions ↔ t ∈ m.transitions
  mem_accepting_iff : ∀ q, q ∈ n.accepting ↔ q ∈ m.accepting

namespace SameParts

variable (h : n.SameParts m)

include h

/-! ## 1. Sets -/

theorem states_eq : n.states = m.states := by
  apply StateSet.ext
  intro q
  simp only [StateGraph.mem_states, h.initial_eq, h.mem_accepting_iff, h.mem_transitions_iff]

theorem acceptingSet_eq : n.acceptingSet = m.acceptingSet := by
  apply StateSet.ext
  intro q
  rw [acceptingSet, acceptingSet, StateSet.mem_ofList, StateSet.mem_ofList, h.mem_accepting_iff]

variable [Ord α]

theorem isEpsilon_iff : n.IsEpsilon a ↔ m.IsEpsilon a := by
  rw [IsEpsilon, IsEpsilon, h.epsilon_eq]

theorem mem_silentEdges_iff (edge : StateId × StateId) :
    edge ∈ n.silentEdges ↔ edge ∈ m.silentEdges := by
  obtain ⟨p, q⟩ := edge
  simp only [mem_silentEdges, h.mem_transitions_iff, h.isEpsilon_iff]

/-- Silent transitions lead to the same states, whichever is followed first. -/
theorem leads_iff : Leads n.silentEdges p q ↔ Leads m.silentEdges p q :=
  ⟨Leads.mono fun edge => (h.mem_silentEdges_iff edge).mp,
    Leads.mono fun edge => (h.mem_silentEdges_iff edge).mpr⟩

theorem closure_eq (s : StateSet) : n.closure s = m.closure s := by
  apply StateSet.ext
  intro q
  simp only [mem_closure, h.leads_iff]

theorem step_eq (s : StateSet) (a : α) : n.step s a = m.step s a := by
  apply StateSet.ext
  intro q
  simp only [mem_step, h.mem_transitions_iff]

/-- **The simulation moves to the same sets.** -/
theorem move_eq (s : StateSet) (a : α) : n.move s a = m.move s a := by
  rw [move, move, h.step_eq, h.closure_eq]

theorem startSet_eq : n.startSet = m.startSet := by
  rw [startSet, startSet, h.initial_eq, h.closure_eq]

/-! ## 2. Symbols -/

variable [Std.TransOrd α] [Std.LawfulEqOrd α]

/-- **The alphabet has the same symbols in the same order.** -/
theorem alphabet_eq : n.alphabet = m.alphabet := by
  refine Alphabet.eq_of_ascending id n.ascending_alphabet m.ascending_alphabet fun a => ?_
  simp only [mem_alphabet_iff, StateGraph.symbols, Alphabet.mem_ofList_iff, List.mem_map,
    h.mem_transitions_iff, h.isEpsilon_iff]

/-! ## 3. The construction -/

/-- The simulation goes on in the same way from each set. -/
theorem successors_eq (s : StateSet) : n.successors s = m.successors s := by
  simp only [successors, h.alphabet_eq, h.move_eq]

theorem subsets_eq (o : DeterminizeOptions) : n.subsets o = m.subsets o := by
  simp only [subsets, h.startSet_eq, h.successors_eq]

theorem ofExploration_eq (e : Exploration StateSet) :
    Dfa.ofExploration n e = Dfa.ofExploration m e := by
  have htransitions : Dfa.transitionsFrom n e = Dfa.transitionsFrom m e := by
    funext s
    rw [Dfa.transitionsFrom, Dfa.transitionsFrom, h.successors_eq]
  rw [Dfa.ofExploration, Dfa.ofExploration, htransitions, h.acceptingSet_eq, h.alphabet_eq]

end SameParts

end Nfa

variable {α : Type} [Ord α] [Std.TransOrd α] [Std.LawfulEqOrd α] {n m : Nfa α}

/-- **The construction depends on nothing but what the transitions are.** -/
theorem determinize_reordered (h : n.SameParts m) (o : DeterminizeOptions) :
    n.determinize o = m.determinize o := by
  rw [Nfa.determinize_eq, h.subsets_eq, h.states_eq, Nfa.determinize_eq]
  cases m.subsets o with
  | ok e => simp only [h.ofExploration_eq]
  | error met => rfl

/-- `twoExits` with its transitions the other way round, without the one that it repeats and with
another one repeated. -/
def twoExitsBackwards : Nfa Char :=
  ⟨StateGraph.make 0 [⟨5, 'a', 0⟩, ⟨2, 'b', 2⟩, ⟨0, 'a', 1⟩, ⟨1, 'a', 2⟩, ⟨1, 'ε', 0⟩, ⟨0, 'ε', 1⟩,
    ⟨2, 'b', 2⟩] [5, 2], 'ε'⟩

theorem determinize_reordered_two_exits :
    twoExits.SameParts twoExitsBackwards ∧
    twoExits.determinize ⟨2, .fifo⟩ = twoExitsBackwards.determinize ⟨2, .fifo⟩ ∧
    twoExitsBackwards.determinize.outcome = .ok twoExitsDfa := by
  have hthere : ∀ t ∈ twoExits.transitions, t ∈ twoExitsBackwards.transitions := by decide +kernel
  have hback : ∀ t ∈ twoExitsBackwards.transitions, t ∈ twoExits.transitions := by decide +kernel
  have hexits : twoExitsBackwards.accepting = twoExits.accepting.reverse := by decide +kernel
  have hsame : twoExits.SameParts twoExitsBackwards :=
    ⟨rfl, rfl, fun t => ⟨hthere t, hback t⟩, fun q => by rw [hexits, List.mem_reverse]⟩
  have hd : twoExits.determinize.outcome = .ok twoExitsDfa := by decide +kernel
  refine ⟨hsame, determinize_reordered hsame _, ?_⟩
  rw [← determinize_reordered hsame]
  exact hd

end Recognizer
