/-
# Making a deterministic automaton deterministic again

A deterministic automaton is a graph like any other, and so it can be given an epsilon and be made
deterministic once more.  If no transition is on that epsilon, the simulation holds one state at a
time: where the first construction met a set, the second one meets the set with just the state that
stands for it (`Dfa.singletonOf`).  The second construction is the first one with its sets renamed
in this way.  It meets them in the same order and gives them the same numbers, although its alphabet
may be smaller, since it reads no symbol that the first construction never went on with.

* `Dfa.successors_withEpsilon`: the simulation goes on to the renamed sets, on the same symbols;
* `Dfa.corresponds_withEpsilon`: the sets of the two simulations correspond;
* `determinize_again`: the graph is the same.
-/
import Recognizer.Proofs.Correspondence

namespace Recognizer

/-! ## 1. The simulation of a deterministic automaton -/

variable {α : Type} [Ord α] {n : Nfa α} {o : DeterminizeOptions} {d d' : Dfa α}
  {e : Exploration StateSet} {s t : StateSet} {p q : StateId} {a epsilon : α}

namespace Dfa

/-- The graph of a deterministic automaton, with a symbol for silent transitions. -/
def withEpsilon (d : Dfa α) (epsilon : α) : Nfa α := ⟨d.toStateGraph, epsilon⟩

/-- `d.Avoids a`: no transition is on the symbol. -/
def Avoids (d : Dfa α) (a : α) : Prop := ∀ t ∈ d.transitions, ¬ Same t.symbol a

instance (d : Dfa α) (a : α) : Decidable (d.Avoids a) :=
  inferInstanceAs (Decidable (∀ t ∈ d.transitions, ¬ Same t.symbol a))

theorem silentEdges_withEpsilon (h : d.Avoids epsilon) :
    (d.withEpsilon epsilon).silentEdges = [] := by
  refine List.eq_nil_iff_forall_not_mem.mpr fun edge hedge => ?_
  obtain ⟨t, ht, hsilent, -, -⟩ := Nfa.mem_silentEdges.mp hedge
  exact h t ht hsilent

/-- Without silent transitions a set is closed. -/
theorem closure_withEpsilon (h : d.Avoids epsilon) : (d.withEpsilon epsilon).closure s = s := by
  apply StateSet.ext
  intro q
  rw [Nfa.mem_closure, silentEdges_withEpsilon h]
  constructor
  · rintro ⟨p, hp, hleads⟩
    cases hleads with
    | refl => exact hp
    | tail _ hedge => exact absurd hedge List.not_mem_nil
  · exact fun hq => ⟨q, hq, .refl⟩

theorem mem_move_withEpsilon (h : d.Avoids epsilon) :
    q ∈ (d.withEpsilon epsilon).move (.singleton p) a ↔ q ∈ d.targets p a := by
  rw [Nfa.move, closure_withEpsilon h, Nfa.mem_step, StateGraph.mem_targets]
  simp only [StateSet.mem_singleton]
  rfl

/-- The set with just the state that stands for a set. -/
def singletonOf (e : Exploration StateSet) (s : StateSet) : StateSet := .singleton (stateOf e s)

theorem singletonOf_injOn (h : n.Explored o e) :
    Set.InjOn (singletonOf e) {s | s ∈ e.discovered} := by
  intro s hs t ht heq
  exact stateOf_inj h hs ht (List.singleton_inj.mp (congrArg StateSet.members heq))

/-- A set with one state accepts when the state does. -/
theorem intersects_singletonOf (h : n.Explored o e) (hs : s ∈ e.discovered) :
    (singletonOf e s).intersects ((ofExploration n e).withEpsilon epsilon).acceptingSet =
      s.intersects n.acceptingSet := by
  rw [Bool.eq_iff_iff, Nfa.intersects_acceptingSet_iff, Nfa.intersects_acceptingSet_iff,
    ← isAccepting_stateOf_iff h hs]
  simp only [singletonOf, StateSet.mem_singleton, exists_eq_left]
  rfl

variable [Std.TransOrd α]

/-- A symbol leads from the state of a set to the state of the moved set. -/
theorem move_singletonOf (h : n.Explored o e) (hepsilon : (ofExploration n e).Avoids epsilon)
    (hs : s ∈ e.discovered) (ha : ¬ n.IsEpsilon a) :
    ((ofExploration n e).withEpsilon epsilon).move (singletonOf e s) a =
      if (n.move s a).isEmpty then .empty else singletonOf e (n.move s a) := by
  apply StateSet.ext
  intro q
  rw [singletonOf, mem_move_withEpsilon hepsilon, mem_targets_stateOf_iff h hs ha]
  cases hempty : (n.move s a).isEmpty with
  | true => simp [StateSet.not_mem_empty]
  | false => simp [singletonOf, StateSet.mem_singleton]

/-- The symbols that are read are the labels of the transitions. -/
theorem mem_alphabet_withEpsilon (h : n.Explored o e)
    (hepsilon : (ofExploration n e).Avoids epsilon) :
    a ∈ ((ofExploration n e).withEpsilon epsilon).alphabet ↔
      ∃ t ∈ (ofExploration n e).transitions, t.symbol = a := by
  have hlabel : ∀ {b}, b ∈ ((ofExploration n e).withEpsilon epsilon).alphabet →
      ∃ t ∈ (ofExploration n e).transitions, t.symbol = b := fun hb =>
    List.mem_map.mp (Alphabet.mem_of_mem_ofList (Nfa.mem_alphabet_iff.mp hb).1)
  have hmem : ∀ t ∈ (ofExploration n e).transitions, t.symbol ∈ n.alphabet := by
    intro t ht
    obtain ⟨s, -, b, hb, -, rfl⟩ := (mem_transitions_iff h).mp ht
    exact hb
  constructor
  · exact hlabel
  · rintro ⟨t, ht, rfl⟩
    -- Some label is spelled in the alphabet, and the labels have one spelling each.
    have hread : ¬ ((ofExploration n e).withEpsilon epsilon).IsEpsilon t.symbol := hepsilon t ht
    obtain ⟨b, hb, hsame⟩ := (Nfa.exists_mem_alphabet_iff hread).mpr ⟨t, ht, Same.refl t.symbol⟩
    obtain ⟨u, hu, rfl⟩ := hlabel hb
    rwa [n.ascending_alphabet.eq_of_same (hmem u hu) (hmem t ht) hsame] at hb

/-- **The simulation goes on to the renamed sets, on the same symbols.** -/
theorem successors_withEpsilon (h : n.Explored o e)
    (hepsilon : (ofExploration n e).Avoids epsilon) (hs : s ∈ e.discovered) :
    ((ofExploration n e).withEpsilon epsilon).successors (singletonOf e s) =
      (n.successors s).map fun (a, t) => (a, singletonOf e t) := by
  have hascending : ((n.successors s).map fun (a, t) => (a, singletonOf e t)).Pairwise
      fun x y => compare x.1 y.1 = .lt :=
    List.pairwise_map.mpr (successors_ascending n s)
  refine Alphabet.eq_of_ascending Prod.fst (successors_ascending _ _) hascending fun (a, t) => ?_
  rw [Nfa.mem_successors_iff, mem_alphabet_withEpsilon h hepsilon, List.mem_map]
  constructor
  · rintro ⟨⟨u, hu, rfl⟩, rfl, hne⟩
    obtain ⟨_, -, b, hb, -, rfl⟩ := (mem_transitions_iff h).mp hu
    have hmove := move_singletonOf h hepsilon hs (Nfa.mem_alphabet_iff.mp hb).2
    cases hempty : (n.move s b).isEmpty with
    | true =>
      rw [hmove, if_pos hempty] at hne
      exact absurd hne (by decide)
    | false =>
      rw [hmove, if_neg (by simp [hempty])]
      exact ⟨(b, n.move s b), Nfa.mem_successors_iff.mpr ⟨hb, rfl, hempty⟩, rfl⟩
  · rintro ⟨⟨b, t⟩, hbt, heq⟩
    obtain ⟨rfl, rfl⟩ := Prod.mk.inj heq
    obtain ⟨hb, rfl, hne⟩ := Nfa.mem_successors_iff.mp hbt
    have hmove := move_singletonOf h hepsilon hs (Nfa.mem_alphabet_iff.mp hb).2
    rw [hmove, if_neg (by simp [hne])]
    exact ⟨⟨_, (mem_transitions_iff h).mpr ⟨s, hs, b, hb, hne, rfl⟩, rfl⟩, rfl, rfl⟩

/-! ## 2. The second construction -/

/-- **The sets of the two simulations correspond.** -/
theorem corresponds_withEpsilon (h : n.Explored o e)
    (hepsilon : (ofExploration n e).Avoids epsilon) :
    n.Corresponds ((ofExploration n e).withEpsilon epsilon) (singletonOf e)
      {s | s ∈ e.discovered} where
  injOn := singletonOf_injOn h
  startSet_mem := h.startSet_mem
  closed := by
    rintro s hs ⟨a, t⟩ hx
    obtain ⟨ha, rfl, hne⟩ := Nfa.mem_successors_iff.mp hx
    exact h.move_mem hs ha hne
  startSet_eq := by
    rw [Nfa.startSet, closure_withEpsilon hepsilon, singletonOf, stateOf_startSet h]
    rfl
  successors_eq := fun _ hs => successors_withEpsilon h hepsilon hs
  intersects_eq := fun _ hs => intersects_singletonOf h hs

/-- **The second exploration is the first one, renamed.** -/
theorem subsets_withEpsilon (he : n.subsets o = .ok e)
    (hepsilon : (ofExploration n e).Avoids epsilon) :
    ((ofExploration n e).withEpsilon epsilon).subsets o = .ok (e.map (singletonOf e)) := by
  rw [(corresponds_withEpsilon (Nfa.subsets_explored he) hepsilon).subsets_eq, he]
  rfl

/-- `d'.Restates d`: an automaton with the graph of another one, whose states stand for themselves
and whose alphabet is made of the labels. -/
structure Restates (d' d : Dfa α) : Prop where
  graph_eq : d'.toStateGraph = d.toStateGraph
  numStates_eq : d'.numStates = d.numStates
  subset_eq : ∀ q : StateId, q.toNat < d.numStates → d'.subset q = some (.singleton q)
  alphabet_ascending : Alphabet.Ascending d'.alphabet
  mem_alphabet_iff : ∀ a, a ∈ d'.alphabet ↔ ∃ t ∈ d.transitions, t.symbol = a

theorem restates_withEpsilon (h : n.Explored o e) (hepsilon : (ofExploration n e).Avoids epsilon)
    (h' : ((ofExploration n e).withEpsilon epsilon).Explored o (e.map (singletonOf e))) :
    (ofExploration ((ofExploration n e).withEpsilon epsilon) (e.map (singletonOf e))).Restates
      (ofExploration n e) where
  graph_eq := (corresponds_withEpsilon h hepsilon).toStateGraph_eq h
  numStates_eq := List.length_map _
  subset_eq := by
    intro q hq
    obtain ⟨s, hs, rfl⟩ := exists_stateOf h hq
    have hstate := (corresponds_withEpsilon h hepsilon).stateOf_eq h hs
    exact (subset_eq_some_iff h').mpr ⟨List.mem_map_of_mem hs, hstate⟩
  alphabet_ascending := Nfa.ascending_alphabet _
  mem_alphabet_iff := fun _ => mem_alphabet_withEpsilon h hepsilon

end Dfa

/-- **To make a deterministic automaton deterministic again changes nothing but what its states
stand for.**  The epsilon may be any symbol that no transition is on, such as the one that the first
automaton had. -/
theorem determinize_again [Std.TransOrd α] (hd : (n.determinize o).outcome = .ok d) :
    d.Avoids n.epsilon ∧ ∀ epsilon, d.Avoids epsilon →
      ∃ d', ((d.withEpsilon epsilon).determinize o).outcome = .ok d' ∧ d'.Restates d := by
  obtain ⟨e, he, rfl⟩ := Nfa.determinize_outcome_eq_ok_iff.mp hd
  have h : n.Explored o e := Nfa.subsets_explored he
  constructor
  · intro t ht
    obtain ⟨s, -, a, ha, -, rfl⟩ := (Dfa.mem_transitions_iff h).mp ht
    exact (Nfa.mem_alphabet_iff.mp ha).2
  · intro epsilon hepsilon
    have he' := Dfa.subsets_withEpsilon he hepsilon
    exact ⟨_, Nfa.determinize_outcome_eq_ok_iff.mpr ⟨_, he', rfl⟩,
      Dfa.restates_withEpsilon h hepsilon (Nfa.subsets_explored he')⟩

/-- An automaton with a way back and a symbol that is never read. -/
def wayBack : Nfa Char :=
  ⟨StateGraph.make 0 [⟨0, 'a', 1⟩, ⟨0, 'b', 2⟩, ⟨1, 'a', 3⟩, ⟨2, 'b', 0⟩, ⟨3, 'ε', 2⟩, ⟨5, 'c', 0⟩]
    [3], 'ε'⟩

/-- The state 2 is expanded before the state 1. -/
def wayBackDfa : Dfa Char :=
  ⟨StateGraph.make 0 [⟨0, 'a', 1⟩, ⟨0, 'b', 2⟩, ⟨2, 'b', 0⟩, ⟨1, 'a', 3⟩, ⟨3, 'b', 0⟩] [3],
    ['a', 'b', 'c'], [.ofList [0], .ofList [1], .ofList [2], .ofList [2, 3]]⟩

/-- The symbol that is never read may become the epsilon. -/
theorem determinize_again_way_back :
    wayBack.determinize.outcome = .ok wayBackDfa ∧ wayBackDfa.Avoids 'c' ∧
    ∃ d', (wayBackDfa.withEpsilon 'c').determinize.outcome = .ok d' ∧ d'.Restates wayBackDfa := by
  have hd : wayBack.determinize.outcome = .ok wayBackDfa := by decide +kernel
  have hepsilon : wayBackDfa.Avoids 'c' := by decide +kernel
  obtain ⟨-, hagain⟩ := determinize_again hd
  exact ⟨hd, hepsilon, hagain 'c' hepsilon⟩

end Recognizer
