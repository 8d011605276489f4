/-
# What every deterministic automaton looks like

A deterministic automaton is made of an exploration of the sets that the simulation comes to.  What
the exploration has kept all along (`Exploration.Consistent`) becomes what can be said about every
deterministic automaton: its states are numbered without a gap in the order of discovery, each
stands for a set of its own, each can be reached, and a state has at most one transition on each
symbol (`Dfa.Represents`).  None of this depends on the order of the worklist or on the limit.

* `Nfa.Explored.exists_word`: the sets that were met are sets that the simulation holds;
* `Dfa.subset_eq_some_iff`: the states and the sets that they stand for;
* `Dfa.transitions_pairwise`, `Dfa.accepting_pairwise`: the two lists of the graph;
* `determinize_represents`: all together.
-/
import Recognizer.Proofs.Compact
import Recognizer.Proofs.Lockstep

namespace Recognizer

variable {α : Type} [Ord α] {n : Nfa α} {o : DeterminizeOptions} {d : Dfa α}
  {e : Exploration StateSet} {s t : StateSet} {p q : StateId} {a : α} {u v w : List α}

/-! ## 1. The sets that are met -/

namespace Nfa

/-- Every set that the start leads to is what the simulation holds after some word, and it is not
empty.  The word has one symbol for each step of the chain. -/
theorem exists_word_of_reached
    (h : Exploration.Reached (fun s => (n.successors s).map (·.2)) n.startSet s) :
    ∃ w, n.Readable w ∧ n.after w = s ∧ s.isEmpty = false := by
  induction h with
  | refl => exact ⟨[], List.forall_mem_nil _, rfl, n.startSet_isEmpty⟩
  | tail _ hsucc ih =>
    obtain ⟨w, hw, rfl, -⟩ := ih
    obtain ⟨⟨a, t⟩, hat, rfl⟩ := List.mem_map.mp hsucc
    obtain ⟨ha, rfl, hne⟩ := mem_successors_iff.mp hat
    have hread : n.Readable [a] := List.forall_mem_singleton.mpr (mem_alphabet_iff.mp ha).2
    exact ⟨w ++ [a], readable_append_iff.mpr ⟨hw, hread⟩, n.after_concat w a, hne⟩

/-- What the simulation holds after a word is a set that the start leads to, or empty. -/
theorem reached_after [Std.TransOrd α] (hw : n.Readable w) (hne : (n.after w).isEmpty = false) :
    Exploration.Reached (fun s => (n.successors s).map (·.2)) n.startSet (n.after w) := by
  induction w using List.reverseRecOn with
  | nil => exact .refl
  | append_singleton w a ih =>
    obtain ⟨hw, ha⟩ := readable_append_iff.mp hw
    rw [after_concat] at hne ⊢
    obtain ⟨b, hb, hba⟩ := exists_mem_alphabet_of_move (ha a List.mem_cons_self) hne
    rw [← move_congr hba] at hne ⊢
    have hlive : (n.after w).isEmpty = false := by
      refine Bool.eq_false_iff.mpr fun hempty => ?_
      exact Bool.eq_false_iff.mp hne (move_isEmpty hempty)
    have hsucc : (b, n.move (n.after w) b) ∈ n.successors (n.after w) :=
      mem_successors_iff.mpr ⟨hb, rfl, hne⟩
    exact (ih hw hlive).tail (List.mem_map.mpr ⟨_, hsucc, rfl⟩)

/-- **Every set that was met is what the simulation holds after some word.** -/
theorem Explored.exists_word (h : n.Explored o e) (hs : s ∈ e.discovered) :
    ∃ w, n.Readable w ∧ n.after w = s ∧ s.isEmpty = false :=
  exists_word_of_reached (h.reached s hs)

/-- The simulation holds states of the automaton. -/
theorem mem_states_of_mem_after [Std.TransOrd α] (hw : n.Readable w) (hq : q ∈ n.after w) :
    q ∈ n.states :=
  StateGraph.mem_states_of_leads n.initial_mem_states ((mem_after_iff hw).mp hq).leads

end Nfa

/-! ## 2. The states that stand for them -/

namespace Dfa

/-- The state of a set is the number of the set. -/
theorem toNat_stateOf (h : n.Explored o e) (hs : s ∈ e.discovered) :
    (stateOf e s).toNat = e.number s := by
  have hnumber : e.number s < e.discovered.length := List.idxOf_lt_length_of_mem hs
  have hwithin := h.within
  have hroom := o.room_le
  exact UInt32.toNat_ofNat_of_lt' (by omega)

theorem stateOf_lt (h : n.Explored o e) (hs : s ∈ e.discovered) :
    (stateOf e s).toNat < (ofExploration n e).numStates := by
  rw [toNat_stateOf h hs]
  exact List.idxOf_lt_length_of_mem hs

/-- **A state stands for a set exactly when the set was met and has the number of the state.** -/
theorem subset_eq_some_iff (h : n.Explored o e) :
    (ofExploration n e).subset q = some s ↔ s ∈ e.discovered ∧ stateOf e s = q := by
  constructor
  · intro hq
    obtain ⟨hlt, hget⟩ := List.getElem?_eq_some_iff.mp hq
    have hget : e.discovered[q.toNat] = s := hget
    have hs : s ∈ e.discovered := hget ▸ List.getElem_mem hlt
    have hnumber : e.number s = q.toNat := hget ▸ h.nodup.idxOf_getElem q.toNat hlt
    exact ⟨hs, UInt32.toNat_inj.mp ((toNat_stateOf h hs).trans hnumber)⟩
  · rintro ⟨hs, rfl⟩
    exact subset_stateOf h hs

/-- Every state stands for a set. -/
theorem exists_stateOf (h : n.Explored o e) (hq : q.toNat < (ofExploration n e).numStates) :
    ∃ s ∈ e.discovered, stateOf e s = q :=
  ⟨_, (subset_eq_some_iff h).mp (List.getElem?_eq_getElem hq)⟩

/-- States are numbered in the order of discovery. -/
theorem stateOf_pairwise (h : n.Explored o e) :
    e.discovered.Pairwise fun s t => stateOf e s < stateOf e t := by
  rw [List.pairwise_iff_getElem]
  intro i j hi hj hij
  rw [UInt32.lt_iff_toNat_lt, toNat_stateOf h (List.getElem_mem hi),
    toNat_stateOf h (List.getElem_mem hj), Exploration.number, Exploration.number,
    h.nodup.idxOf_getElem, h.nodup.idxOf_getElem]
  exact hij

/-- The accepting states are the states of the sets that hold an accepting state, in the order of
discovery. -/
theorem accepting_eq (h : n.Explored o e) : (ofExploration n e).accepting =
    (e.discovered.filter fun s => s.intersects n.acceptingSet).map (stateOf e) := by
  have hascending := (stateOf_pairwise h).filter fun s => s.intersects n.acceptingSet
  exact eraseDups_of_nodup (List.pairwise_map.mpr (hascending.imp UInt32.ne_of_lt))

theorem accepting_pairwise (h : n.Explored o e) :
    (ofExploration n e).accepting.Pairwise (· < ·) := by
  rw [accepting_eq h]
  exact List.pairwise_map.mpr ((stateOf_pairwise h).filter _)

/-! ## 3. The transitions -/

/-- What leaves one state goes by ascending symbols. -/
theorem successors_ascending [Std.TransOrd α] (n : Nfa α) (s : StateSet) :
    (n.successors s).Pairwise fun x y => compare x.1 y.1 = .lt := by
  rw [Nfa.successors, List.pairwise_filterMap]
  refine n.ascending_alphabet.imp fun {a b} hab => ?_
  intro x hx y hy
  dsimp only at hx hy
  split at hx
  · exact absurd hx (by simp)
  · split at hy
    · exact absurd hy (by simp)
    · obtain rfl := Option.some.inj hx
      obtain rfl := Option.some.inj hy
      exact hab

/-- What leaves one state goes by the symbols of the alphabet, each at most once. -/
theorem transitionsFrom_pairwise [Std.TransOrd α] (n : Nfa α) (e : Exploration StateSet)
    (s : StateSet) : (transitionsFrom n e s).Pairwise fun t u => ¬ Same t.symbol u.symbol := by
  rw [transitionsFrom, List.pairwise_map]
  refine (successors_ascending n s).imp fun {x y} hlt hsame => ?_
  exact absurd (hlt.symm.trans hsame) (by decide)

/-- **No two transitions leave one state on one symbol.** -/
theorem transitions_pairwise [Std.TransOrd α] (h : n.Explored o e) :
    (ofExploration n e).transitions.Pairwise
      fun t u => ¬ (t.source = u.source ∧ Same t.symbol u.symbol) := by
  have hexpanded : ∀ s ∈ e.expanded, s ∈ e.discovered :=
    fun s hs => (h.mem_expanded_iff h.done).mp hs
  simp only [ofExploration, StateGraph.make]
  rw [List.pairwise_flatMap]
  constructor
  · intro s _
    exact (transitionsFrom_pairwise n e s).imp fun hne hsame => hne hsame.2
  · have hnodup : e.expanded.Nodup := (h.expanded_perm h.done).nodup_iff.mpr h.nodup
    refine hnodup.imp_of_mem fun {s t} hs ht hne x hx y hy hsame => hne ?_
    obtain ⟨_, -, rfl⟩ := List.mem_map.mp hx
    obtain ⟨_, -, rfl⟩ := List.mem_map.mp hy
    exact stateOf_inj h (hexpanded s hs) (hexpanded t ht) hsame.1

/-! ## 4. Walks of the automaton -/

/-- What a symbol leads to is joined by a transition. -/
theorem mem_edges_of_nextState (h : d.nextState p a = some q) : (p, q) ∈ d.edges := by
  obtain ⟨t, ht, hsource, -, htarget⟩ := StateGraph.mem_targets.mp (List.mem_of_head? h)
  exact StateGraph.mem_edges.mpr ⟨t, ht, hsource, htarget⟩

/-- The run over a word goes along transitions. -/
theorem leads_of_after_append (hp : d.after u = some p) (hq : d.after (u ++ v) = some q) :
    Leads d.edges p q := by
  induction v using List.reverseRecOn generalizing q with
  | nil =>
    rw [List.append_nil, hp] at hq
    exact Option.some.inj hq ▸ .refl
  | append_singleton v a ih =>
    rw [← List.append_assoc, after_concat] at hq
    obtain ⟨r, hr, hstep⟩ := Option.bind_eq_some_iff.mp hq
    exact (ih hr).tail (mem_edges_of_nextState hstep)

variable [Std.TransOrd α]

/-- The run over a word comes to the state of each set that was met. -/
theorem exists_after_eq_stateOf (h : n.Explored o e) (hs : s ∈ e.discovered) :
    ∃ w, n.Readable w ∧ n.after w = s ∧ (ofExploration n e).after w = some (stateOf e s) := by
  obtain ⟨w, hw, rfl, hne⟩ := h.exists_word hs
  rcases after_cases h hw with ⟨hempty, -⟩ | ⟨-, -, hafter⟩
  · exact absurd (hempty.symm.trans hne) (by simp)
  · exact ⟨w, hw, rfl, hafter⟩

/-! ## 5. All together -/

/-- `d.Represents n`: how a deterministic automaton looks that stands for `n`. -/
structure Represents (d : Dfa α) (n : Nfa α) : Prop where
  /-- There is an identifier for each state. -/
  numStates_le : d.numStates ≤ UInt32.size
  initial_eq : d.initial = 0
  subset_initial : d.subset 0 = some (n.closure (.singleton n.initial))
  /-- No two states stand for one set. -/
  subsets_nodup : d.subsets.Nodup
  subset_nonempty : ∀ s ∈ d.subsets, ∃ q, q ∈ s
  subset_ascending : ∀ s ∈ d.subsets, s.members.Pairwise (· < ·)
  subset_within : ∀ s ∈ d.subsets, ∀ q ∈ s, q ∈ n.states
  ends_lt : ∀ t ∈ d.transitions, t.source.toNat < d.numStates ∧ t.target.toNat < d.numStates
  symbol_mem : ∀ t ∈ d.transitions, t.symbol ∈ d.alphabet
  deterministic :
    d.transitions.Pairwise fun t u => ¬ (t.source = u.source ∧ Same t.symbol u.symbol)
  reached : ∀ q : StateId, q.toNat < d.numStates → Leads d.edges 0 q
  accepting_ascending : d.accepting.Pairwise (· < ·)
  isAccepting_iff : ∀ q, d.IsAccepting q ↔ ∃ s, d.subset q = some s ∧ ∃ p ∈ s, n.IsAccepting p

/-- **The automaton of an exploration looks like that.** -/
theorem represents_ofExploration (h : n.Explored o e) : (ofExploration n e).Represents n where
  numStates_le := Nat.le_trans h.within o.room_le
  initial_eq := rfl
  subset_initial := (subset_eq_some_iff h).mpr ⟨h.startSet_mem, stateOf_startSet h⟩
  subsets_nodup := h.nodup
  subset_nonempty := by
    intro s hs
    obtain ⟨w, -, -, hne⟩ := h.exists_word hs
    exact StateSet.isEmpty_eq_false_iff.mp hne
  subset_ascending := fun s _ => s.ascending
  subset_within := by
    intro s hs q hq
    obtain ⟨w, hw, rfl, -⟩ := h.exists_word hs
    exact Nfa.mem_states_of_mem_after hw hq
  ends_lt := by
    intro t ht
    obtain ⟨s, hs, a, ha, hne, rfl⟩ := (mem_transitions_iff h).mp ht
    exact ⟨stateOf_lt h hs, stateOf_lt h (h.move_mem hs ha hne)⟩
  symbol_mem := by
    intro t ht
    obtain ⟨s, -, a, ha, -, rfl⟩ := (mem_transitions_iff h).mp ht
    exact ha
  deterministic := transitions_pairwise h
  reached := by
    intro q hq
    obtain ⟨s, hs, rfl⟩ := exists_stateOf h hq
    obtain ⟨w, -, -, hafter⟩ := exists_after_eq_stateOf h hs
    exact leads_of_after_append (u := []) rfl hafter
  accepting_ascending := accepting_pairwise h
  isAccepting_iff := by
    intro q
    constructor
    · intro hq
      have hmem : q ∈ (ofExploration n e).accepting := hq
      rw [accepting_eq h] at hmem
      obtain ⟨s, hs, rfl⟩ := List.mem_map.mp hmem
      have hs : s ∈ e.discovered := (List.mem_filter.mp hs).1
      exact ⟨s, subset_stateOf h hs, (isAccepting_stateOf_iff h hs).mp hq⟩
    · rintro ⟨s, hsubset, hacc⟩
      obtain ⟨hs, rfl⟩ := (subset_eq_some_iff h).mp hsubset
      exact (isAccepting_stateOf_iff h hs).mpr hacc

end Dfa

/-- **What every deterministic automaton looks like.**  Whatever the order of the worklist and the
limit on states, the states are numbered from the initial state 0 on, each stands for a set of its
own of states of the automaton, each can be reached, and each has at most one transition on each
symbol of the alphabet. -/
theorem determinize_represents [Std.TransOrd α] (hd : (n.determinize o).outcome = .ok d) :
    d.Represents n := by
  obtain ⟨e, h, rfl⟩ := Nfa.exists_explored hd
  exact Dfa.represents_ofExploration h

/-- Two ways on `a` that meet behind a silent transition.  Nothing leads to the state with the
transition on `c`. -/
def meetingWays : Nfa Char :=
  ⟨StateGraph.make 4 [⟨4, 'b', 3⟩, ⟨4, 'a', 1⟩, ⟨4, 'a', 3⟩, ⟨3, 'ε', 1⟩, ⟨1, 'b', 4⟩, ⟨7, 'c', 4⟩]
    [3, 7], 'ε'⟩

def meetingWaysDfa : Dfa Char :=
  ⟨StateGraph.make 0 [⟨0, 'a', 1⟩, ⟨0, 'b', 1⟩, ⟨1, 'b', 0⟩] [1], ['a', 'b', 'c'],
    [.ofList [4], .ofList [1, 3]]⟩

theorem determinize_represents_meeting_ways :
    (meetingWays.determinize ⟨2, .fifo⟩).outcome = .ok meetingWaysDfa ∧
      meetingWaysDfa.Represents meetingWays := by
  have hd : (meetingWays.determinize ⟨2, .fifo⟩).outcome = .ok meetingWaysDfa := by
    decide +kernel
  exact ⟨hd, determinize_represents hd⟩

end Recognizer
