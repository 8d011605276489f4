/-
# The deterministic automaton in lockstep with the simulation

The deterministic automaton made of an automaton is built from an exploration of sets of states.
When the exploration has stopped, a state stands for each set that it met, and from the state of a
set the automaton steps to the state of the set that the simulation moves to, or not at all if the
simulation dies there.  By induction on the word the two then run side by side, whatever the order
of the worklist, and they accept the same words.

* `Dfa.nextState_stateOf`: one step of the automaton is one move of the simulation;
* `Dfa.after_cases`: both after a whole word;
* `determinize_lockstep`: the same for every prefix of a word, with what it means for acceptance.
-/
import Recognizer.Proofs.Alphabet
import Recognizer.Proofs.Construction
import Recognizer.Proofs.Simulation

namespace Recognizer

variable {α : Type} [Ord α] {n : Nfa α} {o : DeterminizeOptions} {d : Dfa α}
  {e : Exploration StateSet} {s t : StateSet} {a b : α} {w : List α}

/-! ## 1. Moves -/

namespace Nfa

/-- Spellings of one symbol move a set to the same set. -/
theorem move_congr [Std.TransOrd α] (h : Same a b) : n.move s a = n.move s b := by
  apply StateSet.ext
  intro q
  rw [mem_move, mem_move]
  constructor
  · rintro ⟨u, hu, hs, ha, hq⟩
    exact ⟨u, hu, hs, ha.trans h, hq⟩
  · rintro ⟨u, hu, hs, hb, hq⟩
    exact ⟨u, hu, hs, hb.trans h.symm, hq⟩

/-- A symbol on which the simulation goes on is spelled in the alphabet. -/
theorem exists_mem_alphabet_of_move [Std.TransOrd α] (ha : ¬ n.IsEpsilon a)
    (h : (n.move s a).isEmpty = false) : ∃ b ∈ n.alphabet, Same b a := by
  obtain ⟨q, hq⟩ := StateSet.isEmpty_eq_false_iff.mp h
  obtain ⟨u, hu, -, hs, -⟩ := mem_move.mp hq
  exact (exists_mem_alphabet_iff ha).mpr ⟨u, hu, hs⟩

theorem mem_successors_iff :
    (a, t) ∈ n.successors s ↔ a ∈ n.alphabet ∧ t = n.move s a ∧ t.isEmpty = false := by
  simp only [successors, List.mem_filterMap]
  constructor
  · rintro ⟨b, hb, h⟩
    split at h
    · exact absurd h (by simp)
    · rename_i hne
      obtain ⟨rfl, rfl⟩ := Prod.mk.inj (Option.some.inj h)
      exact ⟨hb, rfl, Bool.eq_false_iff.mpr hne⟩
  · rintro ⟨ha, rfl, hne⟩
    exact ⟨a, ha, by simp [hne]⟩

/-! ## 2. The exploration at its end -/

/-- An exploration of the sets of an automaton that has come to its end. -/
structure Explored (n : Nfa α) (o : DeterminizeOptions) (e : Exploration StateSet) : Prop extends
    e.Consistent (fun s => (n.successors s).map (·.2)) n.startSet o.room where
  done : e.pending = []

theorem subsets_explored (h : n.subsets o = .ok e) : n.Explored o e := by
  obtain ⟨hc, hdone⟩ := Exploration.explore_consistent o.one_le_room h
  exact ⟨hc, hdone⟩

/-- The construction succeeds when the exploration does. -/
theorem determinize_outcome_eq_ok_iff :
    (n.determinize o).outcome = .ok d ↔
      ∃ e, n.subsets o = .ok e ∧ Dfa.ofExploration n e = d := by
  rw [determinize_eq]
  cases n.subsets o with
  | ok e => simp
  | error met => simp

/-- A deterministic automaton comes of an exploration that has come to its end. -/
theorem exists_explored (h : (n.determinize o).outcome = .ok d) :
    ∃ e, n.Explored o e ∧ d = Dfa.ofExploration n e := by
  obtain ⟨e, he, rfl⟩ := determinize_outcome_eq_ok_iff.mp h
  exact ⟨e, subsets_explored he, rfl⟩

theorem Explored.startSet_mem (h : n.Explored o e) : n.startSet ∈ e.discovered :=
  List.mem_of_mem_head? h.first

/-- The moves of a set that was met were met too. -/
theorem Explored.move_mem (h : n.Explored o e) (hs : s ∈ e.discovered) (ha : a ∈ n.alphabet)
    (hne : (n.move s a).isEmpty = false) : n.move s a ∈ e.discovered := by
  have hexp : s ∈ e.expanded := (h.mem_expanded_iff h.done).mpr hs
  have hsucc : (a, n.move s a) ∈ n.successors s := mem_successors_iff.mpr ⟨ha, rfl, hne⟩
  exact h.closed s hexp _ (List.mem_map.mpr ⟨_, hsucc, rfl⟩)

end Nfa

/-! ## 3. The automaton of an exploration -/

namespace Dfa

/-- The state of a set knows the set. -/
theorem subset_stateOf (h : n.Explored o e) (hs : s ∈ e.discovered) :
    (ofExploration n e).subset (stateOf e s) = some s := by
  have hnumber : e.number s < e.discovered.length := List.idxOf_lt_length_of_mem hs
  have hlt : e.number s < UInt32.size := by
    have h2 := h.within
    have h3 := o.room_le
    omega
  simp only [subset, stateOf, ofExploration]
  rw [UInt32.toNat_ofNat_of_lt' hlt]
  exact List.getElem?_eq_some_iff.mpr ⟨hnumber, List.getElem_idxOf hnumber⟩

/-- Different sets have different states. -/
theorem stateOf_inj (h : n.Explored o e) (hs : s ∈ e.discovered) (ht : t ∈ e.discovered)
    (heq : stateOf e s = stateOf e t) : s = t := by
  have hsub := subset_stateOf h hs
  rw [heq, subset_stateOf h ht] at hsub
  exact (Option.some.inj hsub).symm

theorem stateOf_startSet (h : n.Explored o e) : stateOf e n.startSet = 0 := by
  obtain ⟨rest, hrest⟩ := List.head?_eq_some_iff.mp h.first
  rw [stateOf, Exploration.number, hrest, List.idxOf_cons_self]
  rfl

theorem isAccepting_stateOf_iff (h : n.Explored o e) (hs : s ∈ e.discovered) :
    (ofExploration n e).IsAccepting (stateOf e s) ↔ ∃ q ∈ s, n.IsAccepting q := by
  rw [← Nfa.intersects_acceptingSet_iff]
  simp only [StateGraph.IsAccepting, ofExploration, StateGraph.make, List.mem_eraseDups,
    List.mem_map, List.mem_filter]
  constructor
  · rintro ⟨t, ⟨ht, hacc⟩, heq⟩
    rw [← stateOf_inj h ht hs heq]
    exact hacc
  · exact fun hacc => ⟨s, ⟨hs, hacc⟩, rfl⟩

theorem mem_transitions_iff (h : n.Explored o e) {u : Transition α} :
    u ∈ (ofExploration n e).transitions ↔ ∃ s ∈ e.discovered, ∃ a ∈ n.alphabet,
      (n.move s a).isEmpty = false ∧ u = ⟨stateOf e s, a, stateOf e (n.move s a)⟩ := by
  simp only [ofExploration, StateGraph.make, List.mem_flatMap, transitionsFrom, List.mem_map,
    h.mem_expanded_iff h.done]
  constructor
  · rintro ⟨s, hs, ⟨a, t⟩, hat, rfl⟩
    obtain ⟨ha, rfl, hne⟩ := Nfa.mem_successors_iff.mp hat
    exact ⟨s, hs, a, ha, hne, rfl⟩
  · rintro ⟨s, hs, a, ha, hne, rfl⟩
    exact ⟨s, hs, (a, n.move s a), Nfa.mem_successors_iff.mpr ⟨ha, rfl, hne⟩, rfl⟩

/-- After one more symbol the automaton is one step further. -/
theorem after_concat (d : Dfa α) (w : List α) (a : α) :
    d.after (w ++ [a]) = (d.after w).bind fun q => d.nextState q a := by
  simp only [after, List.foldlM_append, List.foldlM_cons, List.foldlM_nil]
  cases List.foldlM d.nextState d.initial w with
  | none => rfl
  | some q => exact bind_pure (m := Option) (d.nextState q a)

variable [Std.TransOrd α]

/-- From the state of a set, a symbol leads to the state of the moved set and to no other. -/
theorem mem_targets_stateOf_iff (h : n.Explored o e) (hs : s ∈ e.discovered)
    (ha : ¬ n.IsEpsilon a) {q : StateId} :
    q ∈ (ofExploration n e).targets (stateOf e s) a ↔
      (n.move s a).isEmpty = false ∧ q = stateOf e (n.move s a) := by
  rw [StateGraph.mem_targets]
  constructor
  · rintro ⟨u, hu, hsource, hsame, rfl⟩
    obtain ⟨t, ht, b, -, hne, rfl⟩ := (mem_transitions_iff h).mp hu
    obtain rfl : t = s := stateOf_inj h ht hs hsource
    rw [← Nfa.move_congr hsame]
    exact ⟨hne, rfl⟩
  · rintro ⟨hne, rfl⟩
    obtain ⟨b, hb, hba⟩ := Nfa.exists_mem_alphabet_of_move ha hne
    rw [← Nfa.move_congr hba] at hne ⊢
    exact ⟨_, (mem_transitions_iff h).mpr ⟨s, hs, b, hb, hne, rfl⟩, rfl, hba, rfl⟩

/-- **One step of the automaton is one move of the simulation.** -/
theorem nextState_stateOf (h : n.Explored o e) (hs : s ∈ e.discovered) (ha : ¬ n.IsEpsilon a) :
    (ofExploration n e).nextState (stateOf e s) a =
      if (n.move s a).isEmpty then none else some (stateOf e (n.move s a)) := by
  have hmem := fun q => mem_targets_stateOf_iff h hs ha (q := q)
  rw [StateGraph.nextState]
  cases htargets : (ofExploration n e).targets (stateOf e s) a with
  | nil =>
    have hne : (n.move s a).isEmpty = true := by
      by_contra hne
      have := (hmem _).mpr ⟨Bool.eq_false_iff.mpr hne, rfl⟩
      rw [htargets] at this
      exact absurd this List.not_mem_nil
    rw [if_pos hne]
    rfl
  | cons q qs =>
    obtain ⟨hne, rfl⟩ := (hmem q).mp (by rw [htargets]; exact List.mem_cons_self)
    rw [if_neg (by simp [hne])]
    rfl

/-! ## 4. Whole words -/

/-- **The automaton and the simulation after a word.**  Either both have died, or the automaton is
in the state of the set that the simulation holds. -/
theorem after_cases (h : n.Explored o e) (hw : n.Readable w) :
    ((n.after w).isEmpty = true ∧ (ofExploration n e).after w = none) ∨
      ((n.after w).isEmpty = false ∧ n.after w ∈ e.discovered ∧
        (ofExploration n e).after w = some (stateOf e (n.after w))) := by
  induction w using List.reverseRecOn with
  | nil =>
    refine Or.inr ⟨?_, h.startSet_mem, ?_⟩
    · exact n.startSet_isEmpty
    · exact congrArg some (stateOf_startSet h).symm
  | append_singleton w a ih =>
    obtain ⟨hw, ha⟩ := Nfa.readable_append_iff.mp hw
    have ha : ¬ n.IsEpsilon a := ha a List.mem_cons_self
    rw [Nfa.after_concat, after_concat]
    rcases ih hw with ⟨hempty, hnone⟩ | ⟨-, hmem, hsome⟩
    · exact Or.inl ⟨Nfa.move_isEmpty hempty, by rw [hnone]; rfl⟩
    · rw [hsome, Option.bind_some, nextState_stateOf h hmem ha]
      cases hne : (n.move (n.after w) a).isEmpty with
      | true => exact Or.inl ⟨rfl, if_pos rfl⟩
      | false =>
        refine Or.inr ⟨rfl, ?_, if_neg Bool.false_ne_true⟩
        obtain ⟨b, hb, hba⟩ := Nfa.exists_mem_alphabet_of_move ha hne
        rw [← Nfa.move_congr hba] at hne ⊢
        exact h.move_mem hmem hb hne

/-- Where the simulation lives, the automaton's state stands for its set. -/
theorem after_eq_some (hd : (n.determinize o).outcome = .ok d) (hw : n.Readable w)
    (hne : (n.after w).isEmpty = false) :
    ∃ i, d.after w = some i ∧ d.subset i = some (n.after w) ∧
      (d.IsAccepting i ↔ ∃ q ∈ n.after w, n.IsAccepting q) := by
  obtain ⟨e, h, rfl⟩ := Nfa.exists_explored hd
  rcases after_cases h hw with ⟨hempty, -⟩ | ⟨-, hmem, hsome⟩
  · exact absurd (hempty.symm.trans hne) (by simp)
  · exact ⟨_, hsome, subset_stateOf h hmem, isAccepting_stateOf_iff h hmem⟩

/-- Where the simulation has died, so has the automaton. -/
theorem after_eq_none (hd : (n.determinize o).outcome = .ok d) (hw : n.Readable w)
    (hempty : (n.after w).isEmpty = true) : d.after w = none := by
  obtain ⟨e, h, rfl⟩ := Nfa.exists_explored hd
  rcases after_cases h hw with ⟨-, hnone⟩ | ⟨hne, -⟩
  · exact hnone
  · exact absurd (hempty.symm.trans hne) (by simp)

/-- The automaton accepts what the simulation accepts. -/
theorem accepts_eq (hd : (n.determinize o).outcome = .ok d) (hw : n.Readable w) :
    d.accepts w = n.accepts w := by
  rw [Bool.eq_iff_iff, Nfa.accepts_eq_true_iff]
  cases hne : (n.after w).isEmpty with
  | true =>
    rw [accepts, after_eq_none hd hw hne]
    constructor
    · exact fun h => absurd h Bool.false_ne_true
    · rintro ⟨q, hq, -⟩
      exact absurd hq (StateSet.isEmpty_iff.mp hne q)
  | false =>
    obtain ⟨i, hi, -, hacc⟩ := after_eq_some hd hw hne
    rw [accepts, hi, ← hacc]
    exact decide_eq_true_iff

end Dfa

/-- **Lockstep.**  After each prefix of a word without the epsilon, the deterministic automaton is
in a state that stands for exactly the set that the simulation holds, and that accepts when the
set holds an accepting state; it has stopped if that set is empty.  So both accept the same
words. -/
theorem determinize_lockstep [Std.TransOrd α] (hd : (n.determinize o).outcome = .ok d)
    (hw : n.Readable w) :
    (∀ u, u <+: w →
      ((n.after u).isEmpty = false → ∃ i, d.after u = some i ∧ d.subset i = some (n.after u) ∧
        (d.IsAccepting i ↔ ∃ q ∈ n.after u, n.IsAccepting q)) ∧
      ((n.after u).isEmpty = true → d.after u = none)) ∧
    d.accepts w = n.accepts w := by
  refine ⟨fun u hu => ?_, Dfa.accepts_eq hd hw⟩
  have hread : n.Readable u := fun a ha => hw a (hu.subset ha)
  exact ⟨Dfa.after_eq_some hd hread, Dfa.after_eq_none hd hread⟩

/-- An automaton with two accepting states, a silent cycle, a repeated transition and a state that
nothing reaches. -/
def twoExits : Nfa Char :=
  ⟨StateGraph.make 0 [⟨0, 'ε', 1⟩, ⟨1, 'ε', 0⟩, ⟨1, 'a', 2⟩, ⟨1, 'a', 2⟩, ⟨0, 'a', 1⟩, ⟨2, 'b', 2⟩,
    ⟨5, 'a', 0⟩] [2, 5], 'ε'⟩

def twoExitsDfa : Dfa Char :=
  ⟨StateGraph.make 0 [⟨0, 'a', 1⟩, ⟨1, 'a', 1⟩, ⟨1, 'b', 2⟩, ⟨2, 'b', 2⟩] [1, 2], ['a', 'b'],
    [.ofList [0, 1], .ofList [0, 1, 2], .ofList [2]]⟩

/-- On `ab` both are alive, and on `abc`, which leaves the alphabet, both have died. -/
theorem determinize_lockstep_two_exits :
    twoExits.determinize.outcome = .ok twoExitsDfa ∧ twoExits.Readable ['a', 'b', 'c'] ∧
    (∃ i, twoExitsDfa.after ['a', 'b'] = some i ∧
      twoExitsDfa.subset i = some (twoExits.after ['a', 'b']) ∧
      (twoExitsDfa.IsAccepting i ↔ ∃ q ∈ twoExits.after ['a', 'b'], twoExits.IsAccepting q)) ∧
    twoExitsDfa.after ['a', 'b', 'c'] = none ∧
    twoExitsDfa.accepts ['a', 'b', 'c'] = twoExits.accepts ['a', 'b', 'c'] := by
  have hd : twoExits.determinize.outcome = .ok twoExitsDfa := by decide +kernel
  have hw : twoExits.Readable ['a', 'b', 'c'] := by decide +kernel
  have hlive : (twoExits.after ['a', 'b']).isEmpty = false := by decide +kernel
  have hdead : (twoExits.after ['a', 'b', 'c']).isEmpty = true := by decide +kernel
  obtain ⟨hstages, haccepts⟩ := determinize_lockstep hd hw
  exact ⟨hd, hw, (hstages ['a', 'b'] (by decide)).1 hlive,
    (hstages ['a', 'b', 'c'] (by decide)).2 hdead, haccepts⟩

end Recognizer
