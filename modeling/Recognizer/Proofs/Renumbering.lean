/-
# What the order of the worklist decides

Explorations in different orders meet the same sets, since these are the sets that the start leads
to.  They meet them in different orders, so a set has one number in the one and another number in
the other.  Matching the states that stand for the same set (`Dfa.counterpart`) is then all that it
takes to turn one deterministic automaton into the other, up to the order in which transitions and
accepting states are listed (`Dfa.RenumbersTo`).

* `Explored.discovered_perm`: the sets that two explorations meet;
* `counterpart_stateOf`: states that match stand for one set;
* `transitions_perm`, `accepting_perm`: the graphs, renamed;
* `determinize_orders`: both constructions without a limit.
-/
import Mathlib.Data.Set.Function
import Recognizer.Proofs.Limit

namespace Recognizer

open scoped List

variable {α : Type} [Ord α] {n : Nfa α} {o o' : DeterminizeOptions} {d d' : Dfa α}
  {e e' : Exploration StateSet} {s : StateSet} {q q' : StateId}

/-! ## 1. States that stand for one set -/

namespace Dfa

/-- The state of another automaton that stands for the same set as a state of this one. -/
def counterpart (d d' : Dfa α) (q : StateId) : StateId :=
  UInt32.ofNat (d'.subsets.idxOf ((d.subset q).getD ∅))

/-- `d.RenumbersTo d'`: the automata differ at most in how their states are numbered and in the
order in which their transitions and accepting states are listed. -/
structure RenumbersTo (d d' : Dfa α) : Prop where
  alphabet_eq : d.alphabet = d'.alphabet
  /-- States stand for the same sets. -/
  mem_subsets_iff : ∀ s, s ∈ d.subsets ↔ s ∈ d'.subsets
  /-- Each state has one counterpart, and is the counterpart of one state. -/
  bijOn : Set.BijOn (d.counterpart d') {q | q.toNat < d.numStates} {q | q.toNat < d'.numStates}
  /-- Counterparts are the states with equal sets. -/
  counterpart_eq_iff : ∀ q q' : StateId, q.toNat < d.numStates → q'.toNat < d'.numStates →
    (d.counterpart d' q = q' ↔ d.subset q = d'.subset q')
  counterpart_zero : d.counterpart d' 0 = 0
  accepting_perm : d.accepting.map (d.counterpart d') ~ d'.accepting
  transitions_perm : d.transitions.map (·.rename (d.counterpart d')) ~ d'.transitions

end Dfa

/-! ## 2. Two explorations of one automaton -/

namespace Nfa

/-- Two explorations meet the same sets. -/
theorem Explored.mem_discovered_iff_of (h : n.Explored o e) (h' : n.Explored o' e') :
    s ∈ e.discovered ↔ s ∈ e'.discovered :=
  (h.mem_discovered_iff h.done).trans (h'.mem_discovered_iff h'.done).symm

theorem Explored.discovered_perm (h : n.Explored o e) (h' : n.Explored o' e') :
    e.discovered ~ e'.discovered :=
  (List.perm_ext_iff_of_nodup h.nodup h'.nodup).mpr fun _ => h.mem_discovered_iff_of h'

end Nfa

namespace Dfa

/-- **Counterparts stand for one set.** -/
theorem counterpart_stateOf (h : n.Explored o e) (hs : s ∈ e.discovered) :
    (ofExploration n e).counterpart (ofExploration n e') (stateOf e s) = stateOf e' s := by
  rw [counterpart, subset_stateOf h hs]
  rfl

theorem counterpart_mapsTo (h : n.Explored o e) (h' : n.Explored o' e') :
    Set.MapsTo ((ofExploration n e).counterpart (ofExploration n e'))
      {q | q.toNat < (ofExploration n e).numStates}
      {q | q.toNat < (ofExploration n e').numStates} := by
  intro q hq
  obtain ⟨s, hs, rfl⟩ := exists_stateOf h hq
  rw [counterpart_stateOf h hs]
  exact stateOf_lt h' ((h.mem_discovered_iff_of h').mp hs)

theorem counterpart_injOn (h : n.Explored o e) (h' : n.Explored o' e') :
    Set.InjOn ((ofExploration n e).counterpart (ofExploration n e'))
      {q | q.toNat < (ofExploration n e).numStates} := by
  intro q hq r hr heq
  obtain ⟨s, hs, rfl⟩ := exists_stateOf h hq
  obtain ⟨t, ht, rfl⟩ := exists_stateOf h hr
  rw [counterpart_stateOf h hs, counterpart_stateOf h ht] at heq
  rw [stateOf_inj h' ((h.mem_discovered_iff_of h').mp hs) ((h.mem_discovered_iff_of h').mp ht) heq]

theorem counterpart_surjOn (h : n.Explored o e) (h' : n.Explored o' e') :
    Set.SurjOn ((ofExploration n e).counterpart (ofExploration n e'))
      {q | q.toNat < (ofExploration n e).numStates}
      {q | q.toNat < (ofExploration n e').numStates} := by
  intro q' hq'
  obtain ⟨s, hs', rfl⟩ := exists_stateOf h' hq'
  have hs : s ∈ e.discovered := (h.mem_discovered_iff_of h').mpr hs'
  exact ⟨stateOf e s, stateOf_lt h hs, counterpart_stateOf h hs⟩

theorem counterpart_eq_iff (h : n.Explored o e) (h' : n.Explored o' e')
    (hq : q.toNat < (ofExploration n e).numStates)
    (hq' : q'.toNat < (ofExploration n e').numStates) :
    (ofExploration n e).counterpart (ofExploration n e') q = q' ↔
      (ofExploration n e).subset q = (ofExploration n e').subset q' := by
  obtain ⟨s, hs, rfl⟩ := exists_stateOf h hq
  obtain ⟨s', hs', rfl⟩ := exists_stateOf h' hq'
  rw [counterpart_stateOf h hs, subset_stateOf h hs, subset_stateOf h' hs', Option.some.injEq]
  constructor
  · exact stateOf_inj h' ((h.mem_discovered_iff_of h').mp hs) hs'
  · exact congrArg (stateOf e')

/-! ## 3. The graphs, renamed -/

theorem accepting_perm (h : n.Explored o e) (h' : n.Explored o' e') :
    (ofExploration n e).accepting.map ((ofExploration n e).counterpart (ofExploration n e')) ~
      (ofExploration n e').accepting := by
  rw [accepting_eq h, accepting_eq h', List.map_map]
  have hrenamed : ∀ s ∈ e.discovered.filter fun s => s.intersects n.acceptingSet,
      ((ofExploration n e).counterpart (ofExploration n e') ∘ stateOf e) s = stateOf e' s :=
    fun s hs => counterpart_stateOf h (List.mem_filter.mp hs).1
  rw [List.map_congr_left hrenamed]
  exact ((h.discovered_perm h').filter _).map _

/-- What leaves the state of a set leaves its counterpart, renamed. -/
theorem transitionsFrom_rename (h : n.Explored o e) (hs : s ∈ e.expanded) :
    (transitionsFrom n e s).map
        (·.rename ((ofExploration n e).counterpart (ofExploration n e'))) =
      transitionsFrom n e' s := by
  rw [transitionsFrom, transitionsFrom, List.map_map]
  refine List.map_congr_left fun x hat => ?_
  obtain ⟨a, t⟩ := x
  have ht : t ∈ e.discovered := h.closed s hs t (List.mem_map.mpr ⟨_, hat, rfl⟩)
  simp only [Function.comp_apply, Transition.rename]
  rw [counterpart_stateOf h ((h.mem_expanded_iff h.done).mp hs), counterpart_stateOf h ht]

/-- **The renamed transitions are the transitions of the other automaton.**  Both list what leaves
each set that was met, and differ in the order of the sets. -/
theorem transitions_perm (h : n.Explored o e) (h' : n.Explored o' e') :
    (ofExploration n e).transitions.map
        (·.rename ((ofExploration n e).counterpart (ofExploration n e'))) ~
      (ofExploration n e').transitions := by
  have hexpanded : e.expanded ~ e'.expanded :=
    (h.expanded_perm h.done).trans ((h.discovered_perm h').trans (h'.expanded_perm h'.done).symm)
  calc
    (ofExploration n e).transitions.map
          (·.rename ((ofExploration n e).counterpart (ofExploration n e')))
        = e.expanded.flatMap fun s => (transitionsFrom n e s).map
            (·.rename ((ofExploration n e).counterpart (ofExploration n e'))) := List.map_flatMap
    _ = e.expanded.flatMap (transitionsFrom n e') :=
        List.flatMap_congr fun s hs => transitionsFrom_rename h hs
    _ ~ e'.expanded.flatMap (transitionsFrom n e') := hexpanded.flatMap_right _

/-- **Two explorations make the same automaton up to the numbers.** -/
theorem renumbersTo_ofExploration (h : n.Explored o e) (h' : n.Explored o' e') :
    (ofExploration n e).RenumbersTo (ofExploration n e') where
  alphabet_eq := rfl
  mem_subsets_iff := fun _ => h.mem_discovered_iff_of h'
  bijOn := ⟨counterpart_mapsTo h h', counterpart_injOn h h', counterpart_surjOn h h'⟩
  counterpart_eq_iff := fun _ _ => counterpart_eq_iff h h'
  counterpart_zero := by
    have hzero : (ofExploration n e).counterpart (ofExploration n e') (stateOf e n.startSet) =
        stateOf e' n.startSet := counterpart_stateOf h h.startSet_mem
    rwa [stateOf_startSet h, stateOf_startSet h'] at hzero
  accepting_perm := accepting_perm h h'
  transitions_perm := transitions_perm h h'

end Dfa

/-- **The order of the worklist decides the numbers and nothing else.**  Without a limit, the two
orders give automata over one alphabet that stand for the same sets.  Matching the states with equal
sets keeps the initial state and turns the accepting states and the transitions of the one into
those of the other.  Otherwise the simulation comes to more sets than there are identifiers, and
both orders fail alike. -/
theorem determinize_orders [Std.TransOrd α] (n : Nfa α) :
    (∃ d d', (n.determinize ⟨0, .lifo⟩).outcome = .ok d ∧
      (n.determinize ⟨0, .fifo⟩).outcome = .ok d' ∧ d.RenumbersTo d') ∨
    ((∃ sets : List StateSet, sets.Nodup ∧ UInt32.size < sets.length ∧
        ∀ s ∈ sets, ∃ w, n.Readable w ∧ n.after w = s ∧ s.isEmpty = false) ∧
      ∀ order, (n.determinize ⟨0, order⟩).outcome =
        .error (.stateLimitExceeded (UInt32.size + 1) 0)) := by
  cases hlifo : (n.determinize ⟨0, .lifo⟩).outcome with
  | ok d =>
    obtain ⟨d', hfifo⟩ := (n.exists_determinize_iff ⟨0, .fifo⟩).mpr
      ((n.exists_determinize_iff ⟨0, .lifo⟩).mp ⟨d, hlifo⟩)
    obtain ⟨e, h, rfl⟩ := Nfa.exists_explored hlifo
    obtain ⟨e', h', rfl⟩ := Nfa.exists_explored hfifo
    exact Or.inl ⟨_, _, rfl, hfifo, Dfa.renumbersTo_ofExploration h h'⟩
  | error err =>
    obtain ⟨rfl, hsets⟩ := Nfa.determinize_overflows hlifo
    exact Or.inr ⟨hsets, fun order => Nfa.determinize_error_of_order hlifo⟩

/-- Two ways that meet again after one step; which of them is followed first depends on the
order. -/
def detour : Nfa Char :=
  ⟨StateGraph.make 0 [⟨0, 'a', 1⟩, ⟨0, 'b', 2⟩, ⟨1, 'a', 3⟩, ⟨2, 'b', 4⟩, ⟨4, 'ε', 3⟩] [3, 4], 'ε'⟩

def detourLifo : Dfa Char :=
  ⟨StateGraph.make 0 [⟨0, 'a', 1⟩, ⟨0, 'b', 2⟩, ⟨2, 'b', 3⟩, ⟨1, 'a', 4⟩] [3, 4], ['a', 'b'],
    [.ofList [0], .ofList [1], .ofList [2], .ofList [3, 4], .ofList [3]]⟩

def detourFifo : Dfa Char :=
  ⟨StateGraph.make 0 [⟨0, 'a', 1⟩, ⟨0, 'b', 2⟩, ⟨1, 'a', 3⟩, ⟨2, 'b', 4⟩] [3, 4], ['a', 'b'],
    [.ofList [0], .ofList [1], .ofList [2], .ofList [3], .ofList [3, 4]]⟩

theorem determinize_orders_detour :
    (detour.determinize ⟨0, .lifo⟩).outcome = .ok detourLifo ∧
    (detour.determinize ⟨0, .fifo⟩).outcome = .ok detourFifo ∧
    detourLifo.RenumbersTo detourFifo ∧ detourLifo.counterpart detourFifo 3 = 4 := by
  have hlifo : (detour.determinize ⟨0, .lifo⟩).outcome = .ok detourLifo := by decide +kernel
  have hfifo : (detour.determinize ⟨0, .fifo⟩).outcome = .ok detourFifo := by decide +kernel
  refine ⟨hlifo, hfifo, ?_, by decide⟩
  rcases determinize_orders detour with ⟨d, d', hd, hd', hrenumbers⟩ | ⟨-, hfails⟩
  · obtain rfl := Except.ok.inj (hd.symm.trans hlifo)
    obtain rfl := Except.ok.inj (hd'.symm.trans hfifo)
    exact hrenumbers
  · exact absurd (hlifo.symm.trans (hfails .lifo)) (by simp)

end Recognizer
