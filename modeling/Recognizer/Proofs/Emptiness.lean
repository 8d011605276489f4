/-
# When an automaton is reported empty

Whether an automaton is empty is found out by a search from its initial state: along all transitions
in a graph, and by the symbols of the alphabet in a deterministic automaton.  Along any way that the
first search takes some word is read, silent transitions or not, so it comes to an accepting state
exactly when the automaton accepts a word.  The second search could stop short, since it takes the
first transition on a symbol and no other.  It does not, because no state has two transitions on one
symbol (`Dfa.Represents`).  And since all states can be reached, a deterministic automaton is empty
only if no state accepts.

* `StateGraph.isEmpty_eq_false_iff`: the search along transitions;
* `Nfa.exists_path_of_leads`: along a way through the graph some word is read;
* `Represents.leads_steps`: what transitions lead to, the symbols of the alphabet lead to;
* `Represents.isEmpty_eq`: the search by symbols;
* `isEmpty_agrees`: both searches and the language.
-/
import Mathlib.Data.List.Pairwise
import Mathlib.Tactic.TFAE
import Recognizer.Proofs.Representation

namespace Recognizer

variable {α : Type}

/-! ## 1. Graphs -/

/-- A graph is not empty when its initial state leads to an accepting one. -/
theorem StateGraph.isEmpty_eq_false_iff {g : StateGraph α} :
    g.isEmpty = false ↔ ∃ q, g.IsAccepting q ∧ Leads g.edges g.initial q := by
  rw [isEmpty, noneReachable_eq_false_iff]
  constructor
  · rintro ⟨p, hp, q, hleads, hacc⟩
    exact ⟨q, of_decide_eq_true hacc, List.mem_singleton.mp hp ▸ hleads⟩
  · rintro ⟨q, hacc, hleads⟩
    exact ⟨g.initial, List.mem_singleton_self _, q, hleads, decide_eq_true hacc⟩

/-! ## 2. The words of an automaton -/

section Words

variable [Ord α] [Std.TransOrd α] {n : Nfa α} {p q : StateId}

/-- Along a way through the graph some word is read. -/
theorem Nfa.exists_path_of_leads (h : Leads n.edges p q) : ∃ w, n.Path p w q := by
  induction h with
  | refl => exact ⟨[], .refl p⟩
  | tail _ he ih =>
    obtain ⟨w, hw⟩ := ih
    obtain ⟨t, ht, rfl, rfl⟩ := StateGraph.mem_edges.mp he
    by_cases hsilent : n.IsEpsilon t.symbol
    · exact ⟨w ++ [], hw.trans (.silent ht hsilent (.refl _))⟩
    · exact ⟨w ++ [t.symbol], hw.trans (.read ht hsilent (Same.refl _) (.refl _))⟩

/-- **An automaton is not empty when it accepts some word.** -/
theorem Nfa.isEmpty_eq_false_iff : n.isEmpty = false ↔ ∃ w, n.Accepts w := by
  rw [StateGraph.isEmpty_eq_false_iff]
  constructor
  · rintro ⟨q, hacc, hleads⟩
    obtain ⟨w, hw⟩ := exists_path_of_leads hleads
    exact ⟨w, q, hacc, hw⟩
  · rintro ⟨w, q, hacc, hw⟩
    exact ⟨q, hacc, hw.leads⟩

/-- The simulation accepts some word when some path does. -/
theorem Nfa.exists_accepts_iff :
    (∃ w, n.Readable w ∧ n.accepts w = true) ↔ ∃ w, n.Accepts w := by
  constructor
  · rintro ⟨w, hw, hacc⟩
    exact ⟨w, (accepts_iff hw).mp hacc⟩
  · rintro ⟨w, hacc⟩
    exact ⟨w, hacc.readable, (accepts_iff hacc.readable).mpr hacc⟩

end Words

namespace Dfa

/-! ## 3. Steps on the symbols of the alphabet -/

variable [Ord α] {n : Nfa α} {d : Dfa α} {o : DeterminizeOptions} {p q : StateId}
  {t : Transition α} {u : List α}

theorem accepts_eq_true_iff : d.accepts u = true ↔ ∃ q, d.after u = some q ∧ d.IsAccepting q := by
  rw [accepts]
  cases d.after u with
  | none => simp
  | some q => simp

theorem mem_steps {a : α} (hp : p.toNat < d.numStates) (ha : a ∈ d.alphabet)
    (h : d.nextState p a = some q) : (p, q) ∈ d.steps := by
  refine List.mem_flatMap.mpr ⟨p.toNat, List.mem_range.mpr hp, ?_⟩
  refine List.mem_filterMap.mpr ⟨a, ha, ?_⟩
  rw [UInt32.ofNat_toNat, h]
  rfl

/-- An accepting state is one of the states. -/
theorem Represents.lt_of_isAccepting (h : d.Represents n) (hq : d.IsAccepting q) :
    q.toNat < d.numStates := by
  obtain ⟨s, hs, -⟩ := (h.isAccepting_iff q).mp hq
  exact (List.getElem?_eq_some_iff.mp hs).1

variable [Std.TransOrd α]

/-- **A transition is what its source and its symbol lead to**, since there is no other one. -/
theorem Represents.nextState_eq (h : d.Represents n) (ht : t ∈ d.transitions) :
    d.nextState t.source t.symbol = some t.target := by
  have hmem : t.target ∈ d.targets t.source t.symbol :=
    StateGraph.mem_targets.mpr ⟨t, ht, rfl, Same.refl t.symbol, rfl⟩
  obtain ⟨r, hr⟩ := Option.isSome_iff_exists.mp
    (List.isSome_head?.mpr (List.ne_nil_of_mem hmem))
  obtain ⟨u, hu, hsource, hsame, htarget⟩ := StateGraph.mem_targets.mp (List.mem_of_head? hr)
  have hut : u = t := by
    by_contra hne
    have hsymm : Std.Symm fun t u : Transition α =>
        ¬ (t.source = u.source ∧ Same t.symbol u.symbol) :=
      ⟨fun _ _ hno hyes => hno ⟨hyes.1.symm, hyes.2.symm⟩⟩
    exact h.deterministic.forall hu ht hne ⟨hsource, hsame⟩
  rw [StateGraph.nextState, hr, ← htarget, hut]

/-- What transitions lead to, the symbols of the alphabet lead to. -/
theorem Represents.leads_steps (h : d.Represents n) (hleads : Leads d.edges p q) :
    Leads d.steps p q := by
  refine hleads.mono fun edge hedge => ?_
  obtain ⟨r, s⟩ := edge
  obtain ⟨t, ht, rfl, rfl⟩ := StateGraph.mem_edges.mp hedge
  exact mem_steps (h.ends_lt t ht).1 (h.symbol_mem t ht) (h.nextState_eq ht)

/-! ## 4. Deterministic automata -/

/-- **A deterministic automaton is reported empty exactly when no state accepts.** -/
theorem Represents.isEmpty_eq (h : d.Represents n) : d.isEmpty = d.accepting.isEmpty := by
  rw [Dfa.isEmpty]
  cases hacc : d.accepting with
  | nil => rfl
  | cons q qs =>
    have hq : d.IsAccepting q := by
      rw [StateGraph.IsAccepting, hacc]
      exact List.mem_cons_self
    have hlt := h.lt_of_isAccepting hq
    have hleads := h.leads_steps (h.reached q hlt)
    have hfound : noneReachable d.steps [d.initial]
        (fun q => decide (q.toNat < d.numStates) && decide (d.IsAccepting q)) = false := by
      rw [noneReachable_eq_false_iff, h.initial_eq]
      exact ⟨0, List.mem_singleton_self _, q, hleads, by simp [hlt, hq]⟩
    rw [List.isEmpty_cons, Bool.false_or, hfound]

/-- Some state accepts exactly when some word is accepted, since each state is come to. -/
theorem exists_accepts_iff (hd : (n.determinize o).outcome = .ok d) :
    (∃ w, n.Readable w ∧ d.accepts w = true) ↔ d.accepting ≠ [] := by
  constructor
  · rintro ⟨w, -, hacc⟩
    obtain ⟨q, -, hq⟩ := accepts_eq_true_iff.mp hacc
    exact List.ne_nil_of_mem hq
  · intro hne
    obtain ⟨q, hq⟩ := List.exists_mem_of_ne_nil d.accepting hne
    obtain ⟨e, h, rfl⟩ := Nfa.exists_explored hd
    obtain ⟨s, hs, rfl⟩ := exists_stateOf h ((represents_ofExploration h).lt_of_isAccepting hq)
    obtain ⟨w, hw, -, hafter⟩ := exists_after_eq_stateOf h hs
    exact ⟨w, hw, accepts_eq_true_iff.mpr ⟨_, hafter, hq⟩⟩

end Dfa

/-! ## 5. All together -/

/-- **The reports agree with the language and with each other.**  An automaton is reported empty
exactly when it accepts no word without the epsilon, by its simulation or by a path.  Whatever the
order of the worklist and the limit on states, its deterministic automaton then accepts no word, is
reported empty and has no accepting state, and each of these means that the automaton is empty. -/
theorem isEmpty_agrees [Ord α] [Std.TransOrd α] (n : Nfa α) :
    [n.isEmpty = true, ∀ w, n.Readable w → n.accepts w = false, ∀ w, ¬ n.Accepts w].TFAE ∧
    ∀ o d, (n.determinize o).outcome = .ok d →
      [n.isEmpty = true, ∀ w, n.Readable w → d.accepts w = false, d.isEmpty = true,
        d.accepting = []].TFAE := by
  have hpaths : n.isEmpty = true ↔ ∀ w, ¬ n.Accepts w := by
    rw [← not_exists, ← Nfa.isEmpty_eq_false_iff, Bool.not_eq_false]
  have hwords : n.isEmpty = true ↔ ∀ w, n.Readable w → n.accepts w = false := by
    rw [← Bool.not_eq_false, Nfa.isEmpty_eq_false_iff, ← Nfa.exists_accepts_iff]
    simp
  constructor
  · tfae_have 1 ↔ 2 := hwords
    tfae_have 1 ↔ 3 := hpaths
    tfae_finish
  · intro o d hd
    tfae_have 1 ↔ 2 := by
      rw [hwords]
      exact forall₂_congr fun w hw => by rw [Dfa.accepts_eq hd hw]
    tfae_have 2 ↔ 4 := by
      rw [← not_ne_iff, ← Dfa.exists_accepts_iff hd]
      simp
    tfae_have 3 ↔ 4 := by
      rw [(determinize_represents hd).isEmpty_eq, List.isEmpty_iff]
    tfae_finish

/-- Cycles around all that can be reached, and two accepting states that cannot. -/
def outOfReach : Nfa Char :=
  ⟨StateGraph.make 0 [⟨0, 'ε', 1⟩, ⟨1, 'a', 0⟩, ⟨1, 'ε', 1⟩, ⟨5, 'b', 7⟩, ⟨7, 'a', 0⟩] [5, 7], 'ε'⟩

def outOfReachDfa : Dfa Char :=
  ⟨StateGraph.make 0 [⟨0, 'a', 0⟩] [], ['a', 'b'], [.ofList [0, 1]]⟩

theorem isEmpty_agrees_out_of_reach :
    outOfReach.isEmpty = true ∧ (∀ w, outOfReach.Readable w → outOfReach.accepts w = false) ∧
    (outOfReach.determinize ⟨0, .fifo⟩).outcome = .ok outOfReachDfa ∧
    outOfReachDfa.isEmpty = true ∧ outOfReachDfa.accepting = [] := by
  have hempty : outOfReach.isEmpty = true := by decide +kernel
  have hd : (outOfReach.determinize ⟨0, .fifo⟩).outcome = .ok outOfReachDfa := by decide +kernel
  obtain ⟨hlanguage, hdfa⟩ := isEmpty_agrees outOfReach
  have hdfa := hdfa _ _ hd
  exact ⟨hempty, (hlanguage.out 0 1).mp hempty, hd, (hdfa.out 0 2).mp hempty,
    (hdfa.out 0 3).mp hempty⟩

end Recognizer
