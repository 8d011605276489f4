/-
# Words that can be read can be completed

An automaton has *no dead ends* when whatever its initial state leads to leads on to an accepting
state.  The sets that its simulation comes to hold such states, so as long as the simulation lives
the word read so far can be completed to one that is accepted, and the deterministic automaton can
read exactly the prefixes of the words that it accepts.

An automaton that is built from literals by the operators is compact
(`Recognizer.Proofs.Compact`), and a compact automaton has no dead ends.

* `Dfa.isSome_after_iff`, `Dfa.exists_leads_accepting`: the words that can be read, and the states;
* `Nfa.Built.noDeadEnds`: automata that are built from literals;
* `Nfa.built_viable_prefixes`: all together for these.
-/
import Recognizer.Proofs.Emptiness
import Recognizer.Proofs.Shape

namespace Recognizer

variable {α : Type} {n : Nfa α} {o : DeterminizeOptions} {d : Dfa α} {p q : StateId}
  {u v : List α}

/-! ## 1. No dead ends -/

namespace Nfa

/-- `n.NoDeadEnds`: whatever the initial state leads to leads on to an accepting state. -/
def NoDeadEnds (n : Nfa α) : Prop :=
  ∀ q, Leads n.edges n.initial q → ∃ r, n.IsAccepting r ∧ Leads n.edges q r

theorem NoDeadEnds.isEmpty_eq (h : n.NoDeadEnds) : n.isEmpty = false :=
  StateGraph.isEmpty_eq_false_iff.mpr (h n.initial .refl)

variable [Ord α] [Std.TransOrd α]

/-- **As long as the simulation lives, the word can be completed.** -/
theorem NoDeadEnds.exists_completion (h : n.NoDeadEnds) (hu : n.Readable u)
    (hlive : (n.after u).isEmpty = false) :
    ∃ v, n.Readable v ∧ n.accepts (u ++ v) = true := by
  obtain ⟨q, hq⟩ := StateSet.isEmpty_eq_false_iff.mp hlive
  have hpath := (mem_after_iff hu).mp hq
  obtain ⟨r, hacc, hleads⟩ := h q hpath.leads
  obtain ⟨v, hv⟩ := exists_path_of_leads hleads
  have hread : n.Readable (u ++ v) := readable_append_iff.mpr ⟨hu, hv.readable⟩
  exact ⟨v, hv.readable, (accepts_iff hread).mpr ⟨r, hacc, hpath.trans hv⟩⟩

end Nfa

/-! ## 2. The deterministic automaton -/

namespace Dfa

variable [Ord α]

/-- A word that can be read can be read up to any point. -/
theorem isSome_after_of_append (h : (d.after (u ++ v)).isSome = true) :
    (d.after u).isSome = true := by
  induction v using List.reverseRecOn with
  | nil => rwa [List.append_nil] at h
  | append_singleton v a ih =>
    rw [← List.append_assoc, after_concat] at h
    refine ih ?_
    cases hafter : d.after (u ++ v) with
    | none =>
      rw [hafter] at h
      exact absurd h Bool.false_ne_true
    | some q => rfl

variable [Std.TransOrd α]

/-- **The words that can be read are the prefixes of the words that are accepted.** -/
theorem isSome_after_iff (hn : n.NoDeadEnds) (hd : (n.determinize o).outcome = .ok d)
    (hu : n.Readable u) :
    (d.after u).isSome = true ↔ ∃ v, n.Readable v ∧ d.accepts (u ++ v) = true := by
  constructor
  · intro hsome
    have hlive : (n.after u).isEmpty = false := by
      refine Bool.eq_false_iff.mpr fun hempty => ?_
      rw [after_eq_none hd hu hempty] at hsome
      exact absurd hsome Bool.false_ne_true
    obtain ⟨v, hv, hacc⟩ := hn.exists_completion hu hlive
    exact ⟨v, hv, (accepts_eq hd (Nfa.readable_append_iff.mpr ⟨hu, hv⟩)).trans hacc⟩
  · rintro ⟨v, -, hacc⟩
    obtain ⟨q, hq, -⟩ := accepts_eq_true_iff.mp hacc
    exact isSome_after_of_append (Option.isSome_iff_exists.mpr ⟨q, hq⟩)

/-- **Every state leads to an accepting one.** -/
theorem exists_leads_accepting (hn : n.NoDeadEnds) (hd : (n.determinize o).outcome = .ok d)
    (hq : q.toNat < d.numStates) : ∃ r, d.IsAccepting r ∧ Leads d.edges q r := by
  obtain ⟨e, h, hdfa⟩ := Nfa.exists_explored hd
  rw [hdfa] at hq
  obtain ⟨s, hs, rfl⟩ := exists_stateOf h hq
  obtain ⟨w, hw, -, hafter⟩ := exists_after_eq_stateOf h hs
  rw [← hdfa] at hafter
  obtain ⟨v, -, hacc⟩ := (isSome_after_iff hn hd hw).mp (Option.isSome_iff_exists.mpr ⟨_, hafter⟩)
  obtain ⟨r, hr, haccepting⟩ := accepts_eq_true_iff.mp hacc
  exact ⟨r, haccepting, leads_of_after_append hafter hr⟩

theorem isEmpty_eq_false (hn : n.NoDeadEnds) (hd : (n.determinize o).outcome = .ok d) :
    d.isEmpty = false := by
  obtain ⟨e, h, rfl⟩ := Nfa.exists_explored hd
  have hzero : (stateOf e n.startSet).toNat < _ := stateOf_lt h h.startSet_mem
  obtain ⟨r, hr, -⟩ := exists_leads_accepting hn hd hzero
  rw [(represents_ofExploration h).isEmpty_eq]
  exact List.isEmpty_eq_false_iff.mpr (List.ne_nil_of_mem hr)

end Dfa

/-! ## 3. Automata that are built from literals -/

namespace Nfa

variable [Ord α]

/-- `n.Built`: the automaton is put together from literals by operators that succeed.  The epsilons
of the literals may be spelled in several ways. -/
inductive Built : Nfa α → Prop
  | literal (symbol epsilon : α) : Built (.literal symbol epsilon)
  | concat {n m r : Nfa α} (left : Built n) (right : Built m) (h : n.concat m = .ok r) : Built r
  | alternate {n m r : Nfa α} (left : Built n) (right : Built m) (h : n.alternate m = .ok r) :
      Built r
  | star {n r : Nfa α} (body : Built n) (h : n.star = .ok r) : Built r
  | expand {n m r : Nfa α} (symbol : α) (host : Built n) (replacement : Built m)
      (h : n.expand symbol m = .ok r) : Built r

variable [Std.TransOrd α]

/-- Every operator keeps compactness, so every automaton that is built is compact. -/
theorem Built.compact (h : n.Built) : ∃ f : Fragment α, f.toNfa = n ∧ f.Compact := by
  induction h with
  | literal symbol epsilon =>
    exact ⟨literalFragment symbol epsilon, rfl, (literal_compact symbol epsilon).1⟩
  | concat _ _ h ihleft ihright =>
    obtain ⟨f, rfl, hf⟩ := ihleft
    obtain ⟨g, rfl, hg⟩ := ihright
    obtain ⟨k, rfl, hk, -⟩ := concat_compact hf hg h
    exact ⟨k, rfl, hk⟩
  | alternate _ _ h ihleft ihright =>
    obtain ⟨f, rfl, hf⟩ := ihleft
    obtain ⟨g, rfl, hg⟩ := ihright
    obtain ⟨k, rfl, hk, -⟩ := alternate_compact hf hg h
    exact ⟨k, rfl, hk⟩
  | star _ h ih =>
    obtain ⟨f, rfl, hf⟩ := ih
    obtain ⟨k, rfl, hk, -⟩ := star_compact hf h
    exact ⟨k, rfl, hk⟩
  | expand _ _ _ h ihhost ihreplacement =>
    obtain ⟨f, rfl, hf⟩ := ihhost
    obtain ⟨g, rfl, hg⟩ := ihreplacement
    obtain ⟨k, rfl, hk, -⟩ := expand_compact hf hg h
    exact ⟨k, rfl, hk⟩

/-- **What is built from literals has no dead ends.** -/
theorem Built.noDeadEnds (h : n.Built) : n.NoDeadEnds := by
  obtain ⟨f, rfl, hf⟩ := h.compact
  intro q hq
  have hmem : q ∈ f.states := StateGraph.mem_states_of_leads f.initial_mem_states hq
  exact ⟨f.exit, Fragment.isAccepting_iff.mpr rfl, (hf.onTheWay q hmem).2⟩

/-- **Viable prefixes.**  An automaton that is built from literals is not reported empty.  Whatever
the order of the worklist and the limit on states, its deterministic automaton can read a word
without the epsilon exactly when the word can be completed to one that is accepted; so each of its
states leads to an accepting one, and it is not reported empty either. -/
theorem built_viable_prefixes (hn : n.Built) :
    n.isEmpty = false ∧ ∀ o d, (n.determinize o).outcome = .ok d →
      (∀ u, n.Readable u → ((d.after u).isSome = true ↔
        ∃ v, n.Readable v ∧ d.accepts (u ++ v) = true)) ∧
      (∀ q : StateId, q.toNat < d.numStates → ∃ r, d.IsAccepting r ∧ Leads d.edges q r) ∧
      d.isEmpty = false := by
  have hlive := hn.noDeadEnds
  refine ⟨hlive.isEmpty_eq, fun o d hd => ⟨fun u hu => ?_, fun q hq => ?_, ?_⟩⟩
  · exact Dfa.isSome_after_iff hlive hd hu
  · exact Dfa.exists_leads_accepting hlive hd hq
  · exact Dfa.isEmpty_eq_false hlive hd

/-- Any number of `x`, one after the other. -/
def manyX : Nfa Char :=
  .between 0 3 [⟨1, 'x', 2⟩, ⟨0, 'ε', 1⟩, ⟨2, 'ε', 3⟩, ⟨3, 'ε', 1⟩, ⟨0, 'ε', 3⟩] 'ε'

def pairAB : Nfa Char := .between 0 2 [⟨0, 'a', 1⟩, ⟨1, 'b', 2⟩] 'ε'

/-- The same with `ab` put for each `x`. -/
def manyPairs : Nfa Char :=
  .between 0 3 [⟨0, 'ε', 1⟩, ⟨2, 'ε', 3⟩, ⟨3, 'ε', 1⟩, ⟨0, 'ε', 3⟩, ⟨1, 'a', 4⟩, ⟨4, 'b', 2⟩] 'ε'

def manyPairsDfa : Dfa Char :=
  ⟨StateGraph.make 0 [⟨0, 'a', 1⟩, ⟨1, 'b', 2⟩, ⟨2, 'a', 1⟩] [0, 2], ['a', 'b'],
    [.ofList [0, 1, 3], .ofList [4], .ofList [1, 2, 3]]⟩

theorem built_viable_prefixes_many_pairs :
    manyPairs.Built ∧ manyPairs.isEmpty = false ∧
    (manyPairs.determinize ⟨3, .fifo⟩).outcome = .ok manyPairsDfa ∧
    manyPairs.Readable ['a'] ∧
    ((manyPairsDfa.after ['a']).isSome = true ↔
      ∃ v, manyPairs.Readable v ∧ manyPairsDfa.accepts (['a'] ++ v) = true) ∧
    (∃ r, manyPairsDfa.IsAccepting r ∧ Leads manyPairsDfa.edges 1 r) ∧
    manyPairsDfa.isEmpty = false := by
  have hmany : manyX.Built := .star (.literal 'x' 'ε') (by decide +kernel)
  have hpair : pairAB.Built := .concat (.literal 'a' 'ε') (.literal 'b' 'ε') (by decide +kernel)
  have hbuilt : manyPairs.Built := .expand 'x' hmany hpair (by decide +kernel)
  have hd : (manyPairs.determinize ⟨3, .fifo⟩).outcome = .ok manyPairsDfa := by decide +kernel
  have hread : manyPairs.Readable ['a'] := by decide +kernel
  obtain ⟨hfull, hdfa⟩ := built_viable_prefixes hbuilt
  obtain ⟨hprefixes, hleads, hdfaFull⟩ := hdfa _ _ hd
  exact ⟨hbuilt, hfull, hd, hread, hprefixes _ hread, hleads 1 (by decide), hdfaFull⟩

end Nfa

end Recognizer
