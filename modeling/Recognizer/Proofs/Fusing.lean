/-
# Fusing states

A renaming that gives two states one name fuses them.  The transitions stay as many as they were, in
their order and with their labels, and the accepting states are listed where the first of those that
became one was listed (`FusesTo`).  So the list of accepting states may become shorter, and what an
operator says that is given the automaton is the number of states that are left (`Refused`).

A walk becomes a walk through the fused states, and reads the same.  Nothing that was accepted is
lost by that, but there can be walks that enter a fused state as the one state and leave it as the
other, and so more words can be accepted (`mem_after_rename`).

Replacing an identifier by one that is not in use fuses nothing, and replacing it back restores the
graph (`renumber_quotient`).
-/
import Mathlib.Data.Finset.Card
import Mathlib.Data.Finset.Dedup
import Recognizer.Proofs.Faults
import Recognizer.Proofs.Renaming

namespace Recognizer

/-- First occurrences are as many as there are different entries. -/
theorem Firsts.length_eq {β : Type} [DecidableEq β] {l m : List β} (h : Firsts l m) :
    m.length = l.toFinset.card := by
  have hsame : m.toFinset = l.toFinset := by
    ext b
    rw [List.mem_toFinset, List.mem_toFinset, h.mem_iff]
  rw [← hsame, List.toFinset_card_of_nodup h.nodup]

namespace Nfa

variable {α : Type} [Ord α] {n : Nfa α}

/-! ## 1. What operators say of an automaton that is no fragment -/

/-- `n.Refused e`: every operator that gets as far as to look at the accepting states of `n` fails
with the error `e`, be `n` its first operand or its second. -/
structure Refused (n : Nfa α) (e : BuildError α) : Prop where
  star : n.star = .error e
  concat : ∀ m, n.IsEpsilon m.epsilon → n.concat m = .error e
  alternate : ∀ m, n.IsEpsilon m.epsilon → n.alternate m = .error e
  expand : ∀ symbol m, n.IsEpsilon m.epsilon → n.expand symbol m = .error e
  /-- A concatenation takes the next identifier before it looks at its second operand. -/
  behind : ∀ m : Nfa α, m.IsEpsilon n.epsilon → m.accepting.length = 1 → m.top ≠ .last →
    m.concat n = .error e
  beside : ∀ m : Nfa α, m.IsEpsilon n.epsilon → m.accepting.length = 1 → m.alternate n = .error e
  inside : ∀ (m : Nfa α) symbol, m.IsEpsilon n.epsilon → m.accepting.length = 1 →
    m.expand symbol n = .error e

/-- **An automaton with no accepting state or with several is refused, and they are counted.** -/
theorem refused_of_length (h : n.accepting.length ≠ 1) :
    n.Refused (.malformedFragment n.accepting.length) := by
  have hn := fragmentFault_eq_some h
  constructor
  case star => rw [← fault_eq_some_iff, star_fault, hn, firstFault_some]
  case concat =>
    intro m hsame
    rw [← fault_eq_some_iff, concat_fault, epsilonFault_eq_none hsame, hn, firstFault_none,
      firstFault_some]
  case alternate =>
    intro m hsame
    rw [← fault_eq_some_iff, alternate_fault, epsilonFault_eq_none hsame, hn, firstFault_none,
      firstFault_some]
  case expand =>
    intro symbol m hsame
    rw [← fault_eq_some_iff, expand_fault, epsilonFault_eq_none hsame, hn, firstFault_none,
      firstFault_some]
  case behind =>
    intro m hsame hone hlast
    have hroom : m.top.toNat + 1 < UInt32.size := not_not.mp fun hout =>
      hlast (StateId.eq_last hout)
    have hrange : (rangeFault (m.top.toNat + 1) : Option (BuildError α)) = none := if_pos hroom
    rw [← fault_eq_some_iff, concat_fault, epsilonFault_eq_none hsame, fragmentFault_eq_none hone,
      hrange, hn]
    rfl
  case beside =>
    intro m hsame hone
    rw [← fault_eq_some_iff, alternate_fault, epsilonFault_eq_none hsame,
      fragmentFault_eq_none hone, hn]
    rfl
  case inside =>
    intro m symbol hsame hone
    rw [← fault_eq_some_iff, expand_fault, epsilonFault_eq_none hsame, fragmentFault_eq_none hone, hn]
    rfl

end Nfa

/-! ## 2. Fused graphs -/

namespace StateGraph

variable {α : Type} {g g' : StateGraph α} {f : StateId → StateId} {old new : StateId}

section

variable [Ord α]

/-- `g.FusesTo f g'`: the graph `g'` is `g` with its states renamed by `f`, where states may become
one.  With any epsilon it accepts all that `g` accepts, by the simulation and by paths; and if it is
no fragment, the operators say how many different accepting states are left. -/
structure FusesTo (g : StateGraph α) (f : StateId → StateId) (g' : StateGraph α) : Prop where
  initial : g'.initial = f g.initial
  transitions : Pointwise (fun t t' : Transition α =>
    t'.source = f t.source ∧ t'.symbol = t.symbol ∧ t'.target = f t.target)
    g.transitions g'.transitions
  accepting : Firsts (g.accepting.map f) g'.accepting
  length_accepting : g'.accepting.length = (g.accepting.map f).toFinset.card
  refused : ∀ epsilon, (g.accepting.map f).toFinset.card ≠ 1 →
    (⟨g', epsilon⟩ : Nfa α).Refused (.malformedFragment (g.accepting.map f).toFinset.card)
  accepts : ∀ epsilon w, (⟨g, epsilon⟩ : Nfa α).accepts w = true →
    (⟨g', epsilon⟩ : Nfa α).accepts w = true
  accepts_path : ∀ epsilon w, (⟨g, epsilon⟩ : Nfa α).Accepts w → (⟨g', epsilon⟩ : Nfa α).Accepts w

/-- **Every renaming fuses.** -/
theorem fusesTo_rename (g : StateGraph α) (f : StateId → StateId) : g.FusesTo f (g.rename f) := by
  have hfirsts : Firsts (g.accepting.map f) (g.rename f).accepting := firsts_eraseDups _
  exact {
    initial := rfl
    transitions := Pointwise.map_right fun t _ => ⟨rfl, rfl, rfl⟩
    accepting := hfirsts
    length_accepting := hfirsts.length_eq
    refused := by
      intro epsilon hne
      rw [← hfirsts.length_eq] at hne ⊢
      exact Nfa.refused_of_length hne
    accepts := fun epsilon _ => Nfa.accepts_rename_of_accepts (n := ⟨g, epsilon⟩) f
    accepts_path := fun epsilon _ => Nfa.Accepts.rename (n := ⟨g, epsilon⟩) f }

end

/-! ## 3. Replacing an identifier -/

/-- An identifier that is replaced by another one is not left anywhere. -/
theorem not_mem_states_renumber (h : old ≠ new) : old ∉ (g.renumber old new).states := by
  intro hold
  obtain ⟨q, -, hq⟩ := mem_states_rename_iff.mp hold
  by_cases heq : q = old
  · rw [if_pos heq] at hq
    exact h hq.symm
  · rw [if_neg heq] at hq
    exact heq hq

/-- An identifier that is not in use can be replaced back. -/
theorem renumber_renumber (hnew : new ∉ g.states) : (g.renumber old new).renumber new old = g := by
  rw [renumber, renumber, rename_rename]
  refine rename_eq_self fun q hq => ?_
  have hne : q ≠ new := fun heq => hnew (heq ▸ hq)
  rw [Function.comp_apply]
  by_cases hold : q = old
  · rw [if_pos hold, if_pos rfl, hold]
  · rw [if_neg hold, if_neg hne]

/-- **Replacing an identifier by another one is a quotient.**  The one that is replaced is left
nowhere; nothing else is changed but that its state and the state with the other identifier, if there
is one, become one.  If there is none, replacing the identifier back restores the graph. -/
theorem renumber_quotient [Ord α] (g : StateGraph α) (old new : StateId) :
    (old ≠ new → old ∉ (g.renumber old new).states) ∧
    g.FusesTo (fun q => if q = old then new else q) (g.renumber old new) ∧
    (new ∉ g.states → (g.renumber old new).renumber new old = g) :=
  ⟨not_mem_states_renumber, g.fusesTo_rename _, renumber_renumber⟩

/-- Two ways that do not meet, with accepting states in both. -/
def twoWays : StateGraph Char :=
  make 0 [⟨0, 'a', 1⟩, ⟨0, 'ε', 3⟩, ⟨3, 'b', 2⟩, ⟨2, 'b', 4⟩, ⟨0, 'a', 1⟩] [4, 2, 1]

/-- Where the ways are made to meet, the one can be left for the other, and there is no way back. -/
theorem renumber_quotient_two_ways :
    2 ∉ (twoWays.renumber 2 1).states ∧
    twoWays.FusesTo (fun q => if q = 2 then 1 else q) (twoWays.renumber 2 1) ∧
    (twoWays.renumber 2 1).accepting = [4, 1] ∧
    (⟨twoWays.renumber 2 1, 'ε'⟩ : Nfa Char).star = .error (.malformedFragment 2) ∧
    (⟨twoWays, 'ε'⟩ : Nfa Char).accepts ['a', 'b'] = false ∧
    (⟨twoWays.renumber 2 1, 'ε'⟩ : Nfa Char).accepts ['a', 'b'] = true ∧
    (twoWays.renumber 2 1).renumber 1 2 ≠ twoWays ∧
    (twoWays.renumber 2 9).renumber 9 2 = twoWays := by
  obtain ⟨hleft, hfuses, -⟩ := renumber_quotient twoWays 2 1
  obtain ⟨-, -, hback⟩ := renumber_quotient twoWays 2 9
  have hcount : (twoWays.accepting.map fun q => if q = 2 then 1 else q).toFinset.card = 2 := by
    decide +kernel
  have hstar := (hfuses.refused 'ε' (by rw [hcount]; decide)).star
  rw [hcount] at hstar
  exact ⟨hleft (by decide), hfuses, by decide +kernel, hstar, by decide +kernel,
    by decide +kernel, by decide +kernel, hback (by decide +kernel)⟩

end StateGraph

end Recognizer
