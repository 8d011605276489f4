/-
# Breadth first

States are numbered in the order of discovery.  Read along the list of its transitions, a
deterministic automaton therefore looks as if it were being discovered (`Numbered`): each transition
leaves a state that was met before it, and comes to a state that was met or to the next one.  This
holds for either order of the worklist.  With the first-in, first-out order the states are moreover
expanded in the order of their discovery, so the transitions ascend by source and symbol.

These two facts are all that breadth-first search needs.  The transitions that come to a state for
the first time make up a tree, and the words along its branches ascend with the numbers of the
states (`Spans`): what a transition adds to the tree is a state's word with one more symbol, and
since the transitions ascend, so do these words.  A word of the tree comes before every other word
that leads to its state, for the last step of the other word is a transition as well.

* `Exploration.run_numbered`, `Exploration.run_fifo`: the two facts, for a whole run;
* `Spans.known`, `Spans.next`: one more transition;
* `Spans.least`: the words of the tree are least;
* `determinize_fifo`: what follows for the automaton.
-/
import Recognizer.Proofs.Emptiness
import Recognizer.Proofs.Limit
import Recognizer.Proofs.Shortlex

namespace Recognizer

variable {α : Type}

/-! ## 1. Transitions in the order of discovery -/

/-- `Numbered k ts m`: after states below `k` are met, each of the transitions leaves a state that
is met and comes to one that is met or to the next one; then the states below `m` are met. -/
inductive Numbered : Nat → List (Transition α) → Nat → Prop
  | done {k : Nat} : Numbered k [] k
  | known {k m : Nat} {t : Transition α} {ts : List (Transition α)} :
    t.source.toNat < k → t.target.toNat < k → Numbered k ts m → Numbered k (t :: ts) m
  | next {k m : Nat} {t : Transition α} {ts : List (Transition α)} :
    t.source.toNat < k → t.target.toNat = k → Numbered (k + 1) ts m → Numbered k (t :: ts) m

theorem Numbered.append {k l m : Nat} {ts us : List (Transition α)} (h : Numbered k ts l)
    (h' : Numbered l us m) : Numbered k (ts ++ us) m := by
  induction h with
  | done => exact h'
  | known hsource htarget _ ih => exact .known hsource htarget (ih h')
  | next hsource htarget _ ih => exact .next hsource htarget (ih h')

/-- What stands in a list stands at the same place of a list that goes on behind it. -/
theorem getElem?_mono {β : Type} {l m : List β} {i : Nat} {b : β} (h : l <+: m)
    (hb : l[i]? = some b) : m[i]? = some b := by
  obtain ⟨rest, rfl⟩ := h
  rw [List.getElem?_append_left (List.getElem?_eq_some_iff.mp hb).1, hb]

namespace Exploration

variable {β : Type} [DecidableEq β] {successors : β → List (α × β)} {order : WorklistOrder}
  {limit : Nat} {root node : β} {rest : List β} {e e' : Exploration β} {number : β → StateId}

/-- The transitions out of a node, when its successors have the numbers that their discovery gives
them. -/
theorem numbered_fresh {p : StateId} {steps : List (α × β)} (hp : p.toNat < e.discovered.length)
    (hnumber : ∀ i t, (e.discovered ++ e.fresh (steps.map (·.2)))[i]? = some t →
      (number t).toNat = i) :
    Numbered e.discovered.length (steps.map fun (a, t) => ⟨p, a, number t⟩)
      (e.discovered ++ e.fresh (steps.map (·.2))).length := by
  induction steps generalizing e with
  | nil =>
    have hnone : e.fresh [] = [] := rfl
    rw [List.map_nil, List.map_nil, hnone, List.append_nil]
    exact .done
  | cons step steps ih =>
    obtain ⟨a, t⟩ := step
    simp only [List.map_cons] at hnumber ⊢
    by_cases hmem : t ∈ e.discovered
    · rw [fresh_cons_of_mem hmem] at hnumber ⊢
      obtain ⟨i, hi⟩ := List.mem_iff_getElem?.mp hmem
      have htarget : (number t).toNat = i :=
        hnumber i t (getElem?_mono (List.prefix_append _ _) hi)
      have hlt : i < e.discovered.length := (List.getElem?_eq_some_iff.mp hi).1
      exact .known hp (htarget ▸ hlt) (ih hp hnumber)
    · let e₁ : Exploration β := { e with discovered := e.discovered ++ [t] }
      have hlength : e₁.discovered.length = e.discovered.length + 1 := List.length_append
      have hall : e.discovered ++ t :: e₁.fresh (steps.map (·.2)) =
          e₁.discovered ++ e₁.fresh (steps.map (·.2)) := by simp [e₁]
      rw [fresh_cons_of_not_mem hmem (rfl : e₁.discovered = _)] at hnumber ⊢
      have htarget : (number t).toNat = e.discovered.length := hnumber _ t (by simp)
      rw [hall] at hnumber ⊢
      have hrest := ih (e := e₁) (by omega) hnumber
      exact .next hp htarget (hlength ▸ hrest)

/-- **A run numbers the nodes along the transitions between them.** -/
theorem run_numbered (hnumber : ∀ i s, e'.discovered[i]? = some s → (number s).toNat = i)
    (hc : e.Consistent (fun s => (successors s).map (·.2)) root limit)
    (h : Numbered 1 (e.expanded.flatMap fun s =>
      (successors s).map fun (a, t) => ⟨number s, a, number t⟩) e.discovered.length)
    (hrun : e.run (fun s => (successors s).map (·.2)) order limit = .ok e') :
    Numbered 1 (e'.expanded.flatMap fun s =>
      (successors s).map fun (a, t) => ⟨number s, a, number t⟩) e'.discovered.length := by
  fun_induction run _ order limit e with
  | case1 e hpending =>
    obtain rfl := Except.ok.inj hrun
    exact h
  | case2 e node rest hpending e₁ hlimit ih =>
    refine ih (hc.expand hpending hlimit) ?_ hrun
    have hgiven : ∀ i s, e₁.discovered[i]? = some s → (number s).toNat = i :=
      fun i s hs => hnumber i s (getElem?_mono (run_extends hrun) hs)
    have hnode : (number node).toNat < e.discovered.length := by
      obtain ⟨i, hi⟩ := List.mem_iff_getElem?.mp (hc.mem_discovered_of_pending hpending)
      rw [hgiven i node (getElem?_mono (List.prefix_append _ _) hi)]
      exact (List.getElem?_eq_some_iff.mp hi).1
    rw [show e₁.expanded = e.expanded ++ [node] from rfl, List.flatMap_append,
      List.flatMap_singleton]
    exact h.append (numbered_fresh hnode hgiven)
  | case3 e node rest hpending e₁ hlimit => exact absurd hrun (by simp)

/-- **First in, first out**: the nodes are expanded in the order of their discovery. -/
theorem run_fifo {successors : β → List β} (h : e.discovered = e.expanded ++ e.pending)
    (hrun : e.run successors .fifo limit = .ok e') : e'.expanded = e'.discovered := by
  fun_induction run successors .fifo limit e with
  | case1 e hpending =>
    obtain rfl := Except.ok.inj hrun
    rw [h, hpending, List.append_nil]
  | case2 e node rest hpending e₁ hlimit ih =>
    refine ih ?_ hrun
    simp [e₁, expand, WorklistOrder.push, h, hpending]
  | case3 e node rest hpending e₁ hlimit => exact absurd hrun (by simp)

end Exploration

variable [Ord α]

/-- `t.Before u`: the transition leaves a smaller state, or the same one on a smaller symbol. -/
def Transition.Before (t u : Transition α) : Prop :=
  t.source < u.source ∨ t.source = u.source ∧ compare t.symbol u.symbol = .lt

namespace Dfa

variable {n : Nfa α} {o : DeterminizeOptions} {d : Dfa α} {e : Exploration StateSet}

/-- **States are numbered along the transitions**, whatever the order of the worklist. -/
theorem numbered_transitions (he : n.subsets o = .ok e) :
    Numbered 1 (ofExploration n e).transitions (ofExploration n e).numStates := by
  have h : n.Explored o e := Nfa.subsets_explored he
  refine Exploration.run_numbered (fun i s hs => ?_)
    (Exploration.consistent_start o.one_le_room) .done he
  obtain ⟨hi, rfl⟩ := List.getElem?_eq_some_iff.mp hs
  rw [toNat_stateOf h (List.getElem_mem hi)]
  exact h.nodup.idxOf_getElem i hi

/-- **Sets expanded in the order of their discovery** give ascending transitions. -/
theorem transitions_ascending [Std.TransOrd α] (h : n.Explored o e)
    (hqueue : e.expanded = e.discovered) :
    (ofExploration n e).transitions.Pairwise Transition.Before := by
  simp only [ofExploration, StateGraph.make, hqueue]
  rw [List.pairwise_flatMap]
  constructor
  · intro s _
    rw [transitionsFrom, List.pairwise_map]
    exact (successors_ascending n s).imp fun hlt => Or.inr ⟨rfl, hlt⟩
  · refine (stateOf_pairwise h).imp fun {s t} hlt x hx y hy => ?_
    obtain ⟨_, -, rfl⟩ := List.mem_map.mp hx
    obtain ⟨_, -, rfl⟩ := List.mem_map.mp hy
    exact Or.inl hlt

/-- Transitions that ascend need not be sorted. -/
theorem sortedTransitions_eq {g : StateGraph α} (h : g.transitions.Pairwise Transition.Before) :
    g.sortedTransitions = g.transitions := by
  refine List.mergeSort_of_pairwise (h.imp fun {t u} hbefore => ?_)
  rcases hbefore with hsource | ⟨hsource, hsymbol⟩
  · have hlt : compare t.source u.source = .lt := Std.compare_eq_lt.mpr hsource
    rw [Transition.compare_eq_then, hlt]
    rfl
  · have heq : compare t.source u.source = .eq := Std.LawfulEqCmp.compare_eq_iff_eq.mpr hsource
    rw [Transition.compare_eq_then, heq, hsymbol]
    rfl

end Dfa

/-! ## 2. The words of the tree -/

/-- `Spans d ts ws`: the words `ws` lead, in this order, to the states that the transitions `ts`
meet.  They ascend, and each of them but the first one is a word of the list with the symbol of one
of the transitions behind it. -/
structure Spans (d : Dfa α) (ts : List (Transition α)) (ws : List (List α)) : Prop where
  head : ws[0]? = some []
  after : ∀ (q : StateId) w, ws[q.toNat]? = some w → d.after w = some q
  ascending : ws.Pairwise fun u v => shortlex u v = .lt
  origin : ∀ w ∈ ws, w = [] ∨
    ∃ t ∈ ts, ∃ v, ws[t.source.toNat]? = some v ∧ w = v ++ [t.symbol]
  /-- No transition leads to its target by a word that comes before the one in the list. -/
  bound : ∀ t ∈ ts, ∃ v w, ws[t.source.toNat]? = some v ∧ ws[t.target.toNat]? = some w ∧
    (shortlex w (v ++ [t.symbol])).isLE

namespace Spans

variable {d : Dfa α} {ts us : List (Transition α)} {t : Transition α}
  {ws : List (List α)} {u v : List α} {q : StateId}

/-- Before any transition the empty word is alone. -/
theorem start (h : d.initial = 0) : Spans d [] [[]] where
  head := rfl
  after := by
    intro q w hw
    obtain ⟨hq, rfl⟩ := List.getElem?_eq_some_iff.mp hw
    have hq : q = 0 := UInt32.toNat_inj.mp (Nat.lt_one_iff.mp hq)
    simp [hq, Dfa.after, h]
  ascending := List.pairwise_singleton _ _
  origin := fun w hw => Or.inl (List.mem_singleton.mp hw)
  bound := fun _ ht => absurd ht List.not_mem_nil

variable [Std.TransOrd α]

/-- **What a transition adds comes behind all that is there**, if the transition comes behind those
that were there. -/
theorem lt_concat (h : Spans d ts ws) (hv : ws[t.source.toNat]? = some v)
    (hbefore : ∀ x ∈ ts, x.Before t) {w : List α} (hw : w ∈ ws) :
    shortlex w (v ++ [t.symbol]) = .lt := by
  rcases h.origin w hw with rfl | ⟨x, hx, u, hu, rfl⟩
  · exact shortlex_nil_concat v t.symbol
  · rw [shortlex_concat]
    rcases hbefore x hx with hsource | ⟨hsource, hsymbol⟩
    · obtain ⟨hi, rfl⟩ := List.getElem?_eq_some_iff.mp hu
      obtain ⟨hj, rfl⟩ := List.getElem?_eq_some_iff.mp hv
      have hlt := List.pairwise_iff_getElem.mp h.ascending _ _ hi hj
        (UInt32.lt_iff_toNat_lt.mp hsource)
      rw [hlt]
      rfl
    · obtain rfl : u = v := Option.some.inj (hu.symm.trans (hsource ▸ hv))
      rw [shortlex_self, hsymbol]
      rfl

/-- A transition to a state that has its word. -/
theorem known (h : Spans d ts ws) (hsource : t.source.toNat < ws.length)
    (htarget : t.target.toNat < ws.length) (hbefore : ∀ x ∈ ts, x.Before t) :
    Spans d (ts ++ [t]) ws where
  head := h.head
  after := h.after
  ascending := h.ascending
  origin := by
    intro w hw
    refine (h.origin w hw).imp_right fun ⟨x, hx, v, hv, heq⟩ => ?_
    exact ⟨x, List.mem_append_left _ hx, v, hv, heq⟩
  bound := by
    intro x hx
    rcases List.mem_append.mp hx with hx | hx
    · exact h.bound x hx
    · obtain rfl := List.mem_singleton.mp hx
      have hv := List.getElem?_eq_getElem hsource
      have hlt := h.lt_concat hv hbefore (List.getElem_mem htarget)
      exact ⟨_, _, hv, List.getElem?_eq_getElem htarget, by rw [hlt]; rfl⟩

/-- A transition to the next state gives it its word. -/
theorem next (h : Spans d ts ws) (hv : ws[t.source.toNat]? = some v)
    (htarget : t.target.toNat = ws.length) (hbefore : ∀ x ∈ ts, x.Before t)
    (hstep : d.nextState t.source t.symbol = some t.target) :
    Spans d (ts ++ [t]) (ws ++ [v ++ [t.symbol]]) := by
  have hkeep : ∀ {i w}, ws[i]? = some w → (ws ++ [v ++ [t.symbol]])[i]? = some w :=
    getElem?_mono (List.prefix_append _ _)
  have hnew : (ws ++ [v ++ [t.symbol]])[t.target.toNat]? = some (v ++ [t.symbol]) := by
    rw [htarget, List.getElem?_concat_length]
  refine ⟨hkeep h.head, ?_, ?_, ?_, ?_⟩
  · intro q w hw
    rcases Nat.lt_or_ge q.toNat ws.length with hq | hq
    · rw [List.getElem?_append_left hq] at hw
      exact h.after q w hw
    · have hlt := (List.getElem?_eq_some_iff.mp hw).1
      rw [List.length_append, List.length_singleton] at hlt
      obtain rfl : q = t.target := UInt32.toNat_inj.mp (by omega)
      obtain rfl := Option.some.inj (hnew.symm.trans hw)
      rw [Dfa.after_concat, h.after t.source v hv, Option.bind_some, hstep]
  · refine List.pairwise_append.mpr ⟨h.ascending, List.pairwise_singleton _ _, ?_⟩
    intro w hw x hx
    rw [List.mem_singleton.mp hx]
    exact h.lt_concat hv hbefore hw
  · intro w hw
    rcases List.mem_append.mp hw with hw | hw
    · refine (h.origin w hw).imp_right fun ⟨x, hx, u, hu, heq⟩ => ?_
      exact ⟨x, List.mem_append_left _ hx, u, hkeep hu, heq⟩
    · exact Or.inr ⟨t, List.mem_append_right _ List.mem_cons_self, v, hkeep hv,
        List.mem_singleton.mp hw⟩
  · intro x hx
    rcases List.mem_append.mp hx with hx | hx
    · obtain ⟨u, w, hu, hw, hle⟩ := h.bound x hx
      exact ⟨u, w, hkeep hu, hkeep hw, hle⟩
    · obtain rfl := List.mem_singleton.mp hx
      exact ⟨v, _, hkeep hv, hnew, by rw [shortlex_self]; rfl⟩

/-- **All the transitions.**  There is a word for each state that they meet. -/
theorem run {k m : Nat} (hnumbered : Numbered k us m) (h : Spans d ts ws) (hk : ws.length = k)
    (hbefore : (ts ++ us).Pairwise Transition.Before)
    (hstep : ∀ t ∈ us, d.nextState t.source t.symbol = some t.target) :
    ∃ ws', Spans d (ts ++ us) ws' ∧ ws'.length = m := by
  induction hnumbered generalizing ts ws with
  | done => exact ⟨ws, by rwa [List.append_nil], hk⟩
  | @known k m t us hsource htarget _ ih =>
    subst hk
    have hts : ∀ x ∈ ts, x.Before t := fun x hx =>
      (List.pairwise_append.mp hbefore).2.2 x hx t List.mem_cons_self
    rw [List.append_cons] at hbefore ⊢
    exact ih (h.known hsource htarget hts) rfl hbefore (List.forall_mem_cons.mp hstep).2
  | @next k m t us hsource htarget _ ih =>
    subst hk
    have hts : ∀ x ∈ ts, x.Before t := fun x hx =>
      (List.pairwise_append.mp hbefore).2.2 x hx t List.mem_cons_self
    have hv := List.getElem?_eq_getElem hsource
    obtain ⟨hstep, hrest⟩ := List.forall_mem_cons.mp hstep
    rw [List.append_cons] at hbefore ⊢
    exact ih (h.next hv htarget hts hstep) List.length_append hbefore hrest

/-- **The words of the tree are least.**  The last step of any word is a transition, so by induction
on the word nothing that leads to a state comes before its word. -/
theorem least (h : Spans d d.transitions ws) (hinitial : d.initial = 0)
    (hu : d.after u = some q) : ∃ w, ws[q.toNat]? = some w ∧ (shortlex w u).isLE := by
  induction u using List.reverseRecOn generalizing q with
  | nil =>
    obtain rfl : d.initial = q := Option.some.inj hu
    rw [hinitial]
    exact ⟨[], h.head, by rw [shortlex_self]; rfl⟩
  | append_singleton u b ih =>
    rw [Dfa.after_concat] at hu
    obtain ⟨p, hp, hstep⟩ := Option.bind_eq_some_iff.mp hu
    obtain ⟨t, ht, rfl, hsame, rfl⟩ := StateGraph.mem_targets.mp (List.mem_of_head? hstep)
    obtain ⟨v, w, hv, hw, hle⟩ := h.bound t ht
    obtain ⟨v', hv', hvu⟩ := ih hp
    obtain rfl : v = v' := Option.some.inj (hv.symm.trans hv')
    have hlast : (shortlex (v ++ [t.symbol]) (u ++ [b])).isLE := by
      rw [shortlex_concat, hsame, Ordering.then_eq]
      exact hvu
    exact ⟨w, hw, Std.TransCmp.isLE_trans hle hlast⟩

end Spans

/-! ## 3. First in, first out -/

namespace Dfa

/-- `d.LeastWord w q`: the word leads to the state, and no word that leads there comes before it. -/
structure LeastWord (d : Dfa α) (w : List α) (q : StateId) : Prop where
  leads : d.after w = some q
  least : ∀ u, d.after u = some q → (shortlex w u).isLE

/-- `d.BreadthFirst`: the states are numbered breadth first. -/
structure BreadthFirst (d : Dfa α) : Prop where
  exists_leastWord : ∀ q : StateId, q.toNat < d.numStates → ∃ w, d.LeastWord w q
  /-- States are numbered as the least words that lead to them are ordered. -/
  leastWord_lt : ∀ p q u v, p < q → d.LeastWord u p → d.LeastWord v q → shortlex u v = .lt
  ascending : d.transitions.Pairwise Transition.Before
  sortedTransitions_eq : d.sortedTransitions = d.transitions

/-- Words that span the automaton are the least words of its states. -/
theorem breadthFirst_of_spans [Std.TransOrd α] {d : Dfa α} {ws : List (List α)}
    (h : Spans d d.transitions ws) (hlength : ws.length = d.numStates) (hinitial : d.initial = 0)
    (hascending : d.transitions.Pairwise Transition.Before) : d.BreadthFirst where
  exists_leastWord := by
    intro q hq
    have hw := List.getElem?_eq_getElem (hlength.symm ▸ hq : q.toNat < ws.length)
    refine ⟨_, h.after q _ hw, fun u hu => ?_⟩
    obtain ⟨w, hw', hle⟩ := h.least hinitial hu
    rwa [Option.some.inj (hw.symm.trans hw')]
  leastWord_lt := by
    intro p q u v hpq hu hv
    obtain ⟨x, hx, hxu⟩ := h.least hinitial hu.leads
    obtain ⟨y, hy, hyv⟩ := h.least hinitial hv.leads
    have hux : (shortlex u x).isLE := hu.least x (h.after p x hx)
    obtain ⟨hi, rfl⟩ := List.getElem?_eq_some_iff.mp hx
    obtain ⟨hj, rfl⟩ := List.getElem?_eq_some_iff.mp hy
    have hlt := List.pairwise_iff_getElem.mp h.ascending _ _ hi hj (UInt32.lt_iff_toNat_lt.mp hpq)
    exact Std.TransCmp.lt_of_lt_of_isLE (Std.TransCmp.lt_of_isLE_of_lt hux hlt) hyv
  ascending := hascending
  sortedTransitions_eq := Dfa.sortedTransitions_eq hascending

end Dfa

/-- **First in, first out is breadth first.**  The states of a deterministic automaton that is made
in this order are numbered as the least words that lead to them are ordered, by length and then by
symbols, and its transitions stand in their sorted order. -/
theorem determinize_fifo [Std.TransOrd α] {n : Nfa α} {d : Dfa α} {maxStates : Nat}
    (hd : (n.determinize ⟨maxStates, .fifo⟩).outcome = .ok d) : d.BreadthFirst := by
  have hrepresents := determinize_represents hd
  obtain ⟨e, he, rfl⟩ := Nfa.determinize_outcome_eq_ok_iff.mp hd
  have hqueue : e.expanded = e.discovered := Exploration.run_fifo rfl he
  have hascending := Dfa.transitions_ascending (Nfa.subsets_explored he) hqueue
  obtain ⟨ws, hspans, hlength⟩ := (Spans.start rfl).run (Dfa.numbered_transitions he) rfl
    hascending fun t ht => hrepresents.nextState_eq ht
  exact Dfa.breadthFirst_of_spans hspans hlength rfl hascending

/-- Two ways of two symbols to one state, of which the later symbol is written first. -/
def twoWays : Nfa Char :=
  ⟨StateGraph.make 0 [⟨0, 'b', 1⟩, ⟨0, 'a', 2⟩, ⟨1, 'a', 3⟩, ⟨2, 'b', 3⟩, ⟨2, 'a', 0⟩,
    ⟨3, 'ε', 1⟩] [3], 'ε'⟩

def twoWaysDfa : Dfa Char :=
  ⟨StateGraph.make 0 [⟨0, 'a', 1⟩, ⟨0, 'b', 2⟩, ⟨1, 'a', 0⟩, ⟨1, 'b', 3⟩, ⟨2, 'a', 3⟩,
    ⟨3, 'a', 3⟩] [3], ['a', 'b'], [.ofList [0], .ofList [2], .ofList [1], .ofList [1, 3]]⟩

theorem determinize_fifo_two_ways :
    (twoWays.determinize ⟨4, .fifo⟩).outcome = .ok twoWaysDfa ∧ twoWaysDfa.BreadthFirst := by
  have hd : (twoWays.determinize ⟨4, .fifo⟩).outcome = .ok twoWaysDfa := by decide +kernel
  exact ⟨hd, determinize_fifo hd⟩

/-- In the other order the state 2 is expanded before the state 1. -/
example : ((twoWays.determinize ⟨4, .lifo⟩).outcome.toOption.map fun d =>
    d.transitions.map (·.source)) = some [0, 0, 2, 3, 1, 1] := by decide +kernel

end Recognizer
