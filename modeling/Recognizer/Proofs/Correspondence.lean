/-
# Automata whose sets correspond

Some changes to an automaton change the sets that its simulation holds, and nothing else about them:
each set is turned into another one, and different sets into different ones.  Then the deterministic
automaton stays the same.  Its states are numbered in the order in which the sets are met, and no
number depends on what a set is made of.

What turns the sets into one another need not keep all sets apart, but only those that the
simulation can come to.  `Nfa.Corresponds` says what has to hold on them.

* `Exploration.run_map`: an exploration of renamed nodes is the exploration, renamed, and it fails
  where the other one fails;
* `Nfa.Corresponds.subsets_eq`: the explorations of sets that correspond;
* `Nfa.Corresponds.toStateGraph_eq`: the graphs that are made of them.
-/
import Mathlib.Data.Set.Function
import Recognizer.Proofs.Limit

namespace Recognizer

/-! ## 1. Renamed nodes -/

namespace Exploration

variable {β γ : Type} {f : β → γ} {met : Set β} {e e' : Exploration β} {node root : β}
  {nodes rest : List β} {limit : Nat} {order : WorklistOrder}

/-- The exploration with every node renamed. -/
def map (f : β → γ) (e : Exploration β) : Exploration γ :=
  ⟨e.discovered.map f, e.expanded.map f, e.pending.map f⟩

variable [DecidableEq β] [DecidableEq γ]

/-- Nodes that keep their differences keep their numbers. -/
theorem number_map (hf : Set.InjOn f {x | x ∈ e.discovered}) (hnodup : e.discovered.Nodup)
    (hnode : node ∈ e.discovered) : (e.map f).number (f node) = e.number node := by
  obtain ⟨i, hi, rfl⟩ := List.mem_iff_getElem.mp hnode
  have hmap : (e.discovered.map f).Nodup := hnodup.map_on fun x hx y hy => hf hx hy
  have hi' : i < (e.discovered.map f).length := by rwa [List.length_map]
  have hnumber := hmap.idxOf_getElem i hi'
  rw [List.getElem_map] at hnumber
  exact hnumber.trans (hnodup.idxOf_getElem i hi).symm

/-- New nodes are new after the renaming. -/
theorem fresh_map (hf : Set.InjOn f met) (hmet : ∀ x ∈ e.discovered, x ∈ met)
    (hnodes : ∀ x ∈ nodes, x ∈ met) : (e.map f).fresh (nodes.map f) = (e.fresh nodes).map f := by
  induction nodes generalizing e with
  | nil => rfl
  | cons node nodes ih =>
    obtain ⟨hnode, hnodes⟩ := List.forall_mem_cons.mp hnodes
    rw [List.map_cons]
    by_cases hmem : node ∈ e.discovered
    · have hmem' : f node ∈ (e.map f).discovered := List.mem_map_of_mem hmem
      rw [fresh_cons_of_mem hmem, fresh_cons_of_mem hmem', ih hmet hnodes]
    · let e₁ : Exploration β := { e with discovered := e.discovered ++ [node] }
      have hmem' : f node ∉ (e.map f).discovered := by
        intro hin
        obtain ⟨x, hx, heq⟩ := List.mem_map.mp hin
        obtain rfl := hf (hmet x hx) hnode heq
        exact hmem hx
      have hdiscovered : (e₁.map f).discovered = (e.map f).discovered ++ [f node] := by
        simp [e₁, map]
      have hmet₁ : ∀ x ∈ e₁.discovered, x ∈ met := by
        intro x hx
        rcases List.mem_append.mp hx with hx | hx
        · exact hmet x hx
        · exact List.mem_singleton.mp hx ▸ hnode
      rw [fresh_cons_of_not_mem hmem (rfl : e₁.discovered = _),
        fresh_cons_of_not_mem hmem' hdiscovered, ih hmet₁ hnodes, List.map_cons]

variable {successors : β → List β} {successors' : γ → List γ}

/-- One expansion of a renamed node. -/
theorem expand_map (hf : Set.InjOn f met) (hmet : ∀ x ∈ e.discovered, x ∈ met)
    (hnodes : ∀ x ∈ successors node, x ∈ met)
    (hsuccessors : successors' (f node) = (successors node).map f) :
    (e.map f).expand successors' order (f node) (rest.map f) =
      (e.expand successors order node rest).map f := by
  simp only [expand, hsuccessors, fresh_map hf hmet hnodes, WorklistOrder.push_map]
  simp [map]

/-- One step of a run over renamed nodes. -/
theorem run_map_of_pending_cons (hf : Set.InjOn f met) (hmet : ∀ x ∈ e.discovered, x ∈ met)
    (hnodes : ∀ x ∈ successors node, x ∈ met)
    (hsuccessors : successors' (f node) = (successors node).map f)
    (hpending : e.pending = node :: rest) :
    (e.map f).run successors' order limit =
      if (e.expand successors order node rest).discovered.length ≤ limit then
        ((e.expand successors order node rest).map f).run successors' order limit
      else .error (((e.expand successors order node rest).discovered.take limit).map f) := by
  have hpending' : (e.map f).pending = f node :: rest.map f := by
    rw [map, hpending, List.map_cons]
  rw [run_of_pending_cons hpending', expand_map hf hmet hnodes hsuccessors, List.map_take]
  simp only [map, List.length_map]

/-- **An exploration of renamed nodes is the exploration, renamed**, when the nodes that it can meet
keep their differences and lead to the renamed nodes that they led to before.  If it runs into its
limit, it has met the renamed nodes until then. -/
theorem run_map (hc : e.Consistent successors root limit) (hf : Set.InjOn f met)
    (hclosed : ∀ x ∈ met, ∀ y ∈ successors x, y ∈ met)
    (hsuccessors : ∀ x ∈ met, successors' (f x) = (successors x).map f)
    (hmet : ∀ x ∈ e.discovered, x ∈ met) :
    (e.map f).run successors' order limit =
      ((e.run successors order limit).map (map f)).mapError (List.map f) := by
  fun_induction run successors order limit e with
  | case1 e hpending => exact run_of_pending_nil (by rw [map, hpending, List.map_nil])
  | case2 e node rest hpending e₁ hlimit ih =>
    have hnode : node ∈ met := hmet node (hc.mem_discovered_of_pending hpending)
    have hmet₁ : ∀ x ∈ e₁.discovered, x ∈ met := fun x hx =>
      (mem_discovered_expand.mp hx).elim (hmet x) (hclosed node hnode x)
    rw [run_map_of_pending_cons hf hmet (hclosed node hnode) (hsuccessors node hnode) hpending,
      if_pos hlimit]
    exact ih (hc.expand hpending hlimit) hmet₁
  | case3 e node rest hpending e₁ hlimit =>
    have hnode : node ∈ met := hmet node (hc.mem_discovered_of_pending hpending)
    rw [run_map_of_pending_cons hf hmet (hclosed node hnode) (hsuccessors node hnode) hpending,
      if_neg hlimit]
    rfl

end Exploration

/-! ## 2. Sets that correspond -/

variable {α : Type} [Ord α] {n m : Nfa α} {f : StateSet → StateSet} {met : Set StateSet}
  {o : DeterminizeOptions} {e : Exploration StateSet} {s : StateSet}

/-- `n.Corresponds m f met`: on the sets in `met`, which the simulation of `n` does not leave, `f`
turns the simulation of `n` into that of `m`. -/
structure Nfa.Corresponds (n m : Nfa α) (f : StateSet → StateSet) (met : Set StateSet) : Prop where
  injOn : Set.InjOn f met
  startSet_mem : n.startSet ∈ met
  closed : ∀ s ∈ met, ∀ x ∈ n.successors s, x.2 ∈ met
  startSet_eq : m.startSet = f n.startSet
  successors_eq : ∀ s ∈ met, m.successors (f s) = (n.successors s).map fun (a, t) => (a, f t)
  /-- A set accepts when the one that it is turned into does. -/
  intersects_eq : ∀ s ∈ met, (f s).intersects m.acceptingSet = s.intersects n.acceptingSet

namespace Nfa.Corresponds

open Dfa

/-- **The explorations.** -/
theorem subsets_eq (h : n.Corresponds m f met) (o : DeterminizeOptions) :
    m.subsets o = ((n.subsets o).map (Exploration.map f)).mapError (List.map f) := by
  rw [Nfa.subsets, Nfa.subsets, explore, explore, h.startSet_eq]
  refine Exploration.run_map (Exploration.consistent_start o.one_le_room) h.injOn
    (fun s hs t ht => ?_) (fun s hs => ?_) fun s hs => ?_
  · obtain ⟨x, hx, rfl⟩ := List.mem_map.mp ht
    exact h.closed s hs x hx
  · rw [h.successors_eq s hs, List.map_map, List.map_map]
    rfl
  · rw [List.mem_singleton.mp hs]
    exact h.startSet_mem

/-- Every set that is met is one that `f` keeps apart. -/
theorem mem_of_discovered (h : n.Corresponds m f met) (he : n.Explored o e)
    (hs : s ∈ e.discovered) : s ∈ met := by
  have hreached := he.reached s hs
  clear hs
  induction hreached with
  | refl => exact h.startSet_mem
  | tail _ hstep ih =>
    obtain ⟨x, hx, rfl⟩ := List.mem_map.mp hstep
    exact h.closed _ ih x hx

/-- A set that is turned into another one keeps its state. -/
theorem stateOf_eq (h : n.Corresponds m f met) (he : n.Explored o e) (hs : s ∈ e.discovered) :
    stateOf (e.map f) (f s) = stateOf e s := by
  have hf : Set.InjOn f {s | s ∈ e.discovered} := h.injOn.mono fun s hs => h.mem_of_discovered he hs
  rw [stateOf, Exploration.number_map hf he.nodup hs, stateOf]

theorem transitionsFrom_eq (h : n.Corresponds m f met) (he : n.Explored o e)
    (hs : s ∈ e.discovered) : transitionsFrom m (e.map f) (f s) = transitionsFrom n e s := by
  rw [transitionsFrom, h.successors_eq s (h.mem_of_discovered he hs), List.map_map, transitionsFrom]
  refine List.map_congr_left fun x hx => ?_
  obtain ⟨a, t⟩ := x
  obtain ⟨ha, rfl, hne⟩ := Nfa.mem_successors_iff.mp hx
  have htarget := h.stateOf_eq he (he.move_mem hs ha hne)
  simp only [Function.comp_apply, h.stateOf_eq he hs, htarget]

/-- **The graphs.** -/
theorem toStateGraph_eq (h : n.Corresponds m f met) (he : n.Explored o e) :
    (ofExploration m (e.map f)).toStateGraph = (ofExploration n e).toStateGraph := by
  have htransitions : (e.map f).expanded.flatMap (transitionsFrom m (e.map f)) =
      e.expanded.flatMap (transitionsFrom n e) := by
    rw [Exploration.map, List.flatMap_map]
    exact List.flatMap_congr fun s hs =>
      h.transitionsFrom_eq he ((he.mem_expanded_iff he.done).mp hs)
  have haccepting : ((e.map f).discovered.filter fun s => s.intersects m.acceptingSet).map
      (stateOf (e.map f)) =
      (e.discovered.filter fun s => s.intersects n.acceptingSet).map (stateOf e) := by
    have hfilter : (e.discovered.filter fun s => (f s).intersects m.acceptingSet) =
        e.discovered.filter fun s => s.intersects n.acceptingSet :=
      List.filter_congr fun s hs => h.intersects_eq s (h.mem_of_discovered he hs)
    rw [Exploration.map, List.filter_map, List.map_map]
    refine (congrArg _ hfilter).trans ?_
    exact List.map_congr_left fun s hs => h.stateOf_eq he (List.mem_filter.mp hs).1
  exact congrArg₂ (StateGraph.make 0) htransitions haccepting

end Nfa.Corresponds

end Recognizer
