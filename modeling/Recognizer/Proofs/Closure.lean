/-
# Closing a set of states

A set is closed by a search along silent transitions that starts with its members pending.  The
search follows a silent transition only when it finds the source, and it finds no state twice.  So
each transition makes a state pending at most once, and the search looks at no more states than
there are members and silent transitions, even where silent transitions form cycles or are repeated.

* `Search.iterate_step`: a run without a goal is its steps, one after the other;
* `Nfa.leads_silentEdges_iff`: what silent transitions lead to is at the ends of the silent walks;
* `Nfa.closure_exact`: how soon the search is over, and what it has found.
-/
import Mathlib.Logic.Function.Iterate
import Recognizer.Proofs.Walks

namespace Recognizer

/-! ## 1. The steps of a search -/

namespace Search

variable {edges : List (StateId × StateId)} {order : WorklistOrder} {s : Search} {k : Nat}

/-- **A run without a goal is its steps.**  There are no more than `Search.left` of them, and steps
after the last one change nothing. -/
theorem iterate_step (h : s.left edges ≤ k) :
    (step edges order)^[k] s = s.run edges order fun _ => false := by
  -- The run decides how many steps are needed; the rest of `k` is spent on the last state.
  fun_induction run edges order (fun _ => false) s generalizing k with
  | case1 s hpending => exact Function.iterate_fixed (step_of_nil hpending) k
  | case2 s q rest hpending hgoal => exact absurd hgoal Bool.false_ne_true
  | case3 s q rest hpending hgoal ih =>
    have hless : (s.step edges order).left edges < s.left edges := left_step (by simp [hpending])
    obtain ⟨k, rfl⟩ := Nat.exists_eq_add_of_le' (Nat.one_le_of_lt (Nat.lt_of_lt_of_le hless h))
    rw [Function.iterate_succ_apply]
    exact ih (by omega)

/-- A search can look at each state that it starts from and at one more for each edge. -/
theorem left_start (edges : List (StateId × StateId)) (order : WorklistOrder)
    (states : List StateId) : (start order states).left edges = states.length + edges.length := by
  have hunfollowed : (start order states).unfollowed edges = edges :=
    List.filter_eq_self.mpr fun _ _ => rfl
  rw [left, hunfollowed, start, WorklistOrder.length_push, List.length_nil]
  omega

end Search

/-! ## 2. Silent walks -/

namespace Nfa

variable {α : Type} [Ord α] {n : Nfa α} {p q : StateId} {labels : List α}

/-- A walk reads nothing when all its labels are silent. -/
theorem reads_empty_iff : n.Reads labels [] ↔ ∀ a ∈ labels, n.IsEpsilon a := by
  induction labels with
  | nil => simp [reads_nil_iff]
  | cons a labels ih =>
    rw [List.forall_mem_cons]
    by_cases ha : n.IsEpsilon a
    · rw [reads_cons_of_isEpsilon ha, ih]
      exact ⟨fun h => ⟨ha, h⟩, And.right⟩
    · rw [reads_cons_of_not_isEpsilon ha]
      simp [ha]

/-- What silent transitions lead to is at the ends of the silent walks. -/
theorem leads_silentEdges_iff : Leads n.silentEdges p q ↔
    ∃ labels, n.Labelled p labels q ∧ ∀ a ∈ labels, n.IsEpsilon a := by
  simp only [← path_nil_iff, path_iff_labelled, reads_empty_iff]

/-! ## 3. Closures -/

/-- **The closure is found, and it is exact.**  Whatever set the search starts from, nothing is
pending once it has taken as many steps as the set has members and the automaton has silent
transitions, and from then on it has found the closure.  This holds just the states to which a walk
leads from some member whose labels are all the epsilon, in whatever spelling; the walk may be
empty, and a member may be no state of the automaton. -/
theorem closure_exact (n : Nfa α) (s : StateSet) :
    (∀ k, (Search.step n.silentEdges .lifo)^[s.size + n.silentEdges.length + k]
      (.start .lifo s.members) = ⟨n.closure s, []⟩) ∧
    (∀ q, q ∈ n.closure s ↔
      ∃ p ∈ s, ∃ labels, n.Labelled p labels q ∧ ∀ a ∈ labels, n.IsEpsilon a) ∧
    ∀ p q, q ∈ n.closure (.singleton p) ↔
      ∃ labels, n.Labelled p labels q ∧ ∀ a ∈ labels, n.IsEpsilon a := by
  refine ⟨fun k => ?_, fun q => ?_, fun p q => ?_⟩
  · have hleft : (Search.start .lifo s.members).left n.silentEdges ≤
        s.size + n.silentEdges.length + k := by
      rw [Search.left_start]
      exact Nat.le_add_right _ k
    rw [Search.iterate_step hleft]
    exact congrArg (Search.mk _) (pending_reachable n.silentEdges s.members)
  · simp only [mem_closure, leads_silentEdges_iff]
  · simp only [mem_closure, leads_silentEdges_iff, StateSet.mem_singleton, exists_eq_left]

/-- A silent cycle with a repeated transition, and a member that is no state. -/
example : ((between 0 1 [⟨0, 'ε', 1⟩, ⟨1, 'ε', 0⟩, ⟨1, 'ε', 0⟩] 'ε').closure
    (.ofList [1, 7])).members = [0, 1, 7] := by decide +kernel

end Nfa

end Recognizer
