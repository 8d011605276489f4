/-
# Fragments

A fragment is an automaton with exactly one accepting state, its exit.  A copy of a fragment joins a
host at two ends.  An end is either *fused*, and then becomes the host state itself, or *linked* to
it by a silent transition.  An initial state that no transition enters and an exit that no transition
leaves can be fused without adding a way through the host; any other end is linked.

* `Nfa.fragment_eq_ok_iff`, `Nfa.fragment_eq_error_iff`: an automaton is a fragment exactly when it
  has one accepting state, and otherwise the error counts them.
-/
import Recognizer.Nfa.Basic

namespace Recognizer

/-! ## 1. Fragments -/

/-- An automaton with exactly one accepting state. -/
structure Fragment (α : Type) extends Nfa α where
  exit : StateId
  accepting_eq : accepting = [exit]

variable {α : Type}

theorem Fragment.isAccepting_iff {f : Fragment α} {q : StateId} :
    f.IsAccepting q ↔ q = f.exit := by
  rw [StateGraph.IsAccepting, f.accepting_eq, List.mem_singleton]

/-- The automaton as a fragment, if it is one. -/
def Nfa.fragment (n : Nfa α) : Except (BuildError α) (Fragment α) :=
  match h : n.accepting with
  | [exit] => .ok ⟨n, exit, h⟩
  | accepting => .error (.malformedFragment accepting.length)

theorem Nfa.fragment_eq_ok_iff {n : Nfa α} {f : Fragment α} :
    n.fragment = .ok f ↔ f.toNfa = n := by
  obtain ⟨m, exit, hm⟩ := f
  unfold Nfa.fragment
  split
  · rename_i q hq
    rw [Except.ok.injEq, Fragment.mk.injEq]
    constructor
    · rintro ⟨rfl, -⟩
      rfl
    · intro h
      have h : m = n := h
      subst h
      refine ⟨rfl, ?_⟩
      rw [hm] at hq
      exact (List.cons.inj hq).1.symm
  · rename_i hne
    simp only [reduceCtorEq, false_iff]
    intro h
    have h : m = n := h
    subst h
    exact hne exit hm

theorem Nfa.fragment_eq_error_iff {n : Nfa α} {e : BuildError α} :
    n.fragment = .error e ↔ n.accepting.length ≠ 1 ∧ e = .malformedFragment n.accepting.length := by
  unfold Nfa.fragment
  split
  · rename_i q hq
    simp [hq]
  · rename_i hne
    rw [Except.error.injEq]
    constructor
    · intro h
      refine ⟨fun hl => ?_, h.symm⟩
      obtain ⟨q, hq⟩ := List.length_eq_one_iff.mp hl
      exact hne q hq
    · exact fun h => h.2.symm

/-! ## 2. Joints -/

/-- How one end of a fragment joins a state of the host. -/
inductive Joint where
  /-- The end becomes the host state. -/
  | fuse (host : StateId)
  /-- The end stays a state of its own, with a silent transition between it and the host state. -/
  | link (host : StateId)
  deriving DecidableEq

/-- The initial state is fused when no transition enters it. -/
def Fragment.entryJoint (f : Fragment α) (host : StateId) : Joint :=
  if f.hasIncoming f.initial then .link host else .fuse host

/-- The exit is fused when no transition leaves it. -/
def Fragment.exitJoint (f : Fragment α) (host : StateId) : Joint :=
  if f.hasOutgoing f.exit then .link host else .fuse host

end Recognizer
