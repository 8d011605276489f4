/-
# When an operator fails

Besides automata that are not fragments and epsilons that differ, the only thing that can go wrong
in an operator is that identifiers run out.  So an operator on fragments with the same epsilon gives
a result or says which identifier could not be moved (`Exhausts`), whatever the fragments look like.
Each step of the operators has this property, and a sequence of steps has it when the steps do.

* `Exhausts.bind`: one step after another;
* `star_exhausts`, `concat_exhausts`, `alternate_exhausts`, `expand_exhausts`: the operators.
-/
import Recognizer.Proofs.Outcome

namespace Recognizer

variable {α β γ : Type}

/-- There is a result, or identifiers ran out. -/
def Exhausts (x : Except (BuildError α) β) : Prop :=
  ∀ e, x = .error e → ∃ q delta, e = .stateOutOfRange q delta

/-! ## 1. Steps -/

namespace Exhausts

theorem ok {x : Except (BuildError α) β} {b : β} (h : x = .ok b) : Exhausts x := by
  intro e he
  exact absurd (h.symm.trans he) (by simp)

theorem pure (b : β) : Exhausts (Pure.pure b : Except (BuildError α) β) := ok rfl

theorem error (q : StateId) (delta : Int) :
    Exhausts (.error (.stateOutOfRange q delta) : Except (BuildError α) β) :=
  fun _ he => ⟨q, delta, (Except.error.inj he).symm⟩

/-- One step after another. -/
theorem bind {x : Except (BuildError α) β} {k : β → Except (BuildError α) γ} (hx : Exhausts x)
    (hk : ∀ b, x = .ok b → Exhausts (k b)) : Exhausts (x >>= k) := by
  cases x with
  | ok b => exact hk b rfl
  | error e => exact fun e' he => hx e' (congrArg Except.error (Except.error.inj he))

theorem map {x : Except (BuildError α) β} (hx : Exhausts x) (f : β → γ) : Exhausts (x.map f) := by
  cases x with
  | ok b => exact ok rfl
  | error e => exact fun e' he => hx e' (congrArg Except.error (Except.error.inj he))

end Exhausts

theorem StateId.shift_exhausts (q : StateId) (delta : Int) :
    Exhausts (q.shift delta : Except (BuildError α) StateId) := by
  unfold shift
  split
  · exact .ok rfl
  · exact .error q delta

theorem StateGraph.nextAvailable_exhausts (g : StateGraph α) : Exhausts g.nextAvailable :=
  g.top.shift_exhausts 1

theorem StateGraph.shiftTo_exhausts (g : StateGraph α) (target : StateId) :
    Exhausts (g.shiftTo target) := by
  rw [shiftTo_eq]
  split
  · exact .error _ _
  · exact .ok rfl

theorem Graft.carryOut_exhausts (g : Graft α) : Exhausts g.carryOut := by
  rw [carryOut_eq]
  split
  · exact .ok rfl
  · exact .error _ _

namespace Nfa

variable {n : Nfa α} {f g : Fragment α} {symbol : α}

theorem shiftTo_exhausts (n : Nfa α) (target : StateId) : Exhausts (n.shiftTo target) :=
  (n.toStateGraph.shiftTo_exhausts target).map _

theorem fragment_exhausts (f : Fragment α) : Exhausts f.fragment :=
  .ok (fragment_eq_ok_iff.mpr rfl)

theorem sharedEntry_exhausts (f : Fragment α) (next : StateId) : Exhausts (sharedEntry f next) := by
  unfold sharedEntry
  split
  · exact (next.shift_exhausts 1).bind fun _ _ => .pure _
  · exact .pure _

theorem sharedExit_exhausts (f : Fragment α) (next : StateId) : Exhausts (sharedExit f next) := by
  unfold sharedExit
  split
  · exact (next.shift_exhausts 1).bind fun _ _ => .pure _
  · exact .pure _

theorem copies_exhausts (f : Fragment α) (base : StateId) (ts : List (Transition α)) :
    Exhausts (copies f base ts) := by
  induction ts generalizing base with
  | nil => exact .pure _
  | cons t ts ih =>
    refine (Graft.carryOut_exhausts _).bind fun copy _ => ?_
    exact (ih copy.next).bind fun _ _ => .pure _

/-! ## 2. Operators -/

theorem star_exhausts (f : Fragment α) : Exhausts f.star := by
  refine (fragment_exhausts f).bind fun _ _ => ?_
  refine (f.initial.shift_exhausts 1).bind fun body _ => ?_
  refine (shiftTo_exhausts _ body).bind fun moved _ => ?_
  exact (StateGraph.nextAvailable_exhausts _).bind fun _ _ => .pure _

variable [Ord α]

theorem checkEpsilon_exhausts {m : Nfa α} (h : n.IsEpsilon m.epsilon) :
    Exhausts (n.checkEpsilon m) := .ok (checkEpsilon_eq_ok_iff (u := ()).mpr h)

theorem concat_exhausts (heps : f.IsEpsilon g.epsilon) : Exhausts (f.concat g.toNfa) := by
  refine (checkEpsilon_exhausts heps).bind fun _ _ => ?_
  refine (fragment_exhausts f).bind fun _ _ => ?_
  refine (StateGraph.nextAvailable_exhausts _).bind fun _ _ => ?_
  refine (fragment_exhausts g).bind fun _ _ => ?_
  exact (Graft.carryOut_exhausts _).bind fun _ _ => .pure _

theorem alternate_exhausts (heps : f.IsEpsilon g.epsilon) : Exhausts (f.alternate g.toNfa) := by
  refine (checkEpsilon_exhausts heps).bind fun _ _ => ?_
  refine (fragment_exhausts f).bind fun _ _ => ?_
  refine (fragment_exhausts g).bind fun _ _ => ?_
  refine (StateGraph.nextAvailable_exhausts _).bind fun _ _ => ?_
  refine (sharedEntry_exhausts _ _).bind fun _ _ => ?_
  refine (sharedExit_exhausts _ _).bind fun _ _ => ?_
  exact (Graft.carryOut_exhausts _).bind fun _ _ => .pure _

theorem expand_exhausts (heps : f.IsEpsilon g.epsilon) :
    Exhausts (f.expand symbol g.toNfa) := by
  refine (checkEpsilon_exhausts heps).bind fun _ _ => ?_
  refine (fragment_exhausts f).bind fun _ _ => ?_
  refine (fragment_exhausts g).bind fun _ _ => ?_
  refine (StateGraph.nextAvailable_exhausts _).bind fun _ _ => ?_
  exact (copies_exhausts _ _ _).bind fun _ _ => .pure _

end Nfa

end Recognizer
