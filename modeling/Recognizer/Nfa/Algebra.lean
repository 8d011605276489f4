/-
# The algebra of fragments

Concatenation, alternation, star and expansion build an automaton out of fragments.  Each puts
copies of one operand above the states of the other and joins them as `Graft` says;
every identifier of the result is fixed by that.  An operator fails on an operand that is not a
fragment, on operands with different epsilons, and when it runs out of identifiers.
-/
import Recognizer.Nfa.Graft

namespace Recognizer

namespace Nfa

variable {α : Type} [Ord α]

/-- Fails unless both automata have the same epsilon. -/
def checkEpsilon (n m : Nfa α) : Except (BuildError α) Unit :=
  if n.IsEpsilon m.epsilon then .ok () else .error (.epsilonMismatch n.epsilon m.epsilon)

/-! ## 1. Concatenation -/

/-- How the second operand of a concatenation joins the exit of the first: one of the two ends
has to be clean for them to become one state. -/
def seam (f : Fragment α) (m : Nfa α) : Joint :=
  if !m.hasIncoming m.initial || !f.hasOutgoing f.exit then .fuse f.exit else .link f.exit

/-- Words of the first operand followed by words of the second. -/
def concat (n m : Nfa α) : Except (BuildError α) (Nfa α) := do
  n.checkEpsilon m
  let f ← n.fragment
  let base ← n.nextAvailable
  let g ← m.fragment
  let copy ← Graft.carryOut ⟨g, base, seam f m, none⟩
  return between n.initial copy.accepting (n.transitions ++ copy.transitions) n.epsilon

/-! ## 2. Alternation -/

/-- An end that two operands share, with the silent transition that joins the first one to it and
the first identifier that is still free. -/
structure SharedEnd (α : Type) where
  state : StateId
  links : List (Transition α)
  next : StateId

/-- The entry that a fragment can share: its initial state if no transition enters it, otherwise
a new state in front of it. -/
def sharedEntry (f : Fragment α) (next : StateId) : Except (BuildError α) (SharedEnd α) :=
  if f.hasIncoming f.initial then do
    let free ← next.successor
    return ⟨next, [⟨next, f.epsilon, f.initial⟩], free⟩
  else
    return ⟨f.initial, [], next⟩

/-- The exit that a fragment can share: its own if no transition leaves it and it is not the
initial state, otherwise a new state behind it. -/
def sharedExit (f : Fragment α) (next : StateId) : Except (BuildError α) (SharedEnd α) :=
  if f.hasOutgoing f.exit || f.exit = f.initial then do
    let free ← next.successor
    return ⟨next, [⟨f.exit, f.epsilon, next⟩], free⟩
  else
    return ⟨f.exit, [], next⟩

/-- Words of either operand. -/
def alternate (n m : Nfa α) : Except (BuildError α) (Nfa α) := do
  n.checkEpsilon m
  let f ← n.fragment
  let g ← m.fragment
  let next ← n.nextAvailable
  let entry ← sharedEntry f next
  let exit ← sharedExit f entry.next
  let copy ← (g.splice exit.next entry.state exit.state).carryOut
  return between entry.state exit.state
    (n.transitions ++ entry.links ++ exit.links ++ copy.transitions) n.epsilon

/-! ## 3. Star -/

/-- Any number of words of the operand, one after the other.  The operand moves up by one, so
that state 0 can be the entry; the exit is the next free state. -/
def star (n : Nfa α) : Except (BuildError α) (Nfa α) := do
  let f ← n.fragment
  let body ← n.initial.successor
  let moved ← n.shiftTo body
  let bodyExit := f.exit.shifted 1
  let exit ← moved.nextAvailable
  return between 0 exit
    (moved.transitions ++ [⟨0, n.epsilon, body⟩, ⟨bodyExit, n.epsilon, exit⟩,
      ⟨exit, n.epsilon, body⟩, ⟨0, n.epsilon, exit⟩])
    n.epsilon

/-! ## 4. Expansion -/

/-- The transitions of one copy of a fragment for each of the given transitions, spliced between
its source and its target. -/
def copies (f : Fragment α) : StateId → List (Transition α) →
    Except (BuildError α) (List (Transition α))
  | _, [] => return []
  | base, t :: ts => do
    let copy ← (f.splice base t.source t.target).carryOut
    let rest ← copies f copy.next ts
    return copy.transitions ++ rest

/-- The transitions on a symbol, in order. -/
def transitionsOn (n : Nfa α) (symbol : α) : List (Transition α) :=
  n.transitions.filter fun t => Same t.symbol symbol

/-- The transitions on other symbols, in order. -/
def transitionsOff (n : Nfa α) (symbol : α) : List (Transition α) :=
  n.transitions.filter fun t => !Same t.symbol symbol

/-- Each transition on a symbol replaced by a copy of the second operand.  Transitions inside the
copies are not replaced again. -/
def expand (n : Nfa α) (symbol : α) (m : Nfa α) : Except (BuildError α) (Nfa α) := do
  n.checkEpsilon m
  let _ ← n.fragment
  let g ← m.fragment
  let base ← n.nextAvailable
  let expanded ← copies g base (n.transitionsOn symbol)
  return { n with transitions := n.transitionsOff symbol ++ expanded }

end Nfa

end Recognizer
