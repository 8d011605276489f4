/-
# Copies of fragments

A graft is a copy of a fragment that joins a host.  Ends that are fused go to their host states; the
other states of the fragment take the identifiers from a base on, in ascending order.

A graft is carried out state by state: a state that has no place yet takes the next free identifier
(`Allotment.give`).  It fails when an identifier that was taken has no successor.  Where a state
goes can also be told from its position among the states that are not fused (`Graft.image`); that
the two agree is shown in `Recognizer.Proofs.Allotment`.
-/
import Recognizer.Nfa.Fragment

namespace Recognizer

variable {α : Type}

/-! ## 1. Giving out identifiers -/

/-- The places that states of a fragment have in the host so far, and the next free identifier. -/
structure Allotment where
  places : List (StateId × StateId)
  next : StateId
  deriving DecidableEq

namespace Allotment

/-- Where a state goes; without a place it would keep its identifier. -/
def image (a : Allotment) (q : StateId) : StateId := (a.places.lookup q).getD q

/-- Gives the next free identifier to a state, unless it has its place. -/
def give (a : Allotment) (q : StateId) : Except (BuildError α) Allotment :=
  match a.places.lookup q with
  | some _ => return a
  | none => do
    let free ← a.next.successor
    return ⟨a.places ++ [(q, a.next)], free⟩

end Allotment

/-! ## 2. Grafts -/

/-- A copy of a fragment to be joined to a host: from `base` on all identifiers are free, and
the exit may be left open. -/
structure Graft (α : Type) where
  fragment : Fragment α
  base : StateId
  entry : Joint
  exit : Option Joint

/-- What a copy of a fragment brings to its host. -/
structure Copy (α : Type) where
  transitions : List (Transition α)
  /-- The exit of the copy. -/
  accepting : StateId
  /-- The first identifier that the copy leaves free. -/
  next : StateId
  deriving DecidableEq

namespace Graft

/-- The joint of the exit as it is carried out: where a fragment ends where it starts, the exit is
linked, since one state cannot become two. -/
def exitJoint (g : Graft α) : Option Joint :=
  match g.exit with
  | some (.fuse host) =>
    if g.fragment.exit = g.fragment.initial then some (.link host) else some (.fuse host)
  | joint => joint

/-- The fused ends with the host states that they become. -/
def fusions (g : Graft α) : List (StateId × StateId) :=
  (match g.entry with
    | .fuse host => [(g.fragment.initial, host)]
    | .link _ => [])
  ++ (match g.exitJoint with
    | some (.fuse host) => [(g.fragment.exit, host)]
    | _ => [])

/-- The places of all states of the fragment: the fused ends have theirs, and the other states take
the identifiers from the base on, in ascending order. -/
def allotment (g : Graft α) : Except (BuildError α) Allotment :=
  g.fragment.states.members.foldlM Allotment.give ⟨g.fusions, g.base⟩

/-- The silent transition into a copy with its states in the given places, if its initial state is
linked. -/
def linkIn (g : Graft α) (image : StateId → StateId) : List (Transition α) :=
  match g.entry with
  | .link host => [⟨host, g.fragment.epsilon, image g.fragment.initial⟩]
  | .fuse _ => []

/-- The silent transition out of such a copy, if its exit is linked. -/
def linkOut (g : Graft α) (image : StateId → StateId) : List (Transition α) :=
  match g.exitJoint with
  | some (.link host) => [⟨image g.fragment.exit, g.fragment.epsilon, host⟩]
  | _ => []

/-- The copy, if all identifiers that it takes have a successor. -/
def carryOut (g : Graft α) : Except (BuildError α) (Copy α) := do
  let a ← g.allotment
  return {
    transitions := g.linkIn a.image ++ g.fragment.transitions.map (·.rename a.image)
      ++ g.linkOut a.image
    accepting := a.image g.fragment.exit
    next := a.next }

/-! ## 3. Places by position -/

/-- The states of the fragment that stay states of their own, ascending. -/
def unfused (g : Graft α) : List StateId :=
  g.fragment.states.members.filter fun q => (g.fusions.lookup q).isNone

/-- Where a state of the fragment goes; a state that the fragment does not have goes nowhere. -/
def place (g : Graft α) (q : StateId) : Option StateId :=
  (g.fusions.lookup q).or ((g.unfused.idxOf? q).map fun i => g.base.shifted i)

/-- The state of the copy that a state of the fragment becomes. -/
def image (g : Graft α) (q : StateId) : StateId := (g.place q).getD q

/-- The first identifier that the copy leaves free. -/
def next (g : Graft α) : StateId := g.base.shifted g.unfused.length

/-- The exit of the copy. -/
def accepting (g : Graft α) : StateId := g.image g.fragment.exit

/-- The silent transition into the copy, if its initial state is linked. -/
def entryLink (g : Graft α) : List (Transition α) := g.linkIn g.image

/-- The silent transition out of the copy, if its exit is linked. -/
def exitLink (g : Graft α) : List (Transition α) := g.linkOut g.image

/-- The transitions that the copy brings to the host. -/
def transitions (g : Graft α) : List (Transition α) :=
  g.entryLink ++ g.fragment.transitions.map (·.rename g.image) ++ g.exitLink

/-- The copy, said by positions. -/
def copy (g : Graft α) : Copy α := ⟨g.transitions, g.accepting, g.next⟩

end Graft

/-- A copy of the fragment between two states of the host. -/
def Fragment.splice (f : Fragment α) (base source target : StateId) : Graft α :=
  ⟨f, base, f.entryJoint source, some (f.exitJoint target)⟩

end Recognizer
