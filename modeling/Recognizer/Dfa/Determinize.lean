/-
# Making an automaton deterministic

The states of the deterministic automaton are the non-empty sets that the simulation of the given
automaton can come to.  The construction starts with the set before any symbol is read and keeps a
worklist of states whose transitions are still missing.  It takes one of them after the other and
follows each symbol on which the simulation goes on from the set of the state: a set that was not
met before takes the next state, and the transition between the two states is added
(`Construction.run`).  A state accepts when its set holds an accepting state.

The number of states may be limited.  The first state always fits; the construction fails when one
more state is needed than the limit allows.  So a run either meets a set for which there is room or
has one state fewer to look at, and it comes to an end.

What is made can also be told from an exploration of the sets, in which the number of a set is its
position in the order of discovery (`Dfa.ofExploration`); that the two agree is shown in
`Recognizer.Proofs.Construction`.
-/
import Recognizer.Dfa.Basic
import Recognizer.Nfa.Simulation
import Recognizer.Recorded
import Recognizer.Search.Explore

namespace Recognizer

/-! ## 1. Room for states -/

/-- How an automaton is made deterministic. -/
structure DeterminizeOptions where
  /-- The largest number of states allowed; `0` for as many as there are identifiers. -/
  maxStates : Nat := 0
  /-- Which state is looked at next; this decides how the states are numbered. -/
  order : WorklistOrder := .lifo
  deriving DecidableEq

namespace DeterminizeOptions

variable {α : Type}

/-- The number of states for which there is room. -/
def room (o : DeterminizeOptions) : Nat :=
  if o.maxStates = 0 then UInt32.size else min o.maxStates (UInt32.size)

theorem one_le_room (o : DeterminizeOptions) : 1 ≤ o.room := by
  have hsize : 1 ≤ UInt32.size := by decide
  unfold room
  split <;> omega

theorem room_le (o : DeterminizeOptions) : o.room ≤ UInt32.size := by
  unfold room
  split <;> omega

/-- The state that comes after `count` others, if it is allowed and has an identifier. -/
def nextState (o : DeterminizeOptions) (count : Nat) : Except (BuildError α) StateId :=
  if o.maxStates ≠ 0 ∧ o.maxStates ≤ count then
    .error (.stateLimitExceeded (count + 1) o.maxStates)
  else if count < UInt32.size then .ok (.ofNat count)
  else .error (.stateLimitExceeded (count + 1) o.maxStates)

/-- There is a next state when there is room for one. -/
theorem nextState_eq (o : DeterminizeOptions) (count : Nat) :
    (o.nextState count : Except (BuildError α) StateId) =
      if count < o.room then .ok (.ofNat count)
      else .error (.stateLimitExceeded (count + 1) o.maxStates) := by
  unfold nextState room
  grind

theorem lt_room_of_nextState {o : DeterminizeOptions} {count : Nat} {q : StateId}
    (h : (o.nextState count : Except (BuildError α) StateId) = .ok q) : count < o.room := by
  rw [nextState_eq] at h
  split at h
  · assumption
  · exact absurd h (by simp)

end DeterminizeOptions

variable {α : Type}

/-! ## 2. The construction -/

/-- How far the construction of a deterministic automaton has come. -/
structure Construction (α : Type) where
  graph : StateGraph α
  /-- The sets met, in the order of discovery, each with the state that stands for it. -/
  numbering : List (StateSet × StateId)
  /-- The states whose transitions are missing, with their sets, the next one first. -/
  pending : List (StateId × StateSet)

namespace Construction

variable {n : Nfa α} {o : DeterminizeOptions} {c c' c'' : Construction α} {q : StateId}
  {s : StateSet} {step : α × StateSet} {steps : List (α × StateSet)}

/-- The state that stands for a set.  A set that was not met before takes the next state. -/
def meet (n : Nfa α) (o : DeterminizeOptions) (c : Construction α) (s : StateSet) :
    Recorded α (Construction α × StateId) :=
  match c.numbering.lookup s with
  | some q => return (c, q)
  | none => do
    let q ← .silent (o.nextState c.numbering.length)
    .tell (.discovery q.toNat s)
    return ({
      graph := if s.intersects n.acceptingSet then c.graph.addAccepting q else c.graph
      numbering := c.numbering ++ [(s, q)]
      pending := o.order.push c.pending [(q, s)] }, q)

/-- Adds a transition to the graph. -/
def addTransition (c : Construction α) (t : Transition α) : Construction α :=
  { c with graph := c.graph.addTransition t }

/-- Follows a symbol to a set, and adds the transition to the state that stands for it. -/
def follow (n : Nfa α) (o : DeterminizeOptions) (source : StateId) (c : Construction α)
    (step : α × StateSet) : Recorded α (Construction α) := do
  let (c, target) ← c.meet n o step.2
  return c.addTransition ⟨source, step.1, target⟩

/-- `c.Grows room c'`: from `c` to `c'` as many states became pending as sets were met, and there
was room for all of these. -/
structure Grows (room : Nat) (c c' : Construction α) : Prop where
  added : c'.pending.length + c.numbering.length = c.pending.length + c'.numbering.length
  mono : c.numbering.length ≤ c'.numbering.length
  within : c'.numbering.length ≤ max c.numbering.length room

theorem Grows.refl (room : Nat) (c : Construction α) : c.Grows room c :=
  ⟨rfl, Nat.le_refl _, Nat.le_max_left _ _⟩

theorem Grows.trans {room : Nat} (h : c.Grows room c') (h' : c'.Grows room c'') :
    c.Grows room c'' := by
  obtain ⟨hadded, hmono, hwithin⟩ := h
  obtain ⟨hadded', hmono', hwithin'⟩ := h'
  exact ⟨by omega, by omega, by omega⟩

theorem meet_grows (h : (c.meet n o s).outcome = .ok (c', q)) : c.Grows o.room c' := by
  unfold meet at h
  split at h
  · obtain ⟨rfl, -⟩ := Prod.mk.inj (Except.ok.inj h)
    exact .refl _ _
  · obtain ⟨p, hp, h⟩ := Recorded.outcome_bind_eq_ok_iff.mp h
    obtain ⟨-, -, h⟩ := Recorded.outcome_bind_eq_ok_iff.mp h
    obtain ⟨rfl, -⟩ := Prod.mk.inj (Except.ok.inj h)
    have hroom : c.numbering.length < o.room := DeterminizeOptions.lt_room_of_nextState hp
    constructor
    case added =>
      simp only [WorklistOrder.length_push, List.length_append, List.length_singleton]
      omega
    case mono => simp
    case within =>
      simp only [List.length_append, List.length_singleton]
      omega

theorem follow_grows (h : (follow n o q c step).outcome = .ok c') : c.Grows o.room c' := by
  obtain ⟨⟨c₁, target⟩, hmeet, h⟩ := Recorded.outcome_bind_eq_ok_iff.mp h
  obtain rfl := Except.ok.inj h
  obtain ⟨hadded, hmono, hwithin⟩ := meet_grows hmeet
  exact ⟨hadded, hmono, hwithin⟩

theorem foldlM_follow_grows (h : (steps.foldlM (follow n o q) c).outcome = .ok c') :
    c.Grows o.room c' := by
  induction steps generalizing c with
  | nil =>
    obtain rfl := Except.ok.inj h
    exact .refl _ _
  | cons step steps ih =>
    rw [List.foldlM_cons] at h
    obtain ⟨c₁, hfollow, h⟩ := Recorded.outcome_bind_eq_ok_iff.mp h
    exact (follow_grows hfollow).trans (ih h)

end Construction

variable [Ord α]

/-- The symbols on which the simulation goes on from a set, with the sets that it comes to. -/
def Nfa.successors (n : Nfa α) (s : StateSet) : List (α × StateSet) :=
  n.alphabet.filterMap fun a =>
    let t := n.move s a
    if t.isEmpty then none else some (a, t)

namespace Construction

/-- Only the set before any symbol is read is met. -/
def start (n : Nfa α) : Construction α where
  graph :=
    if n.startSet.intersects n.acceptingSet then (StateGraph.make 0 [] []).addAccepting 0
    else .make 0 [] []
  numbering := [(n.startSet, 0)]
  pending := [(0, n.startSet)]

/-- Follows all symbols from the set of a state. -/
def expand (n : Nfa α) (o : DeterminizeOptions) (c : Construction α) (q : StateId) (s : StateSet) :
    Recorded α (Construction α) :=
  (n.successors s).foldlM (follow n o q) c

/-- Looks at one pending state after the other until none is left. -/
def run (n : Nfa α) (o : DeterminizeOptions) (c : Construction α) : Recorded α (Construction α) :=
  match _ : c.pending with
  | [] => return c
  | (q, s) :: rest => do
    let ⟨c', _⟩ ← (expand n o { c with pending := rest } q s).attach
    c'.run n o
termination_by o.room - c.numbering.length + c.pending.length
decreasing_by
  rename_i hpending hexpand
  obtain ⟨hadded, hmono, hwithin⟩ := foldlM_follow_grows hexpand
  dsimp only at hadded hmono hwithin
  rw [hpending, List.length_cons]
  omega

/-- Reports what was made and puts it together. -/
def finish (n : Nfa α) (c : Construction α) : Recorded α (Dfa α) := do
  .tell (.determinization n.states.size c.numbering.length c.graph.transitions.length)
  return { c.graph with
    alphabet := n.alphabet
    subsets := c.numbering.map (·.1) }

end Construction

/-- The deterministic automaton of an automaton, with the events of its construction. -/
def Nfa.determinize (n : Nfa α) (o : DeterminizeOptions := {}) : Recorded α (Dfa α) := do
  .tell (.discovery 0 n.startSet)
  let c ← (Construction.start n).run n o
  c.finish n

/-! ## 3. The construction, told from an exploration -/

/-- Explores the sets that the simulation comes to. -/
def Nfa.subsets (n : Nfa α) (o : DeterminizeOptions) :
    Except (List StateSet) (Exploration StateSet) :=
  explore (fun s => (n.successors s).map (·.2)) o.order o.room n.startSet

namespace Dfa

/-- The state that stands for a set. -/
def stateOf (e : Exploration StateSet) (s : StateSet) : StateId := UInt32.ofNat (e.number s)

/-- The transitions out of the state that stands for a set, by ascending symbol. -/
def transitionsFrom (n : Nfa α) (e : Exploration StateSet) (s : StateSet) : List (Transition α) :=
  (n.successors s).map fun (a, t) => ⟨stateOf e s, a, stateOf e t⟩

/-- The deterministic automaton whose states are the sets that an exploration met. -/
def ofExploration (n : Nfa α) (e : Exploration StateSet) : Dfa α :=
  { StateGraph.make 0 (e.expanded.flatMap (transitionsFrom n e))
      ((e.discovered.filter fun s => s.intersects n.acceptingSet).map (stateOf e)) with
    alphabet := n.alphabet
    subsets := e.discovered }

end Dfa

/-- The events that report sets in the order of their discovery. -/
def discoveries (sets : List StateSet) : List (Event α) :=
  sets.zipIdx.map fun (s, number) => .discovery number s

end Recognizer
