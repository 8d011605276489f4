/-
# State graphs

A state graph is a list of transitions with an initial state and some accepting states.
Transitions keep the order in which they were added and may repeat.  Accepting states keep their
order too, and never repeat; that is part of the type.

* `mem_states`: the states of a graph are its initial state, its accepting states and the ends of
  its transitions;
* `le_top`, `top_mem_states`: `top` is the largest of them;
* `nextAvailable_eq_ok_iff`: the next free identifier is the one after `top`.
-/
import Recognizer.Pointwise
import Recognizer.Search.Reach
import Recognizer.State.Range
import Recognizer.Symbol.Alphabet
import Recognizer.Transition

namespace Recognizer

/-! ## 1. Lists without repetition -/

theorem nodup_eraseDups {β : Type} [BEq β] [LawfulBEq β] : ∀ l : List β, l.eraseDups.Nodup
  | [] => by simp
  | b :: bs => by
    rw [List.eraseDups_cons]
    refine List.nodup_cons.mpr ⟨?_, nodup_eraseDups _⟩
    simp [List.mem_eraseDups]
termination_by l => l.length
decreasing_by
  have := List.length_filter_le (fun c => !c == b) bs
  simp only [List.length_cons]
  omega

theorem eraseDups_of_nodup {β : Type} [BEq β] [LawfulBEq β] {l : List β} (h : l.Nodup) :
    l.eraseDups = l := by
  induction l with
  | nil => rfl
  | cons b bs ih =>
    obtain ⟨hb, hbs⟩ := List.nodup_cons.mp h
    have hfilter : bs.filter (fun c => !c == b) = bs := by
      refine List.filter_eq_self.mpr fun c hc => ?_
      have hne : c ≠ b := fun heq => hb (heq ▸ hc)
      simp [hne]
    rw [List.eraseDups_cons, hfilter, ih hbs]

theorem nodup_concat {β : Type} {l : List β} {b : β} (h : l.Nodup) (hb : b ∉ l) :
    (l ++ [b]).Nodup := by
  refine List.nodup_append.mpr ⟨h, by simp, fun c hc d hd heq => hb ?_⟩
  rwa [← List.mem_singleton.mp hd, ← heq]

/-- One more entry is left out if it stood in the list before. -/
theorem eraseDups_concat {β : Type} [DecidableEq β] (l : List β) (b : β) :
    (l ++ [b]).eraseDups = if b ∈ l then l.eraseDups else l.eraseDups ++ [b] := by
  rw [List.eraseDups_append, List.removeAll]
  by_cases hb : b ∈ l
  · rw [if_pos hb, List.filter_cons_of_neg (by simp [hb])]
    simp
  · rw [if_neg hb, List.filter_cons_of_pos (by simp [hb])]
    simp [List.eraseDups_cons]

/-! ## 2. Graphs -/

/-- Labelled transitions between states, with an initial state and accepting states. -/
structure StateGraph (α : Type) where
  initial : StateId
  transitions : List (Transition α)
  accepting : List StateId
  accepting_nodup : accepting.Nodup
  deriving DecidableEq

namespace StateGraph

variable {α : Type}

/-- A graph from its parts; an accepting state that is listed again counts where it first
stands. -/
def make (initial : StateId) (transitions : List (Transition α)) (accepting : List StateId) :
    StateGraph α :=
  ⟨initial, transitions, accepting.eraseDups, nodup_eraseDups accepting⟩

/-- The graph with a transition added at the end. -/
def addTransition (g : StateGraph α) (t : Transition α) : StateGraph α :=
  { g with transitions := g.transitions ++ [t] }

/-- The graph with `q` accepting; nothing changes if it already is. -/
def addAccepting (g : StateGraph α) (q : StateId) : StateGraph α :=
  if h : q ∈ g.accepting then g
  else
    { g with
      accepting := g.accepting ++ [q]
      accepting_nodup := nodup_concat g.accepting_nodup h }

/-- Accepting states can be added one by one. -/
theorem addAccepting_make (initial : StateId) (transitions : List (Transition α))
    (accepting : List StateId) (q : StateId) :
    (make initial transitions accepting).addAccepting q =
      make initial transitions (accepting ++ [q]) := by
  by_cases hq : q ∈ accepting
  · simp [addAccepting, make, eraseDups_concat, hq]
  · simp [addAccepting, make, eraseDups_concat, hq]

/-- `g.IsAccepting q`: the state `q` is one of the accepting states. -/
def IsAccepting (g : StateGraph α) (q : StateId) : Prop := q ∈ g.accepting

instance (g : StateGraph α) (q : StateId) : Decidable (g.IsAccepting q) :=
  inferInstanceAs (Decidable (q ∈ g.accepting))

/-! ## 3. The states of a graph -/

/-- Every identifier that occurs in the graph, as often as it occurs. -/
def mentioned (g : StateGraph α) : List StateId :=
  g.initial :: g.accepting ++ g.transitions.flatMap Transition.ends

/-- The states of the graph. -/
def states (g : StateGraph α) : StateSet := .ofList g.mentioned

/-- The largest state of the graph. -/
def top (g : StateGraph α) : StateId := g.mentioned.foldl max 0

/-- The identifier after the largest state: from there on every identifier is free. -/
def nextAvailable (g : StateGraph α) : Except (BuildError α) StateId := g.top.successor

/-- Whether some transition ends in `q`. -/
def hasIncoming (g : StateGraph α) (q : StateId) : Bool := g.transitions.any (·.target == q)

/-- Whether some transition starts in `q`. -/
def hasOutgoing (g : StateGraph α) (q : StateId) : Bool := g.transitions.any (·.source == q)

theorem mem_states {g : StateGraph α} {q : StateId} :
    q ∈ g.states ↔
      q = g.initial ∨ q ∈ g.accepting ∨ ∃ t ∈ g.transitions, q = t.source ∨ q = t.target := by
  rw [states, StateSet.mem_ofList]
  simp [mentioned, Transition.ends]

theorem le_foldl_max (l : List StateId) :
    ∀ m : StateId, m ≤ l.foldl max m ∧ ∀ q ∈ l, q ≤ l.foldl max m := by
  induction l with
  | nil => exact fun m => ⟨UInt32.le_refl m, by simp⟩
  | cons x xs ih =>
    intro m
    obtain ⟨h, hxs⟩ := ih (max m x)
    have hm : m ≤ max m x ∧ x ≤ max m x := by
      have : max m x = if m ≤ x then x else m := rfl
      grind
    refine ⟨UInt32.le_trans hm.1 h, fun q hq => ?_⟩
    rcases List.mem_cons.mp hq with rfl | hq
    · exact UInt32.le_trans hm.2 h
    · exact hxs q hq

theorem foldl_max_mem (l : List StateId) : ∀ m : StateId, l.foldl max m = m ∨ l.foldl max m ∈ l := by
  induction l with
  | nil => exact fun m => Or.inl rfl
  | cons x xs ih =>
    intro m
    have hm : max m x = m ∨ max m x = x := by
      have : max m x = if m ≤ x then x else m := rfl
      grind
    have := ih (max m x)
    simp only [List.foldl_cons, List.mem_cons]
    grind

theorem le_top {g : StateGraph α} {q : StateId} (h : q ∈ g.states) : q ≤ g.top :=
  (le_foldl_max g.mentioned 0).2 q (StateSet.mem_ofList.mp h)

theorem top_mem_states (g : StateGraph α) : g.top ∈ g.states := by
  rcases foldl_max_mem g.mentioned 0 with h | h
  · have h0 : g.initial ≤ g.top := le_top (mem_states.mpr (Or.inl rfl))
    have ht : g.top = 0 := h
    have : g.top = g.initial := by grind
    exact mem_states.mpr (Or.inl this)
  · exact StateSet.mem_ofList.mpr h

theorem nextAvailable_eq_ok_iff {g : StateGraph α} {q : StateId} :
    g.nextAvailable = .ok q ↔ q.toNat = g.top.toNat + 1 :=
  StateId.successor_eq_ok_iff

/-! ## 4. Symbols and steps -/

section Ordered

variable [Ord α]

/-- The symbols of the transitions, ascending, each as it was last spelled. -/
def symbols (g : StateGraph α) : List α := Alphabet.ofList (g.transitions.map (·.symbol))

/-- Where the transitions from `q` on `a` lead, in the order of the transitions. -/
def targets (g : StateGraph α) (q : StateId) (a : α) : List StateId :=
  (g.transitions.filter (fun t => t.Leaves q a)).map (·.target)

/-- Where the first transition from `q` on `a` leads. -/
def nextState (g : StateGraph α) (q : StateId) (a : α) : Option StateId := (g.targets q a).head?

theorem mem_targets {g : StateGraph α} {p q : StateId} {a : α} :
    q ∈ g.targets p a ↔ ∃ t ∈ g.transitions, t.source = p ∧ Same t.symbol a ∧ t.target = q := by
  simp only [targets, List.mem_map, List.mem_filter, decide_eq_true_eq]
  simp only [Transition.Leaves, and_assoc]

/-- The transitions by source, symbol and target; alike ones keep their order. -/
def sortedTransitions (g : StateGraph α) : List (Transition α) :=
  g.transitions.mergeSort (fun t u => (compare t u).isLE)

/-- Two graphs that differ at most in how symbols are spelled. -/
structure Alike (g h : StateGraph α) : Prop where
  initial : g.initial = h.initial
  transitions : Pointwise Transition.Alike g.transitions h.transitions
  accepting : g.accepting = h.accepting

theorem alike_iff {g h : StateGraph α} :
    g.Alike h ↔ g.initial = h.initial ∧ Pointwise Transition.Alike g.transitions h.transitions ∧
      g.accepting = h.accepting :=
  ⟨fun ⟨a, b, c⟩ => ⟨a, b, c⟩, fun ⟨a, b, c⟩ => ⟨a, b, c⟩⟩

instance (g h : StateGraph α) : Decidable (g.Alike h) := decidable_of_iff' _ alike_iff

end Ordered

/-! ## 5. Reachable states -/

/-- The transitions without their symbols. -/
def edges (g : StateGraph α) : List (StateId × StateId) :=
  g.transitions.map fun t => (t.source, t.target)

/-- Whether transitions lead from the initial state to no accepting state. -/
def isEmpty (g : StateGraph α) : Bool :=
  noneReachable g.edges [g.initial] fun q => g.IsAccepting q

end StateGraph

end Recognizer
