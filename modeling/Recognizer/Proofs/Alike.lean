/-
# What spelling leaves alone

Two graphs are alike when they differ at most in how symbols are spelled.  Every question about a
graph compares symbols by their order alone, so graphs that are alike have the same states, the same
targets and the same reachable states, and automata that are alike are simulated by the same sets.
What holds symbols, a list of transitions or an alphabet, is the same up to spelling.

Operations that can fail agree (`Agree`) when both have results that belong together, or both fail
with errors that differ at most in spelling.

* `Agree.bind`: a sequence of operations agrees when its steps do;
* `StateGraph.Alike.map_eq`: what does not look at symbols is the same;
* `StateGraph.Alike.targets_eq`, `StateGraph.Alike.rename`, `StateGraph.Alike.shiftTo`: graphs;
* `Nfa.Alike.closure_eq`, `Nfa.Alike.move_eq`, `Nfa.Alike.alphabet`: the simulation.
-/
import Mathlib.Data.List.Forall2
import Recognizer.Nfa.Simulation
import Recognizer.Proofs.Alphabet

namespace Recognizer

open List (Forall₂)

/-! ## 1. Lists related entry by entry -/

section Lists

variable {α β γ : Type} {R : α → β → Prop} {l : List α} {m : List β}

theorem pointwise_iff_forall₂ : Pointwise R l m ↔ Forall₂ R l m := by
  induction l generalizing m with
  | nil => cases m <;> simp [Pointwise]
  | cons a l ih => cases m <;> simp [Pointwise, ih]

/-- What is the same for related entries is the same for related lists. -/
theorem filterMap_eq_of_forall₂ {f : α → Option γ} {g : β → Option γ}
    (hfg : ∀ a b, R a b → f a = g b) (h : Forall₂ R l m) : l.filterMap f = m.filterMap g := by
  induction h with
  | nil => rfl
  | cons hab _ ih => rw [List.filterMap_cons, List.filterMap_cons, hfg _ _ hab, ih]

theorem map_eq_of_forall₂ {f : α → γ} {g : β → γ} (hfg : ∀ a b, R a b → f a = g b)
    (h : Forall₂ R l m) : l.map f = m.map g := by
  rw [← List.filterMap_eq_map, ← List.filterMap_eq_map]
  exact filterMap_eq_of_forall₂ (fun a b hab => congrArg some (hfg a b hab)) h

end Lists

/-! ## 2. Outcomes that agree -/

section Outcomes

variable {α β β' γ γ' : Type} [Ord α]

/-- Two errors that differ at most in how symbols are spelled. -/
def BuildError.Alike : BuildError α → BuildError α → Prop
  | .epsilonMismatch left right, .epsilonMismatch left' right' =>
    Same left left' ∧ Same right right'
  | e, e' => e = e'

theorem BuildError.Alike.refl [Std.ReflOrd α] (e : BuildError α) : e.Alike e := by
  cases e with
  | epsilonMismatch left right => exact ⟨Same.refl left, Same.refl right⟩
  | malformedFragment | stateOutOfRange | stateLimitExceeded | unboundName => rfl

/-- `Agree R x y`: both have results, which `R` relates, or both fail with errors that differ at
most in how symbols are spelled. -/
inductive Agree (R : β → γ → Prop) : Except (BuildError α) β → Except (BuildError α) γ → Prop
  | ok {b : β} {c : γ} (related : R b c) : Agree R (.ok b) (.ok c)
  | error {e e' : BuildError α} (alike : e.Alike e') : Agree R (.error e) (.error e')

namespace Agree

variable {R : β → γ → Prop} {S : β' → γ' → Prop} {x : Except (BuildError α) β}
  {y : Except (BuildError α) γ}

/-- An operation agrees with itself. -/
theorem same [Std.ReflOrd α] (x : Except (BuildError α) β) : Agree (· = ·) x x := by
  cases x with
  | ok b => exact .ok rfl
  | error e => exact .error (.refl e)

/-- One step after another. -/
theorem bind {k : β → Except (BuildError α) β'} {k' : γ → Except (BuildError α) γ'}
    (h : Agree R x y) (hk : ∀ b c, R b c → Agree S (k b) (k' c)) :
    Agree S (x >>= k) (y >>= k') := by
  cases h with
  | ok related => exact hk _ _ related
  | error alike => exact .error alike

theorem map {f : β → β'} {f' : γ → γ'} (h : Agree R x y) (hf : ∀ b c, R b c → S (f b) (f' c)) :
    Agree S (x.map f) (y.map f') := by
  cases h with
  | ok related => exact .ok (hf _ _ related)
  | error alike => exact .error alike

end Agree

end Outcomes

/-! ## 3. Symbols -/

section Symbols

variable {α : Type} [Ord α] [Std.TransOrd α] {a b c d : α} {l m : List α}

/-- Symbols compare the same way however they are spelled. -/
theorem compare_congr (hab : Same a b) (hcd : Same c d) : compare a c = compare b d :=
  (Std.TransCmp.congr_left hab).trans (Std.TransCmp.congr_right hcd)

theorem same_congr (hab : Same a b) (hcd : Same c d) : Same a c ↔ Same b d := by
  rw [Same, Same, compare_congr hab hcd]

namespace Alphabet

theorem forall₂_place (hab : Same a b) (h : Forall₂ Same l m) :
    Forall₂ Same (place a l) (place b m) := by
  induction h with
  | nil => exact .cons hab .nil
  | @cons c d l m hcd hlm ih =>
    rw [place, place, ← compare_congr hab hcd]
    cases compare a c with
    | lt => exact .cons hab (.cons hcd hlm)
    | eq => exact .cons hab hlm
    | gt => exact .cons hcd ih

/-- **Labels that are the same symbols make alphabets that are the same symbols.** -/
theorem forall₂_ofList (h : Forall₂ Same l m) : Forall₂ Same (ofList l) (ofList m) :=
  List.rel_foldl (P := Forall₂ Same) (R := Same)
    (fun _ _ hsymbols _ _ hab => forall₂_place hab hsymbols) .nil h

end Alphabet

end Symbols

/-! ## 4. Graphs -/

namespace StateGraph

variable {α β : Type} [Ord α] {g h : StateGraph α} {q : StateId} {a b : α}

theorem Alike.forall₂ (hgh : g.Alike h) : Forall₂ Transition.Alike g.transitions h.transitions :=
  pointwise_iff_forall₂.mp hgh.transitions

theorem Alike.of_forall₂ (hinitial : g.initial = h.initial)
    (htransitions : Forall₂ Transition.Alike g.transitions h.transitions)
    (haccepting : g.accepting = h.accepting) : g.Alike h :=
  ⟨hinitial, pointwise_iff_forall₂.mpr htransitions, haccepting⟩

/-- **What does not look at symbols is the same.** -/
theorem Alike.map_eq {f : Transition α → β} (hf : ∀ t u, t.Alike u → f t = f u)
    (hgh : g.Alike h) : g.transitions.map f = h.transitions.map f :=
  map_eq_of_forall₂ hf hgh.forall₂

theorem Alike.sources_eq (hgh : g.Alike h) :
    g.transitions.map (·.source) = h.transitions.map (·.source) :=
  hgh.map_eq fun _ _ htu => htu.1

theorem Alike.targets_map_eq (hgh : g.Alike h) :
    g.transitions.map (·.target) = h.transitions.map (·.target) :=
  hgh.map_eq fun _ _ htu => htu.2.2

theorem Alike.edges_eq (hgh : g.Alike h) : g.edges = h.edges :=
  hgh.map_eq fun _ _ htu => Prod.ext htu.1 htu.2.2

theorem Alike.mentioned_eq (hgh : g.Alike h) : g.mentioned = h.mentioned := by
  have hends : g.transitions.map Transition.ends = h.transitions.map Transition.ends :=
    hgh.map_eq fun _ _ htu => by rw [Transition.ends, Transition.ends, htu.1, htu.2.2]
  rw [mentioned, mentioned, List.flatMap_def, List.flatMap_def, hends, hgh.initial, hgh.accepting]

theorem Alike.states_eq (hgh : g.Alike h) : g.states = h.states := by
  rw [states, states, hgh.mentioned_eq]

theorem Alike.nextAvailable_eq (hgh : g.Alike h) : g.nextAvailable = h.nextAvailable := by
  rw [nextAvailable, nextAvailable, top, top, hgh.mentioned_eq]

theorem Alike.hasIncoming_eq (hgh : g.Alike h) : g.hasIncoming q = h.hasIncoming q := by
  have hany := congrArg (List.any · (· == q)) hgh.targets_map_eq
  rwa [List.any_map, List.any_map] at hany

theorem Alike.hasOutgoing_eq (hgh : g.Alike h) : g.hasOutgoing q = h.hasOutgoing q := by
  have hany := congrArg (List.any · (· == q)) hgh.sources_eq
  rwa [List.any_map, List.any_map] at hany

theorem Alike.isAccepting_iff (hgh : g.Alike h) : g.IsAccepting q ↔ h.IsAccepting q := by
  rw [IsAccepting, IsAccepting, hgh.accepting]

/-- Graphs that are alike are empty together. -/
theorem Alike.isEmpty_eq (hgh : g.Alike h) : g.isEmpty = h.isEmpty := by
  simp only [isEmpty, hgh.edges_eq, hgh.initial, hgh.isAccepting_iff]

/-- Renamed in one way, graphs that are alike stay so. -/
theorem Alike.rename (hgh : g.Alike h) (f : StateId → StateId) :
    (g.rename f).Alike (h.rename f) := by
  refine .of_forall₂ (congrArg f hgh.initial) ?_ ?_
  · exact List.rel_map (fun _ _ htu => ⟨congrArg f htu.1, htu.2.1, congrArg f htu.2.2⟩) hgh.forall₂
  · simp only [StateGraph.rename, make, hgh.accepting]

theorem Alike.shiftTo [Std.ReflOrd α] (hgh : g.Alike h) (target : StateId) :
    Agree Alike (g.shiftTo target) (h.shiftTo target) := by
  have hdistance : g.distance target = h.distance target := by
    rw [distance, distance, hgh.initial]
  simp only [shiftTo_eq, hgh.states_eq, hdistance]
  cases h.states.members.find? fun q => !q.Fits (h.distance target) with
  | some q => exact .error (.refl _)
  | none => exact .ok (hgh.rename _)

variable [Std.TransOrd α]

/-- **A symbol leads to the same states**, however it and the labels are spelled. -/
theorem Alike.targets_eq (hgh : g.Alike h) (hab : Same a b) : g.targets q a = h.targets q b := by
  have hleaves : ∀ t u : Transition α, t.Alike u →
      (decide (t.Leaves q a) = true ↔ decide (u.Leaves q b) = true) := by
    intro t u htu
    rw [decide_eq_true_iff, decide_eq_true_iff, Transition.Leaves, Transition.Leaves, htu.1,
      same_congr htu.2.1 hab]
  have hfilter := List.rel_filter (fun t u htu => hleaves t u htu) hgh.forall₂
  exact map_eq_of_forall₂ (fun _ _ htu => htu.2.2) hfilter

theorem Alike.nextState_eq (hgh : g.Alike h) (hab : Same a b) :
    g.nextState q a = h.nextState q b := by
  rw [nextState, nextState, hgh.targets_eq hab]

theorem Alike.symbols (hgh : g.Alike h) : Forall₂ Same g.symbols h.symbols :=
  Alphabet.forall₂_ofList (List.rel_map (fun _ _ htu => htu.2.1) hgh.forall₂)

end StateGraph

/-! ## 5. Automata -/

namespace Nfa

variable {α : Type} [Ord α] {n m : Nfa α} {s : StateSet} {a b : α}

theorem Alike.graph (hnm : n.Alike m) : n.toStateGraph.Alike m.toStateGraph := hnm.1

theorem Alike.renumber (hnm : n.Alike m) (old new : StateId) :
    (n.renumber old new).Alike (m.renumber old new) :=
  ⟨hnm.graph.rename fun q => if q = old then new else q, hnm.2⟩

theorem Alike.shiftTo [Std.ReflOrd α] (hnm : n.Alike m) (target : StateId) :
    Agree Alike (n.shiftTo target) (m.shiftTo target) :=
  (hnm.graph.shiftTo target).map fun _ _ hgh => ⟨hgh, hnm.2⟩

variable [Std.TransOrd α]

theorem Alike.isEpsilon_iff (hnm : n.Alike m) (hab : Same a b) :
    n.IsEpsilon a ↔ m.IsEpsilon b :=
  same_congr hab hnm.2

theorem Alike.silentEdges_eq (hnm : n.Alike m) : n.silentEdges = m.silentEdges := by
  have hsilent : ∀ t u : Transition α, t.Alike u →
      (decide (n.IsEpsilon t.symbol) = true ↔ decide (m.IsEpsilon u.symbol) = true) := by
    intro t u htu
    rw [decide_eq_true_iff, decide_eq_true_iff, hnm.isEpsilon_iff htu.2.1]
  have hfilter := List.rel_filter (fun t u htu => hsilent t u htu) hnm.graph.forall₂
  exact map_eq_of_forall₂ (fun _ _ htu => Prod.ext htu.1 htu.2.2) hfilter

theorem Alike.closure_eq (hnm : n.Alike m) : n.closure s = m.closure s := by
  rw [closure, closure, hnm.silentEdges_eq]

/-- **A symbol moves a set to the same set.** -/
theorem Alike.move_eq (hnm : n.Alike m) (hab : Same a b) : n.move s a = m.move s b := by
  simp only [move, step, hnm.graph.targets_eq hab, hnm.closure_eq]

theorem Alike.startSet_eq (hnm : n.Alike m) : n.startSet = m.startSet := by
  rw [startSet, startSet, hnm.closure_eq, hnm.graph.initial]

omit [Std.TransOrd α] in
theorem Alike.acceptingSet_eq (hnm : n.Alike m) : n.acceptingSet = m.acceptingSet := by
  rw [acceptingSet, acceptingSet, hnm.graph.accepting]

theorem Alike.alphabet (hnm : n.Alike m) : Forall₂ Same n.alphabet m.alphabet := by
  refine List.rel_filter (fun a b hab => ?_) hnm.graph.symbols
  simp only [Bool.not_eq_true', decide_eq_false_iff_not, hnm.isEpsilon_iff hab]

end Nfa

end Recognizer
