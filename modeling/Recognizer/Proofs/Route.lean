/-
# Routes

A route is a path seen from further away.  It goes from state to state by legs, and each leg reads
a whole word; what counts as a leg is left open.  With single transitions for legs the routes are
the paths (`path_iff_route`).  With longer legs they say where a path goes while what happens
inside a leg is forgotten, and that is how the automata built by the operators are read: a leg is
a transition of the host or a way through a copy of an operand.

A transition can also stand for any language that depends on its label.  Such routes are the
labelled walks of the automaton with a word chosen for each label (`route_leg_iff`).
-/
import Recognizer.Expr.Language
import Recognizer.Nfa.Fragment
import Recognizer.Nfa.Path

namespace Recognizer

variable {α : Type}

/-! ## 1. Routes over any legs -/

/-- `Route Leg p w q`: the word `w` leads from `p` to `q`, one leg after the other. -/
inductive Route (Leg : StateId → List α → StateId → Prop) : StateId → List α → StateId → Prop
  | refl (q : StateId) : Route Leg q [] q
  | leg {p q r : StateId} {u v : List α} (first : Leg p u q) (rest : Route Leg q v r) :
      Route Leg p (u ++ v) r

namespace Route

variable {Leg Leg' : StateId → List α → StateId → Prop} {p q : StateId} {w : List α}

theorem single (h : Leg p w q) : Route Leg p w q := by
  have hroute : Route Leg p (w ++ []) q := .leg h (.refl q)
  rwa [List.append_nil] at hroute

/-- The same legs make the same routes. -/
theorem congr (h : ∀ p u q, Leg p u q ↔ Leg' p u q) : Route Leg p w q ↔ Route Leg' p w q := by
  have heq : Leg = Leg' := by
    funext p u q
    exact propext (h p u q)
  rw [heq]

/-- A route has come to its end or starts with a leg. -/
theorem cases_first (h : Route Leg p w q) :
    (p = q ∧ w = []) ∨ ∃ u r v, Leg p u r ∧ Route Leg r v q ∧ w = u ++ v := by
  cases h with
  | refl => exact Or.inl ⟨rfl, rfl⟩
  | leg first rest => exact Or.inr ⟨_, _, _, first, rest, rfl⟩

/-- Where no leg starts, a route has come to its end. -/
theorem of_no_leg (h : Route Leg p w q) (hp : ∀ u r, ¬ Leg p u r) : p = q ∧ w = [] := by
  rcases h.cases_first with hend | ⟨u, r, v, first, -, -⟩
  · exact hend
  · exact absurd first (hp u r)

end Route

/-! ## 2. Words spelled out -/

theorem mem_spelledOut_nil {f : α → Language α} {w : List α} : w ∈ spelledOut f [] ↔ w = [] := by
  rw [spelledOut, List.map_nil, List.prod_nil, Language.mem_one]

theorem mem_spelledOut_cons {f : α → Language α} {a : α} {l w : List α} :
    w ∈ spelledOut f (a :: l) ↔ ∃ u ∈ f a, ∃ v ∈ spelledOut f l, u ++ v = w := by
  rw [spelledOut, List.map_cons, List.prod_cons, Language.mem_mul]
  rfl

namespace Nfa

variable {n m : Nfa α} {p q : StateId} {u v w : List α}

/-! ## 3. Legs along transitions -/

/-- A leg along one transition, whose label stands for the words of a language. -/
def Leg (n : Nfa α) (f : α → Language α) (p : StateId) (u : List α) (q : StateId) : Prop :=
  ∃ t ∈ n.transitions, t.source = p ∧ u ∈ f t.symbol ∧ t.target = q

/-- `n.Labelled p labels q`: transitions with these labels, in this order, lead from `p` to `q`. -/
inductive Labelled (n : Nfa α) : StateId → List α → StateId → Prop
  | refl (q : StateId) : Labelled n q [] q
  | step {t : Transition α} {labels : List α} {q : StateId} (mem : t ∈ n.transitions)
      (rest : Labelled n t.target labels q) : Labelled n t.source (t.symbol :: labels) q

/-- **The routes along transitions are the labelled walks with a word for each label.** -/
theorem route_leg_iff {f : α → Language α} :
    Route (n.Leg f) p w q ↔ ∃ labels, n.Labelled p labels q ∧ w ∈ spelledOut f labels := by
  constructor
  · intro h
    induction h with
    | refl q => exact ⟨[], .refl q, mem_spelledOut_nil.mpr rfl⟩
    | leg first _ ih =>
      obtain ⟨t, mem, rfl, hu, rfl⟩ := first
      obtain ⟨labels, hwalk, hv⟩ := ih
      exact ⟨t.symbol :: labels, .step mem hwalk, mem_spelledOut_cons.mpr ⟨_, hu, _, hv, rfl⟩⟩
  · rintro ⟨labels, hwalk, hw⟩
    induction hwalk generalizing w with
    | refl q =>
      rw [mem_spelledOut_nil.mp hw]
      exact .refl q
    | step mem _ ih =>
      obtain ⟨u, hu, v, hv, rfl⟩ := mem_spelledOut_cons.mp hw
      exact .leg ⟨_, mem, rfl, hu, rfl⟩ (ih hv)

/-! ## 4. Paths as routes -/

variable [Ord α]

/-- The words that a transition with a given label reads. -/
def reading (n : Nfa α) (label : α) : Language α := if n.IsEpsilon label then 1 else letter label

theorem mem_reading_iff {a : α} :
    u ∈ n.reading a ↔ (n.IsEpsilon a ∧ u = []) ∨ (¬ n.IsEpsilon a ∧ ∃ b, Same a b ∧ u = [b]) := by
  unfold reading
  by_cases ha : n.IsEpsilon a
  · rw [if_pos ha, Language.mem_one]
    simp [ha]
  · rw [if_neg ha]
    simp only [ha, false_and, not_false_eq_true, true_and, false_or]
    rfl

/-- A path that starts with a given transition. -/
theorem Path.step {t : Transition α} (mem : t ∈ n.transitions) (hu : u ∈ n.reading t.symbol)
    (rest : n.Path t.target v q) : n.Path t.source (u ++ v) q := by
  rcases mem_reading_iff.mp hu with ⟨he, rfl⟩ | ⟨hne, b, hb, rfl⟩
  · exact .silent mem he rest
  · exact .read mem hne hb rest

/-- **The paths are the routes along single transitions.** -/
theorem path_iff_route : n.Path p w q ↔ Route (n.Leg n.reading) p w q := by
  constructor
  · intro h
    induction h with
    | refl q => exact .refl q
    | silent mem isEpsilon _ ih =>
      have hu : [] ∈ n.reading _ := mem_reading_iff.mpr (Or.inl ⟨isEpsilon, rfl⟩)
      exact Route.leg (u := []) ⟨_, mem, rfl, hu, rfl⟩ ih
    | @read t a w q mem notEpsilon same _ ih =>
      have hu : [a] ∈ n.reading t.symbol := mem_reading_iff.mpr (Or.inr ⟨notEpsilon, a, same, rfl⟩)
      exact Route.leg (u := [a]) ⟨t, mem, rfl, hu, rfl⟩ ih
  · intro h
    induction h with
    | refl q => exact .refl q
    | leg first _ ih =>
      obtain ⟨t, mem, rfl, hu, rfl⟩ := first
      exact .step mem hu ih

/-! ## 5. Paths in a renamed copy -/

/-- A path is found again wherever the transitions are found again under new names. -/
theorem Path.renamed {f : StateId → StateId} (he : ∀ a, m.IsEpsilon a ↔ n.IsEpsilon a)
    (hmem : ∀ t ∈ m.transitions, t.rename f ∈ n.transitions) (h : m.Path p w q) :
    n.Path (f p) w (f q) := by
  induction h with
  | refl q => exact .refl (f q)
  | @silent t w q mem isEpsilon _ ih =>
    exact Path.silent (t := t.rename f) (hmem t mem) ((he _).mp isEpsilon) ih
  | @read t a w q mem notEpsilon same _ ih =>
    exact Path.read (t := t.rename f) (hmem t mem) (fun h => notEpsilon ((he _).mpr h)) same ih

end Nfa

/-! ## 6. Fragments -/

namespace Fragment

variable [Ord α] {f : Fragment α} {w : List α}

/-- A fragment accepts along the paths from its initial state to its exit. -/
theorem accepts_iff_path : f.Accepts w ↔ f.Path f.initial w f.exit := by
  constructor
  · rintro ⟨q, hq, h⟩
    rwa [isAccepting_iff.mp hq] at h
  · exact fun h => ⟨f.exit, isAccepting_iff.mpr rfl, h⟩

end Fragment

/-- An automaton between two states accepts along the paths from one to the other. -/
theorem Nfa.accepts_between_iff [Ord α] {initial exit : StateId} {ts : List (Transition α)}
    {epsilon : α} {w : List α} : (Nfa.between initial exit ts epsilon).Accepts w ↔
      (Nfa.between initial exit ts epsilon).Path initial w exit :=
  Fragment.accepts_iff_path (f := ⟨.between initial exit ts epsilon, exit, rfl⟩)

end Recognizer
