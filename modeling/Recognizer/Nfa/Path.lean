/-
# Paths

What it means for a word to lead from one state of an automaton to another, one transition at a
time: a silent transition reads nothing, any other reads one symbol, whichever way it is spelled.

* `Path.trans`: paths can be put one after the other;
* `path_nil_iff`: the paths that read nothing are the walks along silent transitions.
-/
import Recognizer.Nfa.Basic

namespace Recognizer

namespace Nfa

variable {α : Type} [Ord α]

/-- `n.Path p w q`: the word `w` leads from `p` to `q`. -/
inductive Path (n : Nfa α) : StateId → List α → StateId → Prop
  | refl (q : StateId) : Path n q [] q
  | silent {t : Transition α} {w : List α} {q : StateId} (mem : t ∈ n.transitions)
      (isEpsilon : n.IsEpsilon t.symbol) (rest : Path n t.target w q) : Path n t.source w q
  | read {t : Transition α} {a : α} {w : List α} {q : StateId} (mem : t ∈ n.transitions)
      (notEpsilon : ¬ n.IsEpsilon t.symbol) (same : Same t.symbol a)
      (rest : Path n t.target w q) : Path n t.source (a :: w) q

/-- `n.Readable w`: no symbol of the word is the epsilon of the automaton. -/
def Readable (n : Nfa α) (w : List α) : Prop := ∀ a ∈ w, ¬ n.IsEpsilon a

/-- `n.Accepts w`: the word leads from the initial state to an accepting state. -/
def Accepts (n : Nfa α) (w : List α) : Prop := ∃ q, n.IsAccepting q ∧ n.Path n.initial w q

variable {n : Nfa α} {p q r : StateId} {u v : List α}

theorem Path.trans (h : n.Path p u q) (h' : n.Path q v r) : n.Path p (u ++ v) r := by
  induction h with
  | refl q => exact h'
  | silent mem isEpsilon _ ih => exact .silent mem isEpsilon (ih h')
  | read mem notEpsilon same _ ih => exact .read mem notEpsilon same (ih h')

theorem path_nil_of_leads (h : Leads n.silentEdges p q) : n.Path p [] q := by
  induction h with
  | refl => exact .refl p
  | tail _ he ih =>
    obtain ⟨t, mem, isEpsilon, rfl, rfl⟩ := mem_silentEdges.mp he
    exact ih.trans (.silent mem isEpsilon (.refl t.target))

theorem leads_of_path_nil {w : List α} (h : n.Path p w q) (hw : w = []) :
    Leads n.silentEdges p q := by
  induction h with
  | refl q => exact .refl
  | silent mem isEpsilon _ ih =>
    exact (ih hw).head (mem_silentEdges.mpr ⟨_, mem, isEpsilon, rfl, rfl⟩)
  | read => exact absurd hw (List.cons_ne_nil _ _)

/-- The paths that read nothing are the walks along silent transitions. -/
theorem path_nil_iff : n.Path p [] q ↔ Leads n.silentEdges p q :=
  ⟨fun h => leads_of_path_nil h rfl, path_nil_of_leads⟩

end Nfa

end Recognizer
