/-
# The simulation and the walks of the graph

A walk goes along transitions and has a list of labels, silent ones among them.  A walk reads a word
when its labels without the silent ones are the symbols of the word, each in some spelling.  This
module shows that the walks read what the paths read, and so that the simulation of an automaton,
which closes sets under silent transitions and forgets how it came to them, holds after a word the
states in which the walks with this word end.

* `path_iff_labelled`: a path is a walk, with its word for the labels that are not silent;
* `after_holds_walk_ends`: what the simulation holds after a word, and when it has died.
-/
import Recognizer.Pointwise
import Recognizer.Proofs.Route
import Recognizer.Proofs.Simulation
import Recognizer.Symbol.CaseFolded

namespace Recognizer

namespace Nfa

variable {α : Type} [Ord α] {n : Nfa α} {p q : StateId} {labels w : List α}

/-! ## 1. What a walk reads -/

/-- The labels that are not silent, in order. -/
def visible (n : Nfa α) (labels : List α) : List α := labels.filter fun a => !n.IsEpsilon a

/-- `n.Reads labels w`: a walk with these labels reads the word `w`, in whatever spelling. -/
def Reads (n : Nfa α) (labels w : List α) : Prop := Pointwise Same (n.visible labels) w

instance (n : Nfa α) (labels w : List α) : Decidable (n.Reads labels w) :=
  inferInstanceAs (Decidable (Pointwise _ _ _))

theorem reads_nil_iff : n.Reads [] w ↔ w = [] := by
  cases w with
  | nil => exact ⟨fun _ => rfl, fun _ => trivial⟩
  | cons b w => exact ⟨False.elim, fun h => absurd h (List.cons_ne_nil b w)⟩

/-- A silent label reads nothing. -/
theorem reads_cons_of_isEpsilon {a : α} (ha : n.IsEpsilon a) :
    n.Reads (a :: labels) w ↔ n.Reads labels w := by
  rw [Reads, Reads, visible, List.filter_cons_of_neg (by simp [ha]), ← visible]

/-- Any other label reads one symbol. -/
theorem reads_cons_of_not_isEpsilon {a : α} (ha : ¬ n.IsEpsilon a) :
    n.Reads (a :: labels) w ↔ ∃ b v, Same a b ∧ n.Reads labels v ∧ w = b :: v := by
  rw [Reads, visible, List.filter_cons_of_pos (by simp [ha]), ← visible]
  cases w with
  | nil =>
    refine ⟨False.elim, ?_⟩
    rintro ⟨b, v, -, -, hw⟩
    exact absurd hw.symm (List.cons_ne_nil b v)
  | cons b v =>
    constructor
    · exact fun h => ⟨b, v, h.1, h.2, rfl⟩
    · rintro ⟨b', v', hsame, hreads, hw⟩
      obtain ⟨rfl, rfl⟩ := List.cons.inj hw
      exact ⟨hsame, hreads⟩

/-- The words that are spelled out along a walk are the words that it reads. -/
theorem mem_spelledOut_reading_iff : w ∈ spelledOut n.reading labels ↔ n.Reads labels w := by
  induction labels generalizing w with
  | nil => rw [mem_spelledOut_nil, reads_nil_iff]
  | cons a labels ih =>
    simp only [mem_spelledOut_cons, mem_reading_iff, ih]
    by_cases ha : n.IsEpsilon a
    · rw [reads_cons_of_isEpsilon ha]
      constructor
      · rintro ⟨u, ⟨-, rfl⟩ | ⟨hne, -⟩, v, hv, rfl⟩
        · exact hv
        · exact absurd ha hne
      · exact fun hw => ⟨[], Or.inl ⟨ha, rfl⟩, w, hw, rfl⟩
    · rw [reads_cons_of_not_isEpsilon ha]
      constructor
      · rintro ⟨u, ⟨he, -⟩ | ⟨-, b, hb, rfl⟩, v, hv, rfl⟩
        · exact absurd he ha
        · exact ⟨b, v, hb, hv, rfl⟩
      · rintro ⟨b, v, hb, hv, rfl⟩
        exact ⟨[b], Or.inr ⟨ha, b, hb, rfl⟩, v, hv, rfl⟩

/-- **A path is a walk that reads its word.** -/
theorem path_iff_labelled : n.Path p w q ↔ ∃ labels, n.Labelled p labels q ∧ n.Reads labels w := by
  simp only [path_iff_route, route_leg_iff, mem_spelledOut_reading_iff]

/-! ## 2. What the simulation holds -/

variable [Std.TransOrd α]

/-- **The simulation holds the ends of the walks.**  After a word without the epsilon, the states in
the set are those to which some walk from the initial state leads whose labels that are not silent
are the symbols of the word.  So the set is empty exactly when there is no such walk, and then it is
empty after every longer word. -/
theorem after_holds_walk_ends (hw : n.Readable w) :
    (∀ q, q ∈ n.after w ↔ ∃ labels, n.Labelled n.initial labels q ∧ n.Reads labels w) ∧
    ((n.after w).isEmpty = true ↔
      ¬ ∃ q labels, n.Labelled n.initial labels q ∧ n.Reads labels w) ∧
    ((n.after w).isEmpty = true → ∀ v, (n.after (w ++ v)).isEmpty = true) := by
  have hends : ∀ q, q ∈ n.after w ↔ ∃ labels, n.Labelled n.initial labels q ∧ n.Reads labels w :=
    fun q => (mem_after_iff hw).trans path_iff_labelled
  refine ⟨hends, ?_, after_append_isEmpty⟩
  rw [StateSet.isEmpty_iff, not_exists]
  exact forall_congr' fun q => not_congr (hends q)

/-- A silent cycle between two states, spelled in two ways, and steps on one symbol from both. -/
def silentCycle : Nfa CaseFolded :=
  between 0 2 [⟨0, ⟨"eps"⟩, 1⟩, ⟨1, ⟨"EPS"⟩, 0⟩, ⟨1, ⟨"a"⟩, 1⟩, ⟨0, ⟨"A"⟩, 2⟩] ⟨"Eps"⟩

theorem after_holds_walk_ends_silent_cycle :
    silentCycle.Readable [⟨"A"⟩, ⟨"a"⟩] ∧
    (∀ q, q ∈ silentCycle.after [⟨"A"⟩, ⟨"a"⟩] ↔ ∃ labels,
      silentCycle.Labelled silentCycle.initial labels q ∧
      silentCycle.Reads labels [⟨"A"⟩, ⟨"a"⟩]) ∧
    ((silentCycle.after [⟨"A"⟩, ⟨"a"⟩]).isEmpty = true ↔
      ¬ ∃ q labels, silentCycle.Labelled silentCycle.initial labels q ∧
        silentCycle.Reads labels [⟨"A"⟩, ⟨"a"⟩]) ∧
    ((silentCycle.after [⟨"A"⟩, ⟨"a"⟩]).isEmpty = true →
      ∀ v, (silentCycle.after ([⟨"A"⟩, ⟨"a"⟩] ++ v)).isEmpty = true) := by
  have hw : silentCycle.Readable [⟨"A"⟩, ⟨"a"⟩] := by decide +kernel
  exact ⟨hw, after_holds_walk_ends hw⟩

end Nfa

end Recognizer
