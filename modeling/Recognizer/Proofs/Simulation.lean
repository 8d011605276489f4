/-
# The simulation follows the paths

The simulation of an automaton holds a set of states and forgets how it came to them.  This module
shows that nothing is lost by that: after a word without the epsilon the set consists of the states
that some path with this word leads to.  Hence the answer of the simulation and acceptance by a
path are the same, and the theorems about the operators can speak about paths alone.

* `path_append_iff`: a path can be cut wherever its word can be cut;
* `mem_after_iff`: the simulation holds the states at the ends of the paths;
* `accepts_iff`: the simulation accepts the words that a path accepts.
-/
import Mathlib.Computability.Language
import Mathlib.Data.List.Induction
import Recognizer.Nfa.Path
import Recognizer.Nfa.Simulation

namespace Recognizer

namespace Nfa

variable {α : Type} [Ord α] {n : Nfa α} {p q : StateId} {u v w : List α} {a : α}

/-! ## 1. Languages -/

/-- The words that some path accepts. -/
def language (n : Nfa α) : Language α := {w | n.Accepts w}

/-- The words that the simulation accepts. -/
def accepted (n : Nfa α) : Language α := {w | n.accepts w = true}

theorem mem_language_iff : w ∈ n.language ↔ n.Accepts w := Iff.rfl

theorem mem_accepted_iff : w ∈ n.accepted ↔ n.accepts w = true := Iff.rfl

/-! ## 2. Cutting paths -/

/-- A path with the word `u ++ v` passes through a state in which `u` is read and `v` is not. -/
theorem Path.split (h : n.Path p w q) (hw : w = u ++ v) :
    ∃ r, n.Path p u r ∧ n.Path r v q := by
  induction h generalizing u with
  | refl q =>
    obtain ⟨rfl, rfl⟩ := List.append_eq_nil_iff.mp hw.symm
    exact ⟨q, .refl q, .refl q⟩
  | silent mem isEpsilon _ ih =>
    obtain ⟨r, hu, hv⟩ := ih hw
    exact ⟨r, .silent mem isEpsilon hu, hv⟩
  | @read t b w q mem notEpsilon same rest ih =>
    rcases List.cons_eq_append_iff.mp hw with ⟨rfl, rfl⟩ | ⟨u', rfl, hw'⟩
    · exact ⟨t.source, .refl _, .read mem notEpsilon same rest⟩
    · obtain ⟨r, hu, hv⟩ := ih hw'
      exact ⟨r, .read mem notEpsilon same hu, hv⟩

/-- A path can be cut wherever its word can be cut. -/
theorem path_append_iff : n.Path p (u ++ v) q ↔ ∃ r, n.Path p u r ∧ n.Path r v q :=
  ⟨fun h => h.split rfl, fun ⟨_, hu, hv⟩ => hu.trans hv⟩

/-- A path with one symbol takes one transition on it, with silent ones around it. -/
theorem Path.single (h : n.Path p w q) (hw : w = [a]) :
    ∃ t ∈ n.transitions, n.Path p [] t.source ∧ ¬ n.IsEpsilon t.symbol ∧ Same t.symbol a ∧
      n.Path t.target [] q := by
  induction h with
  | refl q => exact absurd hw (List.cons_ne_nil _ _).symm
  | silent mem isEpsilon _ ih =>
    obtain ⟨t, ht, hp, hne, hs, hq⟩ := ih hw
    exact ⟨t, ht, .silent mem isEpsilon hp, hne, hs, hq⟩
  | @read t b w q mem notEpsilon same rest ih =>
    obtain ⟨rfl, rfl⟩ := List.cons.inj hw
    exact ⟨t, mem, .refl _, notEpsilon, same, rest⟩

/-- A path with one more symbol at the end, cut in front of the transition that reads it. -/
theorem path_concat_iff : n.Path p (w ++ [a]) q ↔
    ∃ t ∈ n.transitions, n.Path p w t.source ∧ ¬ n.IsEpsilon t.symbol ∧ Same t.symbol a ∧
      n.Path t.target [] q := by
  rw [path_append_iff]
  constructor
  · rintro ⟨r, hw, ha⟩
    obtain ⟨t, ht, hr, hne, hs, hq⟩ := ha.single rfl
    have hpt := hw.trans hr
    rw [List.append_nil] at hpt
    exact ⟨t, ht, hpt, hne, hs, hq⟩
  · rintro ⟨t, ht, hw, hne, hs, hq⟩
    exact ⟨t.source, hw, .read ht hne hs hq⟩

/-! ## 3. What the simulation holds and accepts -/

/-- Before anything is read, the simulation holds what the empty word leads to. -/
theorem mem_startSet_iff : q ∈ n.startSet ↔ n.Path n.initial [] q := by
  rw [startSet, mem_closure, path_nil_iff]
  simp [StateSet.mem_singleton]

/-- The simulation starts alive. -/
theorem startSet_isEmpty (n : Nfa α) : n.startSet.isEmpty = false :=
  StateSet.isEmpty_eq_false_iff.mpr ⟨n.initial, mem_startSet_iff.mpr (.refl _)⟩

/-- Nothing moves to nothing. -/
theorem move_isEmpty {s : StateSet} (h : s.isEmpty = true) : (n.move s a).isEmpty = true := by
  rw [StateSet.isEmpty_iff] at h ⊢
  intro q hq
  obtain ⟨u, -, hs, -⟩ := mem_move.mp hq
  exact h _ hs

/-- A simulation that has died stays dead. -/
theorem after_append_isEmpty (h : (n.after u).isEmpty = true) (v : List α) :
    (n.after (u ++ v)).isEmpty = true := by
  induction v using List.reverseRecOn with
  | nil => rwa [List.append_nil]
  | append_singleton v a ih =>
    rw [← List.append_assoc, after_concat]
    exact move_isEmpty ih

omit [Ord α] in
theorem intersects_acceptingSet_iff {s : StateSet} :
    s.intersects n.acceptingSet = true ↔ ∃ q ∈ s, n.IsAccepting q := by
  rw [StateSet.intersects_iff]
  simp only [acceptingSet, StateSet.mem_ofList]
  rfl

/-- The simulation accepts when one of the states it holds is accepting. -/
theorem accepts_eq_true_iff : n.accepts w = true ↔ ∃ q ∈ n.after w, n.IsAccepting q :=
  intersects_acceptingSet_iff

/-! ## 4. Readable words -/

instance (n : Nfa α) (w : List α) : Decidable (n.Readable w) :=
  inferInstanceAs (Decidable (∀ a ∈ w, ¬ n.IsEpsilon a))

theorem readable_append_iff : n.Readable (u ++ v) ↔ n.Readable u ∧ n.Readable v :=
  List.forall_mem_append

theorem readable_flatten_iff {ws : List (List α)} :
    n.Readable ws.flatten ↔ ∀ u ∈ ws, n.Readable u :=
  List.forall_mem_flatten

theorem readable_of_epsilon_eq {m : Nfa α} (h : m.epsilon = n.epsilon) :
    m.Readable w ↔ n.Readable w := by
  unfold Readable IsEpsilon
  rw [h]

variable [Std.TransOrd α]

/-- A symbol read by a transition that is not silent is not the epsilon. -/
theorem not_isEpsilon_of_same {b : α} (hb : ¬ n.IsEpsilon b) (h : Same b a) : ¬ n.IsEpsilon a :=
  fun ha => hb (h.trans ha)

/-- Automata with the same epsilon have the same silent symbols. -/
theorem isEpsilon_congr {m : Nfa α} (h : n.IsEpsilon m.epsilon) :
    m.IsEpsilon a ↔ n.IsEpsilon a :=
  ⟨fun ha => ha.trans h, fun ha => ha.trans h.symm⟩

theorem readable_congr {m : Nfa α} (h : n.IsEpsilon m.epsilon) : m.Readable w ↔ n.Readable w := by
  unfold Readable
  simp only [isEpsilon_congr h]

/-- Paths never read the epsilon. -/
theorem Path.readable (h : n.Path p w q) : n.Readable w := by
  induction h with
  | refl => exact List.forall_mem_nil _
  | silent _ _ _ ih => exact ih
  | read _ notEpsilon same _ ih =>
    exact List.forall_mem_cons.mpr ⟨not_isEpsilon_of_same notEpsilon same, ih⟩

theorem Accepts.readable (h : n.Accepts w) : n.Readable w := by
  obtain ⟨q, -, hq⟩ := h
  exact hq.readable

/-! ## 5. The simulation and the paths -/

/-- **The simulation holds the states at the ends of the paths.** -/
theorem mem_after_iff (hw : n.Readable w) : q ∈ n.after w ↔ n.Path n.initial w q := by
  induction w using List.reverseRecOn generalizing q with
  | nil => exact mem_startSet_iff
  | append_singleton w a ih =>
    obtain ⟨hw, ha⟩ := readable_append_iff.mp hw
    have ha : ¬ n.IsEpsilon a := ha a List.mem_cons_self
    rw [after_concat, mem_move, path_concat_iff]
    constructor
    · rintro ⟨t, ht, hs, hsame, hq⟩
      exact ⟨t, ht, (ih hw).mp hs, fun he => ha (hsame.symm.trans he), hsame,
        path_nil_of_leads hq⟩
    · rintro ⟨t, ht, hp, -, hsame, hq⟩
      exact ⟨t, ht, (ih hw).mpr hp, hsame, path_nil_iff.mp hq⟩

/-- **The simulation accepts the words that a path accepts.** -/
theorem accepts_iff (hw : n.Readable w) : n.accepts w = true ↔ n.Accepts w := by
  rw [accepts_eq_true_iff]
  constructor
  · rintro ⟨q, hq, hacc⟩
    exact ⟨q, hacc, (mem_after_iff hw).mp hq⟩
  · rintro ⟨q, hacc, hq⟩
    exact ⟨q, (mem_after_iff hw).mpr hq, hacc⟩

end Nfa

end Recognizer
