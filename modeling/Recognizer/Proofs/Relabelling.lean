/-
# Relabelling the states of an automaton

Shifting all states and giving a state an identifier that is not in use turn different states into
different states.  The simulation of the relabelled automaton then holds the relabelled sets.  These
are sorted anew, since a relabelling need not keep the order of the states, and this is all that
changes: the construction of the deterministic automaton meets the relabelled sets in the same order
and gives them the same numbers.

A relabelling is a function on all identifiers, and only on the states of the automaton does it have
to keep their differences: nothing else is ever a member of a set.

* `move_rename`, `startSet_rename`: the simulation of a relabelled automaton;
* `corresponds_rename`: the sets of the two simulations correspond;
* `relabels_rename`: what a relabelling that keeps the states apart leaves as it was;
* `determinize_relabelled`: this holds of a shift and of a new identifier.
-/
import Recognizer.Proofs.Correspondence
import Recognizer.Proofs.Star

namespace Recognizer

/-! ## 1. Relabelled sets -/

namespace StateSet

variable {f : StateId → StateId} {s t : StateSet} {p q : StateId}

/-- The set of the relabelled members. -/
def image (f : StateId → StateId) (s : StateSet) : StateSet := .ofList (s.members.map f)

theorem mem_image : q ∈ s.image f ↔ ∃ p ∈ s, f p = q := by
  rw [image, mem_ofList, List.mem_map]
  rfl

theorem mem_image_of_mem (h : q ∈ s) : f q ∈ s.image f := mem_image.mpr ⟨q, h, rfl⟩

theorem isEmpty_image : (s.image f).isEmpty = s.isEmpty := by
  rw [Bool.eq_iff_iff, isEmpty_iff, isEmpty_iff]
  constructor
  · exact fun h q hq => h (f q) (mem_image_of_mem hq)
  · intro h q hq
    obtain ⟨p, hp, -⟩ := mem_image.mp hq
    exact h p hp

/-- Where a relabelling keeps the members apart, no other state becomes a member. -/
theorem mem_image_iff (hf : Set.InjOn f {q | q ∈ t}) (hs : ∀ p ∈ s, p ∈ t) (hq : q ∈ t) :
    f q ∈ s.image f ↔ q ∈ s := by
  refine ⟨fun h => ?_, mem_image_of_mem⟩
  obtain ⟨p, hp, heq⟩ := mem_image.mp h
  exact hf (hs p hp) hq heq ▸ hp

/-- Sets of states that a relabelling keeps apart are kept apart. -/
theorem image_injOn (hf : Set.InjOn f {q | q ∈ t}) :
    Set.InjOn (image f) {s | ∀ q ∈ s, q ∈ t} := by
  intro s hs s' hs' heq
  apply ext
  intro q
  constructor
  · exact fun hq => (mem_image_iff hf hs' (hs q hq)).mp (heq ▸ mem_image_of_mem hq)
  · exact fun hq => (mem_image_iff hf hs (hs' q hq)).mp (heq ▸ mem_image_of_mem hq)

end StateSet

namespace Nfa

variable {α : Type} {n m : Nfa α} {f : StateId → StateId} {s : StateSet} {p q : StateId} {a : α}
  {w : List α} {o : DeterminizeOptions}

/-- The sets of states of an automaton. -/
def ownSets (n : Nfa α) : Set StateSet := {s | ∀ q ∈ s, q ∈ n.states}

/-! ## 2. The simulation of a relabelled automaton -/

variable [Ord α]

theorem alphabet_rename : (n.rename f).alphabet = n.alphabet := by
  have hlabels : (n.rename f).transitions.map (·.symbol) = n.transitions.map (·.symbol) :=
    List.map_map
  rw [alphabet, StateGraph.symbols, hlabels]
  rfl

/-- Silent transitions lead from states to states. -/
theorem mem_states_of_leads_silent (hp : p ∈ n.states) (h : Leads n.silentEdges p q) :
    q ∈ n.states := by
  refine StateGraph.mem_states_of_leads hp (h.mono fun edge hedge => ?_)
  obtain ⟨t, ht, -, hends⟩ := mem_silentEdges.mp hedge
  exact StateGraph.mem_edges.mpr ⟨t, ht, hends⟩

theorem closure_mem_ownSets (hs : s ∈ n.ownSets) : n.closure s ∈ n.ownSets := by
  intro q hq
  obtain ⟨p, hp, hleads⟩ := mem_closure.mp hq
  exact mem_states_of_leads_silent (hs p hp) hleads

theorem step_mem_ownSets : n.step s a ∈ n.ownSets := by
  intro q hq
  obtain ⟨t, ht, -, -, rfl⟩ := mem_step.mp hq
  exact StateGraph.target_mem_states ht

/-- The simulation holds states of the automaton. -/
theorem startSet_mem_ownSets : n.startSet ∈ n.ownSets := by
  refine closure_mem_ownSets fun q hq => ?_
  rw [StateSet.mem_singleton.mp hq]
  exact n.initial_mem_states

theorem move_mem_ownSets : n.move s a ∈ n.ownSets := closure_mem_ownSets step_mem_ownSets

section

variable (hf : Set.InjOn f {q | q ∈ n.states})

include hf

/-- What silent transitions lead to in the relabelled automaton. -/
theorem leads_rename_iff (hp : p ∈ n.states) : Leads (n.rename f).silentEdges (f p) q ↔
    ∃ r, Leads n.silentEdges p r ∧ f r = q := by
  constructor
  · intro h
    induction h with
    | refl => exact ⟨p, .refl, rfl⟩
    | tail _ hedge ih =>
      obtain ⟨r, hleads, rfl⟩ := ih
      obtain ⟨t, ht, hsilent, hsource, rfl⟩ := mem_silentEdges.mp hedge
      obtain ⟨u, hu, rfl⟩ := List.mem_map.mp ht
      obtain rfl : u.source = r :=
        hf (StateGraph.source_mem_states hu) (mem_states_of_leads_silent hp hleads) hsource
      exact ⟨u.target, hleads.tail (mem_silentEdges.mpr ⟨u, hu, hsilent, rfl, rfl⟩), rfl⟩
  · rintro ⟨r, hleads, rfl⟩
    exact leads_rename f hleads

theorem closure_rename (hs : s ∈ n.ownSets) :
    (n.rename f).closure (s.image f) = (n.closure s).image f := by
  apply StateSet.ext
  intro q
  rw [mem_closure, StateSet.mem_image]
  constructor
  · rintro ⟨p', hp', hleads⟩
    obtain ⟨p, hp, rfl⟩ := StateSet.mem_image.mp hp'
    obtain ⟨r, hr, rfl⟩ := (leads_rename_iff hf (hs p hp)).mp hleads
    exact ⟨r, mem_closure.mpr ⟨p, hp, hr⟩, rfl⟩
  · rintro ⟨r, hr, rfl⟩
    obtain ⟨p, hp, hleads⟩ := mem_closure.mp hr
    exact ⟨f p, StateSet.mem_image_of_mem hp, (leads_rename_iff hf (hs p hp)).mpr ⟨r, hleads, rfl⟩⟩

theorem step_rename (hs : s ∈ n.ownSets) :
    (n.rename f).step (s.image f) a = (n.step s a).image f := by
  apply StateSet.ext
  intro q
  rw [mem_step, StateSet.mem_image]
  constructor
  · rintro ⟨t, ht, hsource, hsame, rfl⟩
    obtain ⟨u, hu, rfl⟩ := List.mem_map.mp ht
    have hmem := (StateSet.mem_image_iff hf hs (StateGraph.source_mem_states hu)).mp hsource
    exact ⟨u.target, mem_step.mpr ⟨u, hu, hmem, hsame, rfl⟩, rfl⟩
  · rintro ⟨r, hr, rfl⟩
    obtain ⟨u, hu, hsource, hsame, rfl⟩ := mem_step.mp hr
    exact ⟨u.rename f, List.mem_map_of_mem hu, StateSet.mem_image_of_mem hsource, hsame, rfl⟩

/-- **The relabelled automaton moves to the relabelled sets.** -/
theorem move_rename (hs : s ∈ n.ownSets) :
    (n.rename f).move (s.image f) a = (n.move s a).image f := by
  rw [move, step_rename hf hs, closure_rename hf step_mem_ownSets, move]

/-- It starts in the relabelled set. -/
theorem startSet_rename : (n.rename f).startSet = n.startSet.image f := by
  have hinitial : StateSet.singleton n.initial ∈ n.ownSets := fun q hq =>
    StateSet.mem_singleton.mp hq ▸ n.initial_mem_states
  rw [startSet, startSet, ← closure_rename hf hinitial]
  rfl

theorem successors_rename (hs : s ∈ n.ownSets) : (n.rename f).successors (s.image f) =
    (n.successors s).map fun (a, t) => (a, t.image f) := by
  rw [successors, successors, alphabet_rename, List.map_filterMap]
  refine List.filterMap_congr fun a _ => ?_
  simp only [move_rename hf hs, StateSet.isEmpty_image]
  cases (n.move s a).isEmpty <;> rfl

omit [Ord α] in
theorem intersects_rename (hs : s ∈ n.ownSets) :
    (s.image f).intersects (n.rename f).acceptingSet = s.intersects n.acceptingSet := by
  rw [Bool.eq_iff_iff, intersects_acceptingSet_iff, intersects_acceptingSet_iff]
  constructor
  · rintro ⟨q, hq, haccepting⟩
    obtain ⟨p, hp, rfl⟩ := List.mem_map.mp (List.mem_eraseDups.mp haccepting)
    have hstate : p ∈ n.states := StateGraph.mem_states.mpr (Or.inr (Or.inl hp))
    exact ⟨p, (StateSet.mem_image_iff hf hs hstate).mp hq, hp⟩
  · rintro ⟨q, hq, haccepting⟩
    exact ⟨f q, StateSet.mem_image_of_mem hq,
      StateGraph.IsAccepting.rename f haccepting⟩

/-- **The sets of the two simulations correspond.** -/
theorem corresponds_rename : n.Corresponds (n.rename f) (StateSet.image f) n.ownSets where
  injOn := StateSet.image_injOn hf
  startSet_mem := startSet_mem_ownSets
  closed := by
    rintro s - ⟨a, t⟩ hx
    obtain ⟨-, rfl, -⟩ := mem_successors_iff.mp hx
    exact move_mem_ownSets
  startSet_eq := startSet_rename hf
  successors_eq := fun _ => successors_rename hf
  intersects_eq := fun _ => intersects_rename hf

/-! ## 3. What a relabelling leaves as it was -/

/-- After a word the relabelled automaton holds the relabelled set. -/
theorem after_rename (w : List α) :
    n.after w ∈ n.ownSets ∧ (n.rename f).after w = (n.after w).image f := by
  induction w using List.reverseRecOn with
  | nil => exact ⟨startSet_mem_ownSets, startSet_rename hf⟩
  | append_singleton w a ih =>
    obtain ⟨hmem, heq⟩ := ih
    rw [after_concat, after_concat, heq]
    exact ⟨move_mem_ownSets, move_rename hf hmem⟩

theorem accepts_rename (w : List α) : (n.rename f).accepts w = n.accepts w := by
  obtain ⟨hmem, heq⟩ := after_rename hf w
  rw [accepts, heq]
  exact intersects_rename hf hmem

/-- A path of the relabelled automaton is a relabelled path. -/
theorem Path.of_rename {p' : StateId} (h : (n.rename f).Path p' w q) (hp : p ∈ n.states)
    (heq : f p = p') : ∃ r, n.Path p w r ∧ r ∈ n.states ∧ f r = q := by
  induction h generalizing p with
  | refl q => exact ⟨p, .refl p, hp, heq⟩
  | silent mem isEpsilon _ ih =>
    obtain ⟨u, hu, rfl⟩ := List.mem_map.mp mem
    obtain rfl : p = u.source := hf hp (StateGraph.source_mem_states hu) heq
    obtain ⟨r, hpath, hr, hend⟩ := ih (StateGraph.target_mem_states hu) rfl
    exact ⟨r, .silent hu isEpsilon hpath, hr, hend⟩
  | read mem notEpsilon same _ ih =>
    obtain ⟨u, hu, rfl⟩ := List.mem_map.mp mem
    obtain rfl : p = u.source := hf hp (StateGraph.source_mem_states hu) heq
    obtain ⟨r, hpath, hr, hend⟩ := ih (StateGraph.target_mem_states hu) rfl
    exact ⟨r, .read hu notEpsilon same hpath, hr, hend⟩

theorem accepts_rename_iff : (n.rename f).Accepts w ↔ n.Accepts w := by
  constructor
  · rintro ⟨q, haccepting, hpath⟩
    obtain ⟨r, hr, rfl⟩ := List.mem_map.mp (List.mem_eraseDups.mp haccepting)
    obtain ⟨r', hpath', hr', heq⟩ := hpath.of_rename hf n.initial_mem_states rfl
    obtain rfl := hf hr' (StateGraph.mem_states.mpr (Or.inr (Or.inl hr))) heq
    exact ⟨r', hr, hpath'⟩
  · exact Accepts.rename f

end

end Nfa

/-- A deterministic automaton whose states stand for the relabelled sets. -/
def Dfa.relabel {α : Type} (f : StateId → StateId) (d : Dfa α) : Dfa α :=
  { d with subsets := d.subsets.map (StateSet.image f) }

namespace Nfa

variable {α : Type} [Ord α] {n m : Nfa α} {f : StateId → StateId} {o : DeterminizeOptions}

theorem determinize_rename (hf : Set.InjOn f {q | q ∈ n.states}) (o : DeterminizeOptions) :
    ((n.rename f).determinize o).outcome = (n.determinize o).outcome.map (Dfa.relabel f) := by
  have h := corresponds_rename hf
  have hsubsets := h.subsets_eq o
  cases hn : n.subsets o with
  | ok e =>
    rw [hn] at hsubsets
    rw [determinize_of_ok hn, determinize_of_ok hsubsets]
    have hgraph := h.toStateGraph_eq (subsets_explored hn)
    have halphabet : (n.rename f).alphabet = n.alphabet := alphabet_rename
    exact congrArg Except.ok (congrArg₂ (fun g l =>
      (⟨g, l, e.discovered.map (StateSet.image f)⟩ : Dfa α)) hgraph halphabet)
  | error met =>
    rw [hn] at hsubsets
    rw [determinize_of_error hn, determinize_of_error hsubsets, List.length_map]
    rfl

/-! ## 4. Shifts and new identifiers -/

/-- `n.Relabels m f`: the automaton `m` is `n` with its states relabelled by `f`, and they differ in
nothing else.  Different states stay different.  Under all options the one is made deterministic if
the other is, with the same graph over the same alphabet, whose states stand for the relabelled
sets, or both fail with the same error; and both accept the same words. -/
structure Relabels (n m : Nfa α) (f : StateId → StateId) : Prop where
  eq_rename : m = n.rename f
  injOn : Set.InjOn f {q | q ∈ n.states}
  determinize_eq : ∀ o, (m.determinize o).outcome = (n.determinize o).outcome.map (Dfa.relabel f)
  accepts_eq : ∀ w, m.accepts w = n.accepts w
  language_eq : m.language = n.language

/-- **A relabelling that keeps the states apart changes nothing but the sets.** -/
theorem relabels_rename (hf : Set.InjOn f {q | q ∈ n.states}) : n.Relabels (n.rename f) f where
  eq_rename := rfl
  injOn := hf
  determinize_eq := determinize_rename hf
  accepts_eq := accepts_rename hf
  language_eq := Set.ext fun _ => accepts_rename_iff hf

omit [Ord α] in
theorem shifted_injOn {delta : Int} (hfits : ∀ q ∈ n.states, q.Fits delta) :
    Set.InjOn (StateId.shifted delta) {q | q ∈ n.states} :=
  fun p hp q hq heq => StateId.shifted_inj (hfits p hp) (hfits q hq) heq

omit [Ord α] in
theorem renumber_injOn {old new : StateId} (hnew : new ∉ n.states) :
    Set.InjOn (fun q => if q = old then new else q) {q | q ∈ n.states} := by
  intro p hp q hq heq
  by_cases hpold : p = old <;> by_cases hqold : q = old <;> simp only [hpold, hqold, if_true,
    if_false] at heq
  · exact hpold.trans hqold.symm
  · exact absurd (heq ▸ hq) hnew
  · exact absurd (heq ▸ hp) hnew
  · exact heq

end Nfa

/-- **Shifting all states, or giving one of them an identifier that is not in use, leaves the
deterministic automaton and the language as they were.** -/
theorem determinize_relabelled {α : Type} [Ord α] (n : Nfa α) :
    (∀ target m, n.shiftTo target = .ok m →
      n.Relabels m (StateId.shifted (n.distance target))) ∧
    ∀ old new, new ∉ n.states →
      n.Relabels (n.renumber old new) (fun q => if q = old then new else q) := by
  constructor
  · intro target m hm
    obtain ⟨hfits, rfl⟩ := Nfa.shiftTo_eq_ok_iff.mp hm
    exact Nfa.relabels_rename (Nfa.shifted_injOn hfits)
  · exact fun old new hnew => Nfa.relabels_rename (Nfa.renumber_injOn hnew)

/-- `twoExits` from 3 on. -/
def twoExitsShifted : Nfa Char :=
  ⟨StateGraph.make 3 [⟨3, 'ε', 4⟩, ⟨4, 'ε', 3⟩, ⟨4, 'a', 5⟩, ⟨4, 'a', 5⟩, ⟨3, 'a', 4⟩, ⟨5, 'b', 5⟩,
    ⟨8, 'a', 3⟩] [5, 8], 'ε'⟩

/-- The state 0 becomes the last state of every set that it is in. -/
theorem determinize_relabelled_two_exits :
    twoExits.shiftTo 3 = .ok twoExitsShifted ∧ (9 : StateId) ∉ twoExits.states ∧
    twoExits.Relabels twoExitsShifted (StateId.shifted (twoExits.distance 3)) ∧
    twoExits.Relabels (twoExits.renumber 0 9) (fun q => if q = 0 then 9 else q) ∧
    (twoExits.renumber 0 9).determinize.outcome =
      .ok { twoExitsDfa with subsets := [.ofList [1, 9], .ofList [1, 2, 9], .ofList [2]] } := by
  have hshift : twoExits.shiftTo 3 = .ok twoExitsShifted := by decide +kernel
  have hnew : (9 : StateId) ∉ twoExits.states := by decide +kernel
  have hd : twoExits.determinize.outcome = .ok twoExitsDfa := by decide +kernel
  obtain ⟨hshifts, hrenumbers⟩ := determinize_relabelled twoExits
  have hrelabels := hrenumbers 0 9 hnew
  refine ⟨hshift, hnew, hshifts 3 _ hshift, hrelabels, (hrelabels.determinize_eq {}).trans ?_⟩
  rw [hd]
  rfl

end Recognizer
