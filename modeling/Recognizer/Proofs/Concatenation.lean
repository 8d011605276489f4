/-
# Concatenation is the product

A concatenation puts a copy of the second operand behind the exit of the first.  The initial state
of the copy becomes that exit if one of the two is clean, and otherwise a silent transition leads
from the exit to it.  When the two are one state, it can be a state that the second operand comes
back to or one that the first goes on from, but never both.  So a path that has left the first
operand does not return to it.

* `concatGraft_image_cases`: which state of the copy becomes the exit of the first operand;
* `concatenation_path_cases`: a path to the exit of the copy, from either operand;
* `concat_accepts_iff`: the words are those of the first operand followed by those of the second;
* `concat_product`: the same for the simulation, with what the result keeps of the first operand.
-/
import Recognizer.Proofs.Grafting
import Recognizer.Proofs.Outcome
import Recognizer.Proofs.Simulation

namespace Recognizer

namespace Nfa

variable {α : Type} {n m r : Nfa α} {f g : Fragment α} {base p q host : StateId}
  {t : Transition α} {u v w : List α}

/-! ## 1. The copy behind the exit -/

/-- The copy of the second operand. -/
def concatGraft (f g : Fragment α) (base : StateId) : Graft α := ⟨g, base, seam f g.toNfa, none⟩

/-- The automaton that a concatenation builds. -/
def concatenation (f g : Fragment α) (base : StateId) : Nfa α :=
  between f.initial (concatGraft f g base).accepting
    (f.transitions ++ (concatGraft f g base).transitions) f.epsilon

/-- `SeamClean f g`: the exit of `f` and the initial state of `g` can become one state. -/
def SeamClean (f g : Fragment α) : Prop :=
  g.hasIncoming g.initial = false ∨ f.hasOutgoing f.exit = false

instance (f g : Fragment α) : Decidable (SeamClean f g) := inferInstanceAs (Decidable (_ ∨ _))

theorem seam_eq : seam f g.toNfa = if SeamClean f g then .fuse f.exit else .link f.exit := by
  have hcond : (!g.hasIncoming g.initial || !f.hasOutgoing f.exit) = true ↔ SeamClean f g := by
    rw [Bool.or_eq_true, Bool.not_eq_true', Bool.not_eq_true']
    rfl
  by_cases hclean : SeamClean f g
  · rw [seam, if_pos (hcond.mpr hclean), if_pos hclean]
  · rw [seam, if_neg fun h => hclean (hcond.mp h), if_neg hclean]

theorem lookup_concatGraft : (concatGraft f g base).fusions.lookup q =
    if q = g.initial ∧ SeamClean f g then some f.exit else none := by
  unfold Graft.fusions Graft.exitJoint concatGraft
  rw [seam_eq]
  by_cases hclean : SeamClean f g <;> by_cases hq : q = g.initial <;> simp [hclean, hq]

/-- A clean seam is one state. -/
theorem concatGraft_image_initial (hclean : SeamClean f g) :
    (concatGraft f g base).image g.initial = f.exit := by
  apply Graft.image_of_lookup
  rw [lookup_concatGraft, if_pos ⟨rfl, hclean⟩]

/-- A state of the second operand becomes the exit of the first or is not fused. -/
theorem concatGraft_image_cases (hq : q ∈ g.states) :
    (q = g.initial ∧ SeamClean f g ∧ (concatGraft f g base).image q = f.exit) ∨
      q ∈ (concatGraft f g base).unfused := by
  have hlookup : (concatGraft f g base).fusions.lookup q = _ := lookup_concatGraft
  split at hlookup
  · rename_i h
    exact Or.inl ⟨h.1, h.2, Graft.image_of_lookup hlookup⟩
  · exact Or.inr (Graft.mem_unfused_iff.mpr ⟨hq, hlookup⟩)

theorem mem_concatenation_transitions_iff : t ∈ (concatenation f g base).transitions ↔
    t ∈ f.transitions ∨
    (¬ SeamClean f g ∧ t = ⟨f.exit, g.epsilon, (concatGraft f g base).image g.initial⟩) ∨
    ∃ u ∈ g.transitions, t = u.rename (concatGraft f g base).image := by
  have hentry : ∀ host, (concatGraft f g base).entry = .link host ↔
      ¬ SeamClean f g ∧ f.exit = host := by
    intro host
    rw [concatGraft, seam_eq]
    by_cases hclean : SeamClean f g <;> simp [hclean]
  have hexit : ∀ host, (concatGraft f g base).exitJoint ≠ some (.link host) := by
    intro host h
    exact absurd h (by simp [Graft.exitJoint, concatGraft])
  rw [concatenation, between, List.mem_append, Graft.mem_transitions_iff]
  simp only [hentry, hexit, false_and, exists_false, or_false]
  constructor
  · rintro (ht | ⟨host, ⟨hclean, rfl⟩, ht⟩ | ht)
    · exact Or.inl ht
    · exact Or.inr (Or.inl ⟨hclean, ht⟩)
    · exact Or.inr (Or.inr ht)
  · rintro (ht | ⟨hclean, ht⟩ | ht)
    · exact Or.inl ht
    · exact Or.inr (Or.inl ⟨f.exit, ⟨hclean, rfl⟩, ht⟩)
    · exact Or.inr (Or.inr ht)

/-! ## 2. What the two operands share -/

/-- `Behind f g base`: the copy takes identifiers above the first operand, all of them in range. -/
structure Behind (f g : Fragment α) (base : StateId) : Prop where
  above : ∀ q ∈ f.states, q.toNat < base.toNat
  fits : base.Fits (concatGraft f g base).unfused.length

theorem Behind.not_mem (h : Behind f g base) (hq : q ∈ (concatGraft f g base).unfused) :
    (concatGraft f g base).image q ∉ f.states := by
  intro hmem
  have hlt := h.above _ hmem
  have hle : base.toNat ≤ _ := (Graft.image_mem_range h.fits hq).1
  omega

/-- The operands share at most the exit of the first. -/
theorem Behind.shared (h : Behind f g base) (hq : q ∈ g.states)
    (hmem : (concatGraft f g base).image q ∈ f.states) :
    q = g.initial ∧ SeamClean f g ∧ (concatGraft f g base).image q = f.exit := by
  rcases concatGraft_image_cases hq with hfused | hnew
  · exact hfused
  · exact absurd hmem (h.not_mem hnew)

/-- Outside of the first operand, different states of the second stay different. -/
theorem Behind.image_inj (h : Behind f g base) (hp : p ∈ g.states) (hq : q ∈ g.states)
    (hnew : (concatGraft f g base).image p ∉ f.states)
    (heq : (concatGraft f g base).image p = (concatGraft f g base).image q) : p = q := by
  have hunfused : ∀ s ∈ g.states, (concatGraft f g base).image s ∉ f.states →
      s ∈ (concatGraft f g base).unfused := by
    intro s hs hs'
    rcases concatGraft_image_cases hs with ⟨-, -, hexit⟩ | hmem
    · exact absurd (hexit ▸ f.exit_mem_states) hs'
    · exact hmem
  exact Graft.image_inj h.fits (hunfused p hp hnew) (hunfused q hq (heq ▸ hnew)) heq

variable [Ord α]

/-- A path from a state that no transition leaves has not moved. -/
theorem Path.of_clean (h : n.Path p w q) (hclean : n.hasOutgoing p = false) : p = q ∧ w = [] := by
  cases h with
  | refl => exact ⟨rfl, rfl⟩
  | silent mem => exact absurd rfl (StateGraph.source_ne_of_clean hclean mem)
  | read mem => exact absurd rfl (StateGraph.source_ne_of_clean hclean mem)

/-! ## 3. Paths -/

/-- From a state of the first operand, the word leads through the rest of it and then through the
second. -/
def Crosses (f g : Fragment α) (p : StateId) (w : List α) : Prop :=
  ∃ u v, w = u ++ v ∧ f.Path p u f.exit ∧ g.Path g.initial v g.exit

theorem Crosses.step (mem : t ∈ f.transitions) (hu : u ∈ f.reading t.symbol)
    (h : Crosses f g t.target w) : Crosses f g t.source (u ++ w) := by
  obtain ⟨v, v', rfl, hv, hv'⟩ := h
  exact ⟨u ++ v, v', (List.append_assoc u v v').symm, .step mem hu hv, hv'⟩

/-- At the exit, the first operand need not go on. -/
theorem crosses_exit (h : g.Path g.initial w g.exit) : Crosses f g f.exit w :=
  ⟨[], w, rfl, .refl f.exit, h⟩

/-- At a clean exit, it cannot. -/
theorem Crosses.of_clean (h : Crosses f g f.exit w) (hclean : f.hasOutgoing f.exit = false) :
    g.Path g.initial w g.exit := by
  obtain ⟨u, v, rfl, hu, hv⟩ := h
  obtain ⟨-, rfl⟩ := hu.of_clean hclean
  exact hv

/-- Behind a transition of the copy, the second operand goes on.  If the transition comes back to
the state that both share, the first operand cannot go on from there. -/
theorem Behind.path_target (h : Behind f g base) (mem : t ∈ g.transitions)
    (hhost : (concatGraft f g base).image t.target ∈ f.states →
      Crosses f g ((concatGraft f g base).image t.target) w)
    (hcopy : (concatGraft f g base).image t.target ∉ f.states → g.Path t.target w g.exit) :
    g.Path t.target w g.exit := by
  by_cases hmem : (concatGraft f g base).image t.target ∈ f.states
  · obtain ⟨hinit, hclean, himage⟩ := h.shared (StateGraph.target_mem_states mem) hmem
    have hout : f.hasOutgoing f.exit = false := hclean.resolve_left fun hin =>
      StateGraph.target_ne_of_clean hin mem hinit
    have hcross := hhost hmem
    rw [himage] at hcross
    rw [hinit]
    exact hcross.of_clean hout
  · exact hcopy hmem

variable [Std.TransOrd α]

/-- **A path to the exit of the copy.**  From a state of the first operand it crosses both operands;
from any other state it stays in the second.  The induction is on the path, from its end. -/
theorem concatenation_path_cases (h : Behind f g base) (heps : f.IsEpsilon g.epsilon)
    (hpath : (concatenation f g base).Path p w q) (hq : q = (concatGraft f g base).accepting) :
    (p ∈ f.states → Crosses f g p w) ∧
      ∀ s ∈ g.states, (concatGraft f g base).image s = p → p ∉ f.states →
        g.Path s w g.exit := by
  induction path_iff_route.mp hpath with
  | refl q =>
    obtain rfl : q = (concatGraft f g base).image g.exit := hq
    constructor
    · intro hmem
      obtain ⟨hexit, -, himage⟩ := h.shared g.exit_mem_states hmem
      rw [himage]
      apply crosses_exit
      rw [hexit]
      exact .refl g.initial
    · intro s hs heq hnew
      rw [h.image_inj hs g.exit_mem_states (heq ▸ hnew) heq]
      exact .refl g.exit
  | @leg p q' q word rest first tail ih =>
    obtain ⟨ihhost, ihcopy⟩ := ih (path_iff_route.mpr tail) hq
    obtain ⟨t, mem, rfl, hread, rfl⟩ := first
    rcases mem_concatenation_transitions_iff.mp mem with ht | ⟨hclean, rfl⟩ | ⟨s, hs, rfl⟩
    · -- a transition of the first operand
      have hsource := StateGraph.source_mem_states ht
      have hcross := ihhost (StateGraph.target_mem_states ht)
      exact ⟨fun _ => hcross.step ht hread, fun _ _ _ hnew => absurd hsource hnew⟩
    · -- the silent transition from one to the other
      have hinit := g.initial_mem_states
      have hnew : (concatGraft f g base).image g.initial ∉ f.states := fun hmem =>
        hclean (h.shared hinit hmem).2.1
      obtain ⟨-, rfl⟩ | ⟨hne, -⟩ := mem_reading_iff.mp hread
      · exact ⟨fun _ => crosses_exit (ihcopy g.initial hinit rfl hnew),
          fun _ _ _ hnew => absurd f.exit_mem_states hnew⟩
      · exact absurd heps hne
    · -- a transition of the copy
      have hsource := StateGraph.source_mem_states hs
      have hgread : word ∈ g.reading s.symbol := by
        rw [mem_reading_iff] at hread ⊢
        rwa [isEpsilon_congr heps]
      have hrest : g.Path s.target rest g.exit := h.path_target hs ihhost
        (ihcopy s.target (StateGraph.target_mem_states hs) rfl)
      have hdone : g.Path s.source (word ++ rest) g.exit := .step hs hgread hrest
      constructor
      · intro hmem
        obtain ⟨hinit, -, himage⟩ := h.shared hsource hmem
        rw [hinit] at hdone
        have hsame : (s.rename (concatGraft f g base).image).source = f.exit := himage
        rw [hsame]
        exact crosses_exit hdone
      · intro s' hs' heq hnew
        rw [h.image_inj hs' hsource (heq ▸ hnew) heq]
        exact hdone

omit [Std.TransOrd α] in
/-- From the exit of the first operand, nothing is read to come to the copy. -/
theorem concatenation_path_seam (heps : f.IsEpsilon g.epsilon) :
    (concatenation f g base).Path f.exit [] ((concatGraft f g base).image g.initial) := by
  by_cases hclean : SeamClean f g
  · rw [concatGraft_image_initial hclean]
    exact .refl f.exit
  · have mem : ⟨f.exit, g.epsilon, (concatGraft f g base).image g.initial⟩ ∈
        (concatenation f g base).transitions :=
      mem_concatenation_transitions_iff.mpr (Or.inr (Or.inl ⟨hclean, rfl⟩))
    exact Path.silent mem heps (.refl _)

/-- **Concatenation is the product.** -/
theorem concat_accepts_iff (h : n.concat m = .ok r) :
    r.Accepts w ↔ ∃ u v, w = u ++ v ∧ n.Accepts u ∧ m.Accepts v := by
  obtain ⟨f, g, base, rfl, rfl, heps, hnext, hfit, rfl⟩ := concat_eq_ok_iff.mp h
  have hbehind : Behind f g base := ⟨fun q hq => StateGraph.lt_of_nextAvailable hnext hq, hfit⟩
  have haccepts : (concatenation f g base).Accepts w ↔ (concatenation f g base).Path f.initial w
      (concatGraft f g base).accepting := accepts_between_iff
  refine haccepts.trans ?_
  simp only [Fragment.accepts_iff_path]
  constructor
  · intro hpath
    exact (concatenation_path_cases hbehind heps hpath rfl).1 f.initial_mem_states
  · rintro ⟨u, v, rfl, hu, hv⟩
    have hfirst : (concatenation f g base).Path f.initial u f.exit := by
      refine Path.renamed (m := f.toNfa) (f := id) (fun _ => Iff.rfl) (fun t ht => ?_) hu
      exact mem_concatenation_transitions_iff.mpr (Or.inl ht)
    have hsecond : (concatenation f g base).Path ((concatGraft f g base).image g.initial) v
        (concatGraft f g base).accepting := by
      refine hv.renamed (fun _ => isEpsilon_congr heps) fun t ht => ?_
      exact mem_concatenation_transitions_iff.mpr (Or.inr (Or.inr ⟨t, ht, rfl⟩))
    exact hfirst.trans ((concatenation_path_seam heps).trans hsecond)

/-! ## 4. The simulation of a concatenation -/

omit [Std.TransOrd α] in
/-- A concatenation adds to the first operand: its initial state, its epsilon and its transitions
stay, and the exit moves to the copy of the second. -/
theorem concat_extends (h : n.concat m = .ok r) :
    (∃ exit, r.accepting = [exit]) ∧ r.epsilon = n.epsilon ∧ r.initial = n.initial ∧
      n.transitions <+: r.transitions := by
  obtain ⟨f, g, base, rfl, rfl, -, -, -, rfl⟩ := concat_eq_ok_iff.mp h
  exact ⟨⟨(concatGraft f g base).accepting, rfl⟩, rfl, rfl, List.prefix_append _ _⟩

/-- **Concatenation is the product, and it adds to its first operand.**  The simulation of the
result accepts a word exactly when the word can be cut into one that the first operand accepts and
one that the second accepts, whatever transitions the operands have at the ends that meet.  The
result has one accepting state, and starts where the first operand starts, with its transitions. -/
theorem concat_product (h : n.concat m = .ok r) :
    (∃ exit, r.accepting = [exit]) ∧ r.epsilon = n.epsilon ∧ r.initial = n.initial ∧
    n.transitions <+: r.transitions ∧
    ∀ w, n.Readable w → (r.accepts w = true ↔
      ∃ u v, w = u ++ v ∧ n.accepts u = true ∧ m.accepts v = true) := by
  obtain ⟨hexit, hr, hinitial, hprefix⟩ := concat_extends h
  have hm := (concat_epsilon h).1
  refine ⟨hexit, hr, hinitial, hprefix, fun w hw => ?_⟩
  rw [accepts_iff ((readable_of_epsilon_eq hr).mpr hw), concat_accepts_iff h]
  constructor
  · rintro ⟨u, v, rfl, hu, hv⟩
    obtain ⟨hreadu, hreadv⟩ := readable_append_iff.mp hw
    have hreadm := (readable_congr hm).mpr hreadv
    exact ⟨u, v, rfl, (accepts_iff hreadu).mpr hu, (accepts_iff hreadm).mpr hv⟩
  · rintro ⟨u, v, rfl, hu, hv⟩
    obtain ⟨hreadu, hreadv⟩ := readable_append_iff.mp hw
    have hreadm := (readable_congr hm).mpr hreadv
    exact ⟨u, v, rfl, (accepts_iff hreadu).mp hu, (accepts_iff hreadm).mp hv⟩

/-- From 0 to 1 on `a` and back on `b`, so that transitions enter the one end and leave the
other. -/
def thereAndBack : Nfa Char := between 0 1 [⟨0, 'a', 1⟩, ⟨1, 'b', 0⟩] 'ε'

/-- The same twice, in an automaton with a silent transition where the two meet. -/
def twiceThereAndBack : Nfa Char :=
  between 0 3 [⟨0, 'a', 1⟩, ⟨1, 'b', 0⟩, ⟨1, 'ε', 2⟩, ⟨2, 'a', 3⟩, ⟨3, 'b', 2⟩] 'ε'

theorem concat_product_there_and_back :
    thereAndBack.concat thereAndBack = .ok twiceThereAndBack ∧
    (∃ exit, twiceThereAndBack.accepting = [exit]) ∧
    twiceThereAndBack.epsilon = thereAndBack.epsilon ∧
    twiceThereAndBack.initial = thereAndBack.initial ∧
    thereAndBack.transitions <+: twiceThereAndBack.transitions ∧
    ∀ w, thereAndBack.Readable w → (twiceThereAndBack.accepts w = true ↔
      ∃ u v, w = u ++ v ∧ thereAndBack.accepts u = true ∧ thereAndBack.accepts v = true) := by
  have h : thereAndBack.concat thereAndBack = .ok twiceThereAndBack := by decide +kernel
  exact ⟨h, concat_product h⟩

end Nfa

end Recognizer
