/-
# Expansion is substitution

An expansion keeps the states of its first operand for a host and splices a copy of the second in
place of each transition on the symbol.  Many copies can meet in one host state, and on a loop a
copy starts and ends there.  Since a copy can only be entered at its initial state and left at its
exit, each way through the result is a walk of the host in which every replaced transition stands
for a word of the second operand.

* `sites_base_le`, `sites_apart`: the copies lie one above the other;
* `expansion_describes`: the automaton has the layout;
* `Nfa.expand_accepts_iff`: its words are those of the walks;
* `Nfa.expand_substitutes`: the same for the simulation.
-/
import Mathlib.Data.List.Pairwise
import Recognizer.Proofs.Grafting
import Recognizer.Proofs.Outcome
import Recognizer.Proofs.Simulation

namespace Recognizer

/-- The graph with other transitions. -/
def StateGraph.withTransitions {α : Type} (g : StateGraph α) (ts : List (Transition α)) :
    StateGraph α :=
  { g with transitions := ts }

namespace Nfa

variable {α : Type} {n m r : Nfa α} {f g : Fragment α} {base : StateId} {symbol : α}
  {s s' : Site α} {t : Transition α} {ts : List (Transition α)} {q : StateId} {w : List α}

/-! ## 1. Where the copies lie -/

/-- There is a site for each of the transitions. -/
theorem map_transition_sites : (sites g base ts).map Site.transition = ts := by
  induction ts generalizing base with
  | nil => rfl
  | cons t ts ih =>
    rw [sites, List.map_cons, ih]

/-- `g.Fit ss`: no copy at the sites runs out of identifiers. -/
def Fit (g : Fragment α) (ss : List (Site α)) : Prop :=
  ∀ s ∈ ss, s.base.Fits (s.graft g).unfused.length

/-- No copy lies below the first. -/
theorem sites_base_le (hfit : Fit g (sites g base ts)) (hs : s ∈ sites g base ts) :
    base.toNat ≤ s.base.toNat := by
  induction ts generalizing base with
  | nil => exact absurd hs List.not_mem_nil
  | cons t ts ih =>
    obtain ⟨hfirst, hrest⟩ := List.forall_mem_cons.mp hfit
    rcases List.mem_cons.mp hs with rfl | hs
    · exact Nat.le_refl _
    · have hle := ih hrest hs
      have hnext : (Site.graft ⟨base, t⟩ g).next.toNat =
          base.toNat + (Site.graft ⟨base, t⟩ g).unfused.length := Graft.toNat_next hfirst
      omega

/-- Two copies, one of which lies above the other. -/
def Apart (g : Fragment α) (s s' : Site α) : Prop :=
  (s.graft g).next.toNat ≤ s'.base.toNat ∨ (s'.graft g).next.toNat ≤ s.base.toNat

instance : Std.Symm (Apart g) := ⟨fun _ _ => Or.symm⟩

theorem sites_pairwise (hfit : Fit g (sites g base ts)) :
    (sites g base ts).Pairwise (Apart g) := by
  induction ts generalizing base with
  | nil => exact .nil
  | cons t ts ih =>
    obtain ⟨-, hrest⟩ := List.forall_mem_cons.mp hfit
    exact .cons (fun s hs => Or.inl (sites_base_le hrest hs)) (ih hrest)

/-- Different copies have no state of their own in common. -/
theorem sites_apart (hfit : Fit g (sites g base ts)) (hs : s ∈ sites g base ts)
    (hs' : s' ∈ sites g base ts) (hne : s ≠ s') : Apart g s s' :=
  (sites_pairwise hfit).forall hs hs' hne

variable [Ord α]

theorem mem_transitionsOn_iff : t ∈ n.transitionsOn symbol ↔
    t ∈ n.transitions ∧ Same t.symbol symbol := by
  rw [transitionsOn, List.mem_filter, decide_eq_true_iff]

theorem mem_transitionsOff_iff : t ∈ n.transitionsOff symbol ↔
    t ∈ n.transitions ∧ ¬ Same t.symbol symbol := by
  rw [transitionsOff, List.mem_filter, Bool.not_eq_true', decide_eq_false_iff_not]

/-- The transition at a site is one of the host, on the symbol. -/
theorem mem_of_mem_sites (hs : s ∈ sites g base (n.transitionsOn symbol)) :
    s.transition ∈ n.transitions ∧ Same s.transition.symbol symbol := by
  have hmem := List.mem_map_of_mem (f := Site.transition) hs
  rw [map_transition_sites] at hmem
  exact mem_transitionsOn_iff.mp hmem

/-- For each transition on the symbol there is a site. -/
theorem exists_mem_sites (ht : t ∈ n.transitions) (hsymbol : Same t.symbol symbol) :
    ∃ s ∈ sites g base (n.transitionsOn symbol), s.transition = t := by
  apply List.mem_map.mp
  rw [map_transition_sites]
  exact mem_transitionsOn_iff.mpr ⟨ht, hsymbol⟩

/-! ## 2. The layout -/

/-- A copy at each site, between the states of the first operand. -/
def expansionLayout (n : Nfa α) (symbol : α) (g : Fragment α) (base : StateId) :
    Layout {s // s ∈ sites g base (n.transitionsOn symbol)} α where
  Host q := q ∈ n.states
  own := n.transitionsOff symbol
  part _ := g
  image s := (s.1.graft g).image
  Enters s p := p = s.1.transition.source
  Leaves s q := q = s.1.transition.target

/-- The automaton that an expansion builds. -/
def expansion (n : Nfa α) (symbol : α) (g : Fragment α) (base : StateId) : Nfa α :=
  ⟨n.toStateGraph.withTransitions (n.transitionsOff symbol ++
    (sites g base (n.transitionsOn symbol)).flatMap fun s => (s.graft g).transitions), n.epsilon⟩

theorem expansion_spliced (heps : n.IsEpsilon g.epsilon)
    (hbase : ∀ q ∈ n.states, q.toNat < base.toNat)
    (hfit : Fit g (sites g base (n.transitionsOn symbol)))
    (s : {s // s ∈ sites g base (n.transitionsOn symbol)}) :
    (n.expansionLayout symbol g base).Spliced (n.expansion symbol g base) s s.1.base
      s.1.transition.source s.1.transition.target where
  image_eq := rfl
  fits := hfit s.1 s.2
  silent := heps
  host_source := StateGraph.source_mem_states (mem_of_mem_sites s.2).1
  host_target := StateGraph.target_mem_states (mem_of_mem_sites s.2).1
  enters_iff := fun _ => Iff.rfl
  leaves_iff := fun _ => Iff.rfl
  below := by
    intro q hq
    exact Nat.lt_of_lt_of_le (hbase q hq) (sites_base_le hfit s.2)
  mem := by
    intro t ht
    exact List.mem_append_right _ (List.mem_flatMap.mpr ⟨s.1, s.2, ht⟩)

variable [Std.TransOrd α]

/-- **An expansion has its layout.** -/
theorem expansion_describes (heps : n.IsEpsilon g.epsilon)
    (hbase : ∀ q ∈ n.states, q.toNat < base.toNat)
    (hfit : Fit g (sites g base (n.transitionsOn symbol))) :
    (n.expansionLayout symbol g base).Describes (n.expansion symbol g base) where
  isEpsilon_iff := fun _ _ => isEpsilon_congr heps
  enters_host := by
    rintro s p rfl
    exact StateGraph.source_mem_states (mem_of_mem_sites s.2).1
  leaves_host := by
    rintro s q rfl
    exact StateGraph.target_mem_states (mem_of_mem_sites s.2).1
  apart := by
    intro s s' p q hp hq hinner heq
    have hspliced := expansion_spliced heps hbase hfit
    by_cases hsame : s = s'
    · subst hsame
      exact ⟨rfl, (hspliced s).image_inj hp hq hinner heq⟩
    · -- the two states would lie in two ranges that have nothing in common
      have hrange := (hspliced s).image_mem_range hp hinner
      have hrange' := (hspliced s').image_mem_range hq (heq ▸ hinner)
      rw [heq] at hrange
      have hapart := sites_apart hfit s.2 s'.2 fun h => hsame (Subtype.ext h)
      unfold Apart Site.graft at hapart
      obtain ⟨hlo, hhi⟩ := hrange
      obtain ⟨hlo', hhi'⟩ := hrange'
      rcases hapart with hle | hle
      · exact absurd hhi (Nat.not_lt.mpr (Nat.le_trans hle hlo'))
      · exact absurd hhi' (Nat.not_lt.mpr (Nat.le_trans hle hlo))
  fused := fun hp hhost => (expansion_spliced heps hbase hfit _).fused hp hhost
  origin := by
    intro t ht
    rcases List.mem_append.mp ht with ht | ht
    · have hmem := (mem_transitionsOff_iff.mp ht).1
      exact .own ht (StateGraph.source_mem_states hmem) (StateGraph.target_mem_states hmem)
    · obtain ⟨s, hs, ht⟩ := List.mem_flatMap.mp ht
      exact (expansion_spliced heps hbase hfit ⟨s, hs⟩).origin ht
  own_mem := fun _ ht => List.mem_append_left _ ht
  copy_mem := fun s _ ht => (expansion_spliced heps hbase hfit s).copy_mem ht
  enter := fun hp => (expansion_spliced heps hbase hfit _).enter hp
  leave := fun hq => (expansion_spliced heps hbase hfit _).leave hq

/-- What an expansion that succeeds has built. -/
theorem exists_expansion (h : n.expand symbol m = .ok r) :
    ∃ (f g : Fragment α) (base : StateId), f.toNfa = n ∧ g.toNfa = m ∧
      n.expansion symbol g base = r ∧ (n.expansionLayout symbol g base).Describes r := by
  obtain ⟨f, g, base, hf, hg, heps, hnext, hfit, rfl⟩ := expand_eq_ok_iff.mp h
  subst hg
  have hbase : ∀ q ∈ n.states, q.toNat < base.toNat := fun q hq =>
    StateGraph.lt_of_nextAvailable hnext hq
  exact ⟨f, g, base, hf, rfl, rfl, expansion_describes heps hbase hfit⟩

/-! ## 3. The language -/

/-- The words for which a label of the host stands: those of the replacement if it is the symbol,
and otherwise what a transition with this label reads. -/
def expanded (n : Nfa α) (symbol : α) (replacement : Language α) (label : α) : Language α :=
  if Same label symbol then replacement else n.reading label

omit [Std.TransOrd α] in
theorem mem_expanded_iff {replacement : Language α} {a : α} :
    w ∈ n.expanded symbol replacement a ↔
      (Same a symbol ∧ w ∈ replacement) ∨ (¬ Same a symbol ∧ w ∈ n.reading a) := by
  unfold expanded
  by_cases ha : Same a symbol
  · simp [ha]
  · simp [ha]

omit [Std.TransOrd α] in
/-- The legs of the layout are the transitions of the host, each with a word for its label. -/
theorem expansion_leg_iff {p : StateId} :
    (n.expansionLayout symbol g base).Leg (n.expansion symbol g base) p w q ↔
      n.Leg (n.expanded symbol g.language) p w q := by
  constructor
  · intro h
    cases h with
    | @own t u mem reads =>
      obtain ⟨ht, hne⟩ := mem_transitionsOff_iff.mp mem
      exact ⟨t, ht, rfl, mem_expanded_iff.mpr (Or.inr ⟨hne, reads⟩), rfl⟩
    | copy s enters way leaves =>
      obtain ⟨ht, hsymbol⟩ := mem_of_mem_sites s.2
      have hword : g.Accepts _ := Fragment.accepts_iff_path.mpr way
      exact ⟨s.1.transition, ht, enters.symm, mem_expanded_iff.mpr (Or.inl ⟨hsymbol, hword⟩),
        leaves.symm⟩
  · rintro ⟨t, ht, rfl, hw, rfl⟩
    rcases mem_expanded_iff.mp hw with ⟨hsymbol, hword⟩ | ⟨hne, reads⟩
    · obtain ⟨s, hs, rfl⟩ := exists_mem_sites ht hsymbol
      exact .copy ⟨s, hs⟩ rfl (Fragment.accepts_iff_path.mp hword) rfl
    · exact .own (mem_transitionsOff_iff.mpr ⟨ht, hne⟩) reads

/-- **The words of an expansion are spelled out along the walks of the host.** -/
theorem expand_accepts_iff (h : n.expand symbol m = .ok r) :
    r.Accepts w ↔ ∃ exit labels, n.accepting = [exit] ∧ n.Labelled n.initial labels exit ∧
      w ∈ spelledOut (n.expanded symbol m.language) labels := by
  obtain ⟨f, g, base, rfl, rfl, rfl, hlayout⟩ := exists_expansion h
  have hexit : f.exit ∈ f.states := f.exit_mem_states
  have hpath : (f.expansion symbol g base).Accepts w ↔
      (f.expansion symbol g base).Path f.initial w f.exit :=
    Fragment.accepts_iff_path (f := ⟨f.expansion symbol g base, f.exit, f.accepting_eq⟩)
  rw [hpath, hlayout.path_iff_route f.initial_mem_states hexit,
    Route.congr fun _ _ _ => expansion_leg_iff, route_leg_iff]
  constructor
  · rintro ⟨labels, hwalk, hw⟩
    exact ⟨f.exit, labels, f.accepting_eq, hwalk, hw⟩
  · rintro ⟨exit, labels, hacc, hwalk, hw⟩
    obtain rfl : f.exit = exit := (List.cons.inj (f.accepting_eq.symm.trans hacc)).1
    exact ⟨labels, hwalk, hw⟩

/-! ## 4. The simulation of an expansion -/

omit [Std.TransOrd α] in
/-- Only readable words can be part of a readable word. -/
theorem mem_spelledOut_congr {labels : List α} {words words' : α → Language α}
    (hwords : ∀ a u, n.Readable u → (u ∈ words a ↔ u ∈ words' a)) (hw : n.Readable w) :
    w ∈ spelledOut words labels ↔ w ∈ spelledOut words' labels := by
  induction labels generalizing w with
  | nil => rw [mem_spelledOut_nil, mem_spelledOut_nil]
  | cons a labels ih =>
    rw [mem_spelledOut_cons, mem_spelledOut_cons]
    constructor
    · rintro ⟨u, hu, v, hv, rfl⟩
      obtain ⟨hreadu, hreadv⟩ := readable_append_iff.mp hw
      exact ⟨u, (hwords a u hreadu).mp hu, v, (ih hreadv).mp hv, rfl⟩
    · rintro ⟨u, hu, v, hv, rfl⟩
      obtain ⟨hreadu, hreadv⟩ := readable_append_iff.mp hw
      exact ⟨u, (hwords a u hreadu).mpr hu, v, (ih hreadv).mpr hv, rfl⟩

/-- **Expansion is substitution.**  The simulation of the result accepts a word exactly when the
first operand has a walk from its initial to its accepting state along which the word is spelled
out: a transition on the symbol stands for a word that the simulation of the second operand accepts,
any other silent transition for the empty word, and any other transition for its label. -/
theorem expand_substitutes (h : n.expand symbol m = .ok r) (hw : n.Readable w) :
    r.accepts w = true ↔ ∃ exit labels, n.accepting = [exit] ∧
      n.Labelled n.initial labels exit ∧
      w ∈ spelledOut (n.expanded symbol m.accepted) labels := by
  obtain ⟨hm, hr⟩ := expand_epsilon h
  have hwords : ∀ a u, n.Readable u → (u ∈ n.expanded symbol m.language a ↔
      u ∈ n.expanded symbol m.accepted a) := by
    intro a u hu
    rw [mem_expanded_iff, mem_expanded_iff, mem_language_iff, mem_accepted_iff,
      accepts_iff ((readable_congr hm).mpr hu)]
  rw [accepts_iff ((readable_of_epsilon_eq hr).mpr hw), expand_accepts_iff h]
  simp only [mem_spelledOut_congr hwords hw]

/-- Two transitions on `x` from the same state, one of them a loop, and one on `z`. -/
def forkedLoop : Nfa Char := between 0 1 [⟨0, 'x', 0⟩, ⟨0, 'x', 1⟩, ⟨0, 'z', 1⟩] 'ε'

/-- Any number of `a`, in an automaton that ends where it starts. -/
def manyLetters : Nfa Char := between 0 0 [⟨0, 'a', 0⟩] 'ε'

def forkedLoopExpanded : Nfa Char :=
  between 0 1 [⟨0, 'z', 1⟩, ⟨0, 'ε', 2⟩, ⟨2, 'a', 2⟩, ⟨2, 'ε', 0⟩, ⟨0, 'ε', 3⟩, ⟨3, 'a', 3⟩,
    ⟨3, 'ε', 1⟩] 'ε'

theorem expand_substitutes_loops :
    forkedLoop.expand 'x' manyLetters = .ok forkedLoopExpanded ∧
    forkedLoop.Readable ['a', 'z'] ∧
    (forkedLoopExpanded.accepts ['a', 'z'] = true ↔ ∃ exit labels,
      forkedLoop.accepting = [exit] ∧ forkedLoop.Labelled forkedLoop.initial labels exit ∧
      ['a', 'z'] ∈ spelledOut (forkedLoop.expanded 'x' manyLetters.accepted) labels) := by
  have h : forkedLoop.expand 'x' manyLetters = .ok forkedLoopExpanded := by decide +kernel
  have hw : forkedLoop.Readable ['a', 'z'] := by decide +kernel
  exact ⟨h, hw, expand_substitutes h hw⟩

end Nfa

end Recognizer
