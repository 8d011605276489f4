/-
# Copies of fragments between the states of a host

Three of the operators build an automaton in the same way.  Copies of fragments are put between the
states of a host; each end of a copy either becomes a host state or is joined to one by a silent
transition.  A `Layout` says which copies there are and where they are entered and left, and
`Layout.Describes` says that an automaton has the transitions of the layout and no others, that
copies have no state in common outside of the host, and that only a clean end becomes a host state:
an initial state that no transition enters or an exit that no transition leaves.

Under these conditions a path cannot change from one copy to another half-way.  Once it is inside
of a copy it has to finish the copy before it comes back to the host
(`Describes.finishes_or_route`).  So the paths between host states are the routes whose legs are
transitions of the host and whole ways through a copy (`Describes.path_iff_route`).
-/
import Recognizer.Proofs.Route

namespace Recognizer

/-! ## 1. States and ends of a graph -/

namespace StateGraph

variable {α : Type} {g : StateGraph α} {t : Transition α} {q : StateId}

theorem initial_mem_states (g : StateGraph α) : g.initial ∈ g.states := mem_states.mpr (Or.inl rfl)

theorem source_mem_states (h : t ∈ g.transitions) : t.source ∈ g.states :=
  mem_states.mpr (Or.inr (Or.inr ⟨t, h, Or.inl rfl⟩))

theorem target_mem_states (h : t ∈ g.transitions) : t.target ∈ g.states :=
  mem_states.mpr (Or.inr (Or.inr ⟨t, h, Or.inr rfl⟩))

theorem hasIncoming_iff : g.hasIncoming q = true ↔ ∃ t ∈ g.transitions, t.target = q := by
  simp [hasIncoming]

theorem hasOutgoing_iff : g.hasOutgoing q = true ↔ ∃ t ∈ g.transitions, t.source = q := by
  simp [hasOutgoing]

/-- No transition ends in a state that none enters. -/
theorem target_ne_of_clean (hq : g.hasIncoming q = false) (h : t ∈ g.transitions) :
    t.target ≠ q := by
  intro heq
  have hin := hasIncoming_iff.mpr ⟨t, h, heq⟩
  exact absurd (hin.symm.trans hq) (by simp)

/-- No transition starts in a state that none leaves. -/
theorem source_ne_of_clean (hq : g.hasOutgoing q = false) (h : t ∈ g.transitions) :
    t.source ≠ q := by
  intro heq
  have hout := hasOutgoing_iff.mpr ⟨t, h, heq⟩
  exact absurd (hout.symm.trans hq) (by simp)

end StateGraph

theorem Fragment.exit_mem_states {α : Type} (f : Fragment α) : f.exit ∈ f.states := by
  refine StateGraph.mem_states.mpr (Or.inr (Or.inl ?_))
  rw [f.accepting_eq]
  exact List.mem_singleton_self _

/-! ## 2. Layouts -/

/-- Copies of fragments, one for each index, between the states of a host. -/
structure Layout (ι α : Type) where
  /-- The states of the host. -/
  Host : StateId → Prop
  /-- The transitions that the host has of its own. -/
  own : List (Transition α)
  /-- The fragment that is copied. -/
  part : ι → Fragment α
  /-- What a state of the fragment becomes in the copy. -/
  image : ι → StateId → StateId
  /-- The host states from which the copy is entered. -/
  Enters : ι → StateId → Prop
  /-- The host states to which the copy is left. -/
  Leaves : ι → StateId → Prop

namespace Layout

variable {ι α : Type} [Ord α]

/-- Where a transition of the automaton `n` comes from under a layout. -/
inductive Origin (L : Layout ι α) (n : Nfa α) : Transition α → Prop
  | own {t : Transition α} (mem : t ∈ L.own) (source : L.Host t.source) (target : L.Host t.target) :
      Origin L n t
  | copy {t : Transition α} (i : ι) (mem : t ∈ (L.part i).transitions) :
      Origin L n (t.rename (L.image i))
  /-- A silent transition into a copy whose initial state is not a host state. -/
  | entry {t : Transition α} (i : ι) (silent : n.IsEpsilon t.symbol) (enters : L.Enters i t.source)
      (target : t.target = L.image i (L.part i).initial) (inner : ¬ L.Host t.target) : Origin L n t
  /-- A silent transition out of a copy.  Its exit is no host state, unless the fragment ends where
  it starts and the copy starts in the host. -/
  | exit {t : Transition α} (i : ι) (silent : n.IsEpsilon t.symbol) (leaves : L.Leaves i t.target)
      (source : t.source = L.image i (L.part i).exit)
      (inner : L.Host t.source → L.Enters i t.source ∧ (L.part i).exit = (L.part i).initial) :
      Origin L n t

/-- `L.Describes n`: the automaton `n` is put together as the layout says. -/
structure Describes (L : Layout ι α) (n : Nfa α) : Prop where
  isEpsilon_iff : ∀ i a, (L.part i).IsEpsilon a ↔ n.IsEpsilon a
  enters_host : ∀ {i p}, L.Enters i p → L.Host p
  leaves_host : ∀ {i q}, L.Leaves i q → L.Host q
  /-- A state outside of the host belongs to one copy and stands for one state of its fragment. -/
  apart : ∀ {i j p q}, p ∈ (L.part i).states → q ∈ (L.part j).states → ¬ L.Host (L.image i p) →
    L.image i p = L.image j q → i = j ∧ p = q
  /-- Only clean ends become host states. -/
  fused : ∀ {i p}, p ∈ (L.part i).states → L.Host (L.image i p) →
    (p = (L.part i).initial ∧ (L.part i).hasIncoming p = false ∧ L.Enters i (L.image i p)) ∨
      (p = (L.part i).exit ∧ (L.part i).hasOutgoing p = false ∧ L.Leaves i (L.image i p))
  origin : ∀ t ∈ n.transitions, L.Origin n t
  own_mem : ∀ t ∈ L.own, t ∈ n.transitions
  copy_mem : ∀ i, ∀ t ∈ (L.part i).transitions, t.rename (L.image i) ∈ n.transitions
  enter : ∀ {i p}, L.Enters i p → n.Path p [] (L.image i (L.part i).initial)
  leave : ∀ {i q}, L.Leaves i q → n.Path (L.image i (L.part i).exit) [] q

/-- The legs of a layout: a transition of the host, or a way through a whole copy. -/
inductive Leg (L : Layout ι α) (n : Nfa α) : StateId → List α → StateId → Prop
  | own {t : Transition α} {u : List α} (mem : t ∈ L.own) (reads : u ∈ n.reading t.symbol) :
      Leg L n t.source u t.target
  | copy {p q : StateId} {u : List α} (i : ι) (enters : L.Enters i p)
      (way : (L.part i).Path (L.part i).initial u (L.part i).exit) (leaves : L.Leaves i q) :
      Leg L n p u q

/-- From the state of copy `i` that `p` became, the word leads through the rest of the copy and then
along a route to `q`. -/
def Finishes (L : Layout ι α) (n : Nfa α) (i : ι) (p : StateId) (w : List α) (q : StateId) : Prop :=
  ∃ u v r, w = u ++ v ∧ (L.part i).Path p u (L.part i).exit ∧ L.Leaves i r ∧ Route (L.Leg n) r v q

end Layout

namespace Layout

variable {ι α : Type} [Ord α] {L : Layout ι α} {n : Nfa α} {i : ι} {t : Transition α}
  {p q : StateId} {u w : List α}

/-! ## 3. Inside a copy -/

/-- A transition of the fragment goes in front of what finishes the copy. -/
theorem Finishes.step (h : L.Describes n) (mem : t ∈ (L.part i).transitions)
    (hu : u ∈ n.reading t.symbol) (hfin : L.Finishes n i t.target w q) :
    L.Finishes n i t.source (u ++ w) q := by
  obtain ⟨v, v', r, rfl, hpath, hleaves, hroute⟩ := hfin
  have hread : u ∈ (L.part i).reading t.symbol := by
    rw [Nfa.mem_reading_iff] at hu ⊢
    rwa [h.isEpsilon_iff]
  exact ⟨u ++ v, v', r, (List.append_assoc u v v').symm, .step mem hread hpath, hleaves, hroute⟩

/-- Whoever finishes a copy from its initial state has a route from where the copy is entered. -/
theorem Finishes.route (hfin : L.Finishes n i (L.part i).initial w q) (henters : L.Enters i p) :
    Route (L.Leg n) p w q := by
  obtain ⟨u, v, r, rfl, hpath, hleaves, hroute⟩ := hfin
  exact .leg (.copy i henters hpath hleaves) hroute

/-- A copy is finished where it is left. -/
theorem finishes_exit (hleaves : L.Leaves i p) (hroute : Route (L.Leg n) p w q) :
    L.Finishes n i (L.part i).exit w q :=
  ⟨[], w, p, rfl, .refl _, hleaves, hroute⟩

/-- Behind a transition of the fragment, the copy goes on or ends in the host.  The state in which
the transition ends is entered, so it is not a clean initial state. -/
theorem Describes.finishes_target (h : L.Describes n) (mem : t ∈ (L.part i).transitions)
    (hhost : L.Host (L.image i t.target) → Route (L.Leg n) (L.image i t.target) w q)
    (hinner : ¬ L.Host (L.image i t.target) → L.Finishes n i t.target w q) :
    L.Finishes n i t.target w q := by
  by_cases hh : L.Host (L.image i t.target)
  · rcases h.fused (StateGraph.target_mem_states mem) hh with ⟨-, hclean, -⟩ | ⟨hexit, -, hleaves⟩
    · exact absurd rfl (StateGraph.target_ne_of_clean hclean mem)
    · have hfin := finishes_exit hleaves (hhost hh)
      rwa [← hexit] at hfin
  · exact hinner hh

/-! ## 4. Paths become routes -/

/-- **A path to a host state has finished every copy that it entered.**  From a host state it is a
route; from inside of a copy it finishes the copy first.  The induction is on the path, from its
end, and each case is one origin of its first transition. -/
theorem Describes.finishes_or_route (h : L.Describes n) (hq : L.Host q) (hpath : n.Path p w q) :
    (L.Host p → Route (L.Leg n) p w q) ∧
      ∀ i s, s ∈ (L.part i).states → L.image i s = p → ¬ L.Host p → L.Finishes n i s w q := by
  induction Nfa.path_iff_route.mp hpath with
  | refl q => exact ⟨fun _ => .refl q, fun _ _ _ _ hp => absurd hq hp⟩
  | @leg p r q u w first rest ih =>
    obtain ⟨hroute, hfin⟩ := ih hq (Nfa.path_iff_route.mpr rest)
    obtain ⟨t, mem, rfl, hu, rfl⟩ := first
    cases h.origin t mem with
    | own hmem hsource htarget =>
      exact ⟨fun _ => .leg (.own hmem hu) (hroute htarget),
        fun _ _ _ _ hinner => absurd hsource hinner⟩
    | @copy t i hmem =>
      have hsource := StateGraph.source_mem_states hmem
      have hdone : L.Finishes n i t.source (u ++ w) q := by
        refine Finishes.step h hmem hu (h.finishes_target hmem hroute fun hinner => ?_)
        exact hfin i t.target (StateGraph.target_mem_states hmem) rfl hinner
      constructor
      · intro hhost
        rcases h.fused hsource hhost with ⟨hinit, -, henters⟩ | ⟨-, hclean, -⟩
        · rw [hinit] at hdone
          exact hdone.route henters
        · exact absurd rfl (StateGraph.source_ne_of_clean hclean hmem)
      · intro j s hs heq hinner
        obtain ⟨rfl, rfl⟩ := h.apart hs hsource (heq ▸ hinner) heq
        exact hdone
    | entry i hsilent henters htarget hinner =>
      obtain ⟨-, rfl⟩ | ⟨hne, -⟩ := Nfa.mem_reading_iff.mp hu
      · have hdone := hfin i _ (StateGraph.initial_mem_states _) htarget.symm hinner
        exact ⟨fun _ => hdone.route henters,
          fun _ _ _ _ hp => absurd (h.enters_host henters) hp⟩
      · exact absurd hsilent hne
    | exit i hsilent hleaves hsource hexit =>
      obtain ⟨-, rfl⟩ | ⟨hne, -⟩ := Nfa.mem_reading_iff.mp hu
      · have hdone : L.Finishes n i (L.part i).exit w q :=
          finishes_exit hleaves (hroute (h.leaves_host hleaves))
        constructor
        · intro hhost
          obtain ⟨henters, heq⟩ := hexit hhost
          rw [heq] at hdone
          exact hdone.route henters
        · intro j s hs heq hinner
          obtain ⟨rfl, rfl⟩ :=
            h.apart hs (L.part i).exit_mem_states (heq ▸ hinner) (heq.trans hsource)
          exact hdone
      · exact absurd hsilent hne

/-! ## 5. Routes become paths -/

/-- A route is a path: a way through a copy is found in the copy, between what joins it to the
host. -/
theorem Describes.path_of_route (h : L.Describes n) (hroute : Route (L.Leg n) p w q) :
    n.Path p w q := by
  induction hroute with
  | refl q => exact .refl q
  | leg first _ ih =>
    cases first with
    | own mem reads => exact .step (h.own_mem _ mem) reads ih
    | copy i enters way leaves =>
      have hcopy := way.renamed (h.isEpsilon_iff i) (h.copy_mem i)
      have hway := ((h.enter enters).trans hcopy).trans (h.leave leaves)
      rw [List.nil_append, List.append_nil] at hway
      exact hway.trans ih

/-- **The paths between host states are the routes of the layout.** -/
theorem Describes.path_iff_route (h : L.Describes n) (hp : L.Host p) (hq : L.Host q) :
    n.Path p w q ↔ Route (L.Leg n) p w q :=
  ⟨fun hpath => (h.finishes_or_route hq hpath).1 hp, h.path_of_route⟩

/-! ## 6. Clean ends -/

/-- Nothing enters a host state that is no target of the host and to which no copy is left. -/
theorem Describes.target_ne (h : L.Describes n) (mem : t ∈ n.transitions) (hp : L.Host p)
    (hown : ∀ t ∈ L.own, t.target ≠ p) (hleaves : ∀ i, ¬ L.Leaves i p) : t.target ≠ p := by
  rintro rfl
  cases h.origin t mem with
  | own hmem => exact hown t hmem rfl
  | @copy t i hmem =>
    rcases h.fused (StateGraph.target_mem_states hmem) hp with ⟨-, hclean, -⟩ | ⟨-, -, hleft⟩
    · exact absurd rfl (StateGraph.target_ne_of_clean hclean hmem)
    · exact hleaves i hleft
  | entry i _ _ _ hinner => exact hinner hp
  | exit i _ hleft => exact hleaves i hleft

/-- Nothing leaves a host state that is no source of the host and from which no copy is entered. -/
theorem Describes.source_ne (h : L.Describes n) (mem : t ∈ n.transitions) (hp : L.Host p)
    (hown : ∀ t ∈ L.own, t.source ≠ p) (henters : ∀ i, ¬ L.Enters i p) : t.source ≠ p := by
  rintro rfl
  cases h.origin t mem with
  | own hmem => exact hown t hmem rfl
  | @copy t i hmem =>
    rcases h.fused (StateGraph.source_mem_states hmem) hp with ⟨-, -, hent⟩ | ⟨-, hclean, -⟩
    · exact henters i hent
    · exact absurd rfl (StateGraph.source_ne_of_clean hclean hmem)
  | entry i _ hent => exact henters i hent
  | exit i _ _ _ hexit => exact henters i (hexit hp).1

end Layout

end Recognizer
