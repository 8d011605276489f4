/-
# Alternation is union

An alternation lays both operands between two states that they share.  The first operand stays where
it is, the second is a spliced copy above it, and the host is nothing but the two shared ends.  A
shared end is a state of the first operand only if it is clean there; otherwise it is new.  So no
path leads from one operand into the other, whatever loops the operands have at their ends.

* `SharedEntry`, `SharedExit`: what the two ends have to satisfy, and that the ends do;
* `alternation_describes`: the automaton has the layout;
* `Nfa.alternate_accepts_iff`: its words are the words of either operand;
* `Nfa.alternate_union_clean`: the same for the simulation, with what the ends of the result are.
-/
import Recognizer.Proofs.Grafting
import Recognizer.Proofs.Outcome
import Recognizer.Proofs.Simulation

namespace Recognizer

namespace Nfa

variable {α : Type} {n m r : Nfa α} {f g : Fragment α} {e entry exit : SharedEnd α}
  {next q : StateId} {t : Transition α} {w : List α}

/-! ## 1. The shared ends -/

/-- A state in front of a fragment, or its clean initial state. -/
structure SharedEntry (f : Fragment α) (e : SharedEnd α) : Prop where
  clean : e.state ∈ f.states → e.state = f.initial ∧ f.hasIncoming f.initial = false
  mem_links_iff : ∀ t, t ∈ e.links ↔ e.state ∉ f.states ∧ t = ⟨e.state, f.epsilon, f.initial⟩

/-- A state behind a fragment, or its clean exit if it does not end where it starts. -/
structure SharedExit (f : Fragment α) (e : SharedEnd α) : Prop where
  clean : e.state ∈ f.states →
    e.state = f.exit ∧ f.hasOutgoing f.exit = false ∧ f.exit ≠ f.initial
  mem_links_iff : ∀ t, t ∈ e.links ↔ e.state ∉ f.states ∧ t = ⟨f.exit, f.epsilon, e.state⟩

/-- An identifier above all states of a fragment is none of them. -/
theorem not_mem_states_of_le (hnext : ∀ q ∈ f.states, q.toNat < next.toNat)
    (hq : next.toNat ≤ q.toNat) : q ∉ f.states := by
  intro hmem
  have := hnext q hmem
  omega

/-- The entry of an alternation, and where the free identifiers go on. -/
theorem sharedEntry_spec (hnext : ∀ q ∈ f.states, q.toNat < next.toNat)
    (h : sharedEntry f next = .ok e) :
    SharedEntry f e ∧ next.toNat ≤ e.next.toNat ∧ e.state.toNat < e.next.toNat := by
  rcases sharedEntry_eq_ok_iff.mp h with ⟨-, hstate, hfree, hlinks⟩ | ⟨hclean, rfl⟩
  · have hnew : e.state ∉ f.states :=
      not_mem_states_of_le hnext (by rw [hstate])
    refine ⟨⟨fun hmem => absurd hmem hnew, fun t => ?_⟩, by omega, by rw [hstate]; omega⟩
    rw [hlinks, List.mem_singleton, hstate]
    exact ⟨fun ht => ⟨hstate ▸ hnew, ht⟩, And.right⟩
  · have hold : f.initial ∈ f.states := f.initial_mem_states
    refine ⟨⟨fun _ => ⟨rfl, hclean⟩, fun t => ?_⟩, Nat.le_refl _, hnext _ hold⟩
    exact ⟨fun ht => absurd ht List.not_mem_nil, fun ht => absurd hold ht.1⟩

/-- The exit of an alternation, and where the free identifiers go on. -/
theorem sharedExit_spec (hnext : ∀ q ∈ f.states, q.toNat < next.toNat)
    (h : sharedExit f next = .ok e) :
    SharedExit f e ∧ next.toNat ≤ e.next.toNat ∧ e.state.toNat < e.next.toNat ∧
      (e.state ∉ f.states → next.toNat ≤ e.state.toNat) := by
  rcases sharedExit_eq_ok_iff.mp h with ⟨-, hstate, hfree, hlinks⟩ | ⟨hclean, rfl⟩
  · have hnew : e.state ∉ f.states :=
      not_mem_states_of_le hnext (by rw [hstate])
    refine ⟨⟨fun hmem => absurd hmem hnew, fun t => ?_⟩, by omega, by rw [hstate]; omega,
      fun _ => by rw [hstate]⟩
    rw [hlinks, List.mem_singleton, hstate]
    exact ⟨fun ht => ⟨hstate ▸ hnew, ht⟩, And.right⟩
  · have hold : f.exit ∈ f.states := f.exit_mem_states
    obtain ⟨hout, hne⟩ := not_or.mp hclean
    refine ⟨⟨fun _ => ⟨rfl, Bool.eq_false_iff.mpr hout, hne⟩, fun t => ?_⟩, Nat.le_refl _,
      hnext _ hold, fun hnew => absurd hold hnew⟩
    exact ⟨fun ht => absurd ht List.not_mem_nil, fun ht => absurd hold ht.1⟩

/-- The two shared ends are different states. -/
theorem sharedEnds_ne (hentry : SharedEntry f entry) (hexit : SharedExit f exit)
    (hlt : entry.state.toNat < entry.next.toNat)
    (hnew : exit.state ∉ f.states → entry.next.toNat ≤ exit.state.toNat) :
    entry.state ≠ exit.state := by
  intro heq
  by_cases hmem : exit.state ∈ f.states
  · obtain ⟨hstate, -, hne⟩ := hexit.clean hmem
    obtain ⟨hinit, -⟩ := hentry.clean (heq ▸ hmem)
    exact hne (by rw [← hstate, ← heq, hinit])
  · have := hnew hmem
    rw [heq] at hlt
    omega

/-! ## 2. The layout -/

/-- Both operands between the shared ends: the first (`false`) where it is, the second (`true`) as a
spliced copy. -/
def alternationLayout (f g : Fragment α) (entry exit base : StateId) : Layout Bool α where
  Host p := p = entry ∨ p = exit
  own := []
  part
    | false => f
    | true => g
  image
    | false => id
    | true => (g.splice base entry exit).image
  Enters _ p := p = entry
  Leaves _ q := q = exit

/-- The automaton that an alternation builds. -/
def alternation (f g : Fragment α) (entry exit : SharedEnd α) : Nfa α :=
  .between entry.state exit.state (f.transitions ++ entry.links ++ exit.links ++
    (g.splice exit.next entry.state exit.state).transitions) f.epsilon

variable [Ord α]

theorem alternation_spliced (heps : f.IsEpsilon g.epsilon)
    (hfit : exit.next.Fits (g.splice exit.next entry.state exit.state).unfused.length)
    (hentry : entry.state.toNat < exit.next.toNat) (hexit : exit.state.toNat < exit.next.toNat) :
    (alternationLayout f g entry.state exit.state exit.next).Spliced
      (alternation f g entry exit) true exit.next entry.state exit.state where
  image_eq := rfl
  fits := hfit
  silent := heps
  host_source := Or.inl rfl
  host_target := Or.inr rfl
  enters_iff := fun _ => Iff.rfl
  leaves_iff := fun _ => Iff.rfl
  below := by
    rintro p (rfl | rfl)
    · exact hentry
    · exact hexit
  mem := fun _ ht => List.mem_append_right _ ht

variable [Std.TransOrd α]

/-- The shared entry leads into the first operand without reading anything. -/
theorem SharedEntry.enter (hentry : SharedEntry f entry) :
    (alternation f g entry exit).Path entry.state [] f.initial := by
  by_cases hmem : entry.state ∈ f.states
  · rw [(hentry.clean hmem).1]
    exact .refl f.initial
  · have hlink := (hentry.mem_links_iff _).mpr ⟨hmem, rfl⟩
    exact Path.silent (n := alternation f g entry exit)
      (List.mem_append_left _ (List.mem_append_left _ (List.mem_append_right _ hlink)))
      (Same.refl f.epsilon) (.refl f.initial)

/-- The first operand leads to the shared exit without reading anything. -/
theorem SharedExit.leave (hexit : SharedExit f exit) :
    (alternation f g entry exit).Path f.exit [] exit.state := by
  by_cases hmem : exit.state ∈ f.states
  · rw [(hexit.clean hmem).1]
    exact .refl f.exit
  · have hlink := (hexit.mem_links_iff _).mpr ⟨hmem, rfl⟩
    exact Path.silent (n := alternation f g entry exit)
      (List.mem_append_left _ (List.mem_append_right _ hlink))
      (Same.refl f.epsilon) (.refl exit.state)

/-- The silent transition into the first operand ends outside of the host. -/
theorem SharedEntry.origin (hentry : SharedEntry f entry) (hexit : SharedExit f exit)
    (ht : t ∈ entry.links) : (alternationLayout f g entry.state exit.state next).Origin
      (alternation f g entry exit) t := by
  obtain ⟨hnew, rfl⟩ := (hentry.mem_links_iff t).mp ht
  refine .entry false (Same.refl f.epsilon) rfl rfl ?_
  rintro (heq | heq)
  · exact hnew (heq ▸ f.initial_mem_states)
  · obtain ⟨hout, -, hne⟩ := hexit.clean (heq ▸ f.initial_mem_states)
    exact hne (hout.symm.trans heq.symm)

/-- The silent transition out of the first operand starts outside of the host, unless the operand
ends where it starts. -/
theorem SharedExit.origin (hentry : SharedEntry f entry) (hexit : SharedExit f exit)
    (ht : t ∈ exit.links) : (alternationLayout f g entry.state exit.state next).Origin
      (alternation f g entry exit) t := by
  obtain ⟨hnew, rfl⟩ := (hexit.mem_links_iff t).mp ht
  refine .exit false (Same.refl f.epsilon) rfl rfl ?_
  rintro (heq | heq)
  · have hstate : f.exit = entry.state := heq
    obtain ⟨hinit, -⟩ := hentry.clean (hstate ▸ f.exit_mem_states)
    exact ⟨hstate, hstate.trans hinit⟩
  · have hstate : f.exit = exit.state := heq
    exact absurd (hstate ▸ f.exit_mem_states) hnew

/-- **An alternation has its layout.** -/
theorem alternation_describes (heps : f.IsEpsilon g.epsilon)
    (hentry : SharedEntry f entry) (hexit : SharedExit f exit)
    (hbase : ∀ q ∈ f.states, q.toNat < exit.next.toNat)
    (hspliced : (alternationLayout f g entry.state exit.state exit.next).Spliced
      (alternation f g entry exit) true exit.next entry.state exit.state) :
    (alternationLayout f g entry.state exit.state exit.next).Describes
      (alternation f g entry exit) where
  isEpsilon_iff
    | false => fun _ => Iff.rfl
    | true => fun _ => isEpsilon_congr heps
  enters_host := fun h => Or.inl h
  leaves_host := fun h => Or.inr h
  apart := by
    intro i j p q hp hq hinner heq
    cases i <;> cases j
    · exact ⟨rfl, heq⟩
    · -- a state of the first operand lies below the copy of the second
      have hrange := hspliced.image_mem_range hq (heq ▸ hinner)
      have hlt := hbase p hp
      rw [← heq] at hrange
      exact absurd hlt (Nat.not_lt.mpr hrange.1)
    · have hrange := hspliced.image_mem_range hp hinner
      have hlt := hbase q hq
      rw [heq] at hrange
      exact absurd hlt (Nat.not_lt.mpr hrange.1)
    · exact ⟨rfl, hspliced.image_inj hp hq hinner heq⟩
  fused := by
    intro i p hp hhost
    cases i
    · rcases hhost with rfl | rfl
      · obtain ⟨hinit, hin⟩ := hentry.clean hp
        exact Or.inl ⟨hinit, hinit ▸ hin, rfl⟩
      · obtain ⟨hout, hclean, -⟩ := hexit.clean hp
        exact Or.inr ⟨hout, hout ▸ hclean, rfl⟩
    · exact hspliced.fused hp hhost
  origin := by
    intro t ht
    simp only [alternation, between, List.mem_append] at ht
    rcases ht with ((ht | ht) | ht) | ht
    · exact .copy (L := alternationLayout f g entry.state exit.state exit.next) false ht
    · exact hentry.origin hexit ht
    · exact hexit.origin hentry ht
    · exact hspliced.origin ht
  own_mem := fun _ ht => absurd ht List.not_mem_nil
  copy_mem
    | false => fun _ ht =>
      List.mem_append_left _ (List.mem_append_left _ (List.mem_append_left _ ht))
    | true => fun _ ht => hspliced.copy_mem ht
  enter := by
    intro i p hp
    cases i
    · obtain rfl : p = entry.state := hp
      exact hentry.enter
    · exact hspliced.enter hp
  leave := by
    intro i q hq
    cases i
    · obtain rfl : q = exit.state := hq
      exact hexit.leave
    · exact hspliced.leave hq

/-- The shared ends that an alternation allocates, and a copy above them, make up its layout. -/
theorem alternation_laid_out (heps : f.IsEpsilon g.epsilon) (hnext : f.nextAvailable = .ok next)
    (hentry : sharedEntry f next = .ok entry) (hexit : sharedExit f entry.next = .ok exit)
    (hfit : exit.next.Fits (g.splice exit.next entry.state exit.state).unfused.length) :
    entry.state ≠ exit.state ∧ (alternationLayout f g entry.state exit.state exit.next).Describes
      (alternation f g entry exit) := by
  have habove : ∀ q ∈ f.states, q.toNat < next.toNat := fun q hq =>
    StateGraph.lt_of_nextAvailable hnext hq
  obtain ⟨hent, hle, hlt⟩ := sharedEntry_spec habove hentry
  have habove' : ∀ q ∈ f.states, q.toNat < entry.next.toNat := fun q hq =>
    Nat.lt_of_lt_of_le (habove q hq) hle
  obtain ⟨hext, hle', hlt', hnew⟩ := sharedExit_spec habove' hexit
  have hspliced := alternation_spliced heps hfit (Nat.lt_of_lt_of_le hlt hle') hlt'
  have hbase : ∀ q ∈ f.states, q.toNat < exit.next.toNat := fun q hq =>
    Nat.lt_of_lt_of_le (habove' q hq) hle'
  exact ⟨sharedEnds_ne hent hext hlt hnew, alternation_describes heps hent hext hbase hspliced⟩

/-- What an alternation that succeeds has built. -/
theorem exists_alternation (h : n.alternate m = .ok r) :
    ∃ (f g : Fragment α) (entry exit : SharedEnd α), f.toNfa = n ∧ g.toNfa = m ∧
      alternation f g entry exit = r ∧ entry.state ≠ exit.state ∧
      (alternationLayout f g entry.state exit.state exit.next).Describes r := by
  obtain ⟨f, g, next, entry, exit, rfl, rfl, heps, hnext, hentry, hexit, hfit, rfl⟩ :=
    alternate_eq_ok_iff.mp h
  obtain ⟨hne, hlayout⟩ := alternation_laid_out heps hnext hentry hexit hfit
  exact ⟨f, g, entry, exit, rfl, rfl, rfl, hne, hlayout⟩

/-! ## 3. The language -/

omit [Std.TransOrd α] in
/-- Every leg of the layout goes from the entry to the exit through one of the operands. -/
theorem alternation_leg_iff {p : StateId} :
    (alternationLayout f g entry.state exit.state exit.next).Leg r p w q ↔
      p = entry.state ∧ q = exit.state ∧ (f.Accepts w ∨ g.Accepts w) := by
  simp only [Fragment.accepts_iff_path]
  constructor
  · intro h
    cases h with
    | own mem => exact absurd mem List.not_mem_nil
    | copy i enters way leaves =>
      refine ⟨enters, leaves, ?_⟩
      cases i
      · exact Or.inl way
      · exact Or.inr way
  · rintro ⟨hp, hq, hway | hway⟩
    · exact .copy false hp hway hq
    · exact .copy true hp hway hq

/-- **The words of an alternation are the words of either operand.** -/
theorem alternate_accepts_iff (h : n.alternate m = .ok r) :
    r.Accepts w ↔ n.Accepts w ∨ m.Accepts w := by
  obtain ⟨f, g, entry, exit, rfl, rfl, rfl, hne, hlayout⟩ := exists_alternation h
  rw [alternation, accepts_between_iff, ← alternation,
    hlayout.path_iff_route (Or.inl rfl) (Or.inr rfl)]
  constructor
  · intro hroute
    rcases hroute.cases_first with ⟨heq, -⟩ | ⟨u, p, v, first, rest, rfl⟩
    · exact absurd heq hne
    · obtain ⟨-, rfl, hw⟩ := alternation_leg_iff.mp first
      obtain ⟨-, rfl⟩ := rest.of_no_leg fun u p hleg => hne (alternation_leg_iff.mp hleg).1.symm
      rwa [List.append_nil]
  · exact fun hw => .single (alternation_leg_iff.mpr ⟨rfl, rfl, hw⟩)

/-- Nothing enters the initial state of an alternation, and nothing leaves its exit. -/
theorem alternate_clean (h : n.alternate m = .ok r) :
    ∃ exit, r.accepting = [exit] ∧ exit ≠ r.initial ∧
      (∀ t ∈ r.transitions, t.target ≠ r.initial) ∧ ∀ t ∈ r.transitions, t.source ≠ exit := by
  obtain ⟨f, g, entry, exit, rfl, rfl, rfl, hne, hlayout⟩ := exists_alternation h
  have hown : ∀ t ∈ (alternationLayout f g entry.state exit.state exit.next).own, False :=
    fun t ht => absurd ht List.not_mem_nil
  refine ⟨exit.state, rfl, hne.symm, fun t ht => ?_, fun t ht => ?_⟩
  · exact hlayout.target_ne ht (Or.inl rfl) (fun t ht => (hown t ht).elim) fun _ => hne
  · exact hlayout.source_ne ht (Or.inr rfl) (fun t ht => (hown t ht).elim) fun _ => hne.symm

/-- **Alternation is union, and its result is clean.**  The simulation of the result accepts what
that of either operand accepts, whatever transitions the operands have at their ends.  The result
has one accepting state, which is not the initial one; no transition enters its initial state and
none leaves its accepting state. -/
theorem alternate_union_clean (h : n.alternate m = .ok r) :
    (∀ w, n.Readable w → (r.accepts w = true ↔ n.accepts w = true ∨ m.accepts w = true)) ∧
    ∃ exit, r.accepting = [exit] ∧ exit ≠ r.initial ∧
      (∀ t ∈ r.transitions, t.target ≠ r.initial) ∧ ∀ t ∈ r.transitions, t.source ≠ exit := by
  refine ⟨fun w hw => ?_, alternate_clean h⟩
  obtain ⟨hm, hr⟩ := alternate_epsilon h
  rw [accepts_iff ((readable_of_epsilon_eq hr).mpr hw), accepts_iff hw,
    accepts_iff ((readable_congr hm).mpr hw)]
  exact alternate_accepts_iff h

/-- A state with a loop that is initial and accepting. -/
def loop (symbol epsilon : α) : Nfa α := between 0 0 [⟨0, symbol, 0⟩] epsilon

/-- Any number of `x`, or one `y`. -/
def loopOrLiteral : Nfa Char :=
  between 1 2 [⟨0, 'x', 0⟩, ⟨1, 'ε', 0⟩, ⟨0, 'ε', 2⟩, ⟨1, 'y', 2⟩] 'ε'

theorem alternate_union_clean_loop :
    (loop 'x' 'ε').alternate (literal 'y' 'ε') = .ok loopOrLiteral ∧
    (∀ w, (loop 'x' 'ε').Readable w → (loopOrLiteral.accepts w = true ↔
      (loop 'x' 'ε').accepts w = true ∨ (literal 'y' 'ε').accepts w = true)) ∧
    ∃ exit, loopOrLiteral.accepting = [exit] ∧ exit ≠ loopOrLiteral.initial ∧
      (∀ t ∈ loopOrLiteral.transitions, t.target ≠ loopOrLiteral.initial) ∧
      ∀ t ∈ loopOrLiteral.transitions, t.source ≠ exit := by
  have h : (loop 'x' 'ε').alternate (literal 'y' 'ε') = .ok loopOrLiteral := by decide +kernel
  exact ⟨h, alternate_union_clean h⟩

end Nfa

end Recognizer
