/-
# Regrouping concatenations and alternations

Both binary operators put a copy of the second operand behind the first, and three operands can be
grouped in two ways.  Grouped to the right, the second and the third operand are put together first,
and their result is copied; grouped to the left, they are copied one after the other.  Two things
have to agree.  The ends that are joined have to be fused or linked in the same places, although the
decision is made on different automata, and the copies have to take the same identifiers, although
one of them is the copy of a copy.

The decisions agree where putting the third operand behind the second leaves the ends of the second
as they are.  The identifiers agree where the result of the last two operands has all states of the
second (`Graft.Nested`), and the result of the first two ends with the identifier that the third
goes on from.

* `concat_nested`, `alternate_nested`: the copy of a result is made in two steps;
* `nextAvailable_concatenation`, `nextAvailable_alternation`: where the third operand goes on;
* `concat_assoc`, `alternate_assoc`: the two groupings give the same automaton.
-/
import Recognizer.Proofs.Nesting
import Recognizer.Proofs.Shape

namespace Recognizer

/-- The next free identifier is known from a bound on the states that the last one reaches. -/
theorem StateGraph.nextAvailable_eq_ok {α : Type} {g : StateGraph α} {next q : StateId}
    (hlt : ∀ q ∈ g.states, q.toNat < next.toNat) (hq : q ∈ g.states)
    (hlast : q.toNat + 1 = next.toNat) : g.nextAvailable = .ok next := by
  have htop := hlt g.top (top_mem_states g)
  have hle := UInt32.le_iff_toNat_le.mp (le_top hq)
  exact nextAvailable_eq_ok_iff.mpr (by omega)

/-! ## 1. Clean fragments -/

namespace Fragment

variable {α : Type} {f : Fragment α} {base source target : StateId}

/-- `f.Clean`: nothing comes back to the initial state and nothing goes on from the exit, which is
another state. -/
structure Clean (f : Fragment α) : Prop where
  entry : f.hasIncoming f.initial = false
  exit : f.hasOutgoing f.exit = false
  exit_ne : f.exit ≠ f.initial

theorem clean_iff : f.Clean ↔ f.exit ≠ f.initial ∧
    (∀ t ∈ f.transitions, t.target ≠ f.initial) ∧ ∀ t ∈ f.transitions, t.source ≠ f.exit := by
  constructor
  · intro h
    exact ⟨h.exit_ne, fun _ => StateGraph.target_ne_of_clean h.entry,
      fun _ => StateGraph.source_ne_of_clean h.exit⟩
  · rintro ⟨hne, hin, hout⟩
    refine ⟨Bool.eq_false_iff.mpr fun h => ?_, Bool.eq_false_iff.mpr fun h => ?_, hne⟩
    · obtain ⟨t, ht, heq⟩ := StateGraph.hasIncoming_iff.mp h
      exact hin t ht heq
    · obtain ⟨t, ht, heq⟩ := StateGraph.hasOutgoing_iff.mp h
      exact hout t ht heq

namespace Clean

theorem not_linked (h : f.Clean) : ¬ (f.hasOutgoing f.exit = true ∨ f.exit = f.initial) :=
  not_or.mpr ⟨Bool.eq_false_iff.mp h.exit, h.exit_ne⟩

theorem entry_splice (h : f.Clean) : (f.splice base source target).entry = .fuse source :=
  if_neg (Bool.eq_false_iff.mp h.entry)

theorem exitJoint_splice (h : f.Clean) :
    (f.splice base source target).exitJoint = some (.fuse target) := by
  rw [Fragment.exitJoint_splice, if_neg h.not_linked]

/-- Both ends of a clean fragment are fused. -/
theorem fusions_splice (h : f.Clean) :
    (f.splice base source target).fusions = [(f.initial, source), (f.exit, target)] := by
  rw [Graft.fusions, h.entry_splice, h.exitJoint_splice]
  rfl

theorem exitLink_splice (h : f.Clean) : (f.splice base source target).exitLink = [] := by
  rw [Graft.exitLink, Graft.linkOut, h.exitJoint_splice]

end Clean

end Fragment

namespace Nfa

variable {α : Type} {a b c ab bc r : Nfa α} {f g h : Fragment α} {entry exit : SharedEnd α}
  {base base' next p q : StateId} {w : List α}

/-! ## 2. The states of a concatenation -/

/-- The transitions of a fragment mention its exit. -/
def MentionsExit (g : Fragment α) : Prop :=
  ∃ t ∈ g.transitions, t.source = g.exit ∨ t.target = g.exit

/-- A state that the copy has for itself is a state of the concatenation. -/
theorem image_mem_concatFragment (hq : q ∈ (concatGraft f g base).unfused) :
    (concatGraft f g base).image q ∈ (concatFragment f g base).states := by
  obtain ⟨hmem, hlookup⟩ := Graft.mem_unfused_iff.mp hq
  have hmem : q ∈ g.states := hmem
  rcases StateGraph.mem_states.mp hmem with rfl | hacc | ⟨t, ht, hend⟩
  · have hlinked : ¬ SeamClean f g := by
      intro hclean
      rw [lookup_concatGraft, if_pos ⟨rfl, hclean⟩] at hlookup
      exact absurd hlookup (by simp)
    have hlink : ⟨f.exit, g.epsilon, (concatGraft f g base).image g.initial⟩ ∈
        (concatFragment f g base).transitions :=
      mem_concatenation_transitions_iff.mpr (Or.inr (Or.inl ⟨hlinked, rfl⟩))
    exact StateGraph.target_mem_states hlink
  · rw [g.accepting_eq] at hacc
    rw [List.mem_singleton.mp hacc]
    exact (concatFragment f g base).exit_mem_states
  · have hcopy : t.rename (concatGraft f g base).image ∈ (concatFragment f g base).transitions :=
      mem_concatenation_transitions_iff.mpr (Or.inr (Or.inr ⟨t, ht, rfl⟩))
    rcases hend with rfl | rfl
    · exact StateGraph.source_mem_states hcopy
    · exact StateGraph.target_mem_states hcopy

/-- **The states of a concatenation** are those of the first operand and those that the copy of the
second has for itself, provided that transitions of the first operand mention its exit. -/
theorem mem_states_concatFragment_iff (hends : MentionsExit f) :
    q ∈ (concatFragment f g base).states ↔
      q ∈ f.states ∨ ∃ p ∈ (concatGraft f g base).unfused, (concatGraft f g base).image p = q := by
  constructor
  · intro hq
    rcases mem_states_concatFragment hq with hmem | ⟨p, hp, rfl⟩
    · exact Or.inl hmem
    · rcases concatGraft_image_cases hp with ⟨-, -, hexit⟩ | hnew
      · exact Or.inl (hexit ▸ f.exit_mem_states)
      · exact Or.inr ⟨p, hnew, rfl⟩
  · have hfirst : ∀ t ∈ f.transitions, t ∈ (concatFragment f g base).transitions :=
      fun t ht => mem_concatenation_transitions_iff.mpr (Or.inl ht)
    rintro (hmem | ⟨p, hp, rfl⟩)
    · rcases StateGraph.mem_states.mp hmem with rfl | hacc | ⟨t, ht, hend⟩
      · exact (concatFragment f g base).initial_mem_states
      · obtain ⟨t, ht, hend⟩ := hends
        obtain rfl : q = f.exit := by
          rw [f.accepting_eq] at hacc
          exact List.mem_singleton.mp hacc
        refine StateGraph.mem_states.mpr (Or.inr (Or.inr ⟨t, hfirst t ht, ?_⟩))
        exact hend.imp Eq.symm Eq.symm
      · exact StateGraph.mem_states.mpr (Or.inr (Or.inr ⟨t, hfirst t ht, hend⟩))
    · exact image_mem_concatFragment hp

/-! ## 3. The seams of three operands -/

/-- A third operand behind the second lets nothing new enter where the second starts. -/
theorem seamClean_concatFragment_right (hbehind : Behind g h base') (hne : g.initial ≠ g.exit) :
    SeamClean f (concatFragment g h base') ↔ SeamClean f g := by
  have hin : (concatFragment g h base').hasIncoming (concatFragment g h base').initial =
      g.hasIncoming g.initial := by
    rw [Bool.eq_iff_iff, StateGraph.hasIncoming_iff, StateGraph.hasIncoming_iff]
    constructor
    · rintro ⟨t, ht, htarget⟩
      have htarget : t.target = g.initial := htarget
      have hold : t.target ∈ g.states := htarget ▸ g.initial_mem_states
      rcases mem_concatenation_transitions_iff.mp ht with ht | ⟨hlinked, rfl⟩ | ⟨u, hu, rfl⟩
      · exact ⟨t, ht, htarget⟩
      · exact absurd (hbehind.shared h.initial_mem_states hold).2.1 hlinked
      · have hexit := (hbehind.shared (StateGraph.target_mem_states hu) hold).2.2
        exact absurd (htarget.symm.trans hexit) hne
    · rintro ⟨t, ht, htarget⟩
      exact ⟨t, mem_concatenation_transitions_iff.mpr (Or.inl ht), htarget⟩
  rw [SeamClean, hin, SeamClean]

/-- Nothing new leaves the exit of the second operand when it is put behind the first. -/
theorem seamClean_concatFragment_left (hbehind : Behind f g base) (hne : g.initial ≠ g.exit) :
    SeamClean (concatFragment f g base) h ↔ SeamClean g h := by
  have hnew := hbehind.image_not_mem g.exit_mem_states hne.symm
  have hout : (concatFragment f g base).hasOutgoing (concatFragment f g base).exit =
      g.hasOutgoing g.exit := by
    rw [Bool.eq_iff_iff, StateGraph.hasOutgoing_iff, StateGraph.hasOutgoing_iff]
    constructor
    · rintro ⟨t, ht, hsource⟩
      have hsource : t.source = (concatGraft f g base).image g.exit := hsource
      rcases mem_concatenation_transitions_iff.mp ht with ht | ⟨-, rfl⟩ | ⟨u, hu, rfl⟩
      · exact absurd (hsource ▸ StateGraph.source_mem_states ht) hnew
      · exact absurd (hsource ▸ f.exit_mem_states) hnew
      · refine ⟨u, hu, (hbehind.image_inj g.exit_mem_states (StateGraph.source_mem_states hu) hnew
          hsource.symm).symm⟩
    · rintro ⟨u, hu, hsource⟩
      exact ⟨_, mem_concatenation_transitions_iff.mpr (Or.inr (Or.inr ⟨u, hu, rfl⟩)),
        congrArg (concatGraft f g base).image hsource⟩
  rw [SeamClean, hout, SeamClean]

/-! ## 4. Concatenation -/

/-- **The copy of a concatenation** is a copy of its first operand with one of its second behind
it. -/
theorem concat_nested (hbehind : Behind g h base') (hne : g.initial ≠ g.exit)
    (hends : MentionsExit g) : (concatGraft f (concatFragment g h base') base).Nested
      (concatGraft f g base) (concatGraft g h base') := by
  have hseam : seam f (concatFragment g h base').toNfa = seam f g.toNfa := by
    simp only [seam_eq, seamClean_concatFragment_right hbehind hne]
  have hmem : ∀ q, q ∈ (concatFragment g h base').states ↔ _ :=
    fun _ => mem_states_concatFragment_iff hends
  have hhost : (concatGraft g h base').entry.host = g.exit := by
    rw [concatGraft, seam_eq]
    split <;> rfl
  have hfused : ∀ e ∈ (concatGraft f g base).fusions, e.1 = g.initial := by
    intro e he
    rw [concatGraft, Graft.fusions, seam_eq, Graft.exitJoint, List.append_nil] at he
    split at he
    · exact List.mem_singleton.mp he ▸ rfl
    · exact absurd he List.not_mem_nil
  exact {
    base_eq := rfl
    entry_eq := hseam
    fusions_eq := by simp only [Graft.fusions, Graft.exitJoint, concatGraft, hseam]; rfl
    initial_eq := rfl
    epsilon_eq := rfl
    transitions_eq := rfl
    members_eq := Graft.members_eq_append hbehind.fits hbehind.above hmem
    fused_mem := fun e he => hfused e he ▸ g.initial_mem_states
    entry_host_mem := hhost ▸ g.exit_mem_states
    exit_host_mem := fun joint hjoint => absurd hjoint (by simp [Graft.exitJoint, concatGraft]) }

/-- The third operand joins the exit of the first two as it joins that of the second. -/
theorem along_concatGraft (hbehind : Behind f g base) (hne : g.initial ≠ g.exit) :
    (concatGraft g h base').along (concatGraft f g base) =
      concatGraft (concatFragment f g base) h (concatGraft f g base).next := by
  have hseam : (seam g h.toNfa).map (concatGraft f g base).image =
      seam (concatFragment f g base) h.toNfa := by
    simp only [seam_eq, seamClean_concatFragment_left hbehind hne]
    split <;> rfl
  exact congrArg (fun entry => (⟨h, (concatGraft f g base).next, entry, none⟩ : Graft α)) hseam

/-- **Where the third operand goes on**: right above the copy of the second. -/
theorem nextAvailable_concatenation (hbehind : Behind f g base) (hne : g.initial ≠ g.exit) :
    (concatFragment f g base).nextAvailable = .ok (concatGraft f g base).next := by
  have hexit : g.exit ∈ (concatGraft f g base).unfused :=
    (concatGraft_image_cases g.exit_mem_states).resolve_left fun hfused => hne hfused.1.symm
  have hnext : (concatGraft f g base).next.toNat = base.toNat + _ := Graft.toNat_next hbehind.fits
  obtain ⟨p, hp, hlast⟩ := Graft.exists_last hbehind.fits (List.ne_nil_of_mem hexit)
  refine StateGraph.nextAvailable_eq_ok (fun q hq => ?_) (image_mem_concatFragment hp) hlast
  rcases mem_states_concatFragment hq with hmem | ⟨p, hp, rfl⟩
  · have hlt := hbehind.above q hmem
    omega
  · rcases concatGraft_image_cases hp with ⟨-, -, hfused⟩ | hnew
    · have hlt := hbehind.above _ f.exit_mem_states
      rw [hfused]
      omega
    · exact (Graft.image_mem_range hbehind.fits hnew).2

/-- Both groupings build the same automaton. -/
theorem concatenation_regroup
    (hnested : (concatGraft f (concatFragment g h base') base).Nested (concatGraft f g base)
      (concatGraft g h base'))
    (hbehind : Behind f g base) (hne : g.initial ≠ g.exit)
    (hfit : base.Fits (concatGraft f (concatFragment g h base') base).unfused.length) :
    concatenation (concatFragment f g base) h (concatGraft f g base).next =
      concatenation f (concatFragment g h base') base := by
  have haccepting := hnested.image_inner hfit h.exit_mem_states
  have htransitions := hnested.transitions_eq_append hfit rfl rfl
  rw [along_concatGraft hbehind hne] at haccepting htransitions
  rw [concatenation, concatenation, Graft.accepting, Graft.accepting, htransitions,
    ← List.append_assoc]
  exact congrArg (fun q => between f.initial q _ f.epsilon) haccepting.symm

section

variable [Ord α] [Std.TransOrd α]

/-- **Concatenation is associative.**  If three operands can be concatenated from the right, they
can be concatenated from the left, and the result is the same automaton: the same identifiers and
the same transitions in the same order.  The second operand has to end in another state than the one
it starts in, and its transitions have to mention that state. -/
theorem concat_assoc (hexit : b.accepting = [q]) (hne : b.initial ≠ q)
    (hends : ∃ t ∈ b.transitions, t.source = q ∨ t.target = q) (hbc : b.concat c = .ok bc)
    (hr : a.concat bc = .ok r) : ∃ ab, a.concat b = .ok ab ∧ ab.concat c = .ok r := by
  obtain ⟨g, h, base', rfl, rfl, hepsbc, hbase', hfit', rfl⟩ := concat_eq_ok_iff.mp hbc
  obtain ⟨f, k, base, rfl, hk, hepsab, hbase, hfit, rfl⟩ := concat_eq_ok_iff.mp hr
  obtain rfl : k = concatFragment g h base' := Fragment.toNfa_inj hk
  obtain rfl : g.exit = q := (List.cons.inj (g.accepting_eq.symm.trans hexit)).1
  have hbehind' : Behind g h base' := ⟨fun q => StateGraph.lt_of_nextAvailable hbase', hfit'⟩
  have hnested : (concatGraft f (concatFragment g h base') base).Nested (concatGraft f g base)
      (concatGraft g h base') := concat_nested hbehind' hne hends
  obtain ⟨hfitab, hfitr⟩ := hnested.fits hfit
  have hbehind : Behind f g base := ⟨fun q => StateGraph.lt_of_nextAvailable hbase, hfitab⟩
  rw [along_concatGraft hbehind hne] at hfitr
  have hepsac : f.IsEpsilon h.epsilon := (isEpsilon_congr hepsab).mp hepsbc
  have hnext := nextAvailable_concatenation hbehind hne
  have hregroup := concatenation_regroup hnested hbehind hne hfit
  refine ⟨concatenation f g base, ?_, ?_⟩
  · exact concat_eq_ok_iff.mpr ⟨f, g, base, rfl, rfl, hepsab, hbase, hfitab, rfl⟩
  · exact concat_eq_ok_iff.mpr
      ⟨concatFragment f g base, h, _, rfl, rfl, hepsac, hnext, hfitr, hregroup⟩

/-- There and back with identifiers that leave gaps, and with an exit below the initial state. -/
def backFromAbove : Nfa Char := between 7 3 [⟨7, 'c', 3⟩, ⟨3, 'd', 7⟩] 'ε'

/-- That, and `thereAndBack` behind it. -/
def backThenThere : Nfa Char :=
  between 7 9 [⟨7, 'c', 3⟩, ⟨3, 'd', 7⟩, ⟨3, 'ε', 8⟩, ⟨8, 'a', 9⟩, ⟨9, 'b', 8⟩] 'ε'

/-- That behind another `thereAndBack`. -/
def thereBackThere : Nfa Char :=
  between 0 5 [⟨0, 'a', 1⟩, ⟨1, 'b', 0⟩, ⟨1, 'ε', 3⟩, ⟨3, 'c', 2⟩, ⟨2, 'd', 3⟩, ⟨2, 'ε', 4⟩,
    ⟨4, 'a', 5⟩, ⟨5, 'b', 4⟩] 'ε'

theorem concat_assoc_there_and_back :
    (backFromAbove.accepting = [3] ∧ backFromAbove.initial ≠ 3 ∧
      (∃ t ∈ backFromAbove.transitions, t.source = 3 ∨ t.target = 3) ∧
      backFromAbove.concat thereAndBack = .ok backThenThere ∧
      thereAndBack.concat backThenThere = .ok thereBackThere) ∧
    ∃ ab, thereAndBack.concat backFromAbove = .ok ab ∧
      ab.concat thereAndBack = .ok thereBackThere := by
  have hne : backFromAbove.initial ≠ 3 := by decide
  have hends : ∃ t ∈ backFromAbove.transitions, t.source = 3 ∨ t.target = 3 := by decide
  have hbc : backFromAbove.concat thereAndBack = .ok backThenThere := by decide +kernel
  have hr : thereAndBack.concat backThenThere = .ok thereBackThere := by decide +kernel
  exact ⟨⟨rfl, hne, hends, hbc, hr⟩, concat_assoc rfl hne hends hbc hr⟩

end

/-! ## 5. The states of an alternation -/

/-- The ends of a clean fragment are shared as they are. -/
theorem sharedEntry_of_clean (hg : g.Clean) (next : StateId) :
    sharedEntry g next = .ok ⟨g.initial, [], next⟩ :=
  sharedEntry_eq_ok_iff.mpr (Or.inr ⟨hg.entry, rfl⟩)

theorem sharedExit_of_clean (hg : g.Clean) (next : StateId) :
    sharedExit g next = .ok ⟨g.exit, [], next⟩ :=
  sharedExit_eq_ok_iff.mpr (Or.inr ⟨hg.not_linked, rfl⟩)

/-- The alternation that a clean first operand has. -/
def cleanAlternation (g h : Fragment α) (next : StateId) : Fragment α :=
  alternateFragment g h ⟨g.initial, [], next⟩ ⟨g.exit, [], next⟩

section

variable [Ord α]

/-- What an alternation does whose first operand is clean. -/
theorem alternate_eq_ok_iff_of_clean (hg : g.Clean) : g.alternate c = .ok r ↔
    ∃ (h : Fragment α) (next : StateId), h.toNfa = c ∧ g.IsEpsilon h.epsilon ∧
      g.nextAvailable = .ok next ∧ next.Fits (h.splice next g.initial g.exit).unfused.length ∧
      (cleanAlternation g h next).toNfa = r := by
  rw [alternate_eq_ok_iff]
  constructor
  · rintro ⟨g', h, next, entry, exit, hg', rfl, heps, hnext, hentry, hexit, hfit, rfl⟩
    obtain rfl := Fragment.toNfa_inj hg'
    obtain rfl := Except.ok.inj ((sharedEntry_of_clean hg next).symm.trans hentry)
    obtain rfl := Except.ok.inj ((sharedExit_of_clean hg next).symm.trans hexit)
    exact ⟨h, next, rfl, heps, hnext, hfit, rfl⟩
  · rintro ⟨h, next, rfl, heps, hnext, hfit, rfl⟩
    exact ⟨g, h, next, _, _, rfl, rfl, heps, hnext, sharedEntry_of_clean hg next,
      sharedExit_of_clean hg next, hfit, rfl⟩

/-- **The states of an alternation** are those that its layout covers. -/
theorem mem_states_alternateFragment_iff
    (hlayout : (alternationLayout f g entry.state exit.state exit.next).Describes
      (alternation f g entry exit)) : q ∈ (alternateFragment f g entry exit).states ↔
      (alternationLayout f g entry.state exit.state exit.next).Covers q := by
  constructor
  · intro hq
    rcases StateGraph.mem_states.mp hq with rfl | hacc | ⟨t, ht, hend⟩
    · exact Or.inl (Or.inl rfl)
    · exact Or.inl (Or.inr (List.mem_singleton.mp hacc))
    · exact hlayout.covers_end ht hend
  · refine hlayout.mem_states_of_covers ?_ (fun _ => ⟨_, rfl⟩) fun _ => ⟨_, rfl⟩
    rintro p (rfl | rfl)
    · exact (alternateFragment f g entry exit).initial_mem_states
    · exact (alternateFragment f g entry exit).exit_mem_states

omit [Ord α] in
/-- The last identifier below the copy belongs to the first operand or to a shared end. -/
theorem exists_below_alternation (hnext : f.nextAvailable = .ok next)
    (hentry : sharedEntry f next = .ok entry) (hexit : sharedExit f entry.next = .ok exit) :
    ∃ q, (alternationLayout f g entry.state exit.state exit.next).Covers q ∧
      q.toNat + 1 = exit.next.toNat := by
  rcases sharedExit_eq_ok_iff.mp hexit with ⟨-, hstate, hfree, -⟩ | ⟨-, rfl⟩
  · exact ⟨exit.state, Or.inl (Or.inr rfl), by rw [hstate, hfree]⟩
  · rcases sharedEntry_eq_ok_iff.mp hentry with ⟨-, hstate, hfree, -⟩ | ⟨-, rfl⟩
    · exact ⟨entry.state, Or.inl (Or.inl rfl), by rw [hstate]; exact hfree.symm⟩
    · have htop := StateGraph.nextAvailable_eq_ok_iff.mp hnext
      exact ⟨f.top, Or.inr ⟨false, f.top, StateGraph.top_mem_states _, rfl⟩, htop.symm⟩

omit [Ord α] in
/-- The last identifier of an alternation is in the copy, if the copy has states for itself. -/
theorem exists_last_alternation (hnext : f.nextAvailable = .ok next)
    (hentry : sharedEntry f next = .ok entry) (hexit : sharedExit f entry.next = .ok exit)
    (hfit : exit.next.Fits (g.splice exit.next entry.state exit.state).unfused.length) :
    ∃ q, (alternationLayout f g entry.state exit.state exit.next).Covers q ∧
      q.toNat + 1 = (g.splice exit.next entry.state exit.state).next.toNat := by
  by_cases hnone : (g.splice exit.next entry.state exit.state).unfused = []
  · have hnext' : (g.splice exit.next entry.state exit.state).next.toNat = exit.next.toNat + _ :=
      Graft.toNat_next hfit
    rw [hnext', hnone]
    exact exists_below_alternation hnext hentry hexit
  · obtain ⟨p, hp, hlast⟩ := Graft.exists_last hfit hnone
    exact ⟨_, Or.inr ⟨true, p, (Graft.mem_unfused_iff.mp hp).1, rfl⟩, hlast⟩

/-- **Where the third operand goes on**: right above the copy of the second. -/
theorem nextAvailable_alternation (hnext : f.nextAvailable = .ok next)
    (hentry : sharedEntry f next = .ok entry) (hexit : sharedExit f entry.next = .ok exit)
    (hfit : exit.next.Fits (g.splice exit.next entry.state exit.state).unfused.length)
    (hlayout : (alternationLayout f g entry.state exit.state exit.next).Describes
      (alternation f g entry exit)) : (alternateFragment f g entry exit).nextAvailable =
      .ok (g.splice exit.next entry.state exit.state).next := by
  have habove : ∀ q ∈ f.states, q.toNat < next.toNat :=
    fun q => StateGraph.lt_of_nextAvailable hnext
  obtain ⟨-, hle, hlt⟩ := sharedEntry_spec habove hentry
  have habove' : ∀ q ∈ f.states, q.toNat < entry.next.toNat :=
    fun q hq => Nat.lt_of_lt_of_le (habove q hq) hle
  obtain ⟨-, hle', hlt', -⟩ := sharedExit_spec habove' hexit
  have hentrylt : entry.state.toNat < exit.next.toNat := Nat.lt_of_lt_of_le hlt hle'
  have hcopy : ∀ q : StateId,
      q.toNat < (g.splice exit.next entry.state exit.state).next.toNat ↔ _ :=
    fun _ => Fragment.lt_next_splice_iff hfit hentrylt hlt'
  obtain ⟨q, hq, hlast⟩ := exists_last_alternation hnext hentry hexit hfit
  refine StateGraph.nextAvailable_eq_ok (fun q hq => ?_)
    ((mem_states_alternateFragment_iff hlayout).mpr hq) hlast
  rw [hcopy]
  rcases (mem_states_alternateFragment_iff hlayout).mp hq with (rfl | rfl) | ⟨i, p, hp, rfl⟩
  · exact Or.inl hentrylt
  · exact Or.inl hlt'
  · cases i with
    | false => exact Or.inl (Nat.lt_of_lt_of_le (habove' p hp) hle')
    | true => exact Or.inr ⟨p, hp, rfl⟩

/-- The states of an alternation whose first operand is clean: those of the first operand and those
that the copy of the second has for itself. -/
theorem mem_states_cleanAlternation_iff
    (hlayout : (alternationLayout g h g.initial g.exit next).Describes
      (cleanAlternation g h next).toNfa) : q ∈ (cleanAlternation g h next).states ↔
      q ∈ g.states ∨ ∃ p ∈ (h.splice next g.initial g.exit).unfused,
        (h.splice next g.initial g.exit).image p = q := by
  refine (mem_states_alternateFragment_iff hlayout).trans ?_
  constructor
  · rintro ((rfl | rfl) | ⟨i, p, hp, rfl⟩)
    · exact Or.inl g.initial_mem_states
    · exact Or.inl g.exit_mem_states
    · cases i with
      | false => exact Or.inl hp
      | true =>
        rcases Graft.fused_or_mem_unfused (g := h.splice next g.initial g.exit) hp with
          ⟨e, he, himage⟩ | hnew
        · have himage : (alternationLayout g h g.initial g.exit next).image true p = e.2 := himage
          rw [himage]
          rcases Fragment.mem_fusions_splice he with heq | heq
          · exact Or.inl (heq ▸ g.initial_mem_states)
          · exact Or.inl (heq ▸ g.exit_mem_states)
        · exact Or.inr ⟨p, hnew, rfl⟩
  · rintro (hq | ⟨p, hp, rfl⟩)
    · exact Or.inr ⟨false, q, hq, rfl⟩
    · exact Or.inr ⟨true, p, (Graft.mem_unfused_iff.mp hp).1, rfl⟩

/-! ## 6. Alternation -/

/-- **The copy of an alternation** whose first operand is clean is a copy of this operand with one
of the second between the same ends. -/
theorem alternate_nested {base source target : StateId} (hg : g.Clean)
    (hk : (cleanAlternation g h next).Clean) (hbelow : ∀ q ∈ g.states, q.toNat < next.toNat)
    (hfit : next.Fits (h.splice next g.initial g.exit).unfused.length)
    (hlayout : (alternationLayout g h g.initial g.exit next).Describes
      (cleanAlternation g h next).toNfa) :
    ((cleanAlternation g h next).splice base source target).Nested (g.splice base source target)
      (h.splice next g.initial g.exit) where
  base_eq := rfl
  entry_eq := hk.entry_splice.trans hg.entry_splice.symm
  fusions_eq := by
    rw [hk.fusions_splice, hg.fusions_splice]
    rfl
  initial_eq := rfl
  epsilon_eq := rfl
  transitions_eq := by
    have hlinks : (cleanAlternation g h next).transitions = g.transitions ++ [] ++ [] ++ _ := rfl
    rw [List.append_nil, List.append_nil] at hlinks
    exact hlinks
  members_eq := Graft.members_eq_append hfit hbelow fun q => mem_states_cleanAlternation_iff hlayout
  fused_mem := by
    rw [hg.fusions_splice]
    exact List.forall_mem_cons.mpr
      ⟨g.initial_mem_states, List.forall_mem_singleton.mpr g.exit_mem_states⟩
  entry_host_mem := by
    have hhost : (h.splice next g.initial g.exit).entry.host = g.initial := by
      rw [Fragment.splice, Fragment.entryJoint]
      split <;> rfl
    rw [hhost]
    exact g.initial_mem_states
  exit_host_mem := by
    intro joint hjoint
    rw [Fragment.exitJoint_splice] at hjoint
    have hhost : joint.host = g.exit := by
      rw [← Option.some.inj hjoint]
      split <;> rfl
    exact hhost ▸ g.exit_mem_states

omit [Ord α] in
/-- The third operand joins the ends of the first two as it joins those of the second. -/
theorem along_clean {base source target : StateId} (hg : g.Clean) :
    (h.splice next g.initial g.exit).along (g.splice base source target) =
      h.splice (g.splice base source target).next source target := by
  rw [Graft.along_splice, Fragment.image_initial hg.entry, Fragment.image_exit hg.exit hg.exit_ne]

omit [Ord α] in
/-- Both groupings build the same automaton. -/
theorem alternation_regroup (hg : g.Clean) (hk : (cleanAlternation g h next).Clean)
    (hnested : ((cleanAlternation g h next).splice exit.next entry.state exit.state).Nested
      (g.splice exit.next entry.state exit.state) (h.splice next g.initial g.exit))
    (hfit : exit.next.Fits
      ((cleanAlternation g h next).splice exit.next entry.state exit.state).unfused.length) :
    (cleanAlternation (alternateFragment f g entry exit) h
      (g.splice exit.next entry.state exit.state).next).toNfa =
      alternation f (cleanAlternation g h next) entry exit := by
  have htransitions := hnested.transitions_eq_append hfit hk.exitLink_splice hg.exitLink_splice
  rw [along_clean hg] at htransitions
  rw [alternation, htransitions, ← List.append_assoc]
  exact congrArg (fun ts => between entry.state exit.state (ts ++ _) f.epsilon)
    ((List.append_nil _).trans (List.append_nil _))

variable [Std.TransOrd α]

/-- The result of an alternation is clean. -/
theorem clean_of_alternate {k : Fragment α} (hk : a.alternate b = .ok k.toNfa) : k.Clean := by
  obtain ⟨q, haccepting, hclean⟩ := alternate_clean hk
  obtain rfl : k.exit = q := (List.cons.inj (k.accepting_eq.symm.trans haccepting)).1
  exact Fragment.clean_iff.mpr hclean

/-- **Alternation is associative** if the second operand is clean.  If three operands can be
alternated from the right, they can be alternated from the left, and the result is the same
automaton: the same identifiers and the same transitions in the same order. -/
theorem alternate_assoc (hexit : b.accepting = [q])
    (hin : ∀ t ∈ b.transitions, t.target ≠ b.initial) (hout : ∀ t ∈ b.transitions, t.source ≠ q)
    (hne : b.initial ≠ q) (hbc : b.alternate c = .ok bc) (hr : a.alternate bc = .ok r) :
    ∃ ab, a.alternate b = .ok ab ∧ ab.alternate c = .ok r := by
  obtain ⟨f, k, next, entry, exit, rfl, rfl, hepsab, hnext, hentry, hshared, hfit, rfl⟩ :=
    alternate_eq_ok_iff.mp hr
  have hk : k.Clean := clean_of_alternate hbc
  obtain ⟨g, -, -, -, -, rfl, -⟩ := alternate_eq_ok_iff.mp hbc
  obtain rfl : g.exit = q := (List.cons.inj (g.accepting_eq.symm.trans hexit)).1
  have hg : g.Clean := Fragment.clean_iff.mpr ⟨hne.symm, hin, hout⟩
  obtain ⟨h, next', rfl, hepsbc, hnext', hfit', hbc'⟩ := (alternate_eq_ok_iff_of_clean hg).mp hbc
  obtain rfl := Fragment.toNfa_inj hbc'
  have hlayout' := (alternation_laid_out hepsbc hnext' (sharedEntry_of_clean hg next')
    (sharedExit_of_clean hg next') hfit').2
  have hepsab : f.IsEpsilon g.epsilon := hepsab
  have hnested : ((cleanAlternation g h next').splice exit.next entry.state exit.state).Nested
      (g.splice exit.next entry.state exit.state) (h.splice next' g.initial g.exit) :=
    alternate_nested hg hk (fun q => StateGraph.lt_of_nextAvailable hnext') hfit' hlayout'
  obtain ⟨hfitab, hfitr⟩ := hnested.fits hfit
  have hab : f.alternate g.toNfa = .ok (alternateFragment f g entry exit).toNfa :=
    alternate_eq_ok_iff.mpr
      ⟨f, g, next, entry, exit, rfl, rfl, hepsab, hnext, hentry, hshared, hfitab, rfl⟩
  have hlayout := (alternation_laid_out hepsab hnext hentry hshared hfitab).2
  have hfree := nextAvailable_alternation hnext hentry hshared hfitab hlayout
  have hepsac : f.IsEpsilon h.epsilon := (isEpsilon_congr hepsab).mp hepsbc
  rw [along_clean hg] at hfitr
  refine ⟨_, hab, (alternate_eq_ok_iff_of_clean (clean_of_alternate hab)).mpr ?_⟩
  exact ⟨h, _, rfl, hepsac, hfree, hfitr, alternation_regroup hg hk hnested hfit⟩

/-- Down from 9 to 4, any number of `c` and then `d`. -/
def downToFour : Nfa Char := between 9 4 [⟨9, 'c', 6⟩, ⟨6, 'c', 6⟩, ⟨6, 'd', 4⟩] 'ε'

/-- That, or any number of `x`. -/
def downToFourOrLoop : Nfa Char :=
  between 9 4 [⟨9, 'c', 6⟩, ⟨6, 'c', 6⟩, ⟨6, 'd', 4⟩, ⟨9, 'ε', 10⟩, ⟨10, 'x', 10⟩, ⟨10, 'ε', 4⟩] 'ε'

/-- That, or `thereAndBack`, between two ends that are new. -/
def threeWays : Nfa Char :=
  between 2 3 [⟨0, 'a', 1⟩, ⟨1, 'b', 0⟩, ⟨2, 'ε', 0⟩, ⟨1, 'ε', 3⟩, ⟨2, 'c', 4⟩, ⟨4, 'c', 4⟩,
    ⟨4, 'd', 3⟩, ⟨2, 'ε', 5⟩, ⟨5, 'x', 5⟩, ⟨5, 'ε', 3⟩] 'ε'

theorem alternate_assoc_three_ways :
    (downToFour.accepting = [4] ∧ (∀ t ∈ downToFour.transitions, t.target ≠ downToFour.initial) ∧
      (∀ t ∈ downToFour.transitions, t.source ≠ 4) ∧ downToFour.initial ≠ 4 ∧
      downToFour.alternate (loop 'x' 'ε') = .ok downToFourOrLoop ∧
      thereAndBack.alternate downToFourOrLoop = .ok threeWays) ∧
    ∃ ab, thereAndBack.alternate downToFour = .ok ab ∧
      ab.alternate (loop 'x' 'ε') = .ok threeWays := by
  have hin : ∀ t ∈ downToFour.transitions, t.target ≠ downToFour.initial := by decide
  have hout : ∀ t ∈ downToFour.transitions, t.source ≠ 4 := by decide
  have hne : downToFour.initial ≠ 4 := by decide
  have hbc : downToFour.alternate (loop 'x' 'ε') = .ok downToFourOrLoop := by decide +kernel
  have hr : thereAndBack.alternate downToFourOrLoop = .ok threeWays := by decide +kernel
  exact ⟨⟨rfl, hin, hout, hne, hbc, hr⟩, alternate_assoc rfl hin hout hne hbc hr⟩

end

end Nfa

end Recognizer
