/-
# The operators keep fragments compact

Each operator takes compact fragments to a compact fragment, and the sizes of the result can be told
from those of the operands.  The initial state of a compact operand is always fused, so an operand
brings one state less than it has; where two exits become one it brings two less, and one more state
and one more transition if its exit has to be linked (`Fragment.exitLinks`).

Alternation, star and expansion have a layout, and it is enough that the layout fills the
identifiers below a bound (`Layout.Describes.compact`).  A concatenation has none, since the exit of
its first operand is not the exit of the result, so its ways are put together by hand.

* `alternation_fills`, `star_fills`, `expansion_fills`: the layouts fill their ranges;
* `sites_lt_iff`: the copies of an expansion lie one right above the other;
* `literal_compact`, `concat_compact`, `alternate_compact`, `star_compact`, `expand_compact`: the
  results, with their numbers of states and transitions.
-/
import Recognizer.Proofs.Alternation
import Recognizer.Proofs.Concatenation
import Recognizer.Proofs.Expansion
import Recognizer.Proofs.Extent
import Recognizer.Proofs.Star

namespace Recognizer

namespace Nfa

variable {α : Type} {r : Nfa α} {f g : Fragment α} {e entry exit : SharedEnd α}
  {base next p q : StateId} {t : Transition α} {symbol : α}

/-! ## 1. Literals -/

/-- A literal as a fragment. -/
def literalFragment (symbol epsilon : α) : Fragment α := ⟨literal symbol epsilon, 1, rfl⟩

theorem literal_compact (symbol epsilon : α) : (literalFragment symbol epsilon).Compact ∧
    (literalFragment symbol epsilon).states.size = 2 := by
  have hedge : Leads (literalFragment symbol epsilon).edges 0 1 := .tail .refl List.mem_cons_self
  refine Fragment.compact_of_ways rfl (by decide : (1 : StateId) ≠ 0) (fun t ht => ?_) (by decide)
    (fun q hq => ?_) fun q hq => ?_
  · rw [List.mem_singleton.mp ht]
    exact (by decide : (1 : StateId) ≠ 0)
  · have hends : q = 0 ∨ q = 1 := by
      rcases StateGraph.mem_states.mp hq with rfl | hacc | ⟨t, ht, hend⟩
      · exact Or.inl rfl
      · exact Or.inr (List.mem_singleton.mp hacc)
      · rwa [List.mem_singleton.mp ht] at hend
    rcases hends with rfl | rfl <;> decide
  · have hends : q = 0 ∨ q = 1 := by
      have hzero : (0 : StateId).toNat = 0 := rfl
      have hone : (1 : StateId).toNat = 1 := rfl
      rw [← UInt32.toNat_inj, ← UInt32.toNat_inj]
      omega
    rcases hends with rfl | rfl
    · exact ⟨.refl, hedge⟩
    · exact ⟨hedge, .refl⟩

/-! ## 2. Concatenation -/

/-- A concatenation as a fragment. -/
def concatFragment (f g : Fragment α) (base : StateId) : Fragment α :=
  ⟨concatenation f g base, (concatGraft f g base).accepting, rfl⟩

/-- An initial state that nothing enters is fused with the exit in front of it. -/
theorem concatGraft_entry (hclean : SeamClean f g) :
    (concatGraft f g base).entry = .fuse f.exit := by
  rw [concatGraft, seam_eq, if_pos hclean]

theorem length_unfused_concatGraft (hclean : SeamClean f g) :
    (concatGraft f g base).unfused.length + 1 = g.states.size := by
  have hfused : (concatGraft f g base).fusions.map (·.1) = [g.initial] := by
    rw [Graft.fusions, concatGraft_entry hclean]
    rfl
  exact Graft.length_unfused hfused (List.nodup_singleton _)
    (List.forall_mem_singleton.mpr g.initial_mem_states)

theorem length_transitions_concatGraft (hclean : SeamClean f g) :
    (concatGraft f g base).transitions.length = g.transitions.length := by
  rw [Graft.transitions, Graft.entryLink, Graft.linkIn, concatGraft_entry hclean]
  simp [Graft.exitLink, Graft.linkOut, Graft.exitJoint, concatGraft]

/-- The copy of the second operand fills up the identifiers to the next free one. -/
theorem Behind.lt_next_iff (h : Behind f g base) (hclean : SeamClean f g) :
    q.toNat < (concatGraft f g base).next.toNat ↔
      q.toNat < base.toNat ∨ ∃ p ∈ g.states, (concatGraft f g base).image p = q := by
  refine Graft.lt_next_iff h.fits fun e he => ?_
  rw [Graft.fusions, concatGraft_entry hclean] at he
  rw [List.mem_singleton.mp he]
  exact h.above _ f.exit_mem_states

/-- Only the initial state of the second operand goes to a state of the first. -/
theorem Behind.image_not_mem (h : Behind f g base) (hq : q ∈ g.states) (hne : q ≠ g.initial) :
    (concatGraft f g base).image q ∉ f.states :=
  fun hmem => hne (h.shared hq hmem).1

/-- The states of a concatenation are those of the first operand and those of the copy. -/
theorem mem_states_concatFragment (hq : q ∈ (concatFragment f g base).states) :
    q ∈ f.states ∨ ∃ p ∈ g.states, (concatGraft f g base).image p = q := by
  rcases StateGraph.mem_states.mp hq with rfl | hacc | ⟨t, ht, hend⟩
  · exact Or.inl f.initial_mem_states
  · exact Or.inr ⟨g.exit, g.exit_mem_states, (List.mem_singleton.mp hacc).symm⟩
  · rcases mem_concatenation_transitions_iff.mp ht with ht | ⟨-, rfl⟩ | ⟨u, hu, rfl⟩
    · exact Or.inl (StateGraph.mem_states.mpr (Or.inr (Or.inr ⟨t, ht, hend⟩)))
    · rcases hend with rfl | rfl
      · exact Or.inl f.exit_mem_states
      · exact Or.inr ⟨g.initial, g.initial_mem_states, rfl⟩
    · rcases hend with rfl | rfl
      · exact Or.inr ⟨u.source, StateGraph.source_mem_states hu, rfl⟩
      · exact Or.inr ⟨u.target, StateGraph.target_mem_states hu, rfl⟩

/-- A way through both operands. -/
theorem concatFragment_onTheWay (hf : f.Compact) (hg : g.Compact) :
    (∀ q ∈ f.states, (concatFragment f g base).OnTheWay q) ∧
      ∀ q ∈ g.states, (concatFragment f g base).OnTheWay ((concatGraft f g base).image q) := by
  have hfirst : ∀ {p q}, Leads f.edges p q → Leads (concatFragment f g base).edges p q :=
    StateGraph.leads_map (f := id) fun t ht =>
      StateGraph.leads_of_mem (mem_concatenation_transitions_iff.mpr (Or.inl ht))
  have hsecond : ∀ {p q}, Leads g.edges p q → Leads (concatFragment f g base).edges
      ((concatGraft f g base).image p) ((concatGraft f g base).image q) :=
    StateGraph.leads_map fun t ht => StateGraph.leads_of_mem
      (mem_concatenation_transitions_iff.mpr (Or.inr (Or.inr ⟨t, ht, rfl⟩)))
  have hseam : (concatGraft f g base).image g.initial = f.exit :=
    concatGraft_image_initial (Or.inl hg.entry_clean)
  have hthrough := hsecond hg.leads_exit
  rw [hseam] at hthrough
  constructor
  · intro q hq
    obtain ⟨hto, hfrom⟩ := hf.onTheWay q hq
    exact ⟨hfirst hto, (hfirst hfrom).trans hthrough⟩
  · intro q hq
    obtain ⟨hto, hfrom⟩ := hg.onTheWay q hq
    have hbehind := hsecond hto
    rw [hseam] at hbehind
    exact ⟨(hfirst hf.leads_exit).trans hbehind, hsecond hfrom⟩

theorem concatFragment_compact (hf : f.Compact) (hg : g.Compact)
    (hbase : f.nextAvailable = .ok base) (h : Behind f g base) :
    (concatFragment f g base).Compact ∧
      (concatFragment f g base).states.size = (concatGraft f g base).next.toNat := by
  have hclean : SeamClean f g := Or.inl hg.entry_clean
  obtain ⟨hwayf, hwayg⟩ := concatFragment_onTheWay (f := f) (g := g) hf hg
  have hzero : (0 : StateId) ∈ f.states := hf.initial_eq ▸ f.initial_mem_states
  refine Fragment.compact_of_ways hf.initial_eq ?_ (fun t ht => ?_)
    (Nat.le_of_lt (UInt32.toNat_lt_size _)) (fun q hq => ?_) fun q hq => ?_
  · have hnew : (concatFragment f g base).exit ∉ f.states :=
      h.image_not_mem g.exit_mem_states hg.exit_ne_initial
    exact fun hexit => hnew (hexit ▸ hzero)
  · rcases mem_concatenation_transitions_iff.mp ht with ht | ⟨hlinked, -⟩ | ⟨u, hu, rfl⟩
    · exact StateGraph.target_ne_of_clean hf.entry_clean ht
    · exact absurd hclean hlinked
    · have hne := StateGraph.target_ne_of_clean hg.entry_clean hu
      have hnew : (u.rename (concatGraft f g base).image).target ∉ f.states :=
        h.image_not_mem (StateGraph.target_mem_states hu) hne
      exact fun heq => hnew (heq ▸ f.initial_mem_states)
  · exact (h.lt_next_iff hclean).mpr ((mem_states_concatFragment hq).imp_left (h.above q))
  · rcases (h.lt_next_iff hclean).mp hq with hlt | ⟨p, hp, rfl⟩
    · exact hwayf q ((hf.mem_states_iff_lt hbase).mpr hlt)
    · exact hwayg p hp

theorem concat_compact [Ord α] (hf : f.Compact) (hg : g.Compact)
    (h : f.concat g.toNfa = .ok r) : ∃ k : Fragment α, k.toNfa = r ∧ k.Compact ∧
      k.states.size + 1 = f.states.size + g.states.size ∧
      k.transitions.length = f.transitions.length + g.transitions.length := by
  obtain ⟨f', g', base, hf', hg', -, hbase, hfit, rfl⟩ := concat_eq_ok_iff.mp h
  obtain rfl := Fragment.toNfa_inj hf'
  obtain rfl := Fragment.toNfa_inj hg'
  have hclean : SeamClean f' g' := Or.inl hg.entry_clean
  have hbehind : Behind f' g' base := ⟨fun q => StateGraph.lt_of_nextAvailable hbase, hfit⟩
  obtain ⟨hcompact, hsize⟩ := concatFragment_compact hf hg hbase hbehind
  refine ⟨concatFragment f' g' base, rfl, hcompact, ?_, ?_⟩
  · have hnext : (concatGraft f' g' base).next.toNat = base.toNat + _ := Graft.toNat_next hfit
    have hlength : (concatGraft f' g' base).unfused.length + 1 = _ :=
      length_unfused_concatGraft hclean
    have hfree := hf.toNat_nextAvailable hbase
    omega
  · rw [← length_transitions_concatGraft hclean]
    exact List.length_append

/-! ## 3. Alternation -/

/-- An alternation as a fragment. -/
def alternateFragment (f g : Fragment α) (entry exit : SharedEnd α) : Fragment α :=
  ⟨alternation f g entry exit, exit.state, rfl⟩

theorem sharedEntry_of_compact (hf : f.Compact) (h : sharedEntry f next = .ok e) :
    e.state = f.initial ∧ e.links = [] ∧ e.next = next := by
  rcases sharedEntry_eq_ok_iff.mp h with ⟨hin, -⟩ | ⟨-, rfl⟩
  · exact absurd (hin.symm.trans hf.entry_clean) (by simp)
  · exact ⟨rfl, rfl, rfl⟩

/-- The shared exit is new if transitions leave the exit of the operand, and then there is one link
to it; in any case the identifiers up to it are taken. -/
theorem sharedExit_of_compact (hf : f.Compact) (hnext : f.nextAvailable = .ok next)
    (h : sharedExit f next = .ok e) : e.links.length = f.exitLinks ∧
      e.next.toNat = f.states.size + f.exitLinks ∧
      ∀ q : StateId, q.toNat < e.next.toNat ↔ q ∈ f.states ∨ q = e.state := by
  have hsize := hf.toNat_nextAvailable hnext
  unfold Fragment.exitLinks
  rcases sharedExit_eq_ok_iff.mp h with ⟨hout, hstate, hfree, hlinks⟩ | ⟨hout, rfl⟩
  · have hout : f.hasOutgoing f.exit = true := hout.resolve_right hf.exit_ne_initial
    rw [if_pos hout, hlinks]
    refine ⟨rfl, by omega, fun q => ?_⟩
    rw [hf.mem_states_iff_lt hnext, hstate, ← UInt32.toNat_inj]
    omega
  · have hout : ¬ f.hasOutgoing f.exit = true := fun hout' => hout (Or.inl hout')
    rw [if_neg hout]
    refine ⟨rfl, hsize, fun q => ?_⟩
    rw [← hf.mem_states_iff_lt hnext]
    refine ⟨Or.inl, fun hq => hq.elim id ?_⟩
    rintro rfl
    exact f.exit_mem_states

/-- The identifiers up to the end of the copy are those of the operands and of the shared ends. -/
theorem alternation_lt_iff (hf : f.Compact) (hnext : f.nextAvailable = .ok next)
    (hentry : sharedEntry f next = .ok entry) (hexit : sharedExit f entry.next = .ok exit)
    (hfit : exit.next.Fits (g.splice exit.next entry.state exit.state).unfused.length) :
    q.toNat < (g.splice exit.next entry.state exit.state).next.toNat ↔
      (alternationLayout f g entry.state exit.state exit.next).Covers q := by
  obtain ⟨hstate, -, hfree⟩ := sharedEntry_of_compact hf hentry
  rw [hfree] at hexit
  obtain ⟨-, -, hbelow⟩ := sharedExit_of_compact hf hnext hexit
  have hinitial : entry.state ∈ f.states := hstate ▸ f.initial_mem_states
  rw [Fragment.lt_next_splice_iff hfit ((hbelow _).mpr (Or.inl hinitial))
    ((hbelow _).mpr (Or.inr rfl)), hbelow]
  constructor
  · rintro ((hmem | rfl) | ⟨p, hp, rfl⟩)
    · exact Or.inr ⟨false, q, hmem, rfl⟩
    · exact Or.inl (Or.inr rfl)
    · exact Or.inr ⟨true, p, hp, rfl⟩
  · rintro ((rfl | rfl) | ⟨i, p, hp, rfl⟩)
    · exact Or.inl (Or.inl hinitial)
    · exact Or.inl (Or.inr rfl)
    · cases i with
      | false => exact Or.inl (Or.inl hp)
      | true => exact Or.inr ⟨p, hp, rfl⟩

/-- **The layout of an alternation fills the identifiers up to the end of the copy.** -/
theorem alternation_fills [Ord α] (hf : f.Compact) (hg : g.Compact)
    (hnext : f.nextAvailable = .ok next) (hentry : sharedEntry f next = .ok entry)
    (hexit : sharedExit f entry.next = .ok exit)
    (hfit : exit.next.Fits (g.splice exit.next entry.state exit.state).unfused.length)
    (hne : entry.state ≠ exit.state)
    (hlayout : (alternationLayout f g entry.state exit.state exit.next).Describes
      (alternation f g entry exit)) :
    (alternationLayout f g entry.state exit.state exit.next).Fills
      (alternateFragment f g entry exit) (g.splice exit.next entry.state exit.state).next.toNat := by
  have hzero : entry.state = 0 := (sharedEntry_of_compact hf hentry).1.trans hf.initial_eq
  have hthrough : Leads (alternation f g entry exit).edges entry.state exit.state :=
    hlayout.leads_through (i := false) hf.leads_exit rfl rfl
  exact {
    initial_host := Or.inl rfl
    exit_host := Or.inr rfl
    initial_eq := hzero
    exit_ne := fun heq => hne (hzero.trans heq.symm)
    own_target := fun t ht => absurd ht List.not_mem_nil
    leaves_ne := fun _ => hne
    enters := fun _ => ⟨_, rfl⟩
    leaves := fun _ => ⟨_, rfl⟩
    host_way := by
      rintro p (rfl | rfl)
      · exact ⟨.refl, hthrough⟩
      · exact ⟨hthrough, .refl⟩
    part_way
      | false => hf.onTheWay
      | true => hg.onTheWay
    le := Nat.le_of_lt (UInt32.toNat_lt_size _)
    lt_iff := fun _ => alternation_lt_iff hf hnext hentry hexit hfit }

theorem alternate_compact [Ord α] [Std.TransOrd α] (hf : f.Compact) (hg : g.Compact)
    (h : f.alternate g.toNfa = .ok r) : ∃ k : Fragment α, k.toNfa = r ∧ k.Compact ∧
      k.states.size + 2 = f.states.size + g.states.size + f.exitLinks + g.exitLinks ∧
      k.transitions.length =
        f.transitions.length + g.transitions.length + f.exitLinks + g.exitLinks := by
  obtain ⟨f', g', next, entry, exit, hf', hg', heps, hnext, hentry, hexit, hfit, rfl⟩ :=
    alternate_eq_ok_iff.mp h
  obtain rfl := Fragment.toNfa_inj hf'
  obtain rfl := Fragment.toNfa_inj hg'
  obtain ⟨hne, hlayout⟩ := alternation_laid_out heps hnext hentry hexit hfit
  have hfills := alternation_fills hf hg hnext hentry hexit hfit hne hlayout
  obtain ⟨hcompact, hsize⟩ := Layout.Describes.compact (r := alternateFragment f' g' entry exit)
    hlayout hfills
  obtain ⟨-, hnolinks, hfree⟩ := sharedEntry_of_compact hf hentry
  rw [hfree] at hexit
  obtain ⟨hlinks, hbase, -⟩ := sharedExit_of_compact hf hnext hexit
  refine ⟨_, rfl, hcompact, ?_, ?_⟩
  · have hend : (g'.splice exit.next entry.state exit.state).next.toNat = _ :=
      Graft.toNat_next hfit
    have hlength : (g'.splice exit.next entry.state exit.state).unfused.length + 2 = _ :=
      hg.length_unfused_splice
    have hstart : (g'.splice exit.next entry.state exit.state).base = exit.next := rfl
    rw [hstart] at hend
    omega
  · have hlength : (g'.splice exit.next entry.state exit.state).transitions.length = _ :=
      hg.length_transitions_splice
    simp only [alternateFragment, alternation, between, List.length_append, hnolinks, hlinks,
      hlength, List.length_nil]
    omega

/-! ## 4. Star -/

/-- A star as a fragment. -/
def starFragment (f : Fragment α) (exit : StateId) : Fragment α := ⟨starred f exit, exit, rfl⟩

/-- The exit of a star comes right after the moved operand. -/
theorem toNat_star_exit {exit : StateId} (hf : f.Compact) (h : Between f exit)
    (hexit : (f.toNfa.rename (StateId.shifted 1)).nextAvailable = .ok exit) :
    exit.toNat = f.states.size + 1 := by
  have htop := hf.toNat_top
  have hmoved := StateId.toNat_shifted (h.fits f.top (StateGraph.top_mem_states _))
  have hlt := h.below f.top (StateGraph.top_mem_states _)
  obtain ⟨p, hp, heq⟩ := StateGraph.mem_states_rename_iff.mp
    (StateGraph.top_mem_states (f.toStateGraph.rename (StateId.shifted 1)))
  have hpmoved := StateId.toNat_shifted (h.fits p hp)
  have hple := UInt32.le_iff_toNat_le.mp (StateGraph.le_top hp)
  have hnext : exit.toNat = (f.toStateGraph.rename (StateId.shifted 1)).top.toNat + 1 :=
    StateGraph.nextAvailable_eq_ok_iff.mp hexit
  rw [heq] at hpmoved
  omega

/-- The identifiers up to the exit are the two ends and the states of the operand, each of them one
above where it was. -/
theorem star_lt_iff {exit : StateId} (hf : f.Compact) (h : Between f exit)
    (hexit : exit.toNat = f.states.size + 1) :
    q.toNat < exit.toNat + 1 ↔ (starLayout f exit).Covers q := by
  have hzero : (0 : StateId).toNat = 0 := rfl
  constructor
  · intro hq
    by_cases hends : q = 0 ∨ q = exit
    · exact Or.inl hends
    · rw [← UInt32.toNat_inj, ← UInt32.toNat_inj] at hends
      have hdown : q.Fits (-1) := by
        have hlt := q.toNat_lt_size
        constructor <;> omega
      have hbefore := StateId.toNat_shifted hdown
      have hmem : q.shifted (-1) ∈ f.states := (hf.mem_states_iff _).mpr (by omega)
      have hafter := StateId.toNat_shifted (h.fits _ hmem)
      have hback : (q.shifted (-1)).shifted 1 = q := UInt32.toNat_inj.mp (by omega)
      exact Or.inr ⟨(), q.shifted (-1), hmem, hback⟩
  · rintro ((rfl | rfl) | ⟨_, p, hp, rfl⟩)
    · omega
    · omega
    · exact Nat.lt_succ_of_lt (h.below p hp)

/-- **The layout of a star fills the identifiers up to its exit.** -/
theorem star_fills [Ord α] [Std.ReflOrd α] {exit : StateId} (hf : f.Compact) (h : Between f exit)
    (hexit : exit.toNat = f.states.size + 1) :
    (starLayout f exit).Fills (starFragment f exit) (exit.toNat + 1) := by
  have hpast : Leads (starred f exit).edges 0 exit :=
    StateGraph.leads_of_mem ((starLayout_describes h).own_mem _ List.mem_cons_self)
  exact {
    initial_host := Or.inl rfl
    exit_host := Or.inr rfl
    initial_eq := rfl
    exit_ne := h.exit_ne
    own_target := fun t ht => List.mem_singleton.mp ht ▸ h.exit_ne
    leaves_ne := fun _ => h.exit_ne.symm
    enters := fun _ => ⟨0, Or.inl rfl⟩
    leaves := fun _ => ⟨exit, rfl⟩
    host_way := by
      rintro p (rfl | rfl)
      · exact ⟨.refl, hpast⟩
      · exact ⟨hpast, .refl⟩
    part_way := fun _ => hf.onTheWay
    le := exit.toNat_lt_size
    lt_iff := fun _ => star_lt_iff hf h hexit }

theorem star_compact [Ord α] [Std.ReflOrd α] (hf : f.Compact) (h : f.star = .ok r) :
    ∃ k : Fragment α, k.toNfa = r ∧ k.Compact ∧ k.states.size = f.states.size + 2 ∧
      k.transitions.length = f.transitions.length + 4 := by
  obtain ⟨f', exit, hf', hfits, hexit, rfl⟩ := star_eq_ok_iff.mp h
  obtain rfl := Fragment.toNfa_inj hf'
  have hbetween := between_of_nextAvailable hfits hexit
  have htop := toNat_star_exit hf hbetween hexit
  obtain ⟨hcompact, hsize⟩ := Layout.Describes.compact (r := starFragment f' exit)
    (starLayout_describes hbetween) (star_fills hf hbetween htop)
  refine ⟨_, rfl, hcompact, ?_, ?_⟩
  · omega
  · simp [starFragment, starred, between, rename, StateGraph.rename, StateGraph.make]

/-! ## 5. Expansion -/

/-- **The sites fill a range.**  Copies that all have the same number of states of their own lie one
right above the other, from the base on. -/
theorem sites_lt_iff {ts : List (Transition α)} {len : Nat}
    (hlen : ∀ base source target, (g.splice base source target).unfused.length = len)
    (hends : ∀ t ∈ ts, t.source.toNat < base.toNat ∧ t.target.toNat < base.toNat)
    (hfit : Fit g (sites g base ts)) :
    base.toNat + ts.length * len < UInt32.size ∧ ∀ q : StateId,
      q.toNat < base.toNat + ts.length * len ↔ q.toNat < base.toNat ∨
        ∃ s ∈ sites g base ts, ∃ p ∈ g.states, (s.graft g).image p = q := by
  induction ts generalizing base with
  | nil =>
    have hlt := base.toNat_lt_size
    simpa [sites] using hlt
  | cons t ts ih =>
    obtain ⟨hfirst, hrest⟩ := List.forall_mem_cons.mp hfit
    obtain ⟨⟨hsource, htarget⟩, hends⟩ := List.forall_mem_cons.mp hends
    have hnext : (Site.graft ⟨base, t⟩ g).next.toNat = base.toNat + len := by
      rw [← hlen base t.source t.target]
      exact Graft.toNat_next hfirst
    have habove : ∀ u ∈ ts, u.source.toNat < (Site.graft ⟨base, t⟩ g).next.toNat ∧
        u.target.toNat < (Site.graft ⟨base, t⟩ g).next.toNat := by
      intro u hu
      obtain ⟨hsource, htarget⟩ := hends u hu
      omega
    obtain ⟨hsize, hlt⟩ := ih habove hrest
    have hadd : base.toNat + (t :: ts).length * len =
        (Site.graft ⟨base, t⟩ g).next.toNat + ts.length * len := by
      rw [hnext, List.length_cons, Nat.succ_mul]
      omega
    rw [hadd]
    refine ⟨hsize, fun q => ?_⟩
    rw [hlt, Site.graft, Fragment.lt_next_splice_iff hfirst hsource htarget, sites,
      List.exists_mem_cons_iff, or_assoc]
    rfl

/-- An expansion as a fragment. -/
def expansionFragment [Ord α] (f : Fragment α) (symbol : α) (g : Fragment α) (base : StateId) :
    Fragment α := ⟨expansion f.toNfa symbol g base, f.exit, f.accepting_eq⟩

/-- The identifiers up to the end of the last copy are those of the host and of the copies. -/
theorem expansion_lt_iff [Ord α] {len : Nat} (hf : f.Compact) (hbase : f.nextAvailable = .ok base)
    (hlen : ∀ base source target, (g.splice base source target).unfused.length = len)
    (hfit : Fit g (sites g base (f.transitionsOn symbol))) :
    base.toNat + (f.transitionsOn symbol).length * len < UInt32.size ∧ ∀ q : StateId,
      q.toNat < base.toNat + (f.transitionsOn symbol).length * len ↔
        (expansionLayout f.toNfa symbol g base).Covers q := by
  have hends : ∀ t ∈ f.transitionsOn symbol,
      t.source.toNat < base.toNat ∧ t.target.toNat < base.toNat := by
    intro t ht
    have hmem := (mem_transitionsOn_iff.mp ht).1
    exact ⟨StateGraph.lt_of_nextAvailable hbase (StateGraph.source_mem_states hmem),
      StateGraph.lt_of_nextAvailable hbase (StateGraph.target_mem_states hmem)⟩
  obtain ⟨hsize, hlt⟩ := sites_lt_iff hlen hends hfit
  refine ⟨hsize, fun q => ?_⟩
  rw [hlt, ← hf.mem_states_iff_lt hbase]
  refine or_congr_right ⟨?_, ?_⟩
  · rintro ⟨s, hs, p, hp, rfl⟩
    exact ⟨⟨s, hs⟩, p, hp, rfl⟩
  · rintro ⟨s, p, hp, rfl⟩
    exact ⟨s.1, s.2, p, hp, rfl⟩

/-- A way through the host stays one when copies are put in place of some of its transitions. -/
theorem expansion_leads [Ord α] (hg : g.Compact)
    (hlayout : (expansionLayout f.toNfa symbol g base).Describes (expansion f.toNfa symbol g base))
    (h : Leads f.edges p q) : Leads (expansion f.toNfa symbol g base).edges p q := by
  refine StateGraph.leads_map (f := id) (fun t ht => ?_) h
  by_cases hsymbol : Same t.symbol symbol
  · obtain ⟨s, hs, rfl⟩ := exists_mem_sites ht hsymbol
    have henters : (expansionLayout f.toNfa symbol g base).Enters ⟨s, hs⟩ s.transition.source := rfl
    exact hlayout.leads_through hg.leads_exit henters rfl
  · exact StateGraph.leads_of_mem (hlayout.own_mem t (mem_transitionsOff_iff.mpr ⟨ht, hsymbol⟩))

/-- **The layout of an expansion fills the identifiers up to the end of the last copy.** -/
theorem expansion_fills [Ord α] {len : Nat} (hf : f.Compact) (hg : g.Compact)
    (hbase : f.nextAvailable = .ok base)
    (hlen : ∀ base source target, (g.splice base source target).unfused.length = len)
    (hfit : Fit g (sites g base (f.transitionsOn symbol)))
    (hlayout : (expansionLayout f.toNfa symbol g base).Describes
      (expansion f.toNfa symbol g base)) :
    (expansionLayout f.toNfa symbol g base).Fills (expansionFragment f symbol g base)
      (base.toNat + (f.transitionsOn symbol).length * len) := by
  obtain ⟨hsize, hlt⟩ := expansion_lt_iff hf hbase hlen hfit
  exact {
    initial_host := f.initial_mem_states
    exit_host := f.exit_mem_states
    initial_eq := hf.initial_eq
    exit_ne := hf.exit_ne
    own_target := fun t ht =>
      StateGraph.target_ne_of_clean hf.entry_clean (mem_transitionsOff_iff.mp ht).1
    leaves_ne := fun s hleaves =>
      StateGraph.target_ne_of_clean hf.entry_clean (mem_of_mem_sites s.2).1 hleaves.symm
    enters := fun _ => ⟨_, rfl⟩
    leaves := fun _ => ⟨_, rfl⟩
    host_way := fun p hp =>
      (hf.onTheWay p hp).imp (expansion_leads hg hlayout) (expansion_leads hg hlayout)
    part_way := fun _ => hg.onTheWay
    le := Nat.le_of_lt hsize
    lt_iff := hlt }

/-- The transitions that the copies bring all together. -/
theorem length_flatMap_sites (hg : g.Compact) (ts : List (Transition α)) :
    ((sites g base ts).flatMap fun s => (s.graft g).transitions).length =
      ts.length * (g.transitions.length + g.exitLinks) := by
  induction ts generalizing base with
  | nil => simp [sites]
  | cons t ts ih =>
    rw [sites, List.flatMap_cons, List.length_append, ih, Site.graft, hg.length_transitions_splice,
      List.length_cons, Nat.succ_mul, Nat.add_comm]

theorem expand_compact [Ord α] [Std.TransOrd α] (hf : f.Compact) (hg : g.Compact)
    (h : f.expand symbol g.toNfa = .ok r) : ∃ k : Fragment α, k.toNfa = r ∧ k.Compact ∧
      k.states.size + (f.transitionsOn symbol).length * 2 =
        f.states.size + (f.transitionsOn symbol).length * (g.states.size + g.exitLinks) ∧
      k.transitions.length + (f.transitionsOn symbol).length = f.transitions.length +
        (f.transitionsOn symbol).length * (g.transitions.length + g.exitLinks) := by
  obtain ⟨-, g', base, -, hg', heps, hbase, hfit, rfl⟩ := expand_eq_ok_iff.mp h
  obtain rfl := Fragment.toNfa_inj hg'
  have hlayout := expansion_describes heps
    (fun q hq => StateGraph.lt_of_nextAvailable hbase hq) hfit
  have hlen : ∀ base source target, (g'.splice base source target).unfused.length =
      g'.states.size + g'.exitLinks - 2 := by
    intro base source target
    rw [← hg.length_unfused_splice, Nat.add_sub_cancel]
  have htwo : g'.states.size + g'.exitLinks - 2 + 2 = g'.states.size + g'.exitLinks := by
    rw [← hlen base base base]
    exact hg.length_unfused_splice
  obtain ⟨hcompact, hsize⟩ := Layout.Describes.compact (r := expansionFragment f symbol g' base)
    hlayout (expansion_fills hf hg hbase hlen hfit hlayout)
  refine ⟨_, rfl, hcompact, ?_, ?_⟩
  · rw [hsize, hf.toNat_nextAvailable hbase, Nat.add_assoc, ← Nat.mul_add, htwo]
  · have hsplit : f.transitions.length = (f.transitionsOn symbol).length +
        (f.transitionsOff symbol).length := List.length_eq_length_filter_add _
    have hlength : (expansionFragment f symbol g' base).transitions.length =
        (f.transitionsOff symbol).length + _ := List.length_append
    rw [length_flatMap_sites hg] at hlength
    omega

end Nfa

end Recognizer
