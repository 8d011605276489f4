/-
# Compact fragments

A fragment is *compact* when no identifier and no state is wasted: its initial state is 0 and no
transition enters it, its exit is another state, its states are the identifiers below their number,
and each of them lies on a way from the initial state to the exit.  Every automaton that is built
from literals is compact, so the invariant is what the theorems about such automata rest on.

The two halves of compactness need each other.  That no identifier below a bound is free can only be
seen from the transitions that mention it, and there is one because the state is on a way.  So a
fragment is shown to be compact from a bound below which every identifier is on a way
(`compact_of_ways`); for automata with a layout it is enough that the host and the images of the
parts make up such a range (`Describes.compact`).

* `StateSet.size_eq_of_mem_iff`: a set of the identifiers below a number has that size;
* `Fragment.compact_of_ways`: what makes a fragment compact, and its number of states;
* `Fragment.Compact.toNat_nextAvailable`: the next free identifier is the number of states;
* `Layout.Describes.compact`: the same for an automaton with a layout.
-/
import Mathlib.Data.List.Nodup
import Mathlib.Data.List.Perm.Subperm
import Recognizer.Proofs.Layout
import Recognizer.Proofs.Outcome

namespace Recognizer

/-! ## 1. Counting identifiers -/

namespace StateSet

variable {s : StateSet} {k : Nat}

theorem nodup_toNat_members (s : StateSet) : (s.members.map UInt32.toNat).Nodup :=
  s.nodup_members.map fun _ _ => UInt32.toNat_inj.mp

/-- A set has no more members than there are identifiers. -/
theorem size_le (s : StateSet) : s.size ≤ UInt32.size := by
  have hsub : s.members.map UInt32.toNat ⊆ List.range UInt32.size := by
    intro i hi
    obtain ⟨q, -, rfl⟩ := List.mem_map.mp hi
    exact List.mem_range.mpr q.toNat_lt_size
  have hle := (List.subperm_of_subset s.nodup_toNat_members hsub).length_le
  rwa [List.length_map, List.length_range] at hle

/-- A set of the identifiers below a number has that size. -/
theorem size_eq_of_mem_iff (hk : k ≤ UInt32.size) (h : ∀ q, q ∈ s ↔ q.toNat < k) : s.size = k := by
  have hperm : (s.members.map UInt32.toNat).Perm (List.range k) := by
    refine (List.perm_ext_iff_of_nodup s.nodup_toNat_members List.nodup_range).mpr fun i => ?_
    rw [List.mem_map, List.mem_range]
    constructor
    · rintro ⟨q, hq, rfl⟩
      exact (h q).mp hq
    · intro hi
      have hq : (UInt32.ofNat i).toNat = i := UInt32.toNat_ofNat_of_lt' (Nat.lt_of_lt_of_le hi hk)
      exact ⟨UInt32.ofNat i, (h _).mpr (hq.symm ▸ hi), hq⟩
  have hlength := hperm.length_eq
  rwa [List.length_map, List.length_range] at hlength

end StateSet

/-! ## 2. Walks along transitions -/

namespace StateGraph

variable {α : Type} {g g' : StateGraph α} {t : Transition α} {p q : StateId}

theorem mem_edges : (p, q) ∈ g.edges ↔ ∃ t ∈ g.transitions, t.source = p ∧ t.target = q := by
  simp [edges]

theorem leads_of_mem (h : t ∈ g.transitions) : Leads g.edges t.source t.target :=
  .tail .refl (mem_edges.mpr ⟨t, h, rfl, rfl⟩)

/-- What a state leads to is a state. -/
theorem mem_states_of_leads (hp : p ∈ g.states) (h : Leads g.edges p q) : q ∈ g.states := by
  cases h with
  | refl => exact hp
  | tail _ he =>
    obtain ⟨t, ht, -, rfl⟩ := mem_edges.mp he
    exact target_mem_states ht

/-- What leads to a state is a state. -/
theorem mem_states_of_leads_to (hq : q ∈ g.states) (h : Leads g.edges p q) : p ∈ g.states := by
  induction h with
  | refl => exact hq
  | tail _ he ih =>
    obtain ⟨t, ht, rfl, -⟩ := mem_edges.mp he
    exact ih (source_mem_states ht)

/-- If each transition becomes a walk in another graph, so does each walk. -/
theorem leads_map {f : StateId → StateId}
    (hwalk : ∀ t ∈ g.transitions, Leads g'.edges (f t.source) (f t.target))
    (h : Leads g.edges p q) : Leads g'.edges (f p) (f q) := by
  refine h.map fun p q he => ?_
  obtain ⟨t, ht, rfl, rfl⟩ := mem_edges.mp he
  exact hwalk t ht

end StateGraph

/-- A path goes along transitions. -/
theorem Nfa.Path.leads {α : Type} [Ord α] {n : Nfa α} {p q : StateId} {w : List α}
    (h : n.Path p w q) : Leads n.edges p q := by
  induction h with
  | refl => exact .refl
  | silent mem _ _ ih => exact (StateGraph.leads_of_mem mem).trans ih
  | read mem _ _ _ ih => exact (StateGraph.leads_of_mem mem).trans ih

/-! ## 3. Compact fragments -/

namespace Fragment

variable {α : Type} {f g : Fragment α} {p q base : StateId} {k : Nat}

/-- A fragment is determined by its automaton. -/
theorem toNfa_inj (h : f.toNfa = g.toNfa) : f = g := by
  obtain ⟨n, exit, hexit⟩ := f
  obtain ⟨m, exit', hexit'⟩ := g
  obtain rfl : n = m := h
  obtain rfl : exit = exit' := (List.cons.inj (hexit.symm.trans hexit')).1
  rfl

/-- The state lies on a way from the initial state to the exit. -/
def OnTheWay (f : Fragment α) (q : StateId) : Prop :=
  Leads f.edges f.initial q ∧ Leads f.edges q f.exit

theorem OnTheWay.mem_states (h : f.OnTheWay q) : q ∈ f.states :=
  StateGraph.mem_states_of_leads f.initial_mem_states h.1

/-- No identifier below the number of states is free, no state is off the ways from the initial
state to the exit, and nothing comes back to the initial state. -/
structure Compact (f : Fragment α) : Prop where
  initial_eq : f.initial = 0
  entry_clean : f.hasIncoming f.initial = false
  exit_ne : f.exit ≠ 0
  mem_states_iff : ∀ q, q ∈ f.states ↔ q.toNat < f.states.size
  onTheWay : ∀ q ∈ f.states, f.OnTheWay q

/-- **What makes a fragment compact.**  A bound on the states below which every identifier is on a
way from the initial state to the exit; the bound is then the number of states. -/
theorem compact_of_ways (hinitial : f.initial = 0) (hexit : f.exit ≠ 0)
    (hclean : ∀ t ∈ f.transitions, t.target ≠ f.initial) (hk : k ≤ UInt32.size)
    (hlt : ∀ q ∈ f.states, q.toNat < k) (hway : ∀ q : StateId, q.toNat < k → f.OnTheWay q) :
    f.Compact ∧ f.states.size = k := by
  have hmem : ∀ q, q ∈ f.states ↔ q.toNat < k := fun q => ⟨hlt q, fun h => (hway q h).mem_states⟩
  have hsize : f.states.size = k := StateSet.size_eq_of_mem_iff hk hmem
  refine ⟨⟨hinitial, ?_, hexit, ?_, fun q hq => hway q (hlt q hq)⟩, hsize⟩
  · refine Bool.eq_false_iff.mpr fun hin => ?_
    obtain ⟨t, ht, htarget⟩ := StateGraph.hasIncoming_iff.mp hin
    exact hclean t ht htarget
  · rwa [hsize]

namespace Compact

theorem exit_ne_initial (h : f.Compact) : f.exit ≠ f.initial := by
  rw [h.initial_eq]
  exact h.exit_ne

/-- The initial state leads to the exit. -/
theorem leads_exit (h : f.Compact) : Leads f.edges f.initial f.exit :=
  (h.onTheWay f.exit f.exit_mem_states).1

/-- The largest state is one below the number of states. -/
theorem toNat_top (h : f.Compact) : f.top.toNat + 1 = f.states.size := by
  have hlt := (h.mem_states_iff f.top).mp (StateGraph.top_mem_states _)
  have hle := f.states.size_le
  by_contra hne
  have hnext : (UInt32.ofNat (f.top.toNat + 1)).toNat = f.top.toNat + 1 :=
    UInt32.toNat_ofNat_of_lt' (by omega)
  have hmem : UInt32.ofNat (f.top.toNat + 1) ∈ f.states := (h.mem_states_iff _).mpr (by omega)
  have htop := UInt32.le_iff_toNat_le.mp (StateGraph.le_top hmem)
  omega

/-- The next free identifier is the number of states. -/
theorem toNat_nextAvailable (h : f.Compact) (hbase : f.nextAvailable = .ok base) :
    base.toNat = f.states.size := by
  rw [StateGraph.nextAvailable_eq_ok_iff.mp hbase, h.toNat_top]

/-- Every identifier below the next free one is a state. -/
theorem mem_states_iff_lt (h : f.Compact) (hbase : f.nextAvailable = .ok base) :
    q ∈ f.states ↔ q.toNat < base.toNat := by
  rw [h.toNat_nextAvailable hbase]
  exact h.mem_states_iff q

end Compact

end Fragment

/-! ## 4. Layouts that fill a range -/

namespace Layout

variable {ι α : Type} [Ord α] {L : Layout ι α} {n : Nfa α} {r : Fragment α} {i : ι}
  {t : Transition α} {p q s : StateId} {k : Nat}

/-- A walk in a part is a walk in its copy. -/
theorem Describes.leads_copy (h : L.Describes n) (hpart : Leads (L.part i).edges p q) :
    Leads n.edges (L.image i p) (L.image i q) :=
  StateGraph.leads_map (fun t ht => StateGraph.leads_of_mem (h.copy_mem i t ht)) hpart

/-- A part that leads from its initial state to its exit makes a walk between host states. -/
theorem Describes.leads_through (h : L.Describes n)
    (hpart : Leads (L.part i).edges (L.part i).initial (L.part i).exit) (henters : L.Enters i p)
    (hleaves : L.Leaves i q) : Leads n.edges p q :=
  (h.enter henters).leads.trans ((h.leads_copy hpart).trans (h.leave hleaves).leads)

/-- `L.Covers q`: the state is a host state or a state of a copy. -/
def Covers (L : Layout ι α) (q : StateId) : Prop :=
  L.Host q ∨ ∃ i, ∃ p ∈ (L.part i).states, L.image i p = q

/-- The ends of a transition are host states or states of copies. -/
theorem Describes.covers_end (h : L.Describes n) (ht : t ∈ n.transitions)
    (hs : s = t.source ∨ s = t.target) : L.Covers s := by
  cases h.origin t ht with
  | own _ hsource htarget =>
    rcases hs with rfl | rfl
    · exact Or.inl hsource
    · exact Or.inl htarget
  | @copy u i hmem =>
    rcases hs with rfl | rfl
    · exact Or.inr ⟨i, u.source, StateGraph.source_mem_states hmem, rfl⟩
    · exact Or.inr ⟨i, u.target, StateGraph.target_mem_states hmem, rfl⟩
  | entry i _ henters htarget =>
    rcases hs with rfl | rfl
    · exact Or.inl (h.enters_host henters)
    · exact Or.inr ⟨i, _, StateGraph.initial_mem_states _, htarget.symm⟩
  | exit i _ hleaves hsource =>
    rcases hs with rfl | rfl
    · exact Or.inr ⟨i, _, (L.part i).exit_mem_states, hsource.symm⟩
    · exact Or.inl (h.leaves_host hleaves)

/-- What a layout covers is a state, if the host states are and every copy is entered and left. -/
theorem Describes.mem_states_of_covers (h : L.Describes n) (hhost : ∀ p, L.Host p → p ∈ n.states)
    (henters : ∀ i, ∃ p, L.Enters i p) (hleaves : ∀ i, ∃ q, L.Leaves i q) (hs : L.Covers s) :
    s ∈ n.states := by
  rcases hs with hs | ⟨i, p, hp, rfl⟩
  · exact hhost s hs
  · rcases StateGraph.mem_states.mp hp with rfl | hacc | ⟨t, ht, hend⟩
    · obtain ⟨p', hp'⟩ := henters i
      exact StateGraph.mem_states_of_leads (hhost p' (h.enters_host hp')) (h.enter hp').leads
    · obtain ⟨q', hq'⟩ := hleaves i
      rw [(L.part i).accepting_eq] at hacc
      rw [List.mem_singleton.mp hacc]
      exact StateGraph.mem_states_of_leads_to (hhost q' (h.leaves_host hq')) (h.leave hq').leads
    · have hcopy := h.copy_mem i t ht
      rcases hend with rfl | rfl
      · exact StateGraph.source_mem_states hcopy
      · exact StateGraph.target_mem_states hcopy

/-- `L.Fills r k`: the host and the copies make up the identifiers below `k`, and whatever the
layout joins is on a way. -/
structure Fills (L : Layout ι α) (r : Fragment α) (k : Nat) : Prop where
  initial_host : L.Host r.initial
  exit_host : L.Host r.exit
  /-- The host starts in 0 and does not come back there. -/
  initial_eq : r.initial = 0
  exit_ne : r.exit ≠ 0
  own_target : ∀ t ∈ L.own, t.target ≠ r.initial
  leaves_ne : ∀ i, ¬ L.Leaves i r.initial
  /-- The copies are entered and left. -/
  enters : ∀ i, ∃ p, L.Enters i p
  leaves : ∀ i, ∃ q, L.Leaves i q
  host_way : ∀ p, L.Host p → r.OnTheWay p
  part_way : ∀ i, ∀ p ∈ (L.part i).states, (L.part i).OnTheWay p
  le : k ≤ UInt32.size
  lt_iff : ∀ q : StateId, q.toNat < k ↔ L.Covers q

/-- A state on the way through its part is on the way through the automaton. -/
theorem Describes.onTheWay_image (h : L.Describes r.toNfa) (hfills : L.Fills r k)
    (hp : p ∈ (L.part i).states) : r.OnTheWay (L.image i p) := by
  obtain ⟨hto, hfrom⟩ := hfills.part_way i p hp
  obtain ⟨p', henters⟩ := hfills.enters i
  obtain ⟨q', hleaves⟩ := hfills.leaves i
  have hinitial := (hfills.host_way p' (h.enters_host henters)).1
  have hexit := (hfills.host_way q' (h.leaves_host hleaves)).2
  constructor
  · exact hinitial.trans ((h.enter henters).leads.trans (h.leads_copy hto))
  · exact ((h.leads_copy hfrom).trans (h.leave hleaves).leads).trans hexit

/-- **An automaton whose layout fills a range is compact**, with as many states as there are
identifiers in the range. -/
theorem Describes.compact (h : L.Describes r.toNfa) (hfills : L.Fills r k) :
    r.Compact ∧ r.states.size = k := by
  refine Fragment.compact_of_ways hfills.initial_eq hfills.exit_ne (fun t ht => ?_) hfills.le
    (fun q hq => (hfills.lt_iff q).mpr ?_) fun q hq => ?_
  · exact h.target_ne ht hfills.initial_host hfills.own_target hfills.leaves_ne
  · rcases StateGraph.mem_states.mp hq with rfl | hacc | ⟨t, ht, hend⟩
    · exact Or.inl hfills.initial_host
    · rw [r.accepting_eq, List.mem_singleton] at hacc
      exact Or.inl (hacc ▸ hfills.exit_host)
    · exact h.covers_end ht hend
  · rcases (hfills.lt_iff q).mp hq with hhost | ⟨i, p, hp, rfl⟩
    · exact hfills.host_way q hhost
    · exact h.onTheWay_image hfills hp

end Layout

end Recognizer
