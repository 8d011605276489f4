/-
# Where the states of a graft go

A graft that can be carried out sends the fused ends of its fragment to their hosts and all other
states to different identifiers from the base on.  So a state of the copy that lies below the base
is a fused end.  This module proves that (`Graft.image_eq_shifted`, `Graft.image_inj`) and lists the
transitions of a graft (`Graft.mem_transitions_iff`).  Then it looks at the copy of a fragment
between two host states, whose ends are fused when they are clean and linked otherwise: such a copy
has the place in a layout that its ends say (`Layout.Spliced`, `Layout.Spliced.origin`).
-/
import Recognizer.Nfa.Graft
import Recognizer.Proofs.Layout

namespace Recognizer

variable {α : Type}

/-- Where the entries of a list are numbered one after the other, each has the number of its
position. -/
theorem apply_getElem_of_map_eq_range' {l : List StateId} {number : StateId → Nat} {first i : Nat}
    (h : l.map number = List.range' first l.length) (hi : i < l.length) :
    number l[i] = first + i := by
  have hnumber : (l.map number)[i]? = (List.range' first l.length)[i]? := by rw [h]
  rw [List.getElem?_map, List.getElem?_eq_getElem hi, List.getElem?_range' hi] at hnumber
  simpa using hnumber

namespace Graft

variable {g : Graft α} {p q host : StateId}

/-! ## 1. Identifiers -/

theorem mem_unfused_iff : q ∈ g.unfused ↔ q ∈ g.fragment.states ∧ g.fusions.lookup q = none := by
  rw [unfused, List.mem_filter, Option.isNone_iff_eq_none, StateSet.mem_members]

/-- A fused end becomes its host. -/
theorem image_of_lookup (h : g.fusions.lookup q = some host) : g.image q = host := by
  rw [image, place, h]
  rfl

/-- A state that is not fused is moved from the base on by its position among such states. -/
theorem image_eq_shifted (hq : q ∈ g.unfused) :
    ∃ i, ∃ h : i < g.unfused.length, g.unfused[i] = q ∧ g.image q = g.base.shifted i := by
  have hlookup := (mem_unfused_iff.mp hq).2
  obtain ⟨i, hi⟩ := Option.isSome_iff_exists.mp (List.isSome_idxOf?.mpr hq)
  obtain ⟨hlt, heq, -⟩ := List.idxOf?_eq_some_iff.mp hi
  refine ⟨i, hlt, heq, ?_⟩
  rw [image, place, hlookup, hi]
  rfl

/-- No identifier up to the next free one wraps around. -/
theorem toNat_shifted (hfit : g.base.Fits g.unfused.length) {i : Nat} (hi : i ≤ g.unfused.length) :
    (g.base.shifted i).toNat = g.base.toNat + i := by
  have hfits : g.base.Fits i := by
    obtain ⟨-, hlt⟩ := hfit
    constructor <;> omega
  have := StateId.toNat_shifted hfits
  omega

theorem toNat_next (hfit : g.base.Fits g.unfused.length) :
    g.next.toNat = g.base.toNat + g.unfused.length :=
  toNat_shifted hfit (Nat.le_refl _)

/-- The states that are not fused take the identifiers between the base and the next free one. -/
theorem image_mem_range (hfit : g.base.Fits g.unfused.length) (hq : q ∈ g.unfused) :
    g.base.toNat ≤ (g.image q).toNat ∧ (g.image q).toNat < g.next.toNat := by
  obtain ⟨i, hi, -, himage⟩ := image_eq_shifted hq
  rw [himage, toNat_shifted hfit (Nat.le_of_lt hi), toNat_next hfit]
  omega

/-- Different states that are not fused go to different places. -/
theorem image_inj (hfit : g.base.Fits g.unfused.length) (hp : p ∈ g.unfused) (hq : q ∈ g.unfused)
    (h : g.image p = g.image q) : p = q := by
  obtain ⟨i, hi, rfl, hpi⟩ := image_eq_shifted hp
  obtain ⟨j, hj, rfl, hqj⟩ := image_eq_shifted hq
  have hij : (g.base.shifted i).toNat = (g.base.shifted j).toNat := by rw [← hpi, ← hqj, h]
  rw [toNat_shifted hfit (Nat.le_of_lt hi), toNat_shifted hfit (Nat.le_of_lt hj)] at hij
  obtain rfl : i = j := by omega
  rfl

/-! ## 2. Transitions -/

theorem mem_transitions_iff {t : Transition α} : t ∈ g.transitions ↔
    (∃ host, g.entry = .link host ∧
      t = ⟨host, g.fragment.epsilon, g.image g.fragment.initial⟩) ∨
    (∃ u ∈ g.fragment.transitions, t = u.rename g.image) ∨
    ∃ host, g.exitJoint = some (.link host) ∧ t = ⟨g.accepting, g.fragment.epsilon, host⟩ := by
  have hentry : t ∈ g.entryLink ↔ ∃ host, g.entry = .link host ∧
      t = ⟨host, g.fragment.epsilon, g.image g.fragment.initial⟩ := by
    unfold entryLink linkIn
    split <;> rename_i h <;> simp [h]
  have hexit : t ∈ g.exitLink ↔ ∃ host, g.exitJoint = some (.link host) ∧
      t = ⟨g.accepting, g.fragment.epsilon, host⟩ := by
    unfold exitLink linkOut
    split
    · rename_i h
      simp [h, accepting]
    · rename_i h
      simp only [List.not_mem_nil, false_iff]
      rintro ⟨host, hhost, -⟩
      exact h host hhost
  rw [transitions, List.mem_append, List.mem_append, hentry, hexit, List.mem_map, or_assoc]
  simp only [eq_comm]

end Graft

/-! ## 3. A copy between two host states -/

section Splice

variable {f : Fragment α} {base source target host q : StateId}

theorem Fragment.entryJoint_eq_link_iff :
    f.entryJoint source = .link host ↔ f.hasIncoming f.initial = true ∧ source = host := by
  unfold Fragment.entryJoint
  split <;> rename_i h <;> simp [h]

/-- The exit of a spliced copy is linked when transitions leave it, and also when the fragment ends
where it starts. -/
theorem Fragment.exitJoint_splice : (f.splice base source target).exitJoint =
    some (if f.hasOutgoing f.exit = true ∨ f.exit = f.initial then .link target
      else .fuse target) := by
  unfold Graft.exitJoint Fragment.splice Fragment.exitJoint
  by_cases hout : f.hasOutgoing f.exit = true
  · simp only [hout, if_true, true_or]
  · by_cases heq : f.exit = f.initial
    · simp only [if_neg hout, if_pos heq, if_pos (Or.inr heq)]
    · have hneither : ¬ (f.hasOutgoing f.exit = true ∨ f.exit = f.initial) := fun h =>
        h.elim hout heq
      simp only [if_neg hout, if_neg heq, if_neg hneither]

theorem Fragment.exitJoint_splice_eq_link_iff :
    (f.splice base source target).exitJoint = some (.link host) ↔
      (f.hasOutgoing f.exit = true ∨ f.exit = f.initial) ∧ target = host := by
  rw [exitJoint_splice, Option.some.injEq]
  by_cases h : f.hasOutgoing f.exit = true ∨ f.exit = f.initial
  · rw [if_pos h, Joint.link.injEq]
    exact ⟨fun ht => ⟨h, ht⟩, fun ht => ht.2⟩
  · rw [if_neg h]
    exact ⟨fun ht => absurd ht (by simp), fun ht => absurd ht.1 h⟩

/-- The ends that are fused, and the host states that they become. -/
theorem Fragment.lookup_splice : (f.splice base source target).fusions.lookup q =
    if q = f.initial ∧ f.hasIncoming f.initial = false then some source
    else if q = f.exit ∧ f.hasOutgoing f.exit = false ∧ f.exit ≠ f.initial then some target
    else none := by
  unfold Graft.fusions
  rw [exitJoint_splice, List.lookup_append]
  unfold Fragment.splice Fragment.entryJoint
  cases hin : f.hasIncoming f.initial <;> cases hout : f.hasOutgoing f.exit <;>
    by_cases heq : f.exit = f.initial <;> by_cases hq : q = f.initial <;> simp [heq, hq]

/-- A clean initial state becomes the source. -/
theorem Fragment.image_initial (h : f.hasIncoming f.initial = false) :
    (f.splice base source target).image f.initial = source := by
  apply Graft.image_of_lookup
  rw [lookup_splice, if_pos ⟨rfl, h⟩]

/-- A clean exit becomes the target. -/
theorem Fragment.image_exit (h : f.hasOutgoing f.exit = false) (hne : f.exit ≠ f.initial) :
    (f.splice base source target).image f.exit = target := by
  apply Graft.image_of_lookup
  rw [lookup_splice, if_neg fun h => hne h.1, if_pos ⟨rfl, h, hne⟩]

/-- A state of the fragment is a clean initial state, a clean exit, or is not fused. -/
theorem Fragment.splice_cases (base source target : StateId) (hq : q ∈ f.states) :
    (q = f.initial ∧ f.hasIncoming q = false) ∨
    (q = f.exit ∧ f.hasOutgoing q = false ∧ f.exit ≠ f.initial) ∨
    q ∈ (f.splice base source target).unfused := by
  have hlookup : (f.splice base source target).fusions.lookup q = _ := lookup_splice
  split at hlookup
  · rename_i h
    obtain ⟨rfl, hin⟩ := h
    exact Or.inl ⟨rfl, hin⟩
  · split at hlookup
    · rename_i h
      obtain ⟨rfl, hout, hne⟩ := h
      exact Or.inr (Or.inl ⟨rfl, hout, hne⟩)
    · exact Or.inr (Or.inr (Graft.mem_unfused_iff.mpr ⟨hq, hlookup⟩))

/-- An initial state that some transition enters is not fused. -/
theorem Fragment.initial_mem_unfused (base source target : StateId)
    (h : f.hasIncoming f.initial = true) :
    f.initial ∈ (f.splice base source target).unfused := by
  rcases splice_cases base source target f.initial_mem_states with
    ⟨-, hin⟩ | ⟨heq, -, hne⟩ | hmem
  · exact absurd (h.symm.trans hin) (by simp)
  · exact absurd heq.symm hne
  · exact hmem

end Splice

/-! ## 4. Spliced copies in a layout -/

/-- Copy `i` of a layout is spliced between two host states, and the states that it has for itself
lie from a base on that is above the host. -/
structure Layout.Spliced [Ord α] {ι : Type} (L : Layout ι α) (n : Nfa α) (i : ι)
    (base source target : StateId) : Prop where
  image_eq : L.image i = ((L.part i).splice base source target).image
  fits : base.Fits ((L.part i).splice base source target).unfused.length
  silent : n.IsEpsilon (L.part i).epsilon
  host_source : L.Host source
  host_target : L.Host target
  enters_iff : ∀ p, L.Enters i p ↔ p = source
  leaves_iff : ∀ q, L.Leaves i q ↔ q = target
  below : ∀ p, L.Host p → p.toNat < base.toNat
  mem : ∀ t ∈ ((L.part i).splice base source target).transitions, t ∈ n.transitions

namespace Layout.Spliced

variable [Ord α] {ι : Type} {L : Layout ι α} {n : Nfa α} {i : ι} {base source target : StateId}
  {p q : StateId} {t : Transition α}

/-- A state that is not fused is no host state. -/
theorem not_host (h : L.Spliced n i base source target)
    (hq : q ∈ ((L.part i).splice base source target).unfused) : ¬ L.Host (L.image i q) := by
  intro hhost
  have hlt := h.below _ hhost
  have hle := (Graft.image_mem_range h.fits hq).1
  rw [h.image_eq] at hlt
  exact absurd hlt (Nat.not_lt.mpr hle)

/-- Only clean ends become host states. -/
theorem fused (h : L.Spliced n i base source target) (hq : q ∈ (L.part i).states)
    (hhost : L.Host (L.image i q)) :
    (q = (L.part i).initial ∧ (L.part i).hasIncoming q = false ∧ L.Enters i (L.image i q)) ∨
      (q = (L.part i).exit ∧ (L.part i).hasOutgoing q = false ∧ L.Leaves i (L.image i q)) := by
  rcases Fragment.splice_cases base source target hq with
    ⟨rfl, hin⟩ | ⟨rfl, hout, hne⟩ | hmem
  · refine Or.inl ⟨rfl, hin, (h.enters_iff _).mpr ?_⟩
    rw [h.image_eq, Fragment.image_initial hin]
  · refine Or.inr ⟨rfl, hout, (h.leaves_iff _).mpr ?_⟩
    rw [h.image_eq, Fragment.image_exit hout hne]
  · exact absurd hhost (h.not_host hmem)

/-- A state outside of the host is not fused. -/
theorem mem_unfused (h : L.Spliced n i base source target) (hq : q ∈ (L.part i).states)
    (hinner : ¬ L.Host (L.image i q)) :
    q ∈ ((L.part i).splice base source target).unfused := by
  rw [h.image_eq] at hinner
  rcases Fragment.splice_cases base source target hq with
    ⟨rfl, hin⟩ | ⟨rfl, hout, hne⟩ | hmem
  · rw [Fragment.image_initial hin] at hinner
    exact absurd h.host_source hinner
  · rw [Fragment.image_exit hout hne] at hinner
    exact absurd h.host_target hinner
  · exact hmem

/-- The states outside of the host lie between the base and the next free identifier. -/
theorem image_mem_range (h : L.Spliced n i base source target) (hq : q ∈ (L.part i).states)
    (hinner : ¬ L.Host (L.image i q)) :
    base.toNat ≤ (L.image i q).toNat ∧
      (L.image i q).toNat < ((L.part i).splice base source target).next.toNat := by
  have hmem := h.mem_unfused hq hinner
  rw [h.image_eq]
  exact Graft.image_mem_range h.fits hmem

/-- Different states of the fragment stay different outside of the host. -/
theorem image_inj (h : L.Spliced n i base source target) (hp : p ∈ (L.part i).states)
    (hq : q ∈ (L.part i).states) (hinner : ¬ L.Host (L.image i p))
    (heq : L.image i p = L.image i q) : p = q := by
  have hmp := h.mem_unfused hp hinner
  have hmq := h.mem_unfused hq (heq ▸ hinner)
  rw [h.image_eq] at heq
  exact Graft.image_inj h.fits hmp hmq heq

theorem copy_mem (h : L.Spliced n i base source target) (ht : t ∈ (L.part i).transitions) :
    t.rename (L.image i) ∈ n.transitions := by
  rw [h.image_eq]
  exact h.mem _ (Graft.mem_transitions_iff.mpr (Or.inr (Or.inl ⟨t, ht, rfl⟩)))

/-- The copy is entered from its source without reading anything. -/
theorem enter (h : L.Spliced n i base source target) (hp : L.Enters i p) :
    n.Path p [] (L.image i (L.part i).initial) := by
  rw [(h.enters_iff p).mp hp, h.image_eq]
  cases hin : (L.part i).hasIncoming (L.part i).initial with
  | false =>
    rw [Fragment.image_initial hin]
    exact .refl source
  | true =>
    have hlink : (L.part i).entryJoint source = .link source :=
      Fragment.entryJoint_eq_link_iff.mpr ⟨hin, rfl⟩
    have ht := h.mem _ (Graft.mem_transitions_iff.mpr (Or.inl ⟨source, hlink, rfl⟩))
    exact Nfa.Path.silent ht h.silent (.refl _)

/-- The copy is left to its target without reading anything. -/
theorem leave (h : L.Spliced n i base source target) (hq : L.Leaves i q) :
    n.Path (L.image i (L.part i).exit) [] q := by
  rw [(h.leaves_iff q).mp hq, h.image_eq]
  by_cases hjoint : (L.part i).hasOutgoing (L.part i).exit = true ∨
    (L.part i).exit = (L.part i).initial
  · have hlink : ((L.part i).splice base source target).exitJoint = some (.link target) :=
      Fragment.exitJoint_splice_eq_link_iff.mpr ⟨hjoint, rfl⟩
    have ht := h.mem _ (Graft.mem_transitions_iff.mpr (Or.inr (Or.inr ⟨target, hlink, rfl⟩)))
    exact Nfa.Path.silent ht h.silent (.refl _)
  · obtain ⟨hout, hne⟩ := not_or.mp hjoint
    rw [Fragment.image_exit (Bool.eq_false_iff.mpr hout) hne]
    exact .refl target

/-- Every transition that the copy brings has its place in the layout. -/
theorem origin (h : L.Spliced n i base source target)
    (ht : t ∈ ((L.part i).splice base source target).transitions) : L.Origin n t := by
  rcases Graft.mem_transitions_iff.mp ht with ⟨host, hlink, rfl⟩ | ⟨u, hu, rfl⟩ |
    ⟨host, hlink, rfl⟩
  · obtain ⟨hin, rfl⟩ := Fragment.entryJoint_eq_link_iff.mp hlink
    have hmem := Fragment.initial_mem_unfused base source target hin
    refine .entry i h.silent ((h.enters_iff _).mpr rfl) ?_ ?_
    · rw [h.image_eq]
      rfl
    · have hinner := h.not_host hmem
      rwa [h.image_eq] at hinner
  · have hcopy : L.Origin n (u.rename (L.image i)) := .copy i hu
    rwa [h.image_eq] at hcopy
  · obtain ⟨hjoint, rfl⟩ := Fragment.exitJoint_splice_eq_link_iff.mp hlink
    refine .exit i h.silent ((h.leaves_iff _).mpr rfl) ?_ ?_
    · rw [h.image_eq]
      rfl
    · intro hhost
      have hhost : L.Host (L.image i (L.part i).exit) := by rwa [h.image_eq]
      rcases Fragment.splice_cases base source target
        (L.part i).exit_mem_states with ⟨heq, hin⟩ | ⟨-, hout, hne⟩ | hmem
      · refine ⟨(h.enters_iff _).mpr ?_, heq⟩
        rw [heq] at hin
        have himage : ((L.part i).splice base source target).image (L.part i).exit = source := by
          rw [heq]
          exact Fragment.image_initial hin
        exact himage
      · exact absurd hjoint (not_or.mpr ⟨Bool.eq_false_iff.mp hout, hne⟩)
      · exact absurd hhost (h.not_host hmem)

end Layout.Spliced

end Recognizer
