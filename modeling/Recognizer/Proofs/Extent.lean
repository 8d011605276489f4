/-
# How much a copy adds

A graft brings a copy of its fragment to a host: the states that are not fused, which take the
identifiers from the base up to the next free one and leave none of them out, and the transitions of
the fragment with one more for each end that is linked.  For a compact fragment between two host
states both numbers are fixed by the fragment alone: its initial state is always fused, and its exit
unless transitions leave it (`Fragment.exitLinks`).

* `Graft.length_unfused`: every state of the fragment is fused or not;
* `Graft.lt_next_iff`: the copy fills up the identifiers to the next free one;
* `Fragment.Compact.length_unfused_splice`, `Fragment.Compact.length_transitions_splice`: the states
  and transitions of a spliced copy.
-/
import Recognizer.Proofs.Compact
import Recognizer.Proofs.Grafting

namespace Recognizer

variable {α : Type}

/-! ## 1. States of a copy -/

namespace Graft

variable {g : Graft α} {q : StateId}

theorem nodup_unfused (g : Graft α) : g.unfused.Nodup := g.fragment.states.nodup_members.filter _

theorem lookup_eq_none_iff : g.fusions.lookup q = none ↔ q ∉ g.fusions.map (·.1) := by
  rw [List.lookup_eq_none_iff, List.mem_map, not_exists]
  constructor
  · rintro h e ⟨he, rfl⟩
    exact absurd (h e he) (by simp)
  · intro h e he
    exact bne_iff_ne.mpr fun heq => h e ⟨he, heq.symm⟩

/-- Every state of the fragment is fused or not. -/
theorem length_unfused {fused : List StateId} (heq : g.fusions.map (·.1) = fused)
    (hnodup : fused.Nodup) (hmem : ∀ q ∈ fused, q ∈ g.fragment.states) :
    g.unfused.length + fused.length = g.fragment.states.size := by
  have hperm : (g.fragment.states.members.filter
      fun q => !(g.fusions.lookup q).isNone).Perm fused := by
    refine (List.perm_ext_iff_of_nodup (g.fragment.states.nodup_members.filter _) hnodup).mpr ?_
    intro q
    rw [List.mem_filter, Bool.not_eq_true', ← Bool.not_eq_true, Option.isNone_iff_eq_none,
      lookup_eq_none_iff, not_not, heq]
    exact ⟨And.right, fun h => ⟨hmem q h, h⟩⟩
  rw [unfused, StateSet.size, ← hperm.length_eq]
  exact (List.length_eq_length_filter_add _).symm

/-- The copy takes every identifier from the base up to the next free one. -/
theorem exists_image (hfit : g.base.Fits g.unfused.length) (hlo : g.base.toNat ≤ q.toNat)
    (hhi : q.toNat < g.next.toNat) : ∃ p ∈ g.unfused, g.image p = q := by
  rw [toNat_next hfit] at hhi
  have hi : q.toNat - g.base.toNat < g.unfused.length := by omega
  refine ⟨g.unfused[q.toNat - g.base.toNat], List.getElem_mem hi, ?_⟩
  obtain ⟨j, hj, heq, himage⟩ := image_eq_shifted (List.getElem_mem hi)
  have hij := g.nodup_unfused.getElem_inj_iff.mp heq
  have hshifted := toNat_shifted hfit (Nat.le_of_lt hj)
  rw [himage]
  apply UInt32.toNat_inj.mp
  omega

/-- A state goes to a host state of a fused end or is not fused. -/
theorem fused_or_mem_unfused (hq : q ∈ g.fragment.states) :
    (∃ e ∈ g.fusions, g.image q = e.2) ∨ q ∈ g.unfused := by
  cases hlookup : g.fusions.lookup q with
  | none => exact Or.inr (mem_unfused_iff.mpr ⟨hq, hlookup⟩)
  | some host =>
    obtain ⟨before, after, heq, -⟩ := List.lookup_eq_some_iff.mp hlookup
    have hmem : (q, host) ∈ g.fusions := heq ▸ List.mem_append_right before List.mem_cons_self
    exact Or.inl ⟨(q, host), hmem, image_of_lookup hlookup⟩

/-- **The identifiers of a copy.**  Where the fused ends go below the base, the copy fills up the
identifiers from there to the next free one. -/
theorem lt_next_iff (hfit : g.base.Fits g.unfused.length)
    (hhost : ∀ e ∈ g.fusions, e.2.toNat < g.base.toNat) :
    q.toNat < g.next.toNat ↔
      q.toNat < g.base.toNat ∨ ∃ p ∈ g.fragment.states, g.image p = q := by
  have hnext := toNat_next hfit
  constructor
  · intro hq
    by_cases hlt : q.toNat < g.base.toNat
    · exact Or.inl hlt
    · obtain ⟨p, hp, rfl⟩ := exists_image hfit (Nat.not_lt.mp hlt) hq
      exact Or.inr ⟨p, (mem_unfused_iff.mp hp).1, rfl⟩
  · rintro (hq | ⟨p, hp, rfl⟩)
    · omega
    · rcases fused_or_mem_unfused hp with ⟨e, he, himage⟩ | hmem
      · have hlt := hhost e he
        rw [himage]
        omega
      · exact (image_mem_range hfit hmem).2

end Graft

/-! ## 2. Spliced copies of compact fragments -/

namespace Fragment

variable {f : Fragment α} {base source target q : StateId}

/-- How many silent transitions a copy between two host states needs at its exit: one if transitions
leave the exit, which then stays a state of its own, and none otherwise. -/
def exitLinks (f : Fragment α) : Nat := if f.hasOutgoing f.exit then 1 else 0

/-- The ends of a spliced copy are fused with its two host states. -/
theorem mem_fusions_splice {e : StateId × StateId}
    (he : e ∈ (f.splice base source target).fusions) : e.2 = source ∨ e.2 = target := by
  rw [Graft.fusions, exitJoint_splice, splice, entryJoint] at he
  rcases List.mem_append.mp he with he | he
  · by_cases hin : f.hasIncoming f.initial
    · simp [hin] at he
    · simp only [hin, Bool.false_eq_true, if_false, List.mem_singleton] at he
      exact Or.inl (he ▸ rfl)
  · by_cases hout : f.hasOutgoing f.exit = true ∨ f.exit = f.initial
    · simp [hout] at he
    · simp only [hout, if_false, List.mem_singleton] at he
      exact Or.inr (he ▸ rfl)

/-- A copy between two states below the base fills up the identifiers to the next free one. -/
theorem lt_next_splice_iff (hfit : base.Fits (f.splice base source target).unfused.length)
    (hsource : source.toNat < base.toNat) (htarget : target.toNat < base.toNat) :
    q.toNat < (f.splice base source target).next.toNat ↔
      q.toNat < base.toNat ∨ ∃ p ∈ f.states, (f.splice base source target).image p = q := by
  refine Graft.lt_next_iff hfit fun e he => ?_
  rcases mem_fusions_splice he with heq | heq
  · rw [heq]
    exact hsource
  · rw [heq]
    exact htarget

namespace Compact

theorem exitJoint_splice (h : f.Compact) : (f.splice base source target).exitJoint =
    some (if f.hasOutgoing f.exit then .link target else .fuse target) := by
  rw [Fragment.exitJoint_splice]
  simp only [h.exit_ne_initial, or_false]

/-- The initial state is fused, and the exit unless transitions leave it. -/
theorem fused_splice (h : f.Compact) (base source target : StateId) :
    (f.splice base source target).fusions.map (·.1) =
      f.initial :: if f.hasOutgoing f.exit then [] else [f.exit] := by
  rw [Graft.fusions, h.exitJoint_splice]
  cases hout : f.hasOutgoing f.exit <;> simp [splice, entryJoint, h.entry_clean]

/-- The states that a copy between two host states has for itself: all that are not fused. -/
theorem length_unfused_splice (h : f.Compact) :
    (f.splice base source target).unfused.length + 2 = f.states.size + f.exitLinks := by
  have hinit : f.initial ∈ f.states := f.initial_mem_states
  have hexit : f.exit ∈ f.states := f.exit_mem_states
  have hfused := h.fused_splice base source target
  unfold exitLinks
  cases hout : f.hasOutgoing f.exit with
  | true =>
    rw [hout] at hfused
    have hlength := Graft.length_unfused hfused (List.nodup_singleton _)
      (List.forall_mem_singleton.mpr hinit)
    exact congrArg (· + 1) hlength
  | false =>
    rw [hout] at hfused
    have hnodup : [f.initial, f.exit].Nodup := by simpa using h.exit_ne_initial.symm
    have hmem : ∀ q ∈ [f.initial, f.exit], q ∈ f.states :=
      List.forall_mem_cons.mpr ⟨hinit, List.forall_mem_singleton.mpr hexit⟩
    exact Graft.length_unfused hfused hnodup hmem

/-- The transitions that such a copy brings. -/
theorem length_transitions_splice (h : f.Compact) :
    (f.splice base source target).transitions.length = f.transitions.length + f.exitLinks := by
  have hentry : (f.splice base source target).entryLink = [] := by
    simp [Graft.entryLink, Graft.linkIn, splice, entryJoint, h.entry_clean]
  have hexit : (f.splice base source target).exitLink.length = f.exitLinks := by
    rw [Graft.exitLink, Graft.linkOut, h.exitJoint_splice, exitLinks]
    cases f.hasOutgoing f.exit <;> rfl
  rw [Graft.transitions, hentry, List.nil_append, List.length_append, List.length_map, hexit]
  rfl

end Compact

end Fragment

end Recognizer
