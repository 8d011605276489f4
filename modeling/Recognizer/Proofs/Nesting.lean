/-
# Copies of copies

A fragment that was put together from a part and a copy behind it (`inner`) can be copied itself.
The same copy can be made in two steps: first the part is copied, and then, from the next free
identifier on, what was behind it, joined to the states that its hosts have become (`Graft.along`).
If the states of the fragment are those of the part with those of the inner copy above them
(`Graft.Nested`), both ways give each state the same identifier and bring the same transitions.

* `Nested.unfused_eq`: the states that are not fused, in their order;
* `Nested.image_part`, `Nested.image_inner`: where the states go;
* `Nested.transitions_eq_append`: the transitions of the whole are those of the two steps.
-/
import Recognizer.Proofs.Extent

namespace Recognizer

/-! ## 1. A copy that follows its hosts -/

namespace Joint

/-- The host state of a joint. -/
def host : Joint → StateId
  | .fuse host => host
  | .link host => host

/-- The joint when the host states are renamed. -/
def map (f : StateId → StateId) : Joint → Joint
  | .fuse host => .fuse (f host)
  | .link host => .link (f host)

end Joint

variable {α : Type}

namespace Graft

variable {g whole part inner : Graft α} {p q host : StateId} {i : Nat}

/-- The copy of the same fragment behind the copy of a part that has its hosts. -/
def along (inner part : Graft α) : Graft α :=
  ⟨inner.fragment, part.next, inner.entry.map part.image, inner.exit.map (·.map part.image)⟩

theorem exitJoint_along :
    (inner.along part).exitJoint = inner.exitJoint.map (·.map part.image) := by
  obtain ⟨f, base, entry, exit⟩ := inner
  rcases exit with _ | host | host
  · rfl
  · by_cases h : f.exit = f.initial <;> simp [along, exitJoint, Joint.map, h]
  · rfl

theorem fusions_along :
    (inner.along part).fusions = inner.fusions.map fun e => (e.1, part.image e.2) := by
  have hentry : (inner.along part).entry = inner.entry.map part.image := rfl
  rw [fusions, fusions, exitJoint_along, hentry, List.map_append]
  congr 1
  · cases inner.entry <;> rfl
  · rcases inner.exitJoint with _ | host | host <;> rfl

theorem lookup_along :
    (inner.along part).fusions.lookup q = (inner.fusions.lookup q).map part.image := by
  rw [fusions_along]
  induction inner.fusions with
  | nil => rfl
  | cons e l ih =>
    rw [List.map_cons, List.lookup_cons, List.lookup_cons, ih]
    cases q == e.1 <;> rfl

theorem unfused_along : (inner.along part).unfused = inner.unfused := by
  simp only [unfused, lookup_along, Option.isNone_map]
  rfl

/-- A spliced copy that follows its hosts is spliced between them. -/
theorem along_splice {f : Fragment α} {base source target : StateId} :
    (f.splice base source target).along part =
      f.splice part.next (part.image source) (part.image target) := by
  have hentry : (f.entryJoint source).map part.image = f.entryJoint (part.image source) :=
    apply_ite (Joint.map part.image) _ _ _
  have hexit : (f.exitJoint target).map part.image = f.exitJoint (part.image target) :=
    apply_ite (Joint.map part.image) _ _ _
  exact congrArg₂ (fun entry exit => (⟨f, part.next, entry, some exit⟩ : Graft α)) hentry hexit

/-- A host state of a fused end is the host of a joint. -/
theorem host_of_mem_fusions {e : StateId × StateId} (he : e ∈ g.fusions) :
    e.2 = g.entry.host ∨ ∃ joint, g.exitJoint = some joint ∧ e.2 = joint.host := by
  rw [fusions] at he
  rcases List.mem_append.mp he with he | he
  · cases hentry : g.entry with
    | fuse host =>
      rw [hentry] at he
      exact Or.inl (List.mem_singleton.mp he ▸ rfl)
    | link host =>
      rw [hentry] at he
      exact absurd he List.not_mem_nil
  · rcases hexit : g.exitJoint with _ | host | host
    · rw [hexit] at he
      exact absurd he List.not_mem_nil
    · rw [hexit] at he
      exact Or.inr ⟨_, rfl, List.mem_singleton.mp he ▸ rfl⟩
    · rw [hexit] at he
      exact absurd he List.not_mem_nil

/-! ## 2. The states of a copy in their order -/

/-- The state at a position among those that are not fused takes the identifier at that position. -/
theorem image_of_getElem? (h : g.unfused[i]? = some q) : g.image q = g.base.shifted i := by
  obtain ⟨hi, rfl⟩ := List.getElem?_eq_some_iff.mp h
  obtain ⟨j, hj, heq, himage⟩ := image_eq_shifted (List.getElem_mem hi)
  rw [himage, g.nodup_unfused.getElem_inj_iff.mp heq]

/-- The states that are not fused take the identifiers from the base on, one after the other. -/
theorem map_toNat_image_unfused (hfit : g.base.Fits g.unfused.length) :
    g.unfused.map (fun q => (g.image q).toNat) = List.range' g.base.toNat g.unfused.length := by
  refine List.ext_getElem (by simp) fun i hi _ => ?_
  rw [List.length_map] at hi
  rw [List.getElem_map, image_of_getElem? (List.getElem?_eq_getElem hi), toNat_shifted hfit hi.le,
    List.getElem_range', Nat.one_mul]

/-- The identifiers that a copy takes ascend. -/
theorem images_ascending (hfit : g.base.Fits g.unfused.length) :
    (g.unfused.map g.image).Pairwise (· < ·) := by
  rw [List.pairwise_map, List.pairwise_iff_getElem]
  intro i j hi hj hij
  rw [image_of_getElem? (List.getElem?_eq_getElem hi),
    image_of_getElem? (List.getElem?_eq_getElem hj), UInt32.lt_iff_toNat_lt,
    toNat_shifted hfit hi.le, toNat_shifted hfit hj.le]
  omega

/-- **A copy puts its states behind those of the host.** -/
theorem members_eq_append {s t : StateSet} (hfit : g.base.Fits g.unfused.length)
    (hbelow : ∀ q ∈ t, q.toNat < g.base.toNat)
    (hmem : ∀ q, q ∈ s ↔ q ∈ t ∨ ∃ p ∈ g.unfused, g.image p = q) :
    s.members = t.members ++ g.unfused.map g.image := by
  have hascending : (t.members ++ g.unfused.map g.image).Pairwise (· < ·) := by
    refine List.pairwise_append.mpr ⟨t.ascending, images_ascending hfit, fun p hp q hq => ?_⟩
    obtain ⟨r, hr, rfl⟩ := List.mem_map.mp hq
    have hlow := hbelow p hp
    have hhigh := (image_mem_range hfit hr).1
    rw [UInt32.lt_iff_toNat_lt]
    omega
  refine StateSet.members_eq_of_same s.ascending hascending fun q => ?_
  rw [StateSet.mem_members, hmem, List.mem_append, StateSet.mem_members, List.mem_map]

/-- A copy that has states for itself takes the identifier before the next free one. -/
theorem exists_last (hfit : g.base.Fits g.unfused.length) (hne : g.unfused ≠ []) :
    ∃ p ∈ g.unfused, (g.image p).toNat + 1 = g.next.toNat := by
  have hpos : 0 < g.unfused.length := List.length_pos_iff.mpr hne
  have hi : g.unfused.length - 1 < g.unfused.length := by omega
  refine ⟨g.unfused[g.unfused.length - 1], List.getElem_mem hi, ?_⟩
  rw [image_of_getElem? (List.getElem?_eq_getElem hi), toNat_shifted hfit hi.le, toNat_next hfit]
  omega

/-! ## 3. A copy of a part with a copy behind it -/

/-- `Nested whole part inner`: the whole is a copy of a fragment that consists of a part and of an
inner copy joined to the part, and copies the part as `part` does. -/
structure Nested (whole part inner : Graft α) : Prop where
  base_eq : whole.base = part.base
  entry_eq : whole.entry = part.entry
  fusions_eq : whole.fusions = part.fusions
  initial_eq : whole.fragment.initial = part.fragment.initial
  epsilon_eq : whole.fragment.epsilon = part.fragment.epsilon
  transitions_eq : whole.fragment.transitions = part.fragment.transitions ++ inner.transitions
  /-- The states of the inner copy stand behind those of the part. -/
  members_eq : whole.fragment.states.members =
    part.fragment.states.members ++ inner.unfused.map inner.image
  /-- What is fused belongs to the part. -/
  fused_mem : ∀ e ∈ part.fusions, e.1 ∈ part.fragment.states
  /-- The inner copy is joined to the part. -/
  entry_host_mem : inner.entry.host ∈ part.fragment.states
  exit_host_mem : ∀ joint, inner.exitJoint = some joint → joint.host ∈ part.fragment.states

namespace Nested

/-- The states of the inner copy are no states of the part. -/
theorem image_not_mem (h : Nested whole part inner) (hq : q ∈ inner.unfused) :
    inner.image q ∉ part.fragment.states := by
  have hnodup := whole.fragment.states.nodup_members
  rw [h.members_eq] at hnodup
  exact fun hmem => (List.nodup_append.mp hnodup).2.2 _ hmem _ (List.mem_map_of_mem hq) rfl

/-- **The states that are not fused** are those of the part and then those of the inner copy. -/
theorem unfused_eq (h : Nested whole part inner) :
    whole.unfused = part.unfused ++ inner.unfused.map inner.image := by
  rw [unfused, h.members_eq, h.fusions_eq, List.filter_append, ← unfused]
  congr 1
  refine List.filter_eq_self.mpr fun r hr => ?_
  obtain ⟨q, hq, rfl⟩ := List.mem_map.mp hr
  rw [Option.isNone_iff_eq_none, lookup_eq_none_iff]
  intro hfused
  obtain ⟨e, he, heq⟩ := List.mem_map.mp hfused
  exact h.image_not_mem hq (heq ▸ h.fused_mem e he)

theorem length_unfused (h : Nested whole part inner) :
    whole.unfused.length = part.unfused.length + inner.unfused.length := by
  rw [h.unfused_eq, List.length_append, List.length_map]

/-- Where there is room for the whole, there is room for both steps. -/
theorem fits (h : Nested whole part inner) (hfit : whole.base.Fits whole.unfused.length) :
    part.base.Fits part.unfused.length ∧
      (inner.along part).base.Fits (inner.along part).unfused.length := by
  rw [h.length_unfused, h.base_eq] at hfit
  have hpart : part.base.Fits part.unfused.length := by
    unfold StateId.Fits at hfit ⊢
    omega
  have hnext : (inner.along part).base.toNat = part.base.toNat + part.unfused.length :=
    toNat_next hpart
  refine ⟨hpart, ?_⟩
  rw [unfused_along]
  unfold StateId.Fits at hfit ⊢
  omega

/-- **A state of the part goes where the copy of the part takes it.** -/
theorem image_part (h : Nested whole part inner) (hq : q ∈ part.fragment.states) :
    whole.image q = part.image q := by
  cases hlookup : part.fusions.lookup q with
  | some host => rw [image_of_lookup hlookup, image_of_lookup (h.fusions_eq ▸ hlookup)]
  | none =>
    obtain ⟨i, hi, rfl⟩ := List.getElem_of_mem (mem_unfused_iff.mpr ⟨hq, hlookup⟩)
    have hpart : part.unfused[i]? = some part.unfused[i] := List.getElem?_eq_getElem hi
    have hwhole : whole.unfused[i]? = some part.unfused[i] := by
      rw [h.unfused_eq, List.getElem?_append_left hi, hpart]
    rw [image_of_getElem? hpart, image_of_getElem? hwhole, h.base_eq]

/-- **A state of the inner copy goes where the second step takes it.** -/
theorem image_inner (h : Nested whole part inner) (hfit : whole.base.Fits whole.unfused.length)
    (hq : q ∈ inner.fragment.states) :
    whole.image (inner.image q) = (inner.along part).image q := by
  cases hlookup : inner.fusions.lookup q with
  | some host =>
    have hmem : (q, host) ∈ inner.fusions := by
      obtain ⟨before, after, heq, -⟩ := List.lookup_eq_some_iff.mp hlookup
      exact heq ▸ List.mem_append_right before List.mem_cons_self
    have hhost : host ∈ part.fragment.states := by
      rcases host_of_mem_fusions hmem with rfl | ⟨joint, hjoint, rfl⟩
      · exact h.entry_host_mem
      · exact h.exit_host_mem joint hjoint
    have halong : (inner.along part).fusions.lookup q = some (part.image host) := by
      rw [lookup_along, hlookup]
      rfl
    rw [image_of_lookup hlookup, image_of_lookup halong, h.image_part hhost]
  | none =>
    obtain ⟨i, hi, rfl⟩ := List.getElem_of_mem (mem_unfused_iff.mpr ⟨hq, hlookup⟩)
    have hinner : inner.unfused[i]? = some inner.unfused[i] := List.getElem?_eq_getElem hi
    have halong : (inner.along part).unfused[i]? = some inner.unfused[i] := by
      rw [unfused_along, hinner]
    have hwhole :
        whole.unfused[part.unfused.length + i]? = some (inner.image inner.unfused[i]) := by
      rw [h.unfused_eq, List.getElem?_append_right (Nat.le_add_right _ _), Nat.add_sub_cancel_left,
        List.getElem?_map, hinner]
      rfl
    have hpart := (h.fits hfit).1
    have hboth : part.base.Fits (part.unfused.length + i) := by
      rw [h.length_unfused, h.base_eq] at hfit
      unfold StateId.Fits at hfit ⊢
      omega
    rw [image_of_getElem? hwhole, image_of_getElem? halong, h.base_eq, Int.natCast_add]
    exact (StateId.shifted_shifted hpart hboth).symm

/-- The inner copy, renamed with the whole, is the copy that the second step makes. -/
theorem map_rename_inner (h : Nested whole part inner)
    (hfit : whole.base.Fits whole.unfused.length) :
    inner.transitions.map (·.rename whole.image) = (inner.along part).transitions := by
  have hstates : ∀ q ∈ inner.fragment.states,
      whole.image (inner.image q) = (inner.along part).image q := fun q hq => h.image_inner hfit hq
  have hentry : inner.entryLink.map (·.rename whole.image) = (inner.along part).entryLink := by
    have hhost := h.image_part h.entry_host_mem
    have hinitial := hstates _ inner.fragment.initial_mem_states
    have halong : (inner.along part).entry = inner.entry.map part.image := rfl
    rw [entryLink, entryLink, linkIn, linkIn, halong]
    cases hjoint : inner.entry with
    | fuse host => rfl
    | link host =>
      rw [hjoint] at hhost
      exact congrArg₂ (fun p q => [(⟨p, inner.fragment.epsilon, q⟩ : Transition α)]) hhost hinitial
  have hcopy : (inner.fragment.transitions.map (·.rename inner.image)).map (·.rename whole.image) =
      inner.fragment.transitions.map (·.rename (inner.along part).image) := by
    rw [List.map_map]
    refine List.map_congr_left fun t ht => ?_
    have hsource := hstates _ (StateGraph.source_mem_states ht)
    have htarget := hstates _ (StateGraph.target_mem_states ht)
    simp only [Function.comp_apply, Transition.rename, hsource, htarget]
  have hexit : inner.exitLink.map (·.rename whole.image) = (inner.along part).exitLink := by
    have haccepting := hstates _ inner.fragment.exit_mem_states
    rw [exitLink, exitLink, linkOut, linkOut, exitJoint_along]
    rcases hjoint : inner.exitJoint with _ | host | host
    · rfl
    · rfl
    · have hhost := h.image_part (h.exit_host_mem _ hjoint)
      exact congrArg₂ (fun p q => [(⟨p, inner.fragment.epsilon, q⟩ : Transition α)])
        haccepting hhost
  rw [transitions, List.map_append, List.map_append, hentry, hcopy, hexit]
  rfl

/-- The part, renamed with the whole, is the copy of the part. -/
theorem map_rename_part (h : Nested whole part inner) :
    part.fragment.transitions.map (·.rename whole.image) =
      part.fragment.transitions.map (·.rename part.image) := by
  refine List.map_congr_left fun t ht => ?_
  rw [Transition.rename, h.image_part (StateGraph.source_mem_states ht),
    h.image_part (StateGraph.target_mem_states ht)]
  rfl

/-- **The whole brings what the two steps bring**, if neither the whole nor the copy of the part has
a link at its exit. -/
theorem transitions_eq_append (h : Nested whole part inner)
    (hfit : whole.base.Fits whole.unfused.length) (hwhole : whole.exitLink = [])
    (hpart : part.exitLink = []) :
    whole.transitions = part.transitions ++ (inner.along part).transitions := by
  have hentry : whole.entryLink = part.entryLink := by
    have himage := h.image_part part.fragment.initial_mem_states
    rw [entryLink, entryLink, linkIn, linkIn, h.entry_eq, h.epsilon_eq, h.initial_eq, himage]
  rw [transitions, transitions, hwhole, hpart, List.append_nil, List.append_nil, hentry,
    h.transitions_eq, List.map_append, h.map_rename_part, h.map_rename_inner hfit,
    List.append_assoc]

end Nested

end Graft

end Recognizer
