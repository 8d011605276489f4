/-
# Where a graft puts the states of its fragment

A graft that is carried out gives every state of its fragment a place, so that no state keeps an
identifier that may be in use in the host.  A fused end becomes its host state, which lies below the
base.  All other states take the identifiers from the base on, in their order and without a gap.

The two kinds of places are apart.  So two states go to one place only if both are fused, and then
they are the two ends and have one host (`Graft.Merges`).

* `Graft.lookup_fusions_eq_some_iff`: which states are fused;
* `Graft.injOn_image_iff`: when different states go to different places;
* `Graft.carryOut_places`: the graft as a whole.
-/
import Recognizer.Proofs.Nesting

namespace Recognizer

variable {α : Type}

namespace Graft

variable {g : Graft α} {p q host : StateId}

/-! ## 1. Fused ends -/

/-- `g.Fuses q host`: the state is an end of the fragment that becomes the host state.  An exit that
is also the initial state does not become the host state of its own joint. -/
def Fuses (g : Graft α) (q host : StateId) : Prop :=
  (g.entry = .fuse host ∧ q = g.fragment.initial) ∨
    (g.exit = some (.fuse host) ∧ g.fragment.exit ≠ g.fragment.initial ∧ q = g.fragment.exit)

/-- `g.LinksOut host`: the exit is linked to the host state, because its joint says so or because it
is also the initial state. -/
def LinksOut (g : Graft α) (host : StateId) : Prop :=
  g.exit = some (.link host) ∨
    (g.exit = some (.fuse host) ∧ g.fragment.exit = g.fragment.initial)

/-- `g.Merges`: the two ends of the fragment become one host state. -/
def Merges (g : Graft α) : Prop :=
  ∃ host, g.entry = .fuse host ∧ g.exit = some (.fuse host) ∧ g.fragment.exit ≠ g.fragment.initial

/-- `g.HostsBelow`: the states of the host that the ends join lie below the base. -/
structure HostsBelow (g : Graft α) : Prop where
  entry : g.entry.host < g.base
  exit : ∀ joint ∈ g.exit, joint.host < g.base

theorem exitJoint_eq_fuse_iff : g.exitJoint = some (.fuse host) ↔
    g.exit = some (.fuse host) ∧ g.fragment.exit ≠ g.fragment.initial := by
  unfold exitJoint
  split
  · rename_i joint hexit
    by_cases heq : g.fragment.exit = g.fragment.initial <;> simp [hexit, heq]
  · rename_i hexit
    exact ⟨fun h => absurd h (hexit host), fun h => absurd h.1 (hexit host)⟩

theorem exitJoint_eq_link_iff : g.exitJoint = some (.link host) ↔ g.LinksOut host := by
  unfold exitJoint LinksOut
  split
  · rename_i joint hexit
    by_cases heq : g.fragment.exit = g.fragment.initial <;> simp [hexit, heq]
  · rename_i hexit
    exact ⟨Or.inl, fun h => h.elim id fun h => absurd h.1 (hexit host)⟩

/-- **The fused ends.** -/
theorem lookup_fusions_eq_some_iff : g.fusions.lookup q = some host ↔ g.Fuses q host := by
  rw [Fuses, ← and_assoc, ← exitJoint_eq_fuse_iff, fusions, List.lookup_append]
  cases g.entry with
  | link into => rcases g.exitJoint with _ | out | out <;> simp [and_comm]
  | fuse into =>
    rcases hexit : g.exitJoint with _ | out | out
    · simp [and_comm]
    · -- The exit is looked up behind the initial state, which is another state.
      have hne := (exitJoint_eq_fuse_iff.mp hexit).2
      have hbehind : q = g.fragment.exit ∧ out = host → q ≠ g.fragment.initial :=
        fun h => h.1 ▸ hne
      simp [Option.or_eq_some_iff, and_comm, and_iff_left_of_imp hbehind]
    · simp [and_comm]

theorem mem_unfused_iff_not_fuses :
    q ∈ g.unfused ↔ q ∈ g.fragment.states ∧ ∀ host, ¬ g.Fuses q host := by
  simp only [mem_unfused_iff, Option.eq_none_iff_forall_ne_some, ne_eq, lookup_fusions_eq_some_iff]

theorem unfused_ascending (g : Graft α) : g.unfused.Pairwise (· < ·) :=
  g.fragment.states.ascending.filter _

theorem Fuses.image_eq (h : g.Fuses q host) : g.image q = host :=
  image_of_lookup (lookup_fusions_eq_some_iff.mpr h)

theorem Fuses.lt_base (h : g.Fuses q host) (hbelow : g.HostsBelow) : host < g.base := by
  rcases h with ⟨hentry, -⟩ | ⟨hexit, -, -⟩
  · have hlt := hbelow.entry
    rwa [hentry] at hlt
  · exact hbelow.exit _ hexit

/-- A state of the fragment is a fused end or takes an identifier of its own. -/
theorem fuses_or_mem_unfused (hq : q ∈ g.fragment.states) :
    (∃ host, g.Fuses q host) ∨ q ∈ g.unfused := by
  by_cases h : ∃ host, g.Fuses q host
  · exact Or.inl h
  · exact Or.inr (mem_unfused_iff_not_fuses.mpr ⟨hq, not_exists.mp h⟩)

/-! ## 2. Different states in one place -/

/-- A fused end is not where a state goes that takes an identifier of its own. -/
theorem Fuses.image_ne (h : g.Fuses p host) (hbelow : g.HostsBelow)
    (hfit : g.base.Fits g.unfused.length) (hq : q ∈ g.unfused) : g.image p ≠ g.image q := by
  intro heq
  have hlt := UInt32.lt_iff_toNat_lt.mp (h.lt_base hbelow)
  have hle := (image_mem_range hfit hq).1
  rw [← heq, h.image_eq] at hle
  omega

/-- Two fused ends with one host are one state, unless the graft merges the ends. -/
theorem Fuses.eq_of_not_merges (hp : g.Fuses p host) (hq : g.Fuses q host) (h : ¬ g.Merges) :
    p = q := by
  rcases hp with ⟨hpe, rfl⟩ | ⟨hpx, hne, rfl⟩ <;> rcases hq with ⟨hqe, rfl⟩ | ⟨hqx, hne', rfl⟩
  · rfl
  · exact absurd ⟨host, hpe, hqx, hne'⟩ h
  · exact absurd ⟨host, hqe, hpx, hne⟩ h
  · rfl

/-- **Different states go to different places** unless the two ends become one host state. -/
theorem injOn_image_iff (hbelow : g.HostsBelow) (hfit : g.base.Fits g.unfused.length) :
    Set.InjOn g.image {q | q ∈ g.fragment.states} ↔ ¬ g.Merges := by
  constructor
  · rintro hinj ⟨host, hentry, hexit, hne⟩
    have hinitial : g.Fuses g.fragment.initial host := Or.inl ⟨hentry, rfl⟩
    have hlast : g.Fuses g.fragment.exit host := Or.inr ⟨hexit, hne, rfl⟩
    refine hne (hinj g.fragment.exit_mem_states g.fragment.initial_mem_states ?_)
    rw [hlast.image_eq, hinitial.image_eq]
  · intro h p hp q hq heq
    rcases fuses_or_mem_unfused hp with ⟨host, hfp⟩ | hup
    · rcases fuses_or_mem_unfused hq with ⟨host', hfq⟩ | huq
      · obtain rfl : host = host' := by rw [← hfp.image_eq, heq, hfq.image_eq]
        exact hfp.eq_of_not_merges hfq h
      · exact absurd heq (hfp.image_ne hbelow hfit huq)
    · rcases fuses_or_mem_unfused hq with ⟨host, hfq⟩ | huq
      · exact absurd heq.symm (hfq.image_ne hbelow hfit hup)
      · exact image_inj hfit hup huq heq

/-! ## 3. The graft as a whole -/

/-- `g.PlacedBy a c`: the allotment has a place for every state of the fragment, and the copy is the
fragment with its states in these places. -/
structure PlacedBy (g : Graft α) (a : Allotment) (c : Copy α) : Prop where
  /-- No state keeps its identifier for want of a place. -/
  covered : ∀ q ∈ g.fragment.states, (a.places.lookup q).isSome
  fused : ∀ q host, g.Fuses q host → a.image q = host
  /-- The other states take the identifiers from the base on, in their order. -/
  own : g.unfused.map (fun q => (a.image q).toNat) = List.range' g.base.toNat g.unfused.length
  next : c.next.toNat = g.base.toNat + g.unfused.length
  injOn_iff : Set.InjOn a.image {q | q ∈ g.fragment.states} ↔ ¬ g.Merges
  /-- The copy has the transitions of the fragment in their order, between its links. -/
  transitions : c.transitions =
    g.linkIn a.image ++ g.fragment.transitions.map (·.rename a.image) ++ g.linkOut a.image
  linked_in : ∀ host, g.entry = .link host →
    g.linkIn a.image = [⟨host, g.fragment.epsilon, a.image g.fragment.initial⟩]
  fused_in : ∀ host, g.entry = .fuse host → g.linkIn a.image = []
  linked_out : ∀ host, g.LinksOut host →
    g.linkOut a.image = [⟨a.image g.fragment.exit, g.fragment.epsilon, host⟩]
  not_linked_out : (∀ host, ¬ g.LinksOut host) → g.linkOut a.image = []
  accepting : c.accepting = a.image g.fragment.exit

/-- Every state of the fragment has a place. -/
theorem isSome_place (hq : q ∈ g.fragment.states) : (g.place q).isSome := by
  rw [place, Option.isSome_or, Bool.or_eq_true]
  rcases fuses_or_mem_unfused hq with ⟨host, hfuses⟩ | hmem
  · rw [lookup_fusions_eq_some_iff.mpr hfuses]
    exact Or.inl rfl
  · obtain ⟨i, hi⟩ := Option.isSome_iff_exists.mp (List.isSome_idxOf?.mpr hmem)
    rw [hi]
    exact Or.inr rfl

theorem linkIn_of_link (h : g.entry = .link host) (image : StateId → StateId) :
    g.linkIn image = [⟨host, g.fragment.epsilon, image g.fragment.initial⟩] := by
  rw [linkIn, h]

theorem linkIn_of_fuse (h : g.entry = .fuse host) (image : StateId → StateId) :
    g.linkIn image = [] := by
  rw [linkIn, h]

theorem linkOut_of_linksOut (h : g.LinksOut host) (image : StateId → StateId) :
    g.linkOut image = [⟨image g.fragment.exit, g.fragment.epsilon, host⟩] := by
  rw [linkOut, exitJoint_eq_link_iff.mpr h]

theorem linkOut_eq_nil (h : ∀ host, ¬ g.LinksOut host) (image : StateId → StateId) :
    g.linkOut image = [] := by
  unfold linkOut
  split
  · rename_i host hexit
    exact absurd (exitJoint_eq_link_iff.mp hexit) (h host)
  · rfl

/-- The states of a copy are where an allotment by positions puts them. -/
theorem placedBy_copy {a : Allotment} (hbelow : g.HostsBelow)
    (hfit : g.base.Fits g.unfused.length) (hlookup : ∀ q, a.places.lookup q = g.place q) :
    g.PlacedBy a g.copy := by
  have himage : a.image = g.image := image_eq_of_lookup hlookup
  constructor
  case covered =>
    intro q hq
    rw [hlookup]
    exact isSome_place hq
  case next => exact toNat_next hfit
  case linked_in => exact fun host h => linkIn_of_link h a.image
  case fused_in => exact fun host h => linkIn_of_fuse h a.image
  case linked_out => exact fun host h => linkOut_of_linksOut h a.image
  case not_linked_out => exact fun h => linkOut_eq_nil h a.image
  all_goals rw [himage]
  case fused => exact fun q host h => h.image_eq
  case own => exact map_toNat_image_unfused hfit
  case injOn_iff => exact injOn_image_iff hbelow hfit
  case transitions => rfl
  case accepting => rfl

/-- **What a graft does to its fragment.**  It is carried out exactly when its identifiers and the
next free one are in range, and then it copies the fragment to the places that it gave out. -/
theorem carryOut_places (g : Graft α) (hbelow : g.HostsBelow) :
    (g.unfused.Pairwise (· < ·) ∧
      ∀ q, q ∈ g.unfused ↔ q ∈ g.fragment.states ∧ ∀ host, ¬ g.Fuses q host) ∧
    ((∃ c, g.carryOut = .ok c) ↔ g.base.toNat + g.unfused.length ≤ StateId.last.toNat) ∧
    ∀ c, g.carryOut = .ok c → ∃ a, g.allotment = .ok a ∧ g.PlacedBy a c := by
  refine ⟨⟨g.unfused_ascending, fun q => mem_unfused_iff_not_fuses⟩, ?_, fun c hc => ?_⟩
  · rw [StateId.toNat_last, Nat.le_sub_one_iff_lt (by decide), ← StateId.fits_natCast_iff]
    constructor
    · rintro ⟨c, hc⟩
      exact (carryOut_eq_ok_iff.mp hc).1
    · exact fun hfit => ⟨g.copy, carryOut_eq_ok_iff.mpr ⟨hfit, rfl⟩⟩
  · obtain ⟨hfit, rfl⟩ := carryOut_eq_ok_iff.mp hc
    rcases g.allotment_cases with ⟨-, a, ha, -, hlookup⟩ | ⟨hout, -⟩
    · exact ⟨a, ha, placedBy_copy hbelow hfit hlookup⟩
    · exact absurd hfit hout

/-- A fragment that ends where it starts, with a loop of its own, at the top of the identifiers: its
initial state is fused, so its exit is linked. -/
def loopAtTop : Graft Char :=
  ⟨⟨Nfa.between 5 5 [⟨5, 'a', 9⟩, ⟨9, 'ε', 2⟩, ⟨2, 'b', 9⟩] 'ε', 5, rfl⟩, 4294967293, .fuse 1,
    some (.fuse 0)⟩

/-- Its copy, which takes the last identifiers but one. -/
def loopAtTopCopy : Copy Char :=
  ⟨[⟨1, 'a', 4294967294⟩, ⟨4294967294, 'ε', 4294967293⟩, ⟨4294967293, 'b', 4294967294⟩,
    ⟨1, 'ε', 0⟩], 1, 4294967295⟩

theorem carryOut_places_loop_at_top :
    loopAtTop.HostsBelow ∧ loopAtTop.unfused = [2, 9] ∧ loopAtTop.carryOut = .ok loopAtTopCopy ∧
      ∃ a, loopAtTop.allotment = .ok a ∧ loopAtTop.PlacedBy a loopAtTopCopy := by
  have hbelow : loopAtTop.HostsBelow := ⟨by decide, by decide⟩
  have hown : loopAtTop.unfused = [2, 9] := by decide +kernel
  have hc : loopAtTop.carryOut = .ok loopAtTopCopy := by decide +kernel
  exact ⟨hbelow, hown, hc, (carryOut_places loopAtTop hbelow).2.2 _ hc⟩

end Graft

end Recognizer
