/-
# Shifting a graph in place

A shift moves every identifier of a graph by the same amount.  The pass that looks at the states
covers every identifier that the second pass writes, so nothing is written that leaves the range:
each identifier of the shifted graph is the old one moved by exactly that amount, and since different
identifiers stay different the list of accepting states loses none.

A shift by one amount and then by another one is a shift by their sum.  It does not matter whether
the states fit in between: if they did after the first shift, they fit after both exactly when they
do after the one.  So a shift can be taken back (`moveTo_exact`).
-/
import Mathlib.Order.Bounds.Defs
import Recognizer.Proofs.Renaming

namespace Recognizer

namespace StateGraph

variable {α : Type} {g g' : StateGraph α} {delta : Int} {target : StateId} {q : StateId}

/-! ## 1. What a shift does -/

/-- `g.ShiftedBy delta g'`: each identifier of `g'` is that of `g` moved by `delta`, where it stands
in `g`, and the labels are the same. -/
structure ShiftedBy (g : StateGraph α) (delta : Int) (g' : StateGraph α) : Prop where
  initial : (g'.initial.toNat : Int) = g.initial.toNat + delta
  transitions : Pointwise (fun t t' : Transition α =>
    (t'.source.toNat : Int) = t.source.toNat + delta ∧ t'.symbol = t.symbol ∧
      (t'.target.toNat : Int) = t.target.toNat + delta) g.transitions g'.transitions
  accepting : Pointwise (fun q q' : StateId => (q'.toNat : Int) = q.toNat + delta)
    g.accepting g'.accepting

/-- **Where every state fits, renaming is shifting.** -/
theorem shiftedBy_rename (hfits : ∀ q ∈ g.states, q.Fits delta) :
    g.ShiftedBy delta (g.rename (StateId.shifted delta)) where
  initial := StateId.toNat_shifted (hfits g.initial g.initial_mem_states)
  transitions := Pointwise.map_right fun t ht =>
    ⟨StateId.toNat_shifted (hfits _ (source_mem_states ht)), rfl,
      StateId.toNat_shifted (hfits _ (target_mem_states ht))⟩
  accepting := by
    have hfits : ∀ q ∈ g.accepting, q.Fits delta := fun q hq =>
      hfits q (mem_states.mpr (Or.inr (Or.inl hq)))
    have hnodup : (g.accepting.map (StateId.shifted delta)).Nodup :=
      g.accepting_nodup.map_on fun p hp q hq => StateId.shifted_inj (hfits p hp) (hfits q hq)
    have hkept : (g.rename (StateId.shifted delta)).accepting =
        g.accepting.map (StateId.shifted delta) := eraseDups_of_nodup hnodup
    rw [hkept]
    exact Pointwise.map_right fun q hq => StateId.toNat_shifted (hfits q hq)

/-- The first state that does not fit is the smallest one, since states are looked at in ascending
order. -/
theorem exists_on_moveTo_eq_error (hout : ∃ q ∈ g.states, ¬ q.Fits (g.distance target)) :
    ∃ q, IsLeast {q | q ∈ g.states ∧ ¬ q.Fits (g.distance target)} q ∧
      (moveTo target).on g = (.error (.stateOutOfRange q (g.distance target)), g) := by
  cases hfind : g.states.members.find? (fun q => !q.Fits (g.distance target)) with
  | some q =>
    obtain ⟨hq, before, behind, hmembers, hbefore⟩ := List.find?_eq_some_iff_append.mp hfind
    have hascending := g.states.ascending
    rw [hmembers, List.pairwise_append, List.pairwise_cons] at hascending
    refine ⟨q, ⟨⟨?_, by simpa using hq⟩, ?_⟩, by rw [on_moveTo, hfind]⟩
    · exact StateSet.mem_members.mp (List.mem_of_find?_eq_some hfind)
    · rintro r ⟨hr, hrout⟩
      rw [← StateSet.mem_members, hmembers, List.mem_append, List.mem_cons] at hr
      rcases hr with hr | rfl | hr
      · exact absurd (by simpa using hbefore r hr) hrout
      · exact UInt32.le_refl r
      · exact UInt32.le_of_lt (hascending.2.1.1 r hr)
  | none =>
    obtain ⟨q, hq, hqout⟩ := hout
    have hfits := List.find?_eq_none.mp hfind q (StateSet.mem_members.mpr hq)
    exact absurd (by simpa using hfits) hqout

/-! ## 2. One shift after another -/

/-- After a shift the way to a target is that much shorter. -/
theorem ShiftedBy.distance_eq (h : g.ShiftedBy delta g') (target : StateId) :
    g'.distance target = g.distance target - delta := by
  have hinitial := h.initial
  unfold distance
  omega

/-- **After a shift that succeeds another one does what it does without the first.** -/
theorem on_moveTo_moveTo_iff {first : StateId} (hfirst : (moveTo first).on g = (.ok (), g'))
    (target : StateId) (g'' : StateGraph α) :
    (moveTo target).on g' = (.ok (), g'') ↔ (moveTo target).on g = (.ok (), g'') := by
  obtain ⟨hfits, rfl⟩ := on_moveTo_eq_ok_iff.mp hfirst
  have hdistance := (shiftedBy_rename hfits).distance_eq target
  have hsum : g.distance first + (g.distance target - g.distance first) = g.distance target := by
    omega
  -- A state that fits after the first shift fits after the second when it fits after their sum, even
  -- where the second shift alone would leave the range.
  have hboth : ∀ q ∈ g.states, (q.shifted (g.distance first)).Fits
      (g.distance target - g.distance first) ↔ q.Fits (g.distance target) := fun q hq => by
    rw [StateId.fits_shifted (hfits q hq), hsum]
  have hstates : (∀ q ∈ (g.rename (StateId.shifted (g.distance first))).states,
      q.Fits (g.distance target - g.distance first)) ↔
        ∀ q ∈ g.states, q.Fits (g.distance target) := by
    simp only [mem_states_rename_iff]
    constructor
    · exact fun h q hq => (hboth q hq).mp (h _ ⟨q, hq, rfl⟩)
    · rintro h _ ⟨q, hq, rfl⟩
      exact (hboth q hq).mpr (h q hq)
  rw [on_moveTo_eq_ok_iff, on_moveTo_eq_ok_iff, hdistance, hstates, rename_rename]
  refine and_congr_right fun hall => ?_
  have hrename : g.rename (StateId.shifted (g.distance target - g.distance first) ∘
      StateId.shifted (g.distance first)) = g.rename (StateId.shifted (g.distance target)) := by
    refine rename_congr fun q hq => ?_
    have htwice := StateId.shifted_shifted (hfits q hq) (hsum ▸ hall q hq)
    rwa [hsum] at htwice
  rw [hrename]

/-- A shift to where a graph starts leaves it as it is. -/
theorem on_moveTo_initial (g : StateGraph α) : (moveTo g.initial).on g = (.ok (), g) := by
  have hdistance : g.distance g.initial = 0 := Int.sub_self _
  rw [on_moveTo_eq_ok_iff, hdistance]
  exact ⟨fun q _ => q.fits_zero, rename_eq_self fun q _ => q.shifted_zero⟩

/-- **A shift is exact, it is carried out as a whole or not at all, and shifts add up.**  If every
state stays in range, each identifier is moved by the same amount and nothing else is changed.
Otherwise the error names the smallest state that does not, with the amount, and the graph is as it
was.  After a shift that succeeds any other one succeeds exactly when it would without the first, and
leaves the same graph; in particular the first shift can be taken back. -/
theorem moveTo_exact (g : StateGraph α) (target : StateId) :
    ((∀ q ∈ g.states, q.Fits (g.distance target)) →
      ∃ g', (moveTo target).on g = (.ok (), g') ∧ g.ShiftedBy (g.distance target) g') ∧
    ((∃ q ∈ g.states, ¬ q.Fits (g.distance target)) →
      ∃ q, IsLeast {q | q ∈ g.states ∧ ¬ q.Fits (g.distance target)} q ∧
        (moveTo target).on g = (.error (.stateOutOfRange q (g.distance target)), g)) ∧
    ∀ g', (moveTo target).on g = (.ok (), g') →
      (∀ target' g'', (moveTo target').on g' = (.ok (), g'') ↔
        (moveTo target').on g = (.ok (), g'')) ∧
      (moveTo g.initial).on g' = (.ok (), g) := by
  refine ⟨fun hfits => ?_, exists_on_moveTo_eq_error, fun g' hfirst => ⟨?_, ?_⟩⟩
  · exact ⟨_, on_moveTo_eq_ok_iff.mpr ⟨hfits, rfl⟩, shiftedBy_rename hfits⟩
  · exact on_moveTo_moveTo_iff hfirst
  · exact (on_moveTo_moveTo_iff hfirst g.initial g).mpr g.on_moveTo_initial

/-- A way from the state 3 down to 0, and then up to the largest state. -/
def wayDown : StateGraph Char :=
  make 3 [⟨3, 'a', 1⟩, ⟨1, 'b', 0⟩, ⟨0, 'c', 5⟩, ⟨1, 'b', 0⟩] [5, 0]

/-- `wayDown` from the last identifier but two on, which is as far as it can go. -/
def wayDownHigh : StateGraph Char :=
  make 4294967293 [⟨4294967293, 'a', 4294967291⟩, ⟨4294967291, 'b', 4294967290⟩,
    ⟨4294967290, 'c', .last⟩, ⟨4294967291, 'b', 4294967290⟩] [.last, 4294967290]

/-- One further up the state 5 is out of range; two down the states 0 and 1 are. -/
theorem moveTo_exact_way_down :
    ((moveTo 4294967293).on wayDown = (.ok (), wayDownHigh) ∧
      wayDown.ShiftedBy 4294967290 wayDownHigh ∧
      (moveTo 3).on wayDownHigh = (.ok (), wayDown) ∧
      ∀ g, (moveTo 1).on wayDownHigh ≠ (.ok (), g)) ∧
    (moveTo 4294967294).on wayDown = (.error (.stateOutOfRange 5 4294967291), wayDown) ∧
    (moveTo 1).on wayDown = (.error (.stateOutOfRange 0 (-2)), wayDown) ∧
    IsLeast {q | q ∈ wayDown.states ∧ ¬ q.Fits (-2)} 0 := by
  have hhigh : (moveTo 4294967293).on wayDown = (.ok (), wayDownHigh) := by decide +kernel
  have hup : (moveTo 4294967294).on wayDown =
      (.error (.stateOutOfRange 5 4294967291), wayDown) := by decide +kernel
  have hdown : (moveTo 1).on wayDown = (.error (.stateOutOfRange 0 (-2)), wayDown) := by
    decide +kernel
  have hfar : wayDown.distance 4294967293 = 4294967290 := by decide +kernel
  have hnear : wayDown.distance 1 = -2 := by decide +kernel
  obtain ⟨hshifts, -, hagain⟩ := moveTo_exact wayDown 4294967293
  obtain ⟨-, hfails, -⟩ := moveTo_exact wayDown 1
  obtain ⟨g', hg', hshifted⟩ := hshifts (on_moveTo_eq_ok_iff.mp hhigh).1
  rw [hfar] at hshifted
  rw [hnear] at hfails
  obtain rfl : wayDownHigh = g' := congrArg Prod.snd (hhigh.symm.trans hg')
  obtain ⟨hother, hback⟩ := hagain wayDownHigh hhigh
  obtain ⟨q, hleast, hq⟩ := hfails ⟨0, by decide +kernel⟩
  have hq : BuildError.stateOutOfRange (α := Char) 0 (-2) = .stateOutOfRange q (-2) :=
    Except.error.inj (congrArg Prod.fst (hdown.symm.trans hq))
  obtain ⟨rfl, -⟩ := BuildError.stateOutOfRange.inj hq
  refine ⟨⟨hhigh, hshifted, hback, fun g hg => ?_⟩, hup, hdown, hleast⟩
  exact absurd (hdown.symm.trans ((hother 1 g).mp hg)) (by simp)

end StateGraph

end Recognizer
