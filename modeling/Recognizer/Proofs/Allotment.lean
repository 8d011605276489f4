/-
# Identifiers by turn and by position

A graft is carried out by giving a place to one state after the other.  A state that has its place
keeps it, and any other takes the next free identifier (`Allotment.give_eq`).  So the states that
had no place at the start take the identifiers in a row: the one at position `i` among them goes `i`
above the first free identifier.  Where there are too few identifiers, it is the last one of all
that has no successor (`Allotment.foldlM_give_cases`).

That is where `Graft.image` puts the states of a fragment.  Hence a graft can be carried out exactly
when its identifiers and the next free one are in range, and what it brings is `Graft.copy`
(`Graft.carryOut_eq`).
-/
import Recognizer.Nfa.Graft

namespace Recognizer

variable {α : Type}

namespace Allotment

variable {a b : Allotment} {q : StateId} {states new : List StateId}

/-- The states of a list that have no place yet, in order. -/
def lacking (a : Allotment) (states : List StateId) : List StateId :=
  states.filter fun q => (a.places.lookup q).isNone

/-- `a.Extends new b`: the allotment `b` has the places of `a`, and the `new` states take the
identifiers from the next free one of `a` on, in their order. -/
structure Extends (a : Allotment) (new : List StateId) (b : Allotment) : Prop where
  next : b.next = a.next.shifted new.length
  lookup : ∀ q, b.places.lookup q =
    (a.places.lookup q).or ((new.idxOf? q).map fun i => a.next.shifted i)

/-! ## 1. One state -/

/-- The allotment in which `q` has taken the next free identifier. -/
def taken (a : Allotment) (q : StateId) : Allotment :=
  ⟨a.places ++ [(q, a.next)], a.next.shifted 1⟩

/-- **One state is given its place.** -/
theorem give_eq (a : Allotment) (q : StateId) : (a.give q : Except (BuildError α) Allotment) =
    if (a.places.lookup q).isSome then .ok a
    else if a.next.Fits 1 then .ok (a.taken q)
    else .error (.stateOutOfRange .last 1) := by
  rw [give, StateId.successor_eq]
  cases a.places.lookup q with
  | some place => rfl
  | none =>
    by_cases hfits : a.next.Fits 1
    · rw [if_pos hfits, if_pos hfits]
      rfl
    · rw [if_neg hfits, if_neg hfits]
      rfl

theorem lookup_taken (a : Allotment) (p q : StateId) : (a.taken q).places.lookup p =
    (a.places.lookup p).or (if p = q then some a.next else none) := by
  rw [taken, List.lookup_append]
  by_cases h : p = q
  · simp [h]
  · have hbeq : (p == q) = false := beq_eq_false_iff_ne.mpr h
    simp [h, List.lookup_cons, hbeq]

/-- The other states lack a place as before. -/
theorem lacking_taken (h : q ∉ states) : (a.taken q).lacking states = a.lacking states := by
  refine List.filter_congr fun p hp => ?_
  have hne : p ≠ q := fun heq => h (heq ▸ hp)
  rw [lookup_taken, if_neg hne, Option.or_none]

theorem Extends.refl (a : Allotment) : a.Extends [] a where
  next := (StateId.shifted_zero a.next).symm
  lookup := fun q => by simp

theorem next_fits_one {k : Nat} (h : a.next.Fits (k + 1 : Nat)) : a.next.Fits 1 := by
  have hlt := StateId.fits_natCast_iff.mp h
  exact StateId.fits_natCast_iff (k := 1).mpr (by omega)

/-- Behind an identifier that was taken there is room for one fewer. -/
theorem fits_taken {k : Nat} (h : a.next.Fits 1) :
    (a.taken q).next.Fits k ↔ a.next.Fits (k + 1 : Nat) := by
  have hadd : ((k + 1 : Nat) : Int) = 1 + k := by omega
  rw [hadd]
  exact StateId.fits_shifted h

theorem shifted_taken {i : Nat} (h : a.next.Fits (i + 1 : Nat)) :
    (a.taken q).next.shifted i = a.next.shifted (i + 1 : Nat) := by
  have hadd : ((i + 1 : Nat) : Int) = 1 + i := by omega
  have hone := next_fits_one h
  rw [hadd] at h ⊢
  exact StateId.shifted_shifted hone h

/-- First one state takes an identifier, and then the new ones behind it do. -/
theorem Extends.taken (hfits : a.next.Fits (q :: new).length) (h : (a.taken q).Extends new b) :
    a.Extends (q :: new) b := by
  have hlt := StateId.fits_natCast_iff.mp hfits
  rw [List.length_cons] at hlt
  have hshifted : ∀ i ≤ new.length, (a.taken q).next.shifted i = a.next.shifted (i + 1 : Nat) :=
    fun i hi => shifted_taken (StateId.fits_natCast_iff.mpr (by omega))
  refine ⟨h.next.trans (hshifted _ (Nat.le_refl _)), fun p => ?_⟩
  rw [h.lookup, lookup_taken, Option.or_assoc, List.idxOf?_cons]
  congr 1
  by_cases hp : p = q
  · simp [hp, StateId.shifted_zero]
  · have hbeq : (q == p) = false := beq_eq_false_iff_ne.mpr (Ne.symm hp)
    rw [if_neg hp, Option.none_or, hbeq]
    cases hindex : new.idxOf? p with
    | none => rfl
    | some i =>
      have hi := (List.idxOf?_eq_some_iff.mp hindex).1
      exact congrArg some (hshifted i (Nat.le_of_lt hi))

/-! ## 2. All states -/

/-- **All states are given their places**, or there are too few identifiers.  The induction is on
the states; each that takes an identifier is out of the way of those behind it, since no state
stands there twice. -/
theorem foldlM_give_cases (h : states.Nodup) :
    (a.next.Fits (a.lacking states).length ∧ ∃ b, a.Extends (a.lacking states) b ∧
      (states.foldlM give a : Except (BuildError α) Allotment) = .ok b) ∨
    (¬ a.next.Fits (a.lacking states).length ∧
      (states.foldlM give a : Except (BuildError α) Allotment) =
        .error (.stateOutOfRange .last 1)) := by
  induction states generalizing a with
  | nil => exact Or.inl ⟨StateId.fits_zero _, a, .refl a, rfl⟩
  | cons q states ih =>
    obtain ⟨hq, hstates⟩ := List.nodup_cons.mp h
    rw [List.foldlM_cons, give_eq]
    cases hlookup : a.places.lookup q with
    | some place =>
      have hlacking : a.lacking (q :: states) = a.lacking states :=
        List.filter_cons_of_neg (by simp [hlookup])
      rw [hlacking]
      exact ih hstates
    | none =>
      have hlacking : a.lacking (q :: states) = q :: (a.taken q).lacking states := by
        rw [lacking_taken hq]
        exact List.filter_cons_of_pos (by simp [hlookup])
      rw [hlacking]
      by_cases hfits : a.next.Fits 1
      · rw [if_neg (by simp), if_pos hfits]
        rcases ih hstates (a := a.taken q) with ⟨hrest, b, hb, hok⟩ | ⟨hrest, herror⟩
        · have hall := (fits_taken hfits).mp hrest
          exact Or.inl ⟨hall, b, .taken hall hb, hok⟩
        · exact Or.inr ⟨fun hall => hrest ((fits_taken hfits).mpr hall), herror⟩
      · rw [if_neg (by simp), if_neg hfits]
        exact Or.inr ⟨fun hall => hfits (next_fits_one hall), rfl⟩

end Allotment

/-! ## 3. Grafts -/

namespace Graft

variable {g : Graft α} {a : Allotment} {c : Copy α}

/-- **The states of a graft go where their positions say**, when there is room for them. -/
theorem allotment_cases (g : Graft α) :
    (g.base.Fits g.unfused.length ∧ ∃ a, g.allotment = .ok a ∧ a.next = g.next ∧
      ∀ q, a.places.lookup q = g.place q) ∨
    (¬ g.base.Fits g.unfused.length ∧ g.allotment = .error (.stateOutOfRange .last 1)) := by
  have hcases := Allotment.foldlM_give_cases (α := α) (a := ⟨g.fusions, g.base⟩)
    g.fragment.states.nodup_members
  rcases hcases with ⟨hfit, a, ha, hok⟩ | ⟨hfit, herror⟩
  · exact Or.inl ⟨hfit, a, hok, ha.next, ha.lookup⟩
  · exact Or.inr ⟨hfit, herror⟩

theorem image_eq_of_lookup (h : ∀ q, a.places.lookup q = g.place q) : a.image = g.image :=
  funext fun q => congrArg (Option.getD · q) (h q)

/-- **A graft is carried out when there is room for it**, and what it brings is the copy by
positions. -/
theorem carryOut_eq (g : Graft α) : g.carryOut =
    if g.base.Fits g.unfused.length then .ok g.copy
    else .error (.stateOutOfRange .last 1) := by
  rw [carryOut]
  rcases g.allotment_cases with ⟨hfit, a, hok, hnext, hplaces⟩ | ⟨hfit, herror⟩
  · rw [hok, if_pos hfit]
    have himage := image_eq_of_lookup hplaces
    simp only [bind, Except.bind, himage, hnext]
    rfl
  · rw [herror, if_neg hfit]
    rfl

end Graft

end Recognizer
