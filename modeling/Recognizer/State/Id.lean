/-
# State identifiers

A state is named by a 32-bit number.  The arithmetic on identifiers is done on their exact
values: a shift that would leave the range is seen (`Fits`) before it is carried out
(`shifted`), so no identifier ever wraps around.

* `fits_natCast_iff`: a shift upwards fits when the moved value is below `UInt32.size`;
* `toNat_shifted`: a shift that fits moves the value by exactly that much;
* `shifted_shifted`: two shifts in a row are one.
-/

namespace Recognizer

/-- The identifier of a state. -/
abbrev StateId := UInt32

namespace StateId

/-- The largest identifier. -/
def last : StateId := 4294967295

theorem toNat_last : last.toNat = UInt32.size - 1 := rfl

/-! ## 1. Shifting -/

/-- `s.Fits delta`: moving `s` by `delta` stays inside the range of identifiers. -/
def Fits (s : StateId) (delta : Int) : Prop :=
  0 ≤ (s.toNat : Int) + delta ∧ (s.toNat : Int) + delta < UInt32.size

instance (s : StateId) (delta : Int) : Decidable (Fits s delta) :=
  inferInstanceAs (Decidable (_ ∧ _))

/-- The identifier `delta` away from `s`; meaningful when the shift fits. -/
def shifted (delta : Int) (s : StateId) : StateId :=
  UInt32.ofNat ((s.toNat : Int) + delta).toNat

theorem fits_natCast_iff {s : StateId} {k : Nat} : s.Fits k ↔ s.toNat + k < UInt32.size := by
  unfold Fits
  omega

/-- Only the last identifier has no room above it. -/
theorem eq_last {s : StateId} (h : ¬ s.toNat + 1 < UInt32.size) : s = last := by
  apply UInt32.toNat_inj.mp
  have hlt := s.toNat_lt_size
  rw [toNat_last]
  omega

/-- A shift that fits moves the value by exactly that much. -/
theorem toNat_shifted {s : StateId} {delta : Int} (h : Fits s delta) :
    ((shifted delta s).toNat : Int) = s.toNat + delta := by
  obtain ⟨h0, h1⟩ := h
  have hlt : ((s.toNat : Int) + delta).toNat < UInt32.size := by omega
  rw [shifted, UInt32.toNat_ofNat_of_lt' hlt]
  omega

/-- A shift that fits moves different identifiers to different ones. -/
theorem shifted_inj {s t : StateId} {delta : Int} (hs : s.Fits delta) (ht : t.Fits delta)
    (h : s.shifted delta = t.shifted delta) : s = t := by
  have hsmoved := toNat_shifted hs
  have htmoved := toNat_shifted ht
  rw [h] at hsmoved
  exact UInt32.toNat_inj.mp (by omega)

/-- After one shift another fits when both together do. -/
theorem fits_shifted {s : StateId} {i j : Int} (hi : s.Fits i) :
    (s.shifted i).Fits j ↔ s.Fits (i + j) := by
  have hfirst := toNat_shifted hi
  unfold Fits
  omega

theorem shifted_shifted {s : StateId} {i j : Int} (hi : s.Fits i) (hij : s.Fits (i + j)) :
    (s.shifted i).shifted j = s.shifted (i + j) := by
  have hfirst := toNat_shifted hi
  have hboth := toNat_shifted hij
  have hsecond := toNat_shifted ((fits_shifted hi).mpr hij)
  apply UInt32.toNat_inj.mp
  omega

/-- Staying in place always fits. -/
theorem fits_zero (s : StateId) : Fits s 0 := by
  have := s.toNat_lt_size
  unfold Fits
  omega

theorem shifted_zero (s : StateId) : shifted 0 s = s := by
  apply UInt32.toNat_inj.mp
  have := toNat_shifted (fits_zero s)
  omega

end StateId

end Recognizer
