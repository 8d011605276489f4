/-
# Allocating and moving identifiers

Shifting an identifier succeeds exactly when the shift fits the range of identifiers; the
successor is the shift by one.
-/
import Recognizer.Error

namespace Recognizer

namespace StateId

variable {α : Type}

/-- Moves an identifier, if the result is one. -/
def shift (s : StateId) (delta : Int) : Except (BuildError α) StateId :=
  if s.Fits delta then .ok (s.shifted delta) else .error (.stateOutOfRange s delta)

/-- The next identifier, if there is one. -/
def successor (s : StateId) : Except (BuildError α) StateId := shift s 1

theorem shift_eq_ok_iff {s t : StateId} {delta : Int} :
    (shift s delta : Except (BuildError α) StateId) = .ok t ↔
      (t.toNat : Int) = s.toNat + delta := by
  unfold shift
  have ht := t.toNat_lt_size
  split
  · rename_i h
    have hs := toNat_shifted h
    rw [Except.ok.injEq, ← UInt32.toNat_inj]
    omega
  · rename_i h
    simp only [reduceCtorEq, false_iff]
    unfold Fits at h
    omega

theorem successor_eq_ok_iff {s t : StateId} :
    (successor s : Except (BuildError α) StateId) = .ok t ↔ t.toNat = s.toNat + 1 := by
  rw [successor, shift_eq_ok_iff]
  omega

/-- The identifier that has no successor is the last one. -/
theorem successor_eq (s : StateId) : (successor s : Except (BuildError α) StateId) =
    if s.Fits 1 then .ok (s.shifted 1) else .error (.stateOutOfRange last 1) := by
  rw [successor, shift]
  split
  · rfl
  · rename_i h
    rw [eq_last fun hlt => h (fits_natCast_iff (k := 1).mpr hlt)]

end StateId

end Recognizer
