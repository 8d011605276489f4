/-
# Symbols

The labels of transitions come from any ordered type.  Two labels are the *same symbol* when
the order calls them equal; they may still be spelled differently, as with an order that
ignores case.

* `Same.refl`, `Same.symm`, `Same.trans`: under a lawful order, "same symbol" is an
  equivalence;
* `same_iff_eq`: when the order tells all symbols apart, it is equality.
-/

namespace Recognizer

variable {α : Type}

/-! ## 1. The same symbol -/

/-- `Same a b`: the order makes no difference between `a` and `b`. -/
def Same [Ord α] (a b : α) : Prop := compare a b = .eq

instance [Ord α] (a b : α) : Decidable (Same a b) :=
  inferInstanceAs (Decidable (compare a b = .eq))

theorem Same.refl [Ord α] [Std.ReflOrd α] (a : α) : Same a a := Std.ReflOrd.compare_self

theorem Same.symm [Ord α] [Std.OrientedOrd α] {a b : α} (h : Same a b) : Same b a :=
  Std.OrientedCmp.eq_symm h

theorem Same.trans [Ord α] [Std.TransOrd α] {a b c : α} (h : Same a b) (h' : Same b c) :
    Same a c :=
  Std.TransCmp.eq_trans h h'

theorem same_iff_eq [Ord α] [Std.LawfulEqOrd α] {a b : α} : Same a b ↔ a = b :=
  Std.LawfulEqCmp.compare_eq_iff_eq

/-- Of two entries one does not come behind the other. -/
theorem isLE_or_isLE [Ord α] [Std.OrientedOrd α] (a b : α) :
    ((compare a b).isLE || (compare b a).isLE) = true := by
  have hswap : compare b a = (compare a b).swap := Std.OrientedCmp.eq_swap
  rw [hswap]
  cases compare a b <;> rfl

/-! ## 2. A symbol set aside -/

/-- A type of symbols that sets one of them aside as the label of silent transitions. -/
class ReservedEpsilon (α : Type) where
  epsilon : α

/-- Characters set the Greek letter epsilon aside. -/
instance : ReservedEpsilon Char := ⟨'ε'⟩

/-- Numbers set the largest one aside. -/
instance : ReservedEpsilon UInt32 := ⟨4294967295⟩

end Recognizer
