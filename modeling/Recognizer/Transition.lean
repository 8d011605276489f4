/-
# Transitions

A transition leads from a source to a target on a symbol.  Transitions are ordered by source, then
symbol, then target.  Two transitions are *alike* when they join the same states on the same
symbol, however that symbol is spelled.

* `compare_eq_iff`: the order calls two transitions equal exactly when they are alike.
-/
import Recognizer.State.Id
import Recognizer.Symbol.Basic

namespace Recognizer

/-- An edge of a state graph, labelled with a symbol. -/
structure Transition (α : Type) where
  source : StateId
  symbol : α
  target : StateId
  deriving DecidableEq

namespace Transition

variable {α : Type}

/-- The transition with both its ends renamed. -/
def rename (f : StateId → StateId) (t : Transition α) : Transition α :=
  ⟨f t.source, t.symbol, f t.target⟩

/-- The two ends, source first. -/
def ends (t : Transition α) : List StateId := [t.source, t.target]

theorem rename_id (t : Transition α) : t.rename id = t := rfl

theorem rename_rename (f g : StateId → StateId) (t : Transition α) :
    (t.rename f).rename g = t.rename (g ∘ f) := rfl

section Ordered

variable [Ord α]

instance : Ord (Transition α) :=
  ⟨compareLex (compareOn source) (compareLex (compareOn symbol) (compareOn target))⟩

instance [Std.TransOrd α] : Std.TransOrd (Transition α) :=
  inferInstanceAs (Std.TransCmp
    (compareLex (compareOn source) (compareLex (compareOn symbol) (compareOn target))))

/-- `t.Leaves q a`: the transition starts in `q` and reads the symbol `a`. -/
def Leaves (t : Transition α) (q : StateId) (a : α) : Prop := t.source = q ∧ Same t.symbol a

instance (t : Transition α) (q : StateId) (a : α) : Decidable (t.Leaves q a) :=
  inferInstanceAs (Decidable (_ ∧ _))

/-- The same ends and the same symbol. -/
def Alike (t u : Transition α) : Prop :=
  t.source = u.source ∧ Same t.symbol u.symbol ∧ t.target = u.target

instance (t u : Transition α) : Decidable (t.Alike u) :=
  inferInstanceAs (Decidable (_ ∧ _ ∧ _))

theorem compare_eq_then (t u : Transition α) : compare t u = (compare t.source u.source).then
    ((compare t.symbol u.symbol).then (compare t.target u.target)) := rfl

theorem compare_eq_iff {t u : Transition α} : compare t u = .eq ↔ t.Alike u := by
  have h : ∀ p q : StateId, compare p q = .eq ↔ p = q := fun p q =>
    Std.LawfulEqCmp.compare_eq_iff_eq
  rw [compare_eq_then, Ordering.then_eq_eq, Ordering.then_eq_eq, h, h]
  rfl

end Ordered

end Transition

end Recognizer
