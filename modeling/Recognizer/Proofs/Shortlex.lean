/-
# The order of words by length and then by symbols

Of two words the shorter one comes first, and of two words of one length the one with the smaller
symbol where they first differ.  Symbols that are the same count as no difference, so words that are
spelled differently may stand at one place of the order.

* `shortlex_concat`: two words with one more symbol each;
* `shortlex_nil_concat`: nothing comes before the empty word.
-/
import Recognizer.Symbol.Basic

namespace Recognizer

variable {α : Type} [Ord α]

/-- The order of words by length and then by symbols. -/
def shortlex (u v : List α) : Ordering :=
  (compare u.length v.length).then (List.compareLex compare u v)

instance [Std.TransOrd α] : Std.TransCmp (shortlex (α := α)) :=
  inferInstanceAs (Std.TransCmp (compareLex (compareOn List.length) (List.compareLex compare)))

theorem shortlex_self [Std.TransOrd α] (w : List α) : shortlex w w = .eq :=
  Std.ReflCmp.compare_self

/-- Of two words of one length with one more symbol each, this symbol decides last. -/
theorem compareLex_concat {u v : List α} (h : u.length = v.length) (a b : α) :
    List.compareLex compare (u ++ [a]) (v ++ [b]) =
      (List.compareLex compare u v).then (compare a b) := by
  induction u generalizing v with
  | nil =>
    obtain rfl := List.length_eq_zero_iff.mp h.symm
    simp [List.compareLex_cons_cons, List.compareLex_nil_nil]
  | cons x u ih =>
    obtain ⟨y, v, rfl⟩ := List.exists_cons_of_length_eq_add_one h.symm
    have hlength : u.length = v.length := by simpa using h
    simp only [List.cons_append, List.compareLex_cons_cons, ih hlength, Ordering.then_assoc]

/-- **One more symbol decides only between words that were alike before it.** -/
theorem shortlex_concat (u v : List α) (a b : α) :
    shortlex (u ++ [a]) (v ++ [b]) = (shortlex u v).then (compare a b) := by
  have hlength : compare (u ++ [a]).length (v ++ [b]).length = compare u.length v.length := by
    simp [Nat.compare_eq_ite_lt]
  rw [shortlex, shortlex, hlength]
  by_cases h : u.length = v.length
  · rw [compareLex_concat h, Ordering.then_assoc]
  · have hne : compare u.length v.length ≠ .eq := fun heq => h (Nat.compare_eq_eq.mp heq)
    cases hcompare : compare u.length v.length with
    | lt => rfl
    | eq => exact absurd hcompare hne
    | gt => rfl

/-- The empty word comes first. -/
theorem shortlex_nil_concat (v : List α) (b : α) : shortlex [] (v ++ [b]) = .lt := by
  have hlength : compare ([] : List α).length (v ++ [b]).length = .lt := by
    simp [Nat.compare_eq_lt]
  rw [shortlex, hlength]
  rfl

end Recognizer
