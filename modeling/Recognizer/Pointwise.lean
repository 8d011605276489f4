/-
# Lists related entry by entry

`Pointwise R l m`: the lists have the same length and `R` holds between the entries at each
position.
-/

namespace Recognizer

variable {α β : Type}

/-- The two lists have the same length and entries related by `R` at each position. -/
def Pointwise (R : α → β → Prop) : List α → List β → Prop
  | [], [] => True
  | a :: as, b :: bs => R a b ∧ Pointwise R as bs
  | _, _ => False

instance Pointwise.decide (R : α → β → Prop) [∀ a b, Decidable (R a b)] :
    ∀ (l : List α) (m : List β), Decidable (Pointwise R l m)
  | [], [] => isTrue trivial
  | a :: as, b :: bs =>
    have := Pointwise.decide R as bs
    inferInstanceAs (Decidable (R a b ∧ Pointwise R as bs))
  | [], _ :: _ => isFalse id
  | _ :: _, [] => isFalse id

theorem Pointwise.length_eq {R : α → β → Prop} :
    ∀ {l : List α} {m : List β}, Pointwise R l m → l.length = m.length
  | [], [], _ => rfl
  | _ :: _, _ :: _, h => congrArg (· + 1) (Pointwise.length_eq h.2)

/-- A list is related to what becomes of it when each entry is. -/
theorem Pointwise.map_right {R : α → β → Prop} {f : α → β} {l : List α} (h : ∀ a ∈ l, R a (f a)) :
    Pointwise R l (l.map f) := by
  induction l with
  | nil => trivial
  | cons a l ih => exact ⟨h a List.mem_cons_self, ih fun b hb => h b (List.mem_cons_of_mem a hb)⟩

end Recognizer
