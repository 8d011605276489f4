/-
# What an alphabet holds

An alphabet is made of the labels of a graph.  It holds nothing else, and it holds every label in
some spelling.  It is ascending, so it holds each symbol once.  For an automaton this means that a
symbol that is not the epsilon labels a transition exactly when it is spelled in the alphabet.

* `Alphabet.mem_of_mem_ofList`, `Alphabet.exists_same_mem_ofList`: the two halves for a list;
* `Alphabet.eq_of_ascending`: a list that ascends is determined by its entries;
* `Alphabet.ascending_ofList`: the order of the symbols;
* `Nfa.exists_mem_alphabet_iff`: the alphabet of an automaton.
-/
import Mathlib.Data.List.Induction
import Mathlib.Data.List.Pairwise
import Mathlib.Data.List.Sort
import Recognizer.Nfa.Basic

namespace Recognizer

namespace Alphabet

variable {α : Type} [Ord α] {a b : α} {l : List α}

/-! ## 1. One symbol put in its place -/

theorem mem_of_mem_place (h : b ∈ place a l) : b = a ∨ b ∈ l := by
  induction l with
  | nil => exact Or.inl (List.mem_singleton.mp h)
  | cons c l ih =>
    rw [place] at h
    split at h
    · exact List.mem_cons.mp h
    · exact (List.mem_cons.mp h).imp_right (List.mem_cons_of_mem c)
    · rcases List.mem_cons.mp h with rfl | h
      · exact Or.inr List.mem_cons_self
      · exact (ih h).imp_right (List.mem_cons_of_mem c)

theorem mem_place_self (a : α) (l : List α) : a ∈ place a l := by
  induction l with
  | nil => exact List.mem_cons_self
  | cons c l ih =>
    rw [place]
    split
    · exact List.mem_cons_self
    · exact List.mem_cons_self
    · exact List.mem_cons_of_mem c ih

/-- A symbol put in its place takes the place of no other symbol. -/
theorem mem_place_of_mem (h : b ∈ l) : b ∈ place a l ∨ Same a b := by
  induction l with
  | nil => exact absurd h List.not_mem_nil
  | cons c l ih =>
    rw [place]
    split
    · exact Or.inl (List.mem_cons_of_mem a h)
    · rename_i hc
      rcases List.mem_cons.mp h with rfl | h
      · exact Or.inr hc
      · exact Or.inl (List.mem_cons_of_mem a h)
    · rcases List.mem_cons.mp h with rfl | h
      · exact Or.inl List.mem_cons_self
      · exact (ih h).imp_left (List.mem_cons_of_mem c)

/-! ## 2. The symbols of a list -/

theorem ofList_concat (l : List α) (a : α) : ofList (l ++ [a]) = place a (ofList l) :=
  List.foldl_append

theorem mem_of_mem_ofList (h : b ∈ ofList l) : b ∈ l := by
  induction l using List.reverseRecOn with
  | nil => exact h
  | append_singleton l a ih =>
    rw [ofList_concat] at h
    rcases mem_of_mem_place h with rfl | h
    · exact List.mem_append_right l List.mem_cons_self
    · exact List.mem_append_left [a] (ih h)

/-- Every symbol of the list is spelled in the alphabet. -/
theorem exists_same_mem_ofList [Std.TransOrd α] (h : b ∈ l) : ∃ c ∈ ofList l, Same c b := by
  induction l using List.reverseRecOn with
  | nil => exact absurd h List.not_mem_nil
  | append_singleton l a ih =>
    rw [ofList_concat]
    rcases List.mem_append.mp h with h | h
    · obtain ⟨c, hc, hcb⟩ := ih h
      rcases mem_place_of_mem (a := a) hc with hc | hac
      · exact ⟨c, hc, hcb⟩
      · exact ⟨a, mem_place_self a _, hac.trans hcb⟩
    · rw [List.mem_singleton.mp h]
      exact ⟨a, mem_place_self a _, Same.refl a⟩

/-- Where symbols have one spelling, the alphabet has the entries of the list. -/
theorem mem_ofList_iff [Std.TransOrd α] [Std.LawfulEqOrd α] : b ∈ ofList l ↔ b ∈ l := by
  refine ⟨mem_of_mem_ofList, fun h => ?_⟩
  obtain ⟨c, hc, hcb⟩ := exists_same_mem_ofList h
  rwa [← Std.LawfulEqCmp.eq_of_compare hcb]

/-! ## 3. The order of the symbols -/

/-- `Ascending l`: each symbol comes before all that stand behind it in the list. -/
def Ascending (l : List α) : Prop := l.Pairwise fun a b => compare a b = .lt

/-- Of two symbols in an ascending list neither is the other. -/
theorem Ascending.pairwise_not_same (h : Ascending l) : l.Pairwise fun a b => ¬ Same a b := by
  refine h.imp fun hlt hsame => ?_
  rw [hsame] at hlt
  exact absurd hlt (by decide)

variable [Std.TransOrd α]

/-- An ascending list spells each symbol in one way. -/
theorem Ascending.eq_of_same (h : Ascending l) (ha : a ∈ l) (hb : b ∈ l) (hab : Same a b) :
    a = b := by
  by_contra hne
  have hsymm : Std.Symm fun a b : α => ¬ Same a b := ⟨fun _ _ hno hyes => hno hyes.symm⟩
  exact h.pairwise_not_same.forall ha hb hne hab

/-- **A list is determined by its entries where the symbols that belong to them ascend.** -/
theorem eq_of_ascending {β : Type} (key : β → α) {l l' : List β}
    (hl : l.Pairwise fun x y => compare (key x) (key y) = .lt)
    (hl' : l'.Pairwise fun x y => compare (key x) (key y) = .lt) (h : ∀ x, x ∈ l ↔ x ∈ l') :
    l = l' := by
  have hirrefl : Std.Irrefl fun x y : β => compare (key x) (key y) = .lt :=
    ⟨fun x hlt => absurd (hlt.symm.trans (Same.refl (key x))) (by decide)⟩
  have hantisymm : Std.Antisymm fun x y : β => compare (key x) (key y) = .lt :=
    ⟨fun x y hxy hyx => absurd (Std.TransCmp.lt_trans hxy hyx) (hirrefl.irrefl x)⟩
  exact hl.eq_of_mem_iff hl' h

theorem ascending_place (h : Ascending l) : Ascending (place a l) := by
  induction l with
  | nil => exact List.pairwise_singleton _ a
  | cons c l ih =>
    obtain ⟨hc, hl⟩ := List.pairwise_cons.mp h
    rw [place]
    split
    · rename_i hac
      refine List.pairwise_cons.mpr ⟨fun b hb => ?_, h⟩
      rcases List.mem_cons.mp hb with rfl | hb
      · exact hac
      · exact Std.TransCmp.lt_trans hac (hc b hb)
    · rename_i hac
      refine List.pairwise_cons.mpr ⟨fun b hb => ?_, hl⟩
      rw [Std.TransCmp.congr_left hac]
      exact hc b hb
    · rename_i hac
      refine List.pairwise_cons.mpr ⟨fun b hb => ?_, ih hl⟩
      rcases mem_of_mem_place hb with rfl | hb
      · exact Std.OrientedCmp.gt_iff_lt.mp hac
      · exact hc b hb

/-- **An alphabet is ascending.** -/
theorem ascending_ofList (l : List α) : Ascending (ofList l) := by
  induction l using List.reverseRecOn with
  | nil => exact List.Pairwise.nil
  | append_singleton l a ih =>
    rw [ofList_concat]
    exact ascending_place ih

end Alphabet

/-! ## 4. The alphabet of an automaton -/

namespace Nfa

variable {α : Type} [Ord α] {n : Nfa α} {a : α}

theorem mem_alphabet_iff : a ∈ n.alphabet ↔ a ∈ n.symbols ∧ ¬ n.IsEpsilon a := by
  rw [alphabet, List.mem_filter]
  simp

theorem ascending_alphabet [Std.TransOrd α] (n : Nfa α) : Alphabet.Ascending n.alphabet :=
  (Alphabet.ascending_ofList _).sublist List.filter_sublist

/-- **A symbol other than the epsilon is spelled in the alphabet exactly when it labels a
transition.** -/
theorem exists_mem_alphabet_iff [Std.TransOrd α] (ha : ¬ n.IsEpsilon a) :
    (∃ b ∈ n.alphabet, Same b a) ↔ ∃ t ∈ n.transitions, Same t.symbol a := by
  constructor
  · rintro ⟨b, hb, hba⟩
    obtain ⟨t, ht, rfl⟩ := List.mem_map.mp (Alphabet.mem_of_mem_ofList (mem_alphabet_iff.mp hb).1)
    exact ⟨t, ht, hba⟩
  · rintro ⟨t, ht, hta⟩
    obtain ⟨b, hb, hbt⟩ :=
      Alphabet.exists_same_mem_ofList (List.mem_map_of_mem (f := (·.symbol)) ht)
    have hba : Same b a := hbt.trans hta
    exact ⟨b, mem_alphabet_iff.mpr ⟨hb, fun he => ha (hba.symm.trans he)⟩, hba⟩

end Nfa

end Recognizer
