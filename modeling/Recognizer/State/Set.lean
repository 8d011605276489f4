/-
# Finite sets of state identifiers

A set is the list of its members, strictly ascending.  The order is part of the type, so two
sets with the same members are equal, however each of them was put together.  How sets are held in
memory, with room for members, is in `Recognizer.State.BitSet`.

* `ext`: sets with the same members are equal;
* `mem_insert`, `mem_union`, `mem_ofList`: each way to build a set, said through membership;
* `contains_iff`, `intersects_iff`, `isEmpty_iff`: each question, said through membership.
-/
import Recognizer.State.Id

namespace Recognizer

/-- A finite set of states, held as the strictly ascending list of its members. -/
structure StateSet where
  members : List StateId
  ascending : members.Pairwise (· < ·)
  deriving DecidableEq

namespace StateSet

instance : Membership StateId StateSet := ⟨fun s q => q ∈ s.members⟩

instance (q : StateId) (s : StateSet) : Decidable (q ∈ s) :=
  inferInstanceAs (Decidable (q ∈ s.members))

instance : Hashable StateSet := ⟨fun s => hash s.members⟩

theorem mem_members {q : StateId} {s : StateSet} : q ∈ s.members ↔ q ∈ s := Iff.rfl

theorem nodup_members (s : StateSet) : s.members.Nodup := s.ascending.imp UInt32.ne_of_lt

/-! ## 1. Insertion into an ascending list -/

/-- Puts `q` at its place in an ascending list; a member already there stays as it is. -/
def place (q : StateId) : List StateId → List StateId
  | [] => [q]
  | x :: xs => if q < x then q :: x :: xs else if q = x then x :: xs else x :: place q xs

theorem mem_place {q r : StateId} : ∀ {l : List StateId}, r ∈ place q l ↔ r = q ∨ r ∈ l
  | [] => by simp [place]
  | x :: xs => by
    unfold place
    split
    · simp
    · split
      · rename_i h
        subst h
        simp
      · simp only [List.mem_cons, mem_place (l := xs)]
        grind

theorem pairwise_place {q : StateId} :
    ∀ {l : List StateId}, l.Pairwise (· < ·) → (place q l).Pairwise (· < ·)
  | [], _ => by simp [place]
  | x :: xs, h => by
    obtain ⟨hx, hxs⟩ := List.pairwise_cons.mp h
    unfold place
    split
    · rename_i hq
      refine List.pairwise_cons.mpr ⟨fun y hy => ?_, h⟩
      rcases List.mem_cons.mp hy with rfl | hy
      · exact hq
      · exact UInt32.lt_trans hq (hx y hy)
    · split
      · exact h
      · refine List.pairwise_cons.mpr ⟨fun y hy => ?_, pairwise_place hxs⟩
        rcases mem_place.mp hy with rfl | hy
        · grind
        · exact hx y hy

/-! ## 2. Building sets -/

/-- The set without members. -/
def empty : StateSet := ⟨[], List.Pairwise.nil⟩

instance : EmptyCollection StateSet := ⟨empty⟩

instance : Inhabited StateSet := ⟨empty⟩

/-- An empty set with room for `capacity` members.  The room is a hint and never shows. -/
def withCapacity (_capacity : Nat) : StateSet := empty

/-- The set with one member. -/
def singleton (q : StateId) : StateSet := ⟨[q], by simp⟩

/-- The set with `q` added. -/
def insert (s : StateSet) (q : StateId) : StateSet :=
  ⟨place q s.members, pairwise_place s.ascending⟩

/-- The set with every entry of a list added. -/
def insertAll (s : StateSet) (l : List StateId) : StateSet := l.foldl insert s

/-- The set of the entries of a list, in whatever order and however often they occur. -/
def ofList (l : List StateId) : StateSet := empty.insertAll l

/-- The members of either set. -/
def union (s t : StateSet) : StateSet := s.insertAll t.members

instance : Union StateSet := ⟨union⟩

theorem not_mem_empty (q : StateId) : q ∉ (empty : StateSet) := List.not_mem_nil

theorem mem_singleton {q r : StateId} : r ∈ singleton q ↔ r = q := List.mem_singleton

theorem mem_insert {s : StateSet} {q r : StateId} : r ∈ s.insert q ↔ r = q ∨ r ∈ s := mem_place

theorem mem_insertAll {r : StateId} :
    ∀ {l : List StateId} {s : StateSet}, r ∈ s.insertAll l ↔ r ∈ s ∨ r ∈ l
  | [], s => by simp [insertAll]
  | x :: xs, s => by
    have ih := mem_insertAll (r := r) (l := xs) (s := s.insert x)
    simp only [insertAll, List.foldl_cons] at ih ⊢
    rw [ih, mem_insert, List.mem_cons]
    grind

theorem mem_ofList {l : List StateId} {r : StateId} : r ∈ ofList l ↔ r ∈ l := by
  rw [ofList, mem_insertAll]
  simp [not_mem_empty]

theorem mem_union {s t : StateSet} {r : StateId} : r ∈ s.union t ↔ r ∈ s ∨ r ∈ t :=
  mem_insertAll

/-! ## 3. Asking sets -/

/-- Whether `q` is a member. -/
def contains (s : StateSet) (q : StateId) : Bool := s.members.contains q

/-- Whether there is no member. -/
def isEmpty (s : StateSet) : Bool := s.members.isEmpty

/-- The number of members. -/
def size (s : StateSet) : Nat := s.members.length

/-- Whether the two sets share a member. -/
def intersects (s t : StateSet) : Bool := s.members.any t.contains

theorem contains_iff {s : StateSet} {q : StateId} : s.contains q = true ↔ q ∈ s := by
  simp [contains, mem_members]

theorem isEmpty_iff {s : StateSet} : s.isEmpty = true ↔ ∀ q, q ∉ s := by
  rw [isEmpty, List.isEmpty_iff, List.eq_nil_iff_forall_not_mem]
  rfl

theorem isEmpty_eq_false_iff {s : StateSet} : s.isEmpty = false ↔ ∃ q, q ∈ s := by
  rw [← Bool.not_eq_true, isEmpty_iff]
  simp

theorem intersects_iff {s t : StateSet} : s.intersects t = true ↔ ∃ q, q ∈ s ∧ q ∈ t := by
  simp [intersects, contains_iff, mem_members]

/-! ## 4. Sets with the same members are equal -/

theorem members_eq_of_same : ∀ {l m : List StateId}, l.Pairwise (· < ·) → m.Pairwise (· < ·) →
    (∀ q, q ∈ l ↔ q ∈ m) → l = m
  | [], [], _, _, _ => rfl
  | [], y :: ys, _, _, h => absurd ((h y).mpr (by simp)) (by simp)
  | x :: xs, [], _, _, h => absurd ((h x).mp (by simp)) (by simp)
  | x :: xs, y :: ys, hl, hm, h => by
    obtain ⟨hx, hxs⟩ := List.pairwise_cons.mp hl
    obtain ⟨hy, hys⟩ := List.pairwise_cons.mp hm
    have hxy : x = y := by
      have h1 := (h x).mp (by simp)
      have h2 := (h y).mpr (by simp)
      rcases List.mem_cons.mp h1 with h1 | h1
      · exact h1
      · rcases List.mem_cons.mp h2 with h2 | h2
        · exact h2.symm
        · exact absurd (UInt32.lt_trans (hx y h2) (hy x h1)) (UInt32.lt_irrefl x)
    subst hxy
    have htail : ∀ q, q ∈ xs ↔ q ∈ ys := by
      intro q
      have hq := h q
      simp only [List.mem_cons] at hq
      constructor
      · intro hm
        have hne : q ≠ x := fun e => UInt32.lt_irrefl x (e ▸ hx q hm)
        exact (hq.mp (Or.inr hm)).resolve_left hne
      · intro hm
        have hne : q ≠ x := fun e => UInt32.lt_irrefl x (e ▸ hy q hm)
        exact (hq.mpr (Or.inr hm)).resolve_left hne
    rw [members_eq_of_same hxs hys htail]

/-- **Sets with the same members are equal.** -/
theorem ext {s t : StateSet} (h : ∀ q, q ∈ s ↔ q ∈ t) : s = t := by
  obtain ⟨l, hl⟩ := s
  obtain ⟨m, hm⟩ := t
  have : l = m := members_eq_of_same hl hm h
  subst this
  rfl

/-! ## 5. Text -/

/-- The members between braces, ascending, separated by commas. -/
def text (s : StateSet) : String :=
  "\x7b" ++ ", ".intercalate (s.members.map toString) ++ "\x7d"

end StateSet

end Recognizer
