/-
# Rows of bits

A row of bits has a first and a last bit, and past its end every bit reads as unset.  A row can be
made longer, which shows no bit that was not there before.  Only a bit of the row can be set, so a
row has to be long enough first.

What a set of states asks of its row is the class `BitRow`: the operations, and how each of them
shows in the bits.  Of a union it is asked only where the row is long enough for the other one.  How
a row is stored is left to its type; `Bits` is the plain one, with a cell for each bit, and its
unions make room by themselves.
-/

namespace Recognizer

/-! ## 1. What a row is asked -/

/-- Rows of bits, as the bits that can be read from them say. -/
class BitRow (β : Type) where
  /-- A row of unset bits. -/
  zeros : Nat → β
  /-- How many bits there are. -/
  size : β → Nat
  /-- Whether a bit is set. -/
  test : β → Nat → Bool
  /-- The row with unset bits behind it, up to a size.  A row of that size stays as it is. -/
  grow : β → Nat → β
  /-- Sets a bit of the row, and tells whether it was set before. -/
  put : (b : β) → (i : Nat) → i < size b → Bool × β
  /-- The row with the bits of another one set too, if it has a bit for each bit of that one. -/
  unionWith : β → β → β
  /-- The positions of the bits that are set. -/
  ones : β → List Nat
  /-- The positions at which both rows have a bit set. -/
  intersection : β → β → List Nat
  /-- How many bits are set. -/
  countOnes : β → Nat
  /-- Whether no bit is set. -/
  isClear : β → Bool
  test_zeros : ∀ {k i : Nat}, test (zeros k) i = false
  lt_size_of_test : ∀ {b : β} {i : Nat}, test b i = true → i < size b
  size_grow : ∀ {b : β} {k : Nat}, size (grow b k) = max (size b) k
  test_grow : ∀ {b : β} {k i : Nat}, test (grow b k) i = test b i
  fst_put : ∀ {b : β} {i : Nat} (h : i < size b), (put b i h).1 = test b i
  test_put : ∀ {b : β} {i j : Nat} (h : i < size b),
    test (put b i h).2 j = (decide (i = j) || test b j)
  test_unionWith : ∀ {b c : β} {i : Nat}, size c ≤ size b →
    test (unionWith b c) i = (test b i || test c i)
  mem_ones : ∀ {b : β} {i : Nat}, i ∈ ones b ↔ test b i = true
  ones_ascending : ∀ b : β, (ones b).Pairwise (· < ·)
  mem_intersection : ∀ {b c : β} {i : Nat},
    i ∈ intersection b c ↔ test b i = true ∧ test c i = true
  countOnes_eq : ∀ b : β, countOnes b = (ones b).length
  isClear_iff : ∀ {b : β}, isClear b = true ↔ ∀ i, test b i = false

/-! ## 2. Plain rows -/

/-- A row of bits with a cell for each. -/
structure Bits where
  cells : Array Bool

namespace Bits

variable {b c : Bits} {i j k : Nat}

/-- A row of unset bits. -/
def zeros (size : Nat) : Bits := ⟨Array.replicate size false⟩

/-- How many bits there are. -/
def size (b : Bits) : Nat := b.cells.size

/-- Whether a bit is set; past the end none is. -/
def test (b : Bits) (i : Nat) : Bool := b.cells[i]?.getD false

/-- The row with unset bits behind it, up to a size.  A row of that size stays as it is. -/
def grow (b : Bits) (size : Nat) : Bits := ⟨b.cells ++ Array.replicate (size - b.size) false⟩

/-- Sets a bit of the row, and tells whether it was set before. -/
def put (b : Bits) (i : Nat) (h : i < b.size) : Bool × Bits := (b.cells[i], ⟨b.cells.set i true h⟩)

/-- The row with the bits of another one set too, as long as the longer of the two. -/
def unionWith (b c : Bits) : Bits :=
  ⟨(b.grow c.size).cells.mapIdx fun i bit => bit || c.test i⟩

theorem test_of_size_le (h : b.size ≤ i) : b.test i = false := by
  rw [test, Array.getElem?_eq_none h]
  rfl

theorem lt_size_of_test (h : b.test i = true) : i < b.size := by
  refine Nat.lt_of_not_le fun hle => ?_
  rw [test_of_size_le hle] at h
  exact absurd h (by simp)

theorem test_zeros : (zeros k).test i = false := by
  rw [test, zeros, Array.getElem?_replicate]
  split <;> rfl

theorem size_grow : (b.grow k).size = max b.size k := by
  have hsize : (b.grow k).size = b.size + (k - b.size) := by simp [grow, size]
  omega

/-- A longer row has the same bits set. -/
theorem test_grow : (b.grow k).test i = b.test i := by
  rw [test, test, grow, Array.getElem?_append]
  split
  · rfl
  · rename_i h
    rw [Array.getElem?_eq_none (Nat.le_of_not_lt h), Array.getElem?_replicate]
    split <;> rfl

theorem fst_put (h : i < b.size) : (b.put i h).1 = b.test i := by
  rw [test, Array.getElem?_eq_getElem h]
  rfl

theorem test_put (h : i < b.size) :
    (b.put i h).2.test j = (decide (i = j) || b.test j) := by
  have hi : i < b.cells.size := h
  have hcells : (b.put i h).2.cells = b.cells.set i true hi := rfl
  rw [test, test, hcells, Array.getElem?_set]
  by_cases hij : i = j <;> simp [hij]

theorem test_unionWith : (b.unionWith c).test i = (b.test i || c.test i) := by
  rw [← test_grow (b := b) (k := c.size), test, unionWith, Array.getElem?_mapIdx]
  by_cases hi : i < (b.grow c.size).cells.size
  · simp [test, Array.getElem?_eq_getElem hi]
  · -- A bit past the end of the longer row is past the end of both.
    have hend : (b.grow c.size).size ≤ i := Nat.le_of_not_lt hi
    have hother : c.size ≤ i := by
      rw [size_grow] at hend
      omega
    simp [test_of_size_le hend, test_of_size_le hother, Array.getElem?_eq_none hend]

/-- The positions of the bits that are set, ascending. -/
def ones (b : Bits) : List Nat := (List.range b.size).filter b.test

/-- The positions at which both rows have a bit set, ascending. -/
def intersection (b c : Bits) : List Nat := b.ones.filter c.test

/-- How many bits are set. -/
def countOnes (b : Bits) : Nat := b.cells.count true

/-- Whether no bit is set. -/
def isClear (b : Bits) : Bool := b.cells.all (!·)

theorem mem_ones : i ∈ b.ones ↔ b.test i = true := by
  rw [ones, List.mem_filter, List.mem_range]
  exact ⟨And.right, fun h => ⟨lt_size_of_test h, h⟩⟩

theorem ones_ascending (b : Bits) : b.ones.Pairwise (· < ·) :=
  List.pairwise_lt_range.sublist List.filter_sublist

theorem mem_intersection : i ∈ b.intersection c ↔ b.test i = true ∧ c.test i = true := by
  rw [intersection, List.mem_filter, mem_ones]

theorem countOnes_eq (b : Bits) : b.countOnes = b.ones.length := by
  have hcells : b.cells.toList = (List.range b.size).map b.test := by
    refine List.ext_getElem (by simp [size]) fun i hi _ => ?_
    have hi : i < b.cells.size := hi
    simp [test, Array.getElem?_eq_getElem hi]
  rw [countOnes, ← Array.count_toList, hcells, List.count_eq_countP, List.countP_map, ones,
    ← List.countP_eq_length_filter]
  congr 1
  funext i
  simp

theorem isClear_iff : b.isClear = true ↔ ∀ i, b.test i = false := by
  rw [isClear, Array.all_eq_true]
  constructor
  · intro h i
    by_cases hi : i < b.size
    · have hunset := h i hi
      simpa [test, Array.getElem?_eq_getElem hi] using hunset
    · exact test_of_size_le (Nat.le_of_not_lt hi)
  · intro h i hi
    have hunset := h i
    simpa [test, Array.getElem?_eq_getElem hi] using hunset

instance : BitRow Bits where
  zeros := zeros
  size := size
  test := test
  grow := grow
  put := put
  unionWith := unionWith
  ones := ones
  intersection := intersection
  countOnes := countOnes
  isClear := isClear
  test_zeros := test_zeros
  lt_size_of_test := lt_size_of_test
  size_grow := size_grow
  test_grow := test_grow
  fst_put := fst_put
  test_put := test_put
  test_unionWith := fun _ => test_unionWith
  mem_ones := mem_ones
  ones_ascending := ones_ascending
  mem_intersection := mem_intersection
  countOnes_eq := countOnes_eq
  isClear_iff := isClear_iff

end Bits

end Recognizer
