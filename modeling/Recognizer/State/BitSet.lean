/-
# Sets of states held as bits

A set of states can be held as a row of bits, one for each identifier.  The row has room for some
identifiers from the start and becomes longer when one past its end is put in, so one set can be
held in rows of many sizes.  None of the questions that can be asked of a set depends on the size.

* `mem_insert`, `mem_unionWith`, `mem_ofList`: each way to build a set, said through membership;
* `contains_iff`, `intersects_iff`, `isEmpty_iff`: each question, said through membership;
* `mem_toList`, `toList_ascending`: the members, ascending, and `toList_eq_iff`, that sets with the
  same members have the same list of them, whatever their rows;
* `states`, `ofStates`: from a set held as bits to the list of its members and back.
-/
import Recognizer.State.Bits
import Recognizer.State.Set

namespace Recognizer

/-- A finite set of states, held as a row of bits in which those of its members are set. -/
structure BitSet (β : Type) [BitRow β] where
  bits : β
  lt_size : ∀ i, BitRow.test bits i = true → i < UInt32.size

namespace BitSet

open BitRow

variable {β : Type} [BitRow β] {s t : BitSet β} {q r : StateId}

instance : Membership StateId (BitSet β) := ⟨fun s q => test s.bits q.toNat = true⟩

theorem mem_def : q ∈ s ↔ test s.bits q.toNat = true := Iff.rfl

instance (q : StateId) (s : BitSet β) : Decidable (q ∈ s) :=
  inferInstanceAs (Decidable (test s.bits q.toNat = true))

/-! ## 1. Room -/

/-- For how many identifiers, counted from the first, there is room. -/
def capacity (s : BitSet β) : Nat := size s.bits

/-- A row with a bit for the identifier `q`; it becomes longer only if there was none. -/
def roomFor (b : β) (q : StateId) : β := if size b ≤ q.toNat then grow b (q.toNat + 1) else b

/-- A row that is as long as another one, if it was shorter. -/
def roomLike (b c : β) : β := if size b < size c then grow b (size c) else b

theorem lt_size_roomFor (b : β) (q : StateId) : q.toNat < size (roomFor b q) := by
  unfold roomFor
  split
  · rw [size_grow]
    omega
  · omega

/-- Then the row is long enough for the other one. -/
theorem size_le_roomLike (b c : β) : size c ≤ size (roomLike b c) := by
  unfold roomLike
  split
  · rw [size_grow]
    omega
  · omega

theorem test_roomFor {b : β} {i : Nat} : test (roomFor b q) i = test b i := by
  unfold roomFor
  split
  · exact test_grow
  · rfl

theorem test_roomLike {b c : β} {i : Nat} : test (roomLike b c) i = test b i := by
  unfold roomLike
  split
  · exact test_grow
  · rfl

/-! ## 2. Building sets -/

/-- An empty set with room for the identifiers below `capacity`. -/
def withCapacity (capacity : Nat) : BitSet β where
  bits := zeros capacity
  lt_size i h := absurd (test_zeros.symm.trans h) (by simp)

/-- An empty set without room. -/
def empty : BitSet β := withCapacity 0

instance : EmptyCollection (BitSet β) := ⟨empty⟩

instance : Inhabited (BitSet β) := ⟨empty⟩

/-- Puts `q` into the set, and tells whether it was not there before. -/
def insert (s : BitSet β) (q : StateId) : Bool × BitSet β :=
  let row := put (roomFor s.bits q) q.toNat (lt_size_roomFor s.bits q)
  (!row.1, ⟨row.2, fun i h => by
    rw [test_put, test_roomFor, Bool.or_eq_true, decide_eq_true_iff] at h
    rcases h with rfl | h
    · exact q.toNat_lt_size
    · exact s.lt_size i h⟩)

/-- The set with one member, with room for the identifiers below `capacity`. -/
def singleton (q : StateId) (capacity : Nat) : BitSet β := ((withCapacity capacity).insert q).2

/-- The set with every entry of a list put in. -/
def insertAll (s : BitSet β) (l : List StateId) : BitSet β := l.foldl (fun s q => (s.insert q).2) s

/-- The set of the entries of a list, with room for the largest of them. -/
def ofList (l : List StateId) : BitSet β :=
  (withCapacity (l.max?.elim 0 fun q => q.toNat + 1)).insertAll l

/-- The members of either set; the first one gets as much room as the second if it had less. -/
def unionWith (s t : BitSet β) : BitSet β where
  bits := BitRow.unionWith (roomLike s.bits t.bits) t.bits
  lt_size i h := by
    rw [test_unionWith (size_le_roomLike _ _), test_roomLike, Bool.or_eq_true] at h
    rcases h with h | h
    · exact s.lt_size i h
    · exact t.lt_size i h

theorem not_mem_withCapacity {capacity : Nat} : q ∉ (withCapacity capacity : BitSet β) := by
  intro h
  have hunset : test (withCapacity (β := β) capacity).bits q.toNat = false := test_zeros
  exact Bool.false_ne_true (hunset.symm.trans h)

theorem not_mem_empty : q ∉ (empty : BitSet β) := not_mem_withCapacity

/-- Only a member that was not there before is new. -/
theorem fst_insert : (s.insert q).1 = !decide (q ∈ s) := by
  have hput : (put (roomFor s.bits q) q.toNat (lt_size_roomFor s.bits q)).1 =
      decide (q ∈ s) := by
    rw [fst_put, test_roomFor, Bool.eq_iff_iff, decide_eq_true_iff, mem_def]
  rw [insert, hput]

theorem mem_insert : r ∈ (s.insert q).2 ↔ r = q ∨ r ∈ s := by
  have hput : test (s.insert q).2.bits r.toNat = (decide (q.toNat = r.toNat) ||
      test s.bits r.toNat) := (test_put _).trans (by rw [test_roomFor])
  rw [mem_def, hput, Bool.or_eq_true, decide_eq_true_iff, UInt32.toNat_inj, eq_comm, ← mem_def]

theorem mem_singleton {capacity : Nat} : r ∈ (singleton q capacity : BitSet β) ↔ r = q := by
  rw [singleton, mem_insert]
  exact or_iff_left not_mem_withCapacity

theorem mem_insertAll {l : List StateId} : r ∈ s.insertAll l ↔ r ∈ s ∨ r ∈ l := by
  induction l generalizing s with
  | nil => simp [insertAll]
  | cons q l ih =>
    have ih := ih (s := (s.insert q).2)
    rw [insertAll] at ih ⊢
    rw [List.foldl_cons, ih, mem_insert, List.mem_cons]
    grind

theorem mem_ofList {l : List StateId} : r ∈ (ofList l : BitSet β) ↔ r ∈ l := by
  rw [ofList, mem_insertAll]
  exact or_iff_right not_mem_withCapacity

theorem mem_unionWith : r ∈ s.unionWith t ↔ r ∈ s ∨ r ∈ t := by
  rw [mem_def, unionWith, test_unionWith (size_le_roomLike _ _), test_roomLike, Bool.or_eq_true]
  rfl

/-! ## 3. Asking sets -/

/-- Whether `q` is a member. -/
def contains (s : BitSet β) (q : StateId) : Bool :=
  decide (q.toNat < s.capacity) && test s.bits q.toNat

/-- Whether there is no member. -/
def isEmpty (s : BitSet β) : Bool := isClear s.bits

/-- The number of members. -/
def size (s : BitSet β) : Nat := countOnes s.bits

/-- The members. -/
def toList (s : BitSet β) : List StateId := (ones s.bits).map UInt32.ofNat

/-- Whether the two sets share a member. -/
def intersects (s t : BitSet β) : Bool := (intersection s.bits t.bits).head?.isSome

theorem contains_iff : s.contains q = true ↔ q ∈ s := by
  rw [contains, Bool.and_eq_true, decide_eq_true_iff]
  exact ⟨And.right, fun h => ⟨lt_size_of_test h, h⟩⟩

theorem contains_of_capacity_le (h : s.capacity ≤ q.toNat) : s.contains q = false := by
  rw [contains, decide_eq_false (Nat.not_lt.mpr h), Bool.false_and]

/-- Every bit that is set is the bit of an identifier. -/
theorem test_iff {i : Nat} : test s.bits i = true ↔ ∃ q ∈ s, q.toNat = i := by
  constructor
  · intro h
    have hi : (UInt32.ofNat i).toNat = i := UInt32.toNat_ofNat_of_lt' (s.lt_size i h)
    exact ⟨UInt32.ofNat i, by rwa [mem_def, hi], hi⟩
  · rintro ⟨q, hq, rfl⟩
    exact hq

theorem mem_toList : q ∈ s.toList ↔ q ∈ s := by
  rw [toList, List.mem_map]
  constructor
  · rintro ⟨i, hi, rfl⟩
    obtain ⟨q, hq, rfl⟩ := test_iff.mp (mem_ones.mp hi)
    rwa [UInt32.ofNat_toNat]
  · intro h
    exact ⟨q.toNat, mem_ones.mpr h, UInt32.ofNat_toNat⟩

theorem toList_ascending (s : BitSet β) : s.toList.Pairwise (· < ·) := by
  rw [toList, List.pairwise_map]
  refine (ones_ascending s.bits).imp_of_mem fun hi hj hij => ?_
  obtain ⟨p, -, rfl⟩ := test_iff.mp (mem_ones.mp hi)
  obtain ⟨q, -, rfl⟩ := test_iff.mp (mem_ones.mp hj)
  rwa [UInt32.ofNat_toNat, UInt32.ofNat_toNat, UInt32.lt_iff_toNat_lt]

/-- **The members can be told from the set alone**, whatever its row. -/
theorem toList_eq_iff : s.toList = t.toList ↔ ∀ q, q ∈ s ↔ q ∈ t := by
  constructor
  · intro h q
    rw [← mem_toList, h, mem_toList]
  · intro h
    refine StateSet.members_eq_of_same s.toList_ascending t.toList_ascending fun q => ?_
    rw [mem_toList, h, mem_toList]

theorem size_eq (s : BitSet β) : s.size = s.toList.length := by
  rw [size, countOnes_eq, toList, List.length_map]

theorem isEmpty_iff : s.isEmpty = true ↔ ∀ q, q ∉ s := by
  rw [isEmpty, isClear_iff]
  constructor
  · intro h q hq
    exact Bool.false_ne_true ((h q.toNat).symm.trans hq)
  · intro h i
    refine Bool.eq_false_iff.mpr fun hi => ?_
    obtain ⟨q, hq, -⟩ := test_iff.mp hi
    exact h q hq

theorem intersects_iff : s.intersects t = true ↔ ∃ q, q ∈ s ∧ q ∈ t := by
  rw [intersects, List.isSome_head?]
  constructor
  · intro h
    obtain ⟨i, hi⟩ := List.exists_mem_of_ne_nil _ h
    obtain ⟨hs, ht⟩ := mem_intersection.mp hi
    obtain ⟨q, hq, rfl⟩ := test_iff.mp hs
    exact ⟨q, hq, ht⟩
  · rintro ⟨q, hs, ht⟩
    exact List.ne_nil_of_mem (mem_intersection.mpr ⟨hs, ht⟩)

/-! ## 4. Comparing sets and showing them -/

instance : BEq (BitSet β) := ⟨fun s t => s.toList == t.toList⟩

/-- Feeds the members to a hasher, one after the other. -/
def feed {σ : Type} (write : σ → StateId → σ) (state : σ) (s : BitSet β) : σ :=
  s.toList.foldl write state

instance : Hashable (BitSet β) := ⟨feed (fun seed q => mixHash seed (hash q)) 7⟩

/-- The members between braces, ascending, separated by commas. -/
def text (s : BitSet β) : String :=
  "\x7b" ++ ", ".intercalate (s.toList.map toString) ++ "\x7d"

theorem beq_iff : (s == t) = true ↔ ∀ q, q ∈ s ↔ q ∈ t := by
  have hlists : (s == t) = (s.toList == t.toList) := rfl
  rw [hlists, beq_iff_eq, toList_eq_iff]

/-! ## 5. Sets of states as lists -/

/-- The set as the list of its members. -/
def states (s : BitSet β) : StateSet := ⟨s.toList, s.toList_ascending⟩

/-- A list of members, held as bits. -/
def ofStates (s : StateSet) : BitSet β := ofList s.members

theorem mem_states : q ∈ s.states ↔ q ∈ s := mem_toList

/-- A set is told from the list of its members. -/
theorem states_eq_iff {S : StateSet} : s.states = S ↔ ∀ q, q ∈ s ↔ q ∈ S := by
  constructor
  · rintro rfl q
    exact mem_states.symm
  · exact fun h => StateSet.ext fun q => mem_states.trans (h q)

theorem contains_states (s : BitSet β) (q : StateId) : s.contains q = s.states.contains q := by
  rw [Bool.eq_iff_iff, contains_iff, StateSet.contains_iff, mem_states]

theorem states_ofStates (s : StateSet) : (ofStates s : BitSet β).states = s :=
  states_eq_iff.mpr fun _ => mem_ofList

end BitSet

end Recognizer
