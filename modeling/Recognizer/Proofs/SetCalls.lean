/-
# Sets held as bits act as sets

A program puts sets of states together call by call: it makes a set, puts a member in, joins
another set to one in place.  Here the sets have names, and calls are carried out on them one after
the other (`SetKind.run`), for sets of whatever kind.  Two kinds are in step when each call keeps
sets that belong together together and gives the same answer on both; then any number of calls do
(`SetKind.InStep.run`).

Sets held as rows of bits (`held`) are in step with finite sets (`finiteSets`), which have no room
at all, and with the sets that are lists of their members (`stateSets`), on which the automata work.
What can be asked of a set depends on its members only (`Holds.actsAs`, `Holds.comparesAs`,
`readsAs_states`), so no question shows in how long a row a set is held.
-/
import Mathlib.Data.Finset.Card
import Recognizer.State.BitSet

namespace Recognizer

/-! ## 1. Calls -/

/-- A call on a set that has a name. -/
inductive SetCall where
  | withCapacity (capacity : Nat)
  | default
  | singleton (q : StateId) (capacity : Nat)
  | collect (l : List StateId)
  | insert (q : StateId)
  | unionWith (other : String)

/-- What the calls do to sets of some kind. -/
structure SetKind (σ : Type) where
  withCapacity : Nat → σ
  default : σ
  singleton : StateId → Nat → σ
  collect : List StateId → σ
  insert : σ → StateId → Bool × σ
  unionWith : σ → σ → σ

namespace SetKind

variable {σ : Type} (k : SetKind σ)

/-- The answer of a call on the set `x`, if it has one, and what this set is then. -/
def perform (sets : String → σ) (x : String) : SetCall → Option Bool × σ
  | .withCapacity capacity => (none, k.withCapacity capacity)
  | .default => (none, k.default)
  | .singleton q capacity => (none, k.singleton q capacity)
  | .collect l => (none, k.collect l)
  | .insert q => let inserted := k.insert (sets x) q; (some inserted.1, inserted.2)
  | .unionWith other => (none, k.unionWith (sets x) (sets other))

/-- The answers of calls that are carried out one after the other, and the sets after them. -/
def run : List (String × SetCall) → (String → σ) → List Bool × (String → σ)
  | [], sets => ([], sets)
  | (x, c) :: calls, sets =>
    let first := k.perform sets x c
    let later := run calls (Function.update sets x first.2)
    (first.1.toList ++ later.1, later.2)

/-- The answers of calls, where each name stands for a default set at first. -/
def answers (calls : List (String × SetCall)) : List Bool := (k.run calls fun _ => k.default).1

/-- The set of a name after calls, where each name stands for a default set at first. -/
def after (calls : List (String × SetCall)) (x : String) : σ := (k.run calls fun _ => k.default).2 x

theorem snd_run_append (calls more : List (String × SetCall)) (sets : String → σ) :
    (k.run (calls ++ more) sets).2 = (k.run more (k.run calls sets).2).2 := by
  induction calls generalizing sets with
  | nil => rfl
  | cons call calls ih => exact ih _

/-- A call leaves the sets of all other names as they are. -/
theorem after_concat_of_ne {calls : List (String × SetCall)} {x z : String} {c : SetCall}
    (h : z ≠ x) : k.after (calls ++ [(x, c)]) z = k.after calls z := by
  rw [after, snd_run_append]
  exact Function.update_of_ne h _ _

/-- `k.InStep l R`: calls on sets of the two kinds that `R` relates give the same answers and leave
sets that it relates. -/
structure InStep {τ : Type} (k : SetKind σ) (l : SetKind τ) (R : σ → τ → Prop) : Prop where
  withCapacity : ∀ capacity, R (k.withCapacity capacity) (l.withCapacity capacity)
  default : R k.default l.default
  singleton : ∀ q capacity, R (k.singleton q capacity) (l.singleton q capacity)
  collect : ∀ ids, R (k.collect ids) (l.collect ids)
  fst_insert : ∀ {s t}, R s t → ∀ q, (k.insert s q).1 = (l.insert t q).1
  snd_insert : ∀ {s t}, R s t → ∀ q, R (k.insert s q).2 (l.insert t q).2
  unionWith : ∀ {s t s' t'}, R s t → R s' t' → R (k.unionWith s s') (l.unionWith t t')

section InStep

variable {τ : Type} {k : SetKind σ} {l : SetKind τ} {R : σ → τ → Prop} {sets : String → σ}
  {others : String → τ}

/-- **One call** answers the same and leaves related sets. -/
theorem InStep.perform (hkl : k.InStep l R) (h : ∀ x, R (sets x) (others x)) (x : String)
    (c : SetCall) : (k.perform sets x c).1 = (l.perform others x c).1 ∧
      R (k.perform sets x c).2 (l.perform others x c).2 := by
  cases c with
  | withCapacity capacity => exact ⟨rfl, hkl.withCapacity capacity⟩
  | default => exact ⟨rfl, hkl.default⟩
  | singleton q capacity => exact ⟨rfl, hkl.singleton q capacity⟩
  | collect ids => exact ⟨rfl, hkl.collect ids⟩
  | insert q => exact ⟨congrArg some (hkl.fst_insert (h x) q), hkl.snd_insert (h x) q⟩
  | unionWith other => exact ⟨rfl, hkl.unionWith (h x) (h other)⟩

/-- **Any number of calls** answer the same and leave related sets. -/
theorem InStep.run (hkl : k.InStep l R) (calls : List (String × SetCall))
    (h : ∀ x, R (sets x) (others x)) :
    (k.run calls sets).1 = (l.run calls others).1 ∧
      ∀ x, R ((k.run calls sets).2 x) ((l.run calls others).2 x) := by
  induction calls generalizing sets others with
  | nil => exact ⟨rfl, h⟩
  | cons call calls ih =>
    obtain ⟨x, c⟩ := call
    obtain ⟨hanswer, hset⟩ := hkl.perform h x c
    have hafter : ∀ y, R (Function.update sets x (k.perform sets x c).2 y)
        (Function.update others x (l.perform others x c).2 y) := by
      intro y
      by_cases hy : y = x
      · rw [hy, Function.update_self, Function.update_self]
        exact hset
      · rw [Function.update_of_ne hy, Function.update_of_ne hy]
        exact h y
    obtain ⟨hanswers, hsets⟩ := ih hafter
    exact ⟨congrArg₂ (fun a as => a.toList ++ as) hanswer hanswers, hsets⟩

theorem InStep.answers_eq (hkl : k.InStep l R) (calls : List (String × SetCall)) :
    k.answers calls = l.answers calls :=
  (hkl.run calls fun _ => hkl.default).1

theorem InStep.after (hkl : k.InStep l R) (calls : List (String × SetCall)) (x : String) :
    R (k.after calls x) (l.after calls x) :=
  (hkl.run calls fun _ => hkl.default).2 x

end InStep

end SetKind

/-- Finite sets, which have no room. -/
def finiteSets : SetKind (Finset StateId) where
  withCapacity _ := ∅
  default := ∅
  singleton q _ := {q}
  collect l := l.toFinset
  insert S q := (decide (q ∉ S), insert q S)
  unionWith S T := S ∪ T

/-- Sets that are lists of their members; their room never shows. -/
def stateSets : SetKind StateSet where
  withCapacity := .withCapacity
  default := .empty
  singleton q _ := .singleton q
  collect := .ofList
  insert S q := (!S.contains q, S.insert q)
  unionWith := .union

namespace BitSet

/-- Sets held as rows of bits. -/
def held (β : Type) [BitRow β] : SetKind (BitSet β) where
  withCapacity := .withCapacity
  default := .empty
  singleton := .singleton
  collect := .ofList
  insert := BitSet.insert
  unionWith := .unionWith

variable {β : Type} [BitRow β] {s t : BitSet β} {S T : Finset StateId}

/-! ## 2. The members after calls -/

/-- `Holds s S`: the members of `s` are the entries of `S`. -/
def Holds (s : BitSet β) (S : Finset StateId) : Prop := ∀ q, q ∈ s ↔ q ∈ S

theorem held_inStep_finiteSets (β : Type) [BitRow β] : (held β).InStep finiteSets Holds where
  withCapacity _ q := iff_of_false not_mem_withCapacity (Finset.notMem_empty q)
  default q := iff_of_false not_mem_empty (Finset.notMem_empty q)
  singleton _ _ _ := mem_singleton.trans Finset.mem_singleton.symm
  collect _ _ := mem_ofList.trans List.mem_toFinset.symm
  fst_insert h q := by
    refine fst_insert.trans ?_
    rw [decide_eq_decide.mpr (h q)]
    exact decide_not.symm
  snd_insert h p q := by
    refine mem_insert.trans ?_
    rw [h q]
    exact Finset.mem_insert.symm
  unionWith h h' q := by
    refine mem_unionWith.trans ?_
    rw [h q, h' q]
    exact Finset.mem_union.symm

theorem held_inStep_stateSets (β : Type) [BitRow β] :
    (held β).InStep stateSets fun s S => s.states = S where
  withCapacity _ := states_eq_iff.mpr fun q =>
    iff_of_false not_mem_withCapacity (StateSet.not_mem_empty q)
  default := states_eq_iff.mpr fun q => iff_of_false not_mem_empty (StateSet.not_mem_empty q)
  singleton _ _ := states_eq_iff.mpr fun _ => mem_singleton.trans StateSet.mem_singleton.symm
  collect _ := states_eq_iff.mpr fun _ => mem_ofList.trans StateSet.mem_ofList.symm
  fst_insert := by
    rintro s _ rfl q
    refine fst_insert.trans (congrArg (!·) ?_)
    rw [← contains_states, Bool.eq_iff_iff, decide_eq_true_iff, contains_iff]
  snd_insert := by
    rintro s _ rfl p
    refine states_eq_iff.mpr fun q => mem_insert.trans ?_
    rw [← mem_states]
    exact StateSet.mem_insert.symm
  unionWith := by
    rintro s _ t _ rfl rfl
    refine states_eq_iff.mpr fun q => mem_unionWith.trans ?_
    rw [← mem_states, ← mem_states]
    exact StateSet.mem_union.symm

/-! ## 3. What can be asked -/

/-- `ActsAs s S`: what can be asked of `s` has the answer that it has for `S`. -/
structure ActsAs (s : BitSet β) (S : Finset StateId) : Prop where
  contains : ∀ q, s.contains q = decide (q ∈ S)
  beyond : ∀ q, s.capacity ≤ q.toNat → s.contains q = false
  ascending : s.toList.Pairwise (· < ·)
  members : ∀ q, q ∈ s.toList ↔ q ∈ S
  size : s.size = S.card
  isEmpty : s.isEmpty = decide (S = ∅)

/-- `ComparesAs s t S T`: what can be asked of `s` and `t` together has the answer that it has for
`S` and `T`.  Where these are the same, no hasher and no text tells `s` and `t` apart. -/
structure ComparesAs (s t : BitSet β) (S T : Finset StateId) : Prop where
  intersects : s.intersects t = true ↔ ∃ q, q ∈ S ∧ q ∈ T
  beq : (s == t) = true ↔ S = T
  feed : S = T → ∀ {σ : Type} (write : σ → StateId → σ) (state : σ),
    s.feed write state = t.feed write state
  text : S = T → s.text = t.text

theorem Holds.toFinset_toList (h : Holds s S) : s.toList.toFinset = S := by
  ext q
  rw [List.mem_toFinset, mem_toList, h q]

theorem Holds.size_eq (h : Holds s S) : s.size = S.card := by
  have hnodup : s.toList.Nodup := s.toList_ascending.imp fun hlt => UInt32.ne_of_lt hlt
  rw [BitSet.size_eq, ← h.toFinset_toList, List.toFinset_card_of_nodup hnodup]

/-- Sets that hold the same are told apart by nothing. -/
theorem Holds.eq_iff (hs : Holds s S) (ht : Holds t T) : (∀ q, q ∈ s ↔ q ∈ t) ↔ S = T := by
  rw [Finset.ext_iff]
  exact forall_congr' fun q => by rw [hs q, ht q]

theorem Holds.actsAs (h : Holds s S) : ActsAs s S where
  contains q := by rw [Bool.eq_iff_iff, contains_iff, decide_eq_true_iff, h q]
  beyond q := contains_of_capacity_le
  ascending := s.toList_ascending
  members q := mem_toList.trans (h q)
  size := h.size_eq
  isEmpty := by
    rw [Bool.eq_iff_iff, isEmpty_iff, decide_eq_true_iff, Finset.eq_empty_iff_forall_notMem]
    exact forall_congr' fun q => not_congr (h q)

theorem Holds.comparesAs (hs : Holds s S) (ht : Holds t T) : ComparesAs s t S T where
  intersects := by
    rw [intersects_iff]
    exact exists_congr fun q => and_congr (hs q) (ht q)
  beq := beq_iff.trans (hs.eq_iff ht)
  feed heq _ write state := by rw [feed, feed, toList_eq_iff.mpr ((hs.eq_iff ht).mpr heq)]
  text heq := by rw [text, text, toList_eq_iff.mpr ((hs.eq_iff ht).mpr heq)]

/-- `ReadsAs s t S T`: what can be asked of `s`, and of `s` and `t` together, has the answer that it
has for the lists of members `S` and `T`. -/
structure ReadsAs (s t : BitSet β) (S T : StateSet) : Prop where
  contains : ∀ q, s.contains q = S.contains q
  members : s.toList = S.members
  size : s.size = S.size
  isEmpty : s.isEmpty = S.isEmpty
  text : s.text = S.text
  intersects : s.intersects t = S.intersects T
  beq : (s == t) = decide (S = T)

theorem readsAs_states (s t : BitSet β) : ReadsAs s t s.states t.states where
  contains := s.contains_states
  members := rfl
  size := s.size_eq
  isEmpty := by
    rw [Bool.eq_iff_iff, isEmpty_iff, StateSet.isEmpty_iff]
    exact forall_congr' fun q => not_congr mem_states.symm
  text := rfl
  intersects := by
    rw [Bool.eq_iff_iff, intersects_iff, StateSet.intersects_iff]
    exact exists_congr fun q => and_congr mem_states.symm mem_states.symm
  beq := by
    rw [Bool.eq_iff_iff, beq_iff, decide_eq_true_iff, states_eq_iff]
    exact forall_congr' fun q => iff_congr Iff.rfl mem_states.symm

/-- **Sets held as bits act as the lists of their members.**  After any calls the answers have been
those of the lists, and any two sets read as the lists of their names do.  Every list of members is
had in this way. -/
theorem calls_act_as_lists (β : Type) [BitRow β] (calls others : List (String × SetCall))
    (x y : String) :
    (held β).answers calls = stateSets.answers calls ∧
      ReadsAs ((held β).after calls x) ((held β).after others y) (stateSets.after calls x)
        (stateSets.after others y) ∧
      ∀ S T : StateSet, ReadsAs (ofStates S : BitSet β) (ofStates T) S T := by
  have h := held_inStep_stateSets β
  refine ⟨h.answers_eq calls, ?_, fun S T => ?_⟩
  · rw [← h.after calls x, ← h.after others y]
    exact readsAs_states _ _
  · have hread := readsAs_states (ofStates S : BitSet β) (ofStates T)
    rwa [states_ofStates, states_ofStates] at hread

/-- **Sets held as bits act as sets.**  After any calls, with whatever rooms, the answers have been
those of finite sets, and each set acts as the finite set of its name.  Any two sets, after any
calls each, compare as their finite sets do.  A set that is joined to another one stays as it is. -/
theorem calls_act_as_sets (β : Type) [BitRow β] (calls others : List (String × SetCall))
    (x y : String) :
    (held β).answers calls = finiteSets.answers calls ∧
      ActsAs ((held β).after calls x) (finiteSets.after calls x) ∧
      ComparesAs ((held β).after calls x) ((held β).after others y) (finiteSets.after calls x)
        (finiteSets.after others y) ∧
      (y ≠ x → (held β).after (calls ++ [(x, .unionWith y)]) y = (held β).after calls y) :=
  have h := held_inStep_finiteSets β
  ⟨h.answers_eq calls, (h.after calls x).actsAs, (h.after calls x).comparesAs (h.after others y),
    SetKind.after_concat_of_ne _⟩

/-- A set that becomes longer with its second member. -/
def grownCalls : List (String × SetCall) :=
  [("a", .withCapacity 3), ("a", .insert 1), ("a", .insert 70), ("a", .insert 1)]

/-- The same set from a longer one, to which another is joined. -/
def joinedCalls : List (String × SetCall) :=
  [("b", .singleton 70 128), ("c", .collect [1, 70, 1]), ("b", .unionWith "c")]

theorem calls_act_as_sets_two_rooms :
    ((held Bits).after grownCalls "a").capacity ≠ ((held Bits).after joinedCalls "b").capacity ∧
    (held Bits).answers grownCalls = [true, true, false] ∧
    ((held Bits).after grownCalls "a" == (held Bits).after joinedCalls "b") = true ∧
    ((held Bits).after grownCalls "a").text = ((held Bits).after joinedCalls "b").text ∧
    (held Bits).after (grownCalls ++ [("a", .unionWith "b")]) "b" =
      (held Bits).after grownCalls "b" := by
  have hsame : finiteSets.after grownCalls "a" = finiteSets.after joinedCalls "b" := by
    decide +kernel
  obtain ⟨hanswers, -, hcompare, hjoined⟩ := calls_act_as_sets Bits grownCalls joinedCalls "a" "b"
  refine ⟨by decide +kernel, ?_, hcompare.beq.mpr hsame, hcompare.text hsame,
    hjoined (by decide)⟩
  rw [hanswers]
  decide +kernel

end BitSet

end Recognizer
