/-
# Which spelling an alphabet keeps

An order of symbols may call two spellings the same symbol.  An alphabet then has one of them: the
one that stands last among the labels (`lastSpelling`).  It is made by putting one label after the
other in its place, where a label takes the place of an earlier spelling.  The same list comes of
sorting the labels without changing the order of those that are the same symbol, and keeping the
last of each run (`Alphabet.ofList_eq_lastOfRuns`).

The spelling goes on from there.  The alphabet of an automaton leaves out the epsilon in whatever
spelling, and a deterministic automaton labels its transitions from the alphabet of the automaton
that it was made of, however that one spells them (`spelled_last`).

* `Alphabet.mem_ofList_iff_lastSpelling`: the spellings of an alphabet;
* `Alphabet.lastSpelling_sorted`: sorting does not change which spelling is the last;
* `Alphabet.spells_ofList`: an alphabet spells each symbol once, as it was spelled last.
-/
import Recognizer.Proofs.Lockstep

namespace Recognizer

variable {α : Type} [Ord α]

namespace Alphabet

variable {a b c : α} {l : List α}

/-! ## 1. The last spelling -/

/-- How a symbol is spelled where it stands last in a list, if it does. -/
def lastSpelling (l : List α) (a : α) : Option α := (l.filter fun b => Same b a).getLast?

theorem lastSpelling_concat (l : List α) (a b : α) :
    lastSpelling (l ++ [a]) b = if Same a b then some a else lastSpelling l b := by
  rw [lastSpelling, List.filter_append]
  by_cases h : Same a b <;> simp [h, lastSpelling]

theorem lastSpelling_cons (a : α) (l : List α) (b : α) :
    lastSpelling (a :: l) b = (lastSpelling l b).or (if Same a b then some a else none) := by
  by_cases h : Same a b
  · rw [lastSpelling, List.filter_cons_of_pos (by simpa using h), List.getLast?_cons, if_pos h,
      lastSpelling]
    cases (l.filter fun c => Same c b).getLast? <;> rfl
  · rw [lastSpelling, List.filter_cons_of_neg (by simpa using h), if_neg h, Option.or_none,
      lastSpelling]

theorem lastSpelling_eq_none_iff : lastSpelling l a = none ↔ ∀ b ∈ l, ¬ Same b a := by
  simp [lastSpelling]

variable [Std.TransOrd α]

/-- A symbol that is put in its place takes the place of all its spellings and of nothing else. -/
theorem mem_place_iff (h : Ascending l) : b ∈ place a l ↔ b = a ∨ (b ∈ l ∧ ¬ Same a b) := by
  constructor
  · intro hb
    rcases mem_of_mem_place hb with rfl | hl
    · exact Or.inl rfl
    · by_cases hab : Same a b
      · exact Or.inl ((ascending_place h).eq_of_same hb (mem_place_self a l) hab.symm)
      · exact Or.inr ⟨hl, hab⟩
  · rintro (rfl | ⟨hl, hab⟩)
    · exact mem_place_self b l
    · exact (mem_place_of_mem hl).resolve_right hab

/-- **An alphabet has the last spellings.**  The induction is on the labels, from the last one. -/
theorem mem_ofList_iff_lastSpelling : b ∈ ofList l ↔ lastSpelling l b = some b := by
  induction l using List.reverseRecOn with
  | nil => exact ⟨fun h => absurd h List.not_mem_nil, fun h => absurd h (by simp [lastSpelling])⟩
  | append_singleton l a ih =>
    rw [ofList_concat, mem_place_iff (ascending_ofList l), ih, lastSpelling_concat]
    by_cases h : Same a b
    · simp [h, eq_comm]
    · have hne : b ≠ a := fun heq => h (heq ▸ Same.refl b)
      simp [h, hne]

/-! ## 2. Sorted labels -/

/-- `Sorted l`: no entry stands behind one that comes after it in the order. -/
def Sorted (l : List α) : Prop := l.Pairwise fun a b => (compare a b).isLE = true

/-- Keeps the last of each run of entries that are the same symbol. -/
def lastOfRuns : List α → List α
  | [] => []
  | [a] => [a]
  | a :: b :: l => if Same a b then lastOfRuns (b :: l) else a :: lastOfRuns (b :: l)

omit [Std.TransOrd α] in
theorem lastOfRuns_subset (l : List α) : lastOfRuns l ⊆ l := by
  induction l using lastOfRuns.induct with
  | case1 => exact List.Subset.refl _
  | case2 a => exact List.Subset.refl _
  | case3 a b l h ih =>
    rw [lastOfRuns, if_pos h]
    exact List.subset_cons_of_subset a ih
  | case4 a b l h ih =>
    rw [lastOfRuns, if_neg h]
    exact List.cons_subset_cons a ih

/-- A symbol that is not the next one comes before all that stand behind it. -/
theorem Sorted.lt_of_not_same (h : Sorted (a :: b :: l)) (hab : ¬ Same a b) (hc : c ∈ b :: l) :
    compare a c = .lt := by
  obtain ⟨ha, hl⟩ := List.pairwise_cons.mp h
  have hlt : compare a b = .lt :=
    (Ordering.isLE_iff_eq_lt_or_eq_eq.mp (ha b List.mem_cons_self)).resolve_right hab
  rcases List.mem_cons.mp hc with rfl | hc
  · exact hlt
  · exact Std.TransCmp.lt_of_lt_of_isLE hlt ((List.pairwise_cons.mp hl).1 c hc)

/-- **Of sorted labels the last one of each run is left**, so each symbol once. -/
theorem Sorted.ascending_lastOfRuns (h : Sorted l) : Ascending (lastOfRuns l) := by
  induction l using lastOfRuns.induct with
  | case1 => exact List.Pairwise.nil
  | case2 a => exact List.pairwise_singleton _ a
  | case3 a b l hab ih =>
    rw [lastOfRuns, if_pos hab]
    exact ih (List.pairwise_cons.mp h).2
  | case4 a b l hab ih =>
    rw [lastOfRuns, if_neg hab]
    refine List.pairwise_cons.mpr ⟨fun c hc => ?_, ih (List.pairwise_cons.mp h).2⟩
    exact h.lt_of_not_same hab (lastOfRuns_subset _ hc)

/-- In front of another spelling of the symbol, an entry is not the last one. -/
theorem lastSpelling_cons_of_same (hab : Same a b) :
    lastSpelling (a :: b :: l) c = lastSpelling (b :: l) c := by
  rw [lastSpelling_cons]
  by_cases hac : Same a c
  · have hne : lastSpelling (b :: l) c ≠ none := fun hnone =>
      lastSpelling_eq_none_iff.mp hnone b List.mem_cons_self (hab.symm.trans hac)
    rw [Option.or_of_isSome (Option.isSome_iff_ne_none.mpr hne)]
  · rw [if_neg hac, Option.or_none]

/-- An entry of another symbol than all behind it is its last spelling. -/
theorem lastSpelling_cons_eq_some_iff (h : ∀ b ∈ l, ¬ Same a b) :
    lastSpelling (a :: l) c = some c ↔ c = a ∨ lastSpelling l c = some c := by
  rw [lastSpelling_cons]
  by_cases hac : Same a c
  · have hnone : lastSpelling l c = none :=
      lastSpelling_eq_none_iff.mpr fun b hb hbc => h b hb (hac.trans hbc.symm)
    simp [hnone, hac, eq_comm]
  · have hne : c ≠ a := fun heq => hac (heq ▸ Same.refl c)
    simp [hac, hne]

theorem Sorted.mem_lastOfRuns_iff (h : Sorted l) :
    c ∈ lastOfRuns l ↔ lastSpelling l c = some c := by
  induction l using lastOfRuns.induct with
  | case1 => simp [lastOfRuns, lastSpelling]
  | case2 a =>
    rw [lastOfRuns, lastSpelling_cons_eq_some_iff (by simp)]
    simp [lastSpelling]
  | case3 a b l hab ih =>
    rw [lastOfRuns, if_pos hab, ih (List.pairwise_cons.mp h).2, lastSpelling_cons_of_same hab]
  | case4 a b l hab ih =>
    have hother : ∀ d ∈ b :: l, ¬ Same a d := fun d hd hsame =>
      absurd ((h.lt_of_not_same hab hd).symm.trans hsame) (by decide)
    rw [lastOfRuns, if_neg hab, List.mem_cons, ih (List.pairwise_cons.mp h).2,
      lastSpelling_cons_eq_some_iff hother]

/-- The labels in their order; those that are the same symbol stay as they stand. -/
def sorted (l : List α) : List α := l.mergeSort fun a b => (compare a b).isLE

theorem sorted_sorted (l : List α) : Sorted (sorted l) :=
  List.pairwise_mergeSort (fun _ _ _ => Std.TransCmp.isLE_trans) isLE_or_isLE l

/-- **Sorting does not change which spelling is the last.** -/
theorem lastSpelling_sorted (l : List α) (a : α) :
    lastSpelling (sorted l) a = lastSpelling l a := by
  have hperm : ((sorted l).filter fun b => Same b a).Perm (l.filter fun b => Same b a) :=
    (List.mergeSort_perm l _).filter _
  -- The spellings of one symbol are in order as they stand, so a stable sort leaves them so.
  have hclass : Sorted (l.filter fun b => Same b a) := by
    refine List.pairwise_of_forall_mem_list fun b hb c hc => ?_
    rw [List.mem_filter, decide_eq_true_iff] at hb hc
    exact Ordering.isLE_of_eq_eq (hb.2.trans hc.2.symm)
  have hsub : (l.filter fun b => Same b a).Sublist ((sorted l).filter fun b => Same b a) := by
    have hsub := (List.sublist_mergeSort (fun _ _ _ => Std.TransCmp.isLE_trans) isLE_or_isLE hclass
      List.filter_sublist).filter fun b => Same b a
    simpa only [sorted, List.filter_filter, Bool.and_self] using hsub
  rw [lastSpelling, lastSpelling, hsub.eq_of_length hperm.length_eq.symm]

/-- **An alphabet is what is left of the sorted labels.** -/
theorem ofList_eq_lastOfRuns (l : List α) : ofList l = lastOfRuns (sorted l) := by
  have hsorted := sorted_sorted l
  refine eq_of_ascending id (ascending_ofList l) hsorted.ascending_lastOfRuns fun a => ?_
  rw [mem_ofList_iff_lastSpelling, hsorted.mem_lastOfRuns_iff, lastSpelling_sorted]

/-! ## 3. What is spelled from an alphabet -/

/-- `Spells symbols labels`: among the symbols, each that is a label stands once, in its last
spelling. -/
structure Spells (symbols labels : List α) : Prop where
  ascending : Ascending symbols
  once : ∀ a ∈ labels, ∃! b, b ∈ symbols ∧ Same b a
  last : ∀ b ∈ symbols, lastSpelling labels b = some b
  /-- The symbols are what is left of the sorted labels. -/
  collected : symbols = lastOfRuns (sorted labels)

theorem spells_ofList (l : List α) : Spells (ofList l) l where
  ascending := ascending_ofList l
  once := by
    intro a ha
    obtain ⟨b, hb, hba⟩ := exists_same_mem_ofList ha
    refine ⟨b, ⟨hb, hba⟩, fun c hc => ?_⟩
    exact (ascending_ofList l).eq_of_same hc.1 hb (hc.2.trans hba.symm)
  last := fun _ hb => mem_ofList_iff_lastSpelling.mp hb
  collected := ofList_eq_lastOfRuns l

end Alphabet

/-- `d.LabelledBy symbols`: the symbols are the alphabet, and every transition is labelled with one
of them, which is then the only spelling of the symbol. -/
structure Dfa.LabelledBy (d : Dfa α) (symbols : List α) : Prop where
  alphabet : d.alphabet = symbols
  mem : ∀ t ∈ d.transitions, t.symbol ∈ symbols
  eq_of_same : ∀ t ∈ d.transitions, ∀ a ∈ symbols, Same a t.symbol → t.symbol = a

variable [Std.TransOrd α] {n : Nfa α} {o : DeterminizeOptions} {d : Dfa α}

/-- A deterministic automaton takes its labels from the alphabet of the automaton. -/
theorem labelledBy_of_determinize (hd : (n.determinize o).outcome = .ok d) :
    d.LabelledBy n.alphabet := by
  obtain ⟨e, h, rfl⟩ := Nfa.exists_explored hd
  have hmem : ∀ t ∈ (Dfa.ofExploration n e).transitions, t.symbol ∈ n.alphabet := by
    intro t ht
    obtain ⟨s, -, a, ha, -, rfl⟩ := (Dfa.mem_transitions_iff h).mp ht
    exact ha
  exact ⟨rfl, hmem, fun t ht a ha hsame =>
    n.ascending_alphabet.eq_of_same (hmem t ht) ha hsame.symm⟩

/-- **One spelling for each symbol.**  The symbols of a graph ascend, and each is spelled as on the
last transition that it labels.  The alphabet of an automaton is the same list without the epsilon,
and from there come the labels of every deterministic automaton. -/
theorem spelled_last (g : StateGraph α) :
    Alphabet.Spells g.symbols (g.transitions.map (·.symbol)) ∧
    ∀ n : Nfa α, n.toStateGraph = g →
      n.alphabet = g.symbols.filter (fun a => ¬ Same a n.epsilon) ∧
      ∀ o d, (n.determinize o).outcome = .ok d → d.LabelledBy n.alphabet := by
  refine ⟨Alphabet.spells_ofList _, ?_⟩
  rintro n rfl
  refine ⟨?_, fun o d hd => labelledBy_of_determinize hd⟩
  rw [Nfa.alphabet]
  exact List.filter_congr fun a _ => (decide_not).symm

/-- A letter that may carry an accent, which the order does not look at. -/
structure Accented where
  letter : Char
  accent : Bool
  deriving DecidableEq

instance : Ord Accented := ⟨compareOn Accented.letter⟩

instance : Std.TransOrd Accented := inferInstanceAs (Std.TransCmp (compareOn Accented.letter))

/-- Letters with and without accents; the epsilon has none, but the silent transition does. -/
def accents : Nfa Accented :=
  ⟨StateGraph.make 0 [⟨0, ⟨'b', true⟩, 1⟩, ⟨0, ⟨'a', false⟩, 1⟩, ⟨1, ⟨'e', true⟩, 0⟩,
    ⟨1, ⟨'b', false⟩, 2⟩, ⟨2, ⟨'a', true⟩, 2⟩] [2], ⟨'e', false⟩⟩

def accentsDfa : Dfa Accented :=
  ⟨StateGraph.make 0 [⟨0, ⟨'a', true⟩, 1⟩, ⟨0, ⟨'b', false⟩, 1⟩, ⟨1, ⟨'a', true⟩, 1⟩,
    ⟨1, ⟨'b', false⟩, 2⟩, ⟨2, ⟨'a', true⟩, 2⟩, ⟨2, ⟨'b', false⟩, 2⟩] [2],
    [⟨'a', true⟩, ⟨'b', false⟩], [.ofList [0], .ofList [0, 1], .ofList [0, 1, 2]]⟩

theorem spelled_last_accents :
    accents.symbols = [⟨'a', true⟩, ⟨'b', false⟩, ⟨'e', true⟩] ∧
    Alphabet.Spells accents.symbols (accents.transitions.map (·.symbol)) ∧
    accents.alphabet = accents.symbols.filter (fun a => ¬ Same a accents.epsilon) ∧
    (accents.determinize ⟨3, .fifo⟩).outcome = .ok accentsDfa ∧
    accentsDfa.LabelledBy accents.alphabet := by
  have hsymbols : accents.symbols = [⟨'a', true⟩, ⟨'b', false⟩, ⟨'e', true⟩] := by decide +kernel
  have hd : (accents.determinize ⟨3, .fifo⟩).outcome = .ok accentsDfa := by decide +kernel
  obtain ⟨hspells, hn⟩ := spelled_last accents.toStateGraph
  obtain ⟨halphabet, hlabels⟩ := hn accents rfl
  exact ⟨hsymbols, hspells, halphabet, hd, hlabels _ _ hd⟩

end Recognizer
