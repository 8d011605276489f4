/-
# Expansion puts blocks in place of transitions

An expansion leaves the transitions on other symbols as they are and puts a block behind them for
each transition on the symbol.  A block is a renamed copy of the second operand, with a silent
transition in front if its entry is busy and one behind if its exit stands apart.  The ends that are
not linked become the ends of the transition, and the states that are left over
(`Nfa.ownStates`) take the free identifiers one after the other, in their order.  Every copy has the
same number of such states, so the identifiers of each block can be told from its position.

* `unfused_splice`, `transitions_splice`, `copiedAt_splice`: one block;
* `toNat_base_of_getElem?_sites`: where the identifiers of a block start;
* `expand_splices`: the whole expansion.
-/
import Recognizer.Proofs.Expansion
import Recognizer.Proofs.Faults
import Recognizer.Proofs.Nesting

namespace Recognizer

namespace Nfa

variable {α : Type}

/-! ## 1. Blocks -/

/-- The states that a copy of `m` between two states has for itself, ascending: all but the ends
that become these. -/
def ownStates (m : Nfa α) : List StateId :=
  m.states.members.filter fun q => ¬ ((q = m.initial ∧ m.entryBusy = false) ∨
    (m.IsAccepting q ∧ m.exitApart = false))

/-- What stands for the transition `t` when each state of the copy of `m` is renamed. -/
def block (m : Nfa α) (image : StateId → StateId) (t : Transition α) : List (Transition α) :=
  (if m.entryBusy then [⟨t.source, m.epsilon, image m.initial⟩] else []) ++
    m.transitions.map (·.rename image) ++
    if m.exitApart then m.accepting.map fun q => ⟨image q, m.epsilon, t.target⟩ else []

/-- The first identifier that copy `i` of `m` takes for itself, where `m` is put in the place of
transitions of `n`. -/
def firstOwn (n m : Nfa α) (i : Nat) : Nat := n.top.toNat + 1 + i * m.ownStates.length

/-- `m.CopiedAt image t first`: the renaming puts `m` in the place of the transition `t`, with the
identifiers from `first` on. -/
structure CopiedAt (m : Nfa α) (image : StateId → StateId) (t : Transition α) (first : Nat) :
    Prop where
  entry : m.entryBusy = false → image m.initial = t.source
  exit : m.exitApart = false → ∀ q ∈ m.accepting, image q = t.target
  own : m.ownStates.map (fun q => (image q).toNat) = List.range' first m.ownStates.length

variable {n m r : Nfa α} {f g : Fragment α} {base source target q : StateId} {t : Transition α}
  {ts : List (Transition α)} {s : Site α} {symbol : α} {image : StateId → StateId} {first i : Nat}

theorem CopiedAt.toNat_image (h : m.CopiedAt image t first) (hi : i < m.ownStates.length) :
    (image m.ownStates[i]).toNat = first + i :=
  apply_getElem_of_map_eq_range' h.own hi

theorem exitApart_eq_false_iff :
    f.exitApart = false ↔ f.hasOutgoing f.exit = false ∧ f.exit ≠ f.initial := by
  rw [← Bool.not_eq_true, exitApart_eq_true_iff, not_or, Bool.not_eq_true]

theorem lookup_splice_eq_none_iff : (f.splice base source target).fusions.lookup q = none ↔
    ¬ ((q = f.initial ∧ f.entryBusy = false) ∨ (f.IsAccepting q ∧ f.exitApart = false)) := by
  rw [Fragment.lookup_splice, Fragment.isAccepting_iff, exitApart_eq_false_iff, entryBusy]
  split
  · rename_i hentry
    simp [hentry]
  · rename_i hentry
    split
    · rename_i hexit
      simp [hexit]
    · rename_i hexit
      simp only [hentry, hexit, or_self, not_false_eq_true]

/-- The states of a spliced copy that are not fused do not depend on its host. -/
theorem unfused_splice (f : Fragment α) (base source target : StateId) :
    (f.splice base source target).unfused = f.ownStates := by
  refine List.filter_congr fun q _ => ?_
  rw [Bool.eq_iff_iff, Option.isNone_iff_eq_none, lookup_splice_eq_none_iff, decide_eq_true_iff]

/-- **A spliced copy brings a block.** -/
theorem transitions_splice (f : Fragment α) (base : StateId) (t : Transition α) :
    (f.splice base t.source t.target).transitions =
      f.block (f.splice base t.source t.target).image t := by
  have hentry : (f.splice base t.source t.target).entryLink = if f.entryBusy then
      [⟨t.source, f.epsilon, (f.splice base t.source t.target).image f.initial⟩] else [] := by
    cases hbusy : f.hasIncoming f.initial <;>
      simp [Graft.entryLink, Graft.linkIn, Fragment.splice, Fragment.entryJoint, entryBusy, hbusy]
  have hexit : (f.splice base t.source t.target).exitLink = if f.exitApart then
      f.accepting.map fun q => ⟨(f.splice base t.source t.target).image q, f.epsilon, t.target⟩
      else [] := by
    rw [Graft.exitLink, Graft.linkOut, Fragment.exitJoint_splice, f.accepting_eq]
    by_cases hapart : f.exitApart = true
    · rw [if_pos (exitApart_eq_true_iff.mp hapart), if_pos hapart]
      rfl
    · rw [if_neg fun h => hapart (exitApart_eq_true_iff.mpr h), if_neg hapart]
  rw [Graft.transitions, hentry, hexit]
  rfl

/-- **A spliced copy takes the place of its transition.** -/
theorem copiedAt_splice (hfit : base.Fits (f.splice base t.source t.target).unfused.length) :
    f.CopiedAt (f.splice base t.source t.target).image t base.toNat where
  entry := fun hbusy => Fragment.image_initial hbusy
  exit := by
    intro hapart q hq
    obtain ⟨hout, hne⟩ := exitApart_eq_false_iff.mp hapart
    rw [Fragment.isAccepting_iff.mp hq]
    exact Fragment.image_exit hout hne
  own := by
    rw [← unfused_splice f base t.source t.target]
    exact Graft.map_toNat_image_unfused hfit

/-! ## 2. The identifiers of the blocks -/

/-- **Where the copies start.**  Each copy takes as many identifiers as the fragment has own
states. -/
theorem toNat_base_of_getElem?_sites (hfit : Fit g (sites g base ts))
    (hs : (sites g base ts)[i]? = some s) :
    s.base.toNat = base.toNat + i * g.ownStates.length := by
  induction ts generalizing base i with
  | nil => exact absurd hs (by simp [sites])
  | cons t ts ih =>
    obtain ⟨hfirst, hrest⟩ := List.forall_mem_cons.mp hfit
    cases i with
    | zero =>
      obtain rfl : ⟨base, t⟩ = s := by simpa [sites] using hs
      simp
    | succ i =>
      rw [sites, List.getElem?_cons_succ] at hs
      have hnext : (Site.graft ⟨base, t⟩ g).next.toNat = base.toNat + g.ownStates.length := by
        rw [← unfused_splice g base t.source t.target]
        exact Graft.toNat_next hfirst
      rw [ih hrest hs, hnext, Nat.succ_mul]
      omega

theorem map_transition_getElem?_sites (g : Fragment α) (base : StateId) :
    (sites g base ts)[i]?.map Site.transition = ts[i]? := by
  rw [← List.getElem?_map, map_transition_sites]

/-- What the states of the second operand become in each of the copies. -/
def siteImage (g : Fragment α) (base : StateId) (ts : List (Transition α)) (i : Nat) :
    StateId → StateId :=
  (sites g base ts)[i]?.elim id fun s => (s.graft g).image

/-- The copies bring one block after the other. -/
theorem flatMap_sites_eq : (sites g base ts).flatMap (fun s => (s.graft g).transitions) =
    ts.zipIdx.flatMap fun e => g.block (siteImage g base ts e.2) e.1 := by
  rw [List.flatMap_def, List.flatMap_def]
  congr 1
  refine List.ext_getElem? fun i => ?_
  rw [List.getElem?_map, List.getElem?_map, List.getElem?_zipIdx,
    ← map_transition_getElem?_sites g base]
  cases hs : (sites g base ts)[i]? with
  | none => rfl
  | some s =>
    have himage : siteImage g base ts i = (s.graft g).image := by
      rw [siteImage, hs]
      rfl
    simp only [Option.map_some, Nat.zero_add, himage, Site.graft, transitions_splice]

theorem copiedAt_siteImage (hfit : Fit g (sites g base ts)) (ht : ts[i]? = some t) :
    g.CopiedAt (siteImage g base ts i) t (base.toNat + i * g.ownStates.length) := by
  rw [← map_transition_getElem?_sites g base, Option.map_eq_some_iff] at ht
  obtain ⟨s, hs, rfl⟩ := ht
  have himage : siteImage g base ts i = (s.graft g).image := by
    rw [siteImage, hs]
    rfl
  rw [← toNat_base_of_getElem?_sites hfit hs, himage]
  exact copiedAt_splice (hfit s (List.mem_of_getElem? hs))

/-! ## 3. Expansion -/

/-- Places in rows of the same length that have the same number are the same. -/
theorem eq_of_mul_add_eq {i j k l len : Nat} (hk : k < len) (hl : l < len)
    (h : i * len + k = j * len + l) : i = j ∧ k = l := by
  have hdiv : (i * len + k) / len = (j * len + l) / len := by rw [h]
  rw [Nat.mul_comm i, Nat.mul_comm j, Nat.mul_add_div (by omega), Nat.mul_add_div (by omega),
    Nat.div_eq_of_lt hk, Nat.div_eq_of_lt hl] at hdiv
  obtain rfl : i = j := by omega
  exact ⟨rfl, by omega⟩

variable [Ord α]

/-- `n.SplicesTo symbol m r image`: the automaton `r` is `n` with a block of `m` for each transition
on the symbol, where `image i` renames the states for block `i`. -/
structure SplicesTo (n : Nfa α) (symbol : α) (m r : Nfa α) (image : Nat → StateId → StateId) :
    Prop where
  initial : r.initial = n.initial
  accepting : r.accepting = n.accepting
  epsilon : r.epsilon = n.epsilon
  transitions : r.transitions = n.transitionsOff symbol ++
    (n.transitionsOn symbol).zipIdx.flatMap fun e => m.block (image e.2) e.1
  copied : ∀ i t, (n.transitionsOn symbol)[i]? = some t →
    m.CopiedAt (image i) t (n.firstOwn m i)
  /-- No block takes an identifier of the host. -/
  fresh : ∀ i < (n.transitionsOn symbol).length, ∀ q ∈ m.ownStates, image i q ∉ n.states
  /-- No two blocks take the same identifier. -/
  apart : ∀ i < (n.transitionsOn symbol).length, ∀ j < (n.transitionsOn symbol).length,
    ∀ p ∈ m.ownStates, ∀ q ∈ m.ownStates, image i p = image j q → i = j ∧ p = q
  /-- Transitions on the symbol that a block brings stay. -/
  kept : ∀ i < (n.transitionsOn symbol).length, ∀ t ∈ m.transitionsOn symbol,
    t.rename (image i) ∈ r.transitions

/-- **Expansion splices disjoint blocks and touches nothing else.** -/
theorem expand_splices (h : n.expand symbol m = .ok r) : ∃ image, n.SplicesTo symbol m r image := by
  obtain ⟨f, g, base, -, rfl, -, hbase, hfit, rfl⟩ := expand_eq_ok_iff.mp h
  have hcopied : ∀ i t, (n.transitionsOn symbol)[i]? = some t →
      g.CopiedAt (siteImage g base (n.transitionsOn symbol) i) t (n.firstOwn g.toNfa i) := by
    intro i t ht
    rw [firstOwn, ← StateGraph.nextAvailable_eq_ok_iff.mp hbase]
    exact copiedAt_siteImage hfit ht
  -- The identifier that a block gives to an own state can be told from both positions.
  have hnumber : ∀ i < (n.transitionsOn symbol).length, ∀ q ∈ g.ownStates,
      ∃ k, ∃ hk : k < g.ownStates.length, g.ownStates[k] = q ∧
        (siteImage g base (n.transitionsOn symbol) i q).toNat = n.firstOwn g.toNfa i + k := by
    intro i hi q hq
    obtain ⟨k, hk, rfl⟩ := List.getElem_of_mem hq
    exact ⟨k, hk, rfl, (hcopied i _ (List.getElem?_eq_getElem hi)).toNat_image hk⟩
  refine ⟨siteImage g base (n.transitionsOn symbol), rfl, rfl, rfl, ?_, hcopied, ?_, ?_, ?_⟩
  · rw [← flatMap_sites_eq]
  · intro i hi q hq hmem
    obtain ⟨k, -, -, hk⟩ := hnumber i hi q hq
    have htop := UInt32.le_iff_toNat_le.mp (StateGraph.le_top hmem)
    rw [firstOwn] at hk
    omega
  · intro i hi j hj p hp q hq heq
    obtain ⟨k, hk, rfl, hpk⟩ := hnumber i hi p hp
    obtain ⟨l, hl, rfl, hql⟩ := hnumber j hj q hq
    rw [heq, firstOwn] at hpk
    rw [firstOwn] at hql
    obtain ⟨rfl, rfl⟩ := eq_of_mul_add_eq (i := i) (j := j) hk hl (by omega)
    exact ⟨rfl, rfl⟩
  · intro i hi t ht
    have hmem := (mem_transitionsOn_iff.mp ht).1
    refine List.mem_append_right _ ?_
    rw [flatMap_sites_eq]
    refine List.mem_flatMap.mpr ⟨((n.transitionsOn symbol)[i], i), ?_, ?_⟩
    · rw [List.mem_zipIdx_iff_getElem?]
      exact List.getElem?_eq_getElem hi
    · exact List.mem_append_left _ (List.mem_append_right _ (List.mem_map_of_mem hmem))

/-- A word that starts with the replaced symbol, with a way back to the busy entry. -/
def busyEntry : Nfa Char := between 0 5 [⟨0, 'x', 2⟩, ⟨2, 'a', 0⟩, ⟨2, 'b', 5⟩] 'ε'

/-- One block on the loop of the host and one on the transition beside it. -/
def forkedLoopSpliced : Nfa Char :=
  between 0 1 [⟨0, 'z', 1⟩, ⟨0, 'ε', 2⟩, ⟨2, 'x', 3⟩, ⟨3, 'a', 2⟩, ⟨3, 'b', 0⟩, ⟨0, 'ε', 4⟩,
    ⟨4, 'x', 5⟩, ⟨5, 'a', 4⟩, ⟨5, 'b', 1⟩] 'ε'

theorem expand_splices_busy_entry :
    forkedLoop.expand 'x' busyEntry = .ok forkedLoopSpliced ∧
      ∃ image, forkedLoop.SplicesTo 'x' busyEntry forkedLoopSpliced image := by
  have h : forkedLoop.expand 'x' busyEntry = .ok forkedLoopSpliced := by decide +kernel
  exact ⟨h, expand_splices h⟩

end Nfa

end Recognizer
