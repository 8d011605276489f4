/-
# Concatenation by a shift

A concatenation gives the states of its second operand new identifiers by their position: the state
that becomes the exit of the first operand is left out, and the others take the free identifiers one
after the other.  A shift moves every identifier by the same amount.  The two agree where the states
of the second operand stand in a row from its initial state on (`StateGraph.Consecutive`) and the
exit of the first operand is its largest state, since then the identifier that follows the exit is
the first that is free.

* `members_eq_cons`: behind the initial state of a row come the states that are not fused;
* `image_eq_shifted_distance`: each state goes where the shift takes it;
* `concat_eq_moveTo`: the concatenation is the first operand with the shifted second behind it.
-/
import Recognizer.Proofs.Concatenation
import Recognizer.Proofs.Nesting

namespace Recognizer

variable {α : Type}

/-! ## 1. States in a row -/

namespace StateGraph

variable {g : StateGraph α} {q : StateId}

/-- `g.Consecutive`: the states, in ascending order, are numbered one after the other from the
initial state on. -/
def Consecutive (g : StateGraph α) : Prop :=
  g.states.members.map UInt32.toNat = List.range' g.initial.toNat g.states.size

instance (g : StateGraph α) : Decidable g.Consecutive := inferInstanceAs (Decidable (_ = _))

/-- The states follow the initial one by their position. -/
theorem Consecutive.toNat_getElem (h : g.Consecutive) {i : Nat}
    (hi : i < g.states.members.length) : g.states.members[i].toNat = g.initial.toNat + i :=
  apply_getElem_of_map_eq_range' h hi

/-- The initial state stands first. -/
theorem Consecutive.exists_cons (h : g.Consecutive) :
    ∃ rest, g.states.members = g.initial :: rest := by
  cases hmembers : g.states.members with
  | nil =>
    have hmem := StateSet.mem_members.mpr g.initial_mem_states
    rw [hmembers] at hmem
    exact absurd hmem List.not_mem_nil
  | cons q rest =>
    have hpos : 0 < g.states.members.length := by
      rw [hmembers]
      exact Nat.zero_lt_succ _
    have hfirst := h.toNat_getElem hpos
    simp only [hmembers, List.getElem_cons_zero, Nat.add_zero] at hfirst
    exact ⟨rest, by rw [UInt32.toNat_inj.mp hfirst]⟩

end StateGraph

namespace Nfa

variable {n m r : Nfa α} {f g : Fragment α} {base q : StateId}

/-! ## 2. The copy of a row of states -/

/-- The states that take new identifiers stand behind the initial state. -/
theorem members_eq_cons (hrow : g.Consecutive) (hclean : SeamClean f g) :
    g.states.members = g.initial :: (concatGraft f g base).unfused := by
  obtain ⟨rest, hrest⟩ := hrow.exists_cons
  have hnodup := g.states.nodup_members
  rw [hrest] at hnodup
  have hinitial : g.initial ∉ rest := (List.nodup_cons.mp hnodup).1
  have hfirst : (concatGraft f g base).fusions.lookup g.initial = some f.exit := by
    rw [lookup_concatGraft, if_pos ⟨rfl, hclean⟩]
  have hother : ∀ q ∈ rest, ((concatGraft f g base).fusions.lookup q).isNone = true := by
    intro q hq
    have hne : q ≠ g.initial := fun heq => hinitial (heq ▸ hq)
    rw [lookup_concatGraft, if_neg fun h => hne h.1]
    rfl
  have hunfused : (concatGraft f g base).unfused = rest := by
    have hmembers : (concatGraft f g base).fragment.states.members = g.initial :: rest := hrest
    rw [Graft.unfused, hmembers, List.filter_cons_of_neg (by simp [hfirst])]
    exact List.filter_eq_self.mpr hother
  rw [hunfused, hrest]

/-- **Where the second operand stands in a row, each of its states goes where the shift takes
it**, and the shift stays in range. -/
theorem image_eq_shifted_distance (hrow : g.Consecutive) (hclean : SeamClean f g)
    (hbase : base.toNat = f.exit.toNat + 1)
    (hfit : base.Fits (concatGraft f g base).unfused.length) (hq : q ∈ g.states) :
    q.Fits (g.distance f.exit) ∧
      (concatGraft f g base).image q = q.shifted (g.distance f.exit) := by
  have hmembers : g.states.members = g.initial :: (concatGraft f g base).unfused :=
    members_eq_cons hrow hclean
  obtain ⟨i, hi, rfl⟩ := List.getElem_of_mem (StateSet.mem_members.mpr hq)
  have hnumber := hrow.toNat_getElem hi
  have hsize : g.states.members.length = (concatGraft f g base).unfused.length + 1 := by
    rw [hmembers, List.length_cons]
  -- Both ways the state at position `i` is `i` above the exit of the first operand.
  have himage : ((concatGraft f g base).image g.states.members[i]).toNat =
      f.exit.toNat + i := by
    cases i with
    | zero =>
      simp only [hmembers, List.getElem_cons_zero, concatGraft_image_initial hclean, Nat.add_zero]
    | succ i =>
      have hi : i < (concatGraft f g base).unfused.length := by omega
      have hshifted : ((concatGraft f g base).base.shifted i).toNat = base.toNat + i :=
        Graft.toNat_shifted hfit hi.le
      simp only [hmembers, List.getElem_cons_succ]
      rw [Graft.image_of_getElem? (List.getElem?_eq_getElem hi), hshifted]
      omega
  have hfits : g.states.members[i].Fits (g.distance f.exit) := by
    obtain ⟨-, hlt⟩ := hfit
    unfold StateId.Fits StateGraph.distance
    omega
  have hmoved := StateId.toNat_shifted hfits
  refine ⟨hfits, UInt32.toNat_inj.mp ?_⟩
  unfold StateGraph.distance at hmoved ⊢
  omega

/-- A clean seam needs no silent transition. -/
theorem concatGraft_transitions (hclean : SeamClean f g) :
    (concatGraft f g base).transitions =
      g.transitions.map (·.rename (concatGraft f g base).image) := by
  have hentry : (concatGraft f g base).entryLink = [] := by
    simp [Graft.entryLink, Graft.linkIn, concatGraft, seam_eq, hclean]
  have hexit : (concatGraft f g base).exitLink = [] := rfl
  rw [Graft.transitions, hentry, hexit, List.nil_append, List.append_nil]
  rfl

/-! ## 3. Concatenation -/

variable [Ord α]

/-- **Where the second operand stands in a row, concatenation is a shift.**  Let the exit of the
first operand be its largest state and let the two operands meet in one state.  Then the second
operand can be moved in place to the exit of the first, and the result has the transitions of the
first operand and behind them those of the moved one, starts where the first operand starts and ends
where the moved one ends. -/
theorem concat_eq_moveTo (hexit : n.accepting = [n.top]) (hrow : m.Consecutive)
    (hclean : m.hasIncoming m.initial = false ∨ n.hasOutgoing n.top = false)
    (h : n.concat m = .ok r) :
    ∃ moved, (StateGraph.moveTo n.top).on m.toStateGraph = (.ok (), moved) ∧
      r.initial = n.initial ∧ r.transitions = n.transitions ++ moved.transitions ∧
      r.accepting = moved.accepting := by
  obtain ⟨f, g, base, rfl, rfl, -, hbase, hfit, rfl⟩ := concat_eq_ok_iff.mp h
  have htop : f.exit = f.top := (List.cons.inj (f.accepting_eq.symm.trans hexit)).1
  have hseam : SeamClean f g := by rwa [SeamClean, htop]
  have hnext : base.toNat = f.exit.toNat + 1 := by
    rw [htop]
    exact StateGraph.nextAvailable_eq_ok_iff.mp hbase
  have hstates : ∀ q ∈ g.states, q.Fits (g.distance f.exit) ∧
      (concatGraft f g base).image q = q.shifted (g.distance f.exit) := fun q hq =>
    image_eq_shifted_distance hrow hseam hnext hfit hq
  have htransitions : (concatGraft f g base).transitions =
      (g.rename (StateId.shifted (g.distance f.exit))).transitions := by
    rw [concatGraft_transitions hseam]
    refine List.map_congr_left fun t ht => ?_
    rw [Transition.rename, (hstates _ (StateGraph.source_mem_states ht)).2,
      (hstates _ (StateGraph.target_mem_states ht)).2]
    rfl
  have haccepting : [(concatGraft f g base).accepting] =
      (g.rename (StateId.shifted (g.distance f.exit))).accepting := by
    have himage : (concatGraft f g base).accepting = g.exit.shifted (g.distance f.exit) :=
      (hstates _ g.exit_mem_states).2
    have hmoved : (g.rename (StateId.shifted (g.distance f.exit))).accepting =
        [g.exit.shifted (g.distance f.exit)].eraseDups := by
      rw [← List.map_singleton, ← g.accepting_eq]
      rfl
    rw [himage, hmoved, eraseDups_of_nodup (List.nodup_singleton _)]
  rw [← htop]
  refine ⟨_, StateGraph.on_moveTo_eq_ok_iff.mpr ⟨fun q hq => (hstates q hq).1, rfl⟩, rfl, ?_,
    haccepting⟩
  exact congrArg (f.transitions ++ ·) htransitions

/-- From one state to the next, which is the last but three, and on to the one after it. -/
def highPair : Nfa Char :=
  between 4294967290 4294967292 [⟨4294967290, 'a', 4294967291⟩, ⟨4294967291, 'b', 4294967292⟩] 'ε'

/-- Three states in a row, with a way back from the exit, which is the one in the middle. -/
def middleExit : Nfa Char :=
  between 5 6 [⟨5, 'c', 7⟩, ⟨7, 'd', 6⟩, ⟨6, 'ε', 7⟩, ⟨7, 'd', 6⟩] 'ε'

/-- Both, up to the last identifier but one. -/
def highMiddleExit : Nfa Char :=
  between 4294967290 4294967293 [⟨4294967290, 'a', 4294967291⟩, ⟨4294967291, 'b', 4294967292⟩,
    ⟨4294967292, 'c', 4294967294⟩, ⟨4294967294, 'd', 4294967293⟩, ⟨4294967293, 'ε', 4294967294⟩,
    ⟨4294967294, 'd', 4294967293⟩] 'ε'

theorem concat_eq_moveTo_middle_exit :
    highPair.accepting = [highPair.top] ∧ middleExit.Consecutive ∧
    middleExit.hasIncoming middleExit.initial = false ∧
    highPair.concat middleExit = .ok highMiddleExit ∧
    ∃ moved, (StateGraph.moveTo highPair.top).on middleExit.toStateGraph = (.ok (), moved) ∧
      highMiddleExit.initial = highPair.initial ∧
      highMiddleExit.transitions = highPair.transitions ++ moved.transitions ∧
      highMiddleExit.accepting = moved.accepting := by
  have hexit : highPair.accepting = [highPair.top] := by decide +kernel
  have hrow : middleExit.Consecutive := by decide +kernel
  have hclean : middleExit.hasIncoming middleExit.initial = false := by decide
  have h : highPair.concat middleExit = .ok highMiddleExit := by decide +kernel
  exact ⟨hexit, hrow, hclean, h, concat_eq_moveTo hexit hrow (Or.inl hclean) h⟩

end Nfa

end Recognizer
