/-
# Which fault an operator reports

An operator is a sequence of checks, and it reports the first of them that is not passed.  Besides
the shape of its operands and their epsilons it checks, each time that it takes an identifier, that
there is a next one.  These checks are passed one after the other exactly when the last of them is
passed, so what an operator needs is a number: the identifiers up to the last state of the first
operand, one more for each end that cannot be shared, and those of the copies (`Nfa.behind`,
`Nfa.spliced`).

* `fault_bind`: the checks of a sequence;
* `firstFault_range`: of two bounds in a row only the larger one counts;
* `Graft.fault_carryOut`, `fault_copies`: what copies need;
* `operators_fault`: the checks of the four operators.
-/
import Recognizer.Proofs.Concatenation
import Recognizer.Proofs.Extent
import Recognizer.Proofs.Star

namespace Recognizer

variable {α β γ : Type}

/-! ## 1. Checks -/

/-- The error of an operation that fails. -/
def fault : Except (BuildError α) β → Option (BuildError α)
  | .ok _ => none
  | .error e => some e

/-- The error of the first check that is not passed. -/
def firstFault (checks : List (Option (BuildError α))) : Option (BuildError α) :=
  checks.findSome? id

/-- The check that there are identifiers up to a number.  The identifier that has no successor is
the last of all. -/
def rangeFault (k : Nat) : Option (BuildError α) :=
  if k < UInt32.size then none else some (.stateOutOfRange .last 1)

theorem fault_eq_some_iff {x : Except (BuildError α) β} {e : BuildError α} :
    fault x = some e ↔ x = .error e := by
  cases x with
  | ok b => simp [fault]
  | error e => simp [fault]

@[simp] theorem firstFault_none (checks : List (Option (BuildError α))) :
    firstFault (none :: checks) = firstFault checks := rfl

@[simp] theorem firstFault_some (e : BuildError α) (checks : List (Option (BuildError α))) :
    firstFault (some e :: checks) = some e := rfl

/-- Checks that come first do not matter when the checks behind them are compared. -/
theorem firstFault_cons {check : Option (BuildError α)}
    {checks checks' : List (Option (BuildError α))} (h : firstFault checks = firstFault checks') :
    firstFault (check :: checks) = firstFault (check :: checks') := by
  cases check with
  | none => exact h
  | some e => rfl

theorem firstFault_singleton (check : Option (BuildError α)) : firstFault [check] = check := by
  cases check <;> rfl

/-- **The checks of a sequence** are those of its first step and then those of the rest. -/
theorem fault_bind {x : Except (BuildError α) β} {k : β → Except (BuildError α) γ}
    {check : Option (BuildError α)} {checks : List (Option (BuildError α))} (hx : fault x = check)
    (hk : ∀ b, x = .ok b → fault (k b) = firstFault checks) :
    fault (x >>= k) = firstFault (check :: checks) := by
  subst hx
  cases x with
  | ok b => exact hk b rfl
  | error e => rfl

/-- What is left of a sequence without checks cannot fail. -/
theorem fault_bind_last {x : Except (BuildError α) β} {k : β → Except (BuildError α) γ}
    {check : Option (BuildError α)} (hx : fault x = check) (hk : ∀ b, fault (k b) = none) :
    fault (x >>= k) = firstFault [check] :=
  fault_bind hx fun b _ => hk b

/-- Of two bounds in a row only the larger one counts. -/
theorem firstFault_range {j k : Nat} {checks : List (Option (BuildError α))} (h : j ≤ k) :
    firstFault (rangeFault j :: rangeFault k :: checks) = firstFault (rangeFault k :: checks) := by
  by_cases hj : j < UInt32.size
  · rw [rangeFault, if_pos hj, firstFault_none]
  · have hk : ¬ k < UInt32.size := by omega
    simp [rangeFault, hj, hk]

/-- An identifier is in range. -/
theorem rangeFault_toNat (q : StateId) : (rangeFault q.toNat : Option (BuildError α)) = none :=
  if_pos q.toNat_lt_size

/-! ## 2. Taking identifiers -/

theorem StateId.fault_successor (q : StateId) :
    fault (q.successor : Except (BuildError α) StateId) = rangeFault (q.toNat + 1) := by
  have hfits : q.Fits 1 ↔ q.toNat + 1 < UInt32.size := fits_natCast_iff (k := 1)
  rw [successor, shift, rangeFault]
  by_cases h : q.toNat + 1 < UInt32.size
  · rw [if_pos (hfits.mpr h), if_pos h]
    rfl
  · rw [if_neg fun hq => h (hfits.mp hq), if_neg h, eq_last h]
    rfl

theorem StateGraph.fault_nextAvailable (g : StateGraph α) :
    fault g.nextAvailable = rangeFault (g.top.toNat + 1) :=
  g.top.fault_successor

/-- Moving up by one needs room above the largest state, which is the only one that may have
none. -/
theorem StateGraph.fault_shiftTo {g : StateGraph α} {target : StateId}
    (h : g.distance target = 1) : fault (g.shiftTo target) = rangeFault (g.top.toNat + 1) := by
  have hfits : ∀ q : StateId, q.Fits 1 ↔ q.toNat + 1 < UInt32.size := fun q =>
    StateId.fits_natCast_iff (k := 1)
  simp only [shiftTo_eq, h]
  cases hfind : g.states.members.find? fun q => !q.Fits 1 with
  | none =>
    have htop := List.find?_eq_none.mp hfind g.top (StateSet.mem_members.mpr g.top_mem_states)
    have htop : g.top.Fits 1 := by simpa using htop
    rw [rangeFault, if_pos ((hfits _).mp htop)]
    rfl
  | some q =>
    have hout : ¬ q.Fits 1 := by simpa using List.find?_some hfind
    have hle := UInt32.le_iff_toNat_le.mp
      (le_top (StateSet.mem_members.mp (List.mem_of_find?_eq_some hfind)))
    have hq : ¬ q.toNat + 1 < UInt32.size := fun hlt => hout ((hfits q).mpr hlt)
    rw [rangeFault, if_neg (by omega), StateId.eq_last hq]
    rfl

/-- The largest state moves up with the others. -/
theorem StateGraph.toNat_top_rename_shifted {g : StateGraph α} (h : ∀ q ∈ g.states, q.Fits 1) :
    (g.rename (StateId.shifted 1)).top.toNat = g.top.toNat + 1 := by
  have hmoved := StateId.toNat_shifted (h g.top g.top_mem_states)
  have hle := UInt32.le_iff_toNat_le.mp
    (le_top (mem_states_rename (f := StateId.shifted 1) g.top_mem_states))
  obtain ⟨p, hp, heq⟩ := mem_states_rename_iff.mp (top_mem_states (g.rename (StateId.shifted 1)))
  have hpmoved := StateId.toNat_shifted (h p hp)
  have hple := UInt32.le_iff_toNat_le.mp (le_top hp)
  rw [heq] at hpmoved
  omega

/-- The identifiers of a copy are taken one after the other. -/
theorem Graft.fault_carryOut (g : Graft α) :
    fault g.carryOut = rangeFault (g.base.toNat + g.unfused.length) := by
  rw [carryOut_eq, rangeFault]
  by_cases h : g.base.toNat + g.unfused.length < UInt32.size
  · rw [if_pos (StateId.fits_natCast_iff.mpr h), if_pos h]
    rfl
  · rw [if_neg fun hfit => h (StateId.fits_natCast_iff.mp hfit), if_neg h]
    rfl

/-! ## 3. What the ends of an operand cost -/

namespace Nfa

variable {n m : Nfa α} {f g : Fragment α} {base source target : StateId} {symbol : α}

/-- Whether a transition enters the initial state. -/
def entryBusy (n : Nfa α) : Bool := n.hasIncoming n.initial

/-- Whether a transition leaves an accepting state. -/
def exitBusy (n : Nfa α) : Bool := n.accepting.any n.hasOutgoing

/-- Whether an accepting state cannot be shared, since a transition leaves it or it is the initial
state. -/
def exitApart (n : Nfa α) : Bool := n.accepting.any fun q => n.hasOutgoing q || q = n.initial

/-- The states that `m` adds behind `n`: all but its initial state if that becomes the exit of
`n`. -/
def behind (n m : Nfa α) : Nat := m.states.size - (!(m.entryBusy && n.exitBusy)).toNat

/-- The states that a copy of `m` between two states adds: all but the ends that become these. -/
def spliced (m : Nfa α) : Nat :=
  m.states.size - ((!m.entryBusy).toNat + (!m.exitApart).toNat)

theorem exitBusy_fragment (f : Fragment α) : f.exitBusy = f.hasOutgoing f.exit := by
  simp [exitBusy, f.accepting_eq]

theorem exitApart_fragment (f : Fragment α) :
    f.exitApart = (f.hasOutgoing f.exit || decide (f.exit = f.initial)) := by
  simp [exitApart, f.accepting_eq]

theorem exitApart_eq_true_iff {f : Fragment α} :
    f.exitApart = true ↔ f.hasOutgoing f.exit = true ∨ f.exit = f.initial := by
  rw [exitApart_fragment, Bool.or_eq_true, decide_eq_true_iff]

/-- The states that a concatenation adds. -/
theorem length_unfused_seam (f g : Fragment α) (base : StateId) :
    (concatGraft f g base).unfused.length = f.behind g.toNfa := by
  have hmem : ∀ q ∈ [g.initial], q ∈ g.states := List.forall_mem_singleton.mpr g.initial_mem_states
  have hseam : SeamClean f g ↔ (g.entryBusy && f.exitBusy) = false := by
    rw [exitBusy_fragment, Bool.and_eq_false_iff]
    rfl
  rw [behind]
  cases hbusy : g.entryBusy && f.exitBusy with
  | true =>
    have hfused : (concatGraft f g base).fusions.map (·.1) = [] := by
      simp [Graft.fusions, Graft.exitJoint, concatGraft, seam_eq, hseam, hbusy]
    have hlength := Graft.length_unfused hfused List.nodup_nil (List.forall_mem_nil _)
    exact hlength
  | false =>
    have hfused : (concatGraft f g base).fusions.map (·.1) = [g.initial] := by
      simp [Graft.fusions, Graft.exitJoint, concatGraft, seam_eq, hseam, hbusy]
    have hlength := Graft.length_unfused hfused (List.nodup_singleton _) hmem
    exact Nat.eq_sub_of_add_eq hlength

/-- The ends of a spliced copy that are fused. -/
theorem fused_splice (f : Fragment α) (base source target : StateId) :
    (f.splice base source target).fusions.map (·.1) =
      (if f.entryBusy then [] else [f.initial]) ++ if f.exitApart then [] else [f.exit] := by
  rw [Graft.fusions, Fragment.exitJoint_splice, List.map_append]
  congr 1
  · cases hin : f.hasIncoming f.initial <;>
      simp [Fragment.splice, Fragment.entryJoint, entryBusy, hin]
  · simp only [exitApart_eq_true_iff]
    by_cases h : f.hasOutgoing f.exit = true ∨ f.exit = f.initial
    · rw [if_pos h, if_pos h]
      rfl
    · rw [if_neg h, if_neg h]
      rfl

/-- The states that a spliced copy adds. -/
theorem length_unfused_splice (f : Fragment α) (base source target : StateId) :
    (f.splice base source target).unfused.length = f.spliced := by
  have hinitial := f.initial_mem_states
  have hexit := f.exit_mem_states
  have hnodup : ((if f.entryBusy then [] else [f.initial]) ++
      if f.exitApart then [] else [f.exit]).Nodup := by
    cases hapart : f.exitApart with
    | true => cases f.entryBusy <;> simp
    | false =>
      have hne : f.initial ≠ f.exit := fun heq =>
        Bool.eq_false_iff.mp hapart (exitApart_eq_true_iff.mpr (Or.inr heq.symm))
      cases f.entryBusy <;> simp [hne]
  have hlength := Graft.length_unfused (fused_splice f base source target) hnodup
    (by cases f.entryBusy <;> cases f.exitApart <;> simp [Fragment.splice, hinitial, hexit])
  have hcount : ((if f.entryBusy then [] else [f.initial]) ++
      if f.exitApart then [] else [f.exit]).length =
        (!f.entryBusy).toNat + (!f.exitApart).toNat := by
    cases f.entryBusy <;> cases f.exitApart <;> rfl
  rw [hcount] at hlength
  exact Nat.eq_sub_of_add_eq hlength

/-! ## 4. The checks of the steps -/

/-- The check that there is one accepting state. -/
def fragmentFault (n : Nfa α) : Option (BuildError α) :=
  if n.accepting.length = 1 then none else some (.malformedFragment n.accepting.length)

theorem fragmentFault_eq_none (h : n.accepting.length = 1) : n.fragmentFault = none := if_pos h

theorem fragmentFault_eq_some (h : n.accepting.length ≠ 1) :
    n.fragmentFault = some (.malformedFragment n.accepting.length) := if_neg h

theorem fault_fragment (n : Nfa α) : fault n.fragment = n.fragmentFault := by
  rw [fragmentFault]
  cases h : n.fragment with
  | ok f =>
    obtain rfl := fragment_eq_ok_iff.mp h
    rw [f.accepting_eq]
    rfl
  | error e =>
    obtain ⟨hne, rfl⟩ := fragment_eq_error_iff.mp h
    rw [if_neg hne]
    rfl

/-- A shared entry takes an identifier if the entry is busy. -/
theorem fault_sharedEntry (f : Fragment α) (next : StateId) :
    fault (sharedEntry f next) = rangeFault (next.toNat + f.entryBusy.toNat) := by
  rw [sharedEntry, entryBusy]
  cases f.hasIncoming f.initial with
  | true =>
    refine (fault_bind_last next.fault_successor fun _ => rfl).trans ?_
    exact firstFault_singleton _
  | false => exact (rangeFault_toNat next).symm

theorem next_sharedEntry {e : SharedEnd α} (h : sharedEntry f base = .ok e) :
    e.next.toNat = base.toNat + f.entryBusy.toNat := by
  rw [entryBusy]
  rcases sharedEntry_eq_ok_iff.mp h with ⟨hin, -, hnext, -⟩ | ⟨hin, rfl⟩
  · rw [hnext, hin]
    rfl
  · rw [hin]
    rfl

/-- A shared exit takes an identifier if the exit stays apart. -/
theorem fault_sharedExit (f : Fragment α) (next : StateId) :
    fault (sharedExit f next) = rangeFault (next.toNat + f.exitApart.toNat) := by
  rw [sharedExit, exitApart_fragment]
  cases f.hasOutgoing f.exit || decide (f.exit = f.initial) with
  | true =>
    refine (fault_bind_last next.fault_successor fun _ => rfl).trans ?_
    exact firstFault_singleton _
  | false => exact (rangeFault_toNat next).symm

theorem next_sharedExit {e : SharedEnd α} (h : sharedExit f base = .ok e) :
    e.next.toNat = base.toNat + f.exitApart.toNat := by
  rcases sharedExit_eq_ok_iff.mp h with ⟨hout, -, hnext, -⟩ | ⟨hout, rfl⟩
  · rw [hnext, exitApart_eq_true_iff.mpr hout]
    rfl
  · rw [Bool.eq_false_iff.mpr fun hapart => hout (exitApart_eq_true_iff.mp hapart)]
    rfl

/-- **Copies take their identifiers one after the other**, so only the last one can find none. -/
theorem fault_copies (f : Fragment α) (base : StateId) (ts : List (Transition α)) :
    fault (copies f base ts) = rangeFault (base.toNat + ts.length * f.spliced) := by
  induction ts generalizing base with
  | nil =>
    rw [List.length_nil, Nat.zero_mul, Nat.add_zero, rangeFault_toNat]
    rfl
  | cons t ts ih =>
    have hadd : base.toNat + (t :: ts).length * f.spliced =
        base.toNat + f.spliced + ts.length * f.spliced := by
      rw [List.length_cons, Nat.succ_mul]
      omega
    have hcopy := (f.splice base t.source t.target).fault_carryOut
    rw [length_unfused_splice] at hcopy
    have hrest : fault (copies f base (t :: ts)) = firstFault
        [rangeFault (base.toNat + f.spliced),
          rangeFault (base.toNat + f.spliced + ts.length * f.spliced)] := by
      refine fault_bind hcopy fun copy hok => ?_
      obtain ⟨hfit, rfl⟩ := Graft.carryOut_eq_ok_iff.mp hok
      refine fault_bind_last ?_ fun _ => rfl
      have hnext : (f.splice base t.source t.target).copy.next.toNat = _ := Graft.toNat_next hfit
      rw [length_unfused_splice] at hnext
      rw [ih, hnext]
      rfl
    rw [hrest, firstFault_range (Nat.le_add_right _ _), firstFault_singleton, hadd]

theorem fault_shiftTo {target : StateId} (h : n.distance target = 1) :
    fault (n.shiftTo target) = rangeFault (n.top.toNat + 1) := by
  have hgraph := StateGraph.fault_shiftTo h
  rw [shiftTo]
  cases hshift : n.toStateGraph.shiftTo target with
  | ok g =>
    rw [hshift] at hgraph
    exact hgraph
  | error e =>
    rw [hshift] at hgraph
    exact hgraph

/-! ## 5. The operators -/

theorem star_fault (n : Nfa α) :
    fault n.star = firstFault [n.fragmentFault, rangeFault (n.top.toNat + 2)] := by
  have hchecks : fault n.star = firstFault [n.fragmentFault, rangeFault (n.initial.toNat + 1),
      rangeFault (n.top.toNat + 1), rangeFault (n.top.toNat + 2)] := by
    refine fault_bind n.fault_fragment fun f hf => ?_
    refine fault_bind n.initial.fault_successor fun body hbody => ?_
    have hbody := StateId.successor_eq_ok_iff.mp hbody
    have hdistance : n.distance body = 1 := by
      unfold StateGraph.distance
      omega
    refine fault_bind (fault_shiftTo hdistance) fun moved hmoved => ?_
    obtain ⟨hfits, rfl⟩ := shiftTo_eq_ok_iff.mp hmoved
    refine fault_bind_last ?_ fun _ => rfl
    rw [hdistance] at hfits ⊢
    have htop : (n.rename (StateId.shifted 1)).top.toNat = n.top.toNat + 1 :=
      StateGraph.toNat_top_rename_shifted hfits
    rw [StateGraph.fault_nextAvailable, htop]
  have hinitial := UInt32.le_iff_toNat_le.mp (StateGraph.le_top n.initial_mem_states)
  rw [hchecks]
  refine firstFault_cons ?_
  rw [firstFault_range (by omega), firstFault_range (by omega)]

section Ordered

variable [Ord α]

/-- The check that two automata have the same epsilon. -/
def epsilonFault (n m : Nfa α) : Option (BuildError α) :=
  if n.IsEpsilon m.epsilon then none else some (.epsilonMismatch n.epsilon m.epsilon)

theorem epsilonFault_eq_none (h : n.IsEpsilon m.epsilon) : n.epsilonFault m = none := if_pos h

theorem fault_checkEpsilon (n m : Nfa α) : fault (n.checkEpsilon m) = n.epsilonFault m := by
  rw [checkEpsilon, epsilonFault]
  split <;> rfl

theorem concat_fault (n m : Nfa α) :
    fault (n.concat m) = firstFault [n.epsilonFault m, n.fragmentFault,
      rangeFault (n.top.toNat + 1), m.fragmentFault,
      rangeFault (n.top.toNat + 1 + n.behind m)] := by
  refine fault_bind (n.fault_checkEpsilon m) fun _ _ => ?_
  refine fault_bind n.fault_fragment fun f hf => ?_
  refine fault_bind n.fault_nextAvailable fun base hbase => ?_
  refine fault_bind m.fault_fragment fun g hg => ?_
  obtain rfl := fragment_eq_ok_iff.mp hf
  obtain rfl := fragment_eq_ok_iff.mp hg
  have hgraft := (concatGraft f g base).fault_carryOut
  rw [length_unfused_seam] at hgraft
  refine fault_bind_last (hgraft.trans ?_) fun _ => rfl
  rw [← StateGraph.nextAvailable_eq_ok_iff.mp hbase]
  rfl

theorem alternate_fault (n m : Nfa α) :
    fault (n.alternate m) = firstFault [n.epsilonFault m, n.fragmentFault, m.fragmentFault,
      rangeFault (n.top.toNat + 1 + n.entryBusy.toNat + n.exitApart.toNat + m.spliced)] := by
  have hchecks : fault (n.alternate m) = firstFault [n.epsilonFault m, n.fragmentFault,
      m.fragmentFault, rangeFault (n.top.toNat + 1),
      rangeFault (n.top.toNat + 1 + n.entryBusy.toNat),
      rangeFault (n.top.toNat + 1 + n.entryBusy.toNat + n.exitApart.toNat),
      rangeFault (n.top.toNat + 1 + n.entryBusy.toNat + n.exitApart.toNat + m.spliced)] := by
    refine fault_bind (n.fault_checkEpsilon m) fun _ _ => ?_
    refine fault_bind n.fault_fragment fun f hf => ?_
    refine fault_bind m.fault_fragment fun g hg => ?_
    obtain rfl := fragment_eq_ok_iff.mp hf
    obtain rfl := fragment_eq_ok_iff.mp hg
    refine fault_bind f.fault_nextAvailable fun next hnext => ?_
    rw [← StateGraph.nextAvailable_eq_ok_iff.mp hnext]
    refine fault_bind (fault_sharedEntry f next) fun entry hentry => ?_
    rw [← next_sharedEntry hentry]
    refine fault_bind (fault_sharedExit f entry.next) fun exit hexit => ?_
    rw [← next_sharedExit hexit]
    refine fault_bind_last ?_ fun _ => rfl
    rw [Graft.fault_carryOut, length_unfused_splice]
    rfl
  rw [hchecks]
  refine firstFault_cons (firstFault_cons (firstFault_cons ?_))
  rw [firstFault_range (by omega), firstFault_range (by omega), firstFault_range (by omega)]

theorem expand_fault (n : Nfa α) (symbol : α) (m : Nfa α) :
    fault (n.expand symbol m) = firstFault [n.epsilonFault m, n.fragmentFault, m.fragmentFault,
      rangeFault (n.top.toNat + 1 + (n.transitionsOn symbol).length * m.spliced)] := by
  have hchecks : fault (n.expand symbol m) = firstFault [n.epsilonFault m, n.fragmentFault,
      m.fragmentFault, rangeFault (n.top.toNat + 1),
      rangeFault (n.top.toNat + 1 + (n.transitionsOn symbol).length * m.spliced)] := by
    refine fault_bind (n.fault_checkEpsilon m) fun _ _ => ?_
    refine fault_bind n.fault_fragment fun _ _ => ?_
    refine fault_bind m.fault_fragment fun g hg => ?_
    obtain rfl := fragment_eq_ok_iff.mp hg
    refine fault_bind n.fault_nextAvailable fun base hbase => ?_
    refine fault_bind_last ?_ fun _ => rfl
    rw [fault_copies, StateGraph.nextAvailable_eq_ok_iff.mp hbase]
  rw [hchecks]
  refine firstFault_cons (firstFault_cons (firstFault_cons ?_))
  rw [firstFault_range (by omega)]

/-- **When an operator succeeds, and how it fails otherwise.** -/
theorem operators_fault (n m : Nfa α) (symbol : α) :
    fault (n.concat m) = firstFault [n.epsilonFault m, n.fragmentFault,
      rangeFault (n.top.toNat + 1), m.fragmentFault,
      rangeFault (n.top.toNat + 1 + n.behind m)] ∧
    fault (n.alternate m) = firstFault [n.epsilonFault m, n.fragmentFault, m.fragmentFault,
      rangeFault (n.top.toNat + 1 + n.entryBusy.toNat + n.exitApart.toNat + m.spliced)] ∧
    fault n.star = firstFault [n.fragmentFault, rangeFault (n.top.toNat + 2)] ∧
    fault (n.expand symbol m) = firstFault [n.epsilonFault m, n.fragmentFault, m.fragmentFault,
      rangeFault (n.top.toNat + 1 + (n.transitionsOn symbol).length * m.spliced)] :=
  ⟨n.concat_fault m, n.alternate_fault m, n.star_fault, n.expand_fault symbol m⟩

end Ordered

/-- An automaton behind whose last state there is one more. -/
def beforeLast : Nfa Char := between 4294967293 4294967294 [⟨4294967293, 'a', 4294967294⟩] 'ε'

/-- Both ends are shared, so there is room for a letter beside it; a star has no room. -/
example : fault (beforeLast.alternate (literal 'b' 'ε')) = none ∧
    fault beforeLast.star = some (.stateOutOfRange .last 1) := by decide +kernel

end Nfa

end Recognizer
