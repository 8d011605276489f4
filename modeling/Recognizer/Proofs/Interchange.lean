/-
# Automata that are alike can be exchanged

Nothing that is made of automata depends on how their symbols are spelled.  The operators, given
operands that are alike, take the same decisions and the same identifiers, so their results are
alike again or they fail alike.  A deterministic automaton is made of the sets that the simulation
comes to, which are the same; only its labels are spelled as its automaton spells them.

* `Graft.Alike.transitions`: copies of fragments that are alike;
* `Alike.concat`, `Alike.alternate`, `Alike.star`, `Alike.expand`: the operators;
* `Alike.determinize`: the deterministic automata;
* `alike_exchangeable`: all that is built from automata and asked of them.
-/
import Recognizer.Nfa.Algebra
import Recognizer.Proofs.Alike
import Recognizer.Proofs.Allotment
import Recognizer.Proofs.Lockstep
import Recognizer.Symbol.CaseFolded

namespace Recognizer

open List (Forall₂)

variable {α : Type} [Ord α]

/-! ## 1. Fragments -/

/-- Two fragments that differ at most in how symbols are spelled. -/
def Fragment.Alike (f g : Fragment α) : Prop := f.toNfa.Alike g.toNfa

namespace Fragment

variable {f g : Fragment α} {host : StateId}

theorem Alike.graph (hfg : f.Alike g) : f.toStateGraph.Alike g.toStateGraph := hfg.1

theorem Alike.exit_eq (hfg : f.Alike g) : f.exit = g.exit := by
  have haccepting := hfg.graph.accepting
  rw [f.accepting_eq, g.accepting_eq] at haccepting
  exact (List.cons.inj haccepting).1

theorem Alike.entryJoint_eq (hfg : f.Alike g) : f.entryJoint host = g.entryJoint host := by
  rw [entryJoint, entryJoint, hfg.graph.hasIncoming_eq, hfg.graph.initial]

theorem Alike.exitJoint_eq (hfg : f.Alike g) : f.exitJoint host = g.exitJoint host := by
  rw [exitJoint, exitJoint, hfg.graph.hasOutgoing_eq, hfg.exit_eq]

end Fragment

/-- Automata that are alike are fragments together. -/
theorem Nfa.Alike.fragment [Std.ReflOrd α] {n m : Nfa α} (hnm : n.Alike m) :
    Agree Fragment.Alike n.fragment m.fragment := by
  cases hn : n.fragment with
  | ok f =>
    obtain rfl := fragment_eq_ok_iff.mp hn
    have hm : m.fragment = .ok ⟨m, f.exit, hnm.graph.accepting ▸ f.accepting_eq⟩ :=
      fragment_eq_ok_iff.mpr rfl
    rw [hm]
    exact .ok hnm
  | error e =>
    have hm := fragment_eq_error_iff.mp hn
    rw [hnm.graph.accepting] at hm
    rw [fragment_eq_error_iff.mpr hm]
    exact .error (.refl e)

/-! ## 2. Copies -/

/-- Two copies that bring the same but for spelling. -/
structure Copy.Alike (c d : Copy α) : Prop where
  transitions : Forall₂ Transition.Alike c.transitions d.transitions
  accepting : c.accepting = d.accepting
  next : c.next = d.next

/-- Two copies in one place of fragments that are alike. -/
structure Graft.Alike (g h : Graft α) : Prop where
  fragment : g.fragment.Alike h.fragment
  base : g.base = h.base
  entry : g.entry = h.entry
  exit : g.exit = h.exit

namespace Graft

variable {g h : Graft α}

theorem Alike.exitJoint_eq (hgh : g.Alike h) : g.exitJoint = h.exitJoint := by
  rw [exitJoint, exitJoint, hgh.exit, hgh.fragment.exit_eq, hgh.fragment.graph.initial]

theorem Alike.fusions_eq (hgh : g.Alike h) : g.fusions = h.fusions := by
  rw [fusions, fusions, hgh.entry, hgh.exitJoint_eq, hgh.fragment.exit_eq,
    hgh.fragment.graph.initial]

theorem Alike.unfused_eq (hgh : g.Alike h) : g.unfused = h.unfused := by
  rw [unfused, unfused, hgh.fusions_eq, hgh.fragment.graph.states_eq]

/-- Their states go to the same places. -/
theorem Alike.image_eq (hgh : g.Alike h) : g.image = h.image := by
  funext q
  rw [image, image, place, place, hgh.fusions_eq, hgh.unfused_eq, hgh.base]

theorem Alike.next_eq (hgh : g.Alike h) : g.next = h.next := by
  rw [next, next, hgh.base, hgh.unfused_eq]

theorem Alike.accepting_eq (hgh : g.Alike h) : g.accepting = h.accepting := by
  rw [accepting, accepting, hgh.image_eq, hgh.fragment.exit_eq]

/-- **Their transitions are alike**: links take the epsilons of the fragments, all others are those
of the fragments in the same places. -/
theorem Alike.transitions (hgh : g.Alike h) :
    Forall₂ Transition.Alike g.transitions h.transitions := by
  have hentry : Forall₂ Transition.Alike g.entryLink h.entryLink := by
    rw [entryLink, entryLink, linkIn, linkIn, hgh.entry, hgh.image_eq, hgh.fragment.graph.initial]
    cases h.entry with
    | fuse host => exact .nil
    | link host => exact .cons ⟨rfl, hgh.fragment.2, rfl⟩ .nil
  have hexit : Forall₂ Transition.Alike g.exitLink h.exitLink := by
    rw [exitLink, exitLink, linkOut, linkOut, hgh.exitJoint_eq, hgh.image_eq, hgh.fragment.exit_eq]
    split
    · exact .cons ⟨rfl, hgh.fragment.2, rfl⟩ .nil
    · exact .nil
  have hcopy : Forall₂ Transition.Alike (g.fragment.transitions.map (·.rename g.image))
      (h.fragment.transitions.map (·.rename h.image)) := by
    rw [hgh.image_eq]
    exact List.rel_map (fun _ _ htu => ⟨congrArg h.image htu.1, htu.2.1, congrArg h.image htu.2.2⟩)
      hgh.fragment.graph.forall₂
  exact List.rel_append (List.rel_append hentry hcopy) hexit

theorem Alike.copy (hgh : g.Alike h) : g.copy.Alike h.copy :=
  ⟨hgh.transitions, hgh.accepting_eq, hgh.next_eq⟩

theorem Alike.carryOut [Std.ReflOrd α] (hgh : g.Alike h) :
    Agree Copy.Alike g.carryOut h.carryOut := by
  rw [Graft.carryOut_eq, Graft.carryOut_eq, hgh.base, hgh.unfused_eq]
  split
  · exact .ok hgh.copy
  · exact .error (.refl _)

end Graft

/-- Copies between the same states. -/
theorem Fragment.Alike.splice {f g : Fragment α} (hfg : f.Alike g) (base source target : StateId) :
    (f.splice base source target).Alike (g.splice base source target) where
  fragment := hfg
  base := rfl
  entry := hfg.entryJoint_eq
  exit := congrArg some hfg.exitJoint_eq

namespace Nfa

variable [Std.TransOrd α] {n n' m m' : Nfa α} {f f' g g' : Fragment α} {a b : α}

/-! ## 3. The operators -/

omit [Std.TransOrd α] in
theorem Alike.between {initial exit : StateId} {ts us : List (Transition α)}
    (hts : Forall₂ Transition.Alike ts us) (hab : Same a b) :
    (between initial exit ts a).Alike (between initial exit us b) :=
  ⟨.of_forall₂ rfl hts rfl, hab⟩

theorem Alike.checkEpsilon (hn : n.Alike n') (hm : m.Alike m') :
    Agree (· = ·) (n.checkEpsilon m) (n'.checkEpsilon m') := by
  rw [Nfa.checkEpsilon, Nfa.checkEpsilon]
  by_cases h : n.IsEpsilon m.epsilon
  · rw [if_pos h, if_pos ((hn.isEpsilon_iff hm.2).mp h)]
    exact .ok rfl
  · rw [if_neg h, if_neg fun h' => h ((hn.isEpsilon_iff hm.2).mpr h')]
    exact .error ⟨hn.2, hm.2⟩

theorem Alike.nextAvailable (hn : n.Alike n') :
    Agree (· = ·) n.nextAvailable n'.nextAvailable := by
  rw [hn.graph.nextAvailable_eq]
  exact .same n'.nextAvailable

theorem Alike.concat (hn : n.Alike n') (hm : m.Alike m') :
    Agree Alike (n.concat m) (n'.concat m') := by
  refine (hn.checkEpsilon hm).bind fun _ _ _ => ?_
  refine hn.fragment.bind fun f f' hf => ?_
  refine hn.nextAvailable.bind fun base _ hbase => ?_
  subst hbase
  refine hm.fragment.bind fun g g' hg => ?_
  have hseam : seam f m = seam f' m' := by
    rw [seam, seam, hm.graph.hasIncoming_eq, hm.graph.initial, hf.graph.hasOutgoing_eq, hf.exit_eq]
  have hgraft : Graft.Alike ⟨g, base, seam f m, none⟩ ⟨g', base, seam f' m', none⟩ :=
    ⟨hg, rfl, hseam, rfl⟩
  refine hgraft.carryOut.bind fun copy copy' hcopies => ?_
  rw [hn.graph.initial, hcopies.accepting]
  exact .ok (.between (List.rel_append hn.graph.forall₂ hcopies.transitions) hn.2)

/-- Two ends that are shared in one place, with links that are alike. -/
structure SharedEnd.Alike (e e' : SharedEnd α) : Prop where
  state : e.state = e'.state
  links : Forall₂ Transition.Alike e.links e'.links
  next : e.next = e'.next

theorem sharedEntry_agree (hf : f.Alike f') (next : StateId) :
    Agree SharedEnd.Alike (sharedEntry f next) (sharedEntry f' next) := by
  rw [sharedEntry, sharedEntry, hf.graph.hasIncoming_eq, hf.graph.initial]
  split
  · refine (Agree.same next.successor).bind fun free _ hfree => ?_
    exact .ok ⟨rfl, .cons ⟨rfl, hf.2, rfl⟩ .nil, hfree⟩
  · exact .ok ⟨rfl, .nil, rfl⟩

theorem sharedExit_agree (hf : f.Alike f') (next : StateId) :
    Agree SharedEnd.Alike (sharedExit f next) (sharedExit f' next) := by
  rw [sharedExit, sharedExit, hf.graph.hasOutgoing_eq, hf.exit_eq, hf.graph.initial]
  split
  · refine (Agree.same next.successor).bind fun free _ hfree => ?_
    exact .ok ⟨rfl, .cons ⟨rfl, hf.2, rfl⟩ .nil, hfree⟩
  · exact .ok ⟨rfl, .nil, rfl⟩

theorem Alike.alternate (hn : n.Alike n') (hm : m.Alike m') :
    Agree Alike (n.alternate m) (n'.alternate m') := by
  refine (hn.checkEpsilon hm).bind fun _ _ _ => ?_
  refine hn.fragment.bind fun f f' hf => ?_
  refine hm.fragment.bind fun g g' hg => ?_
  refine hn.nextAvailable.bind fun next _ hnext => ?_
  subst hnext
  refine (sharedEntry_agree hf next).bind fun entry entry' hentry => ?_
  rw [← hentry.next]
  refine (sharedExit_agree hf entry.next).bind fun exit exit' hexit => ?_
  rw [← hentry.state, ← hexit.state, ← hexit.next]
  refine (hg.splice exit.next entry.state exit.state).carryOut.bind fun copy copy' hcopies => ?_
  have hlinks := List.rel_append (List.rel_append hn.graph.forall₂ hentry.links) hexit.links
  exact .ok (.between (List.rel_append hlinks hcopies.transitions) hn.2)

theorem Alike.star (hn : n.Alike n') : Agree Alike n.star n'.star := by
  refine hn.fragment.bind fun f f' hf => ?_
  rw [← hn.graph.initial]
  refine (Agree.same n.initial.successor).bind fun body _ hbody => ?_
  subst hbody
  refine (hn.shiftTo body).bind fun moved moved' hmoved => ?_
  refine hmoved.nextAvailable.bind fun exit _ hexit => ?_
  subst hexit
  refine .ok (.between (List.rel_append hmoved.graph.forall₂ ?_) hn.2)
  rw [hf.exit_eq]
  exact .cons ⟨rfl, hn.2, rfl⟩ (.cons ⟨rfl, hn.2, rfl⟩ (.cons ⟨rfl, hn.2, rfl⟩
    (.cons ⟨rfl, hn.2, rfl⟩ .nil)))

/-- Copies for the same transitions, one after the other. -/
theorem copies_agree (hf : f.Alike f') {ts us : List (Transition α)}
    (hts : Forall₂ Transition.Alike ts us) (base : StateId) :
    Agree (Forall₂ Transition.Alike) (copies f base ts) (copies f' base us) := by
  induction hts generalizing base with
  | nil => exact .ok .nil
  | @cons t u ts us htu _ ih =>
    rw [copies, copies, htu.1, htu.2.2]
    refine (hf.splice base u.source u.target).carryOut.bind fun copy copy' hcopies => ?_
    rw [hcopies.next]
    refine (ih copy'.next).bind fun rest rest' hrest => ?_
    exact .ok (List.rel_append hcopies.transitions hrest)

/-- A transition is on the symbol however the two are spelled. -/
theorem Alike.transitionsOn (hn : n.Alike n') (hab : Same a b) :
    Forall₂ Transition.Alike (n.transitionsOn a) (n'.transitionsOn b) := by
  refine List.rel_filter (fun t u htu => ?_) hn.graph.forall₂
  simp only [decide_eq_true_iff, same_congr htu.2.1 hab]

theorem Alike.transitionsOff (hn : n.Alike n') (hab : Same a b) :
    Forall₂ Transition.Alike (n.transitionsOff a) (n'.transitionsOff b) := by
  refine List.rel_filter (fun t u htu => ?_) hn.graph.forall₂
  simp only [Bool.not_eq_true', decide_eq_false_iff_not, same_congr htu.2.1 hab]

theorem Alike.expand (hn : n.Alike n') (hm : m.Alike m') (hab : Same a b) :
    Agree Alike (n.expand a m) (n'.expand b m') := by
  refine (hn.checkEpsilon hm).bind fun _ _ _ => ?_
  refine hn.fragment.bind fun _ _ _ => ?_
  refine hm.fragment.bind fun g g' hg => ?_
  refine hn.nextAvailable.bind fun base _ hbase => ?_
  subst hbase
  refine (copies_agree hg (hn.transitionsOn hab) base).bind fun ts us hts => ?_
  have htransitions := List.rel_append (hn.transitionsOff hab) hts
  exact .ok ⟨.of_forall₂ hn.graph.initial htransitions hn.graph.accepting, hn.2⟩

end Nfa

/-! ## 4. Deterministic automata -/

section Determinize

variable [Std.TransOrd α] {n m : Nfa α} {d d' : Dfa α} {e : Exploration StateSet}

/-- The simulation goes on to the same sets, on the same symbols. -/
theorem Nfa.Alike.successors (hnm : n.Alike m) (s : StateSet) :
    Forall₂ (fun x y => Same x.1 y.1 ∧ x.2 = y.2) (n.successors s) (m.successors s) := by
  refine List.rel_filterMap (fun a b hab => ?_) hnm.alphabet
  dsimp only
  rw [hnm.move_eq hab]
  split
  · exact .none
  · exact .some ⟨hab, rfl⟩

/-- **The explorations are the same.** -/
theorem Nfa.Alike.subsets_eq (hnm : n.Alike m) (o : DeterminizeOptions) :
    n.subsets o = m.subsets o := by
  have hsuccessors : (fun s => (n.successors s).map (·.2)) = fun s => (m.successors s).map (·.2) :=
    funext fun s => map_eq_of_forall₂ (fun _ _ hxy => hxy.2) (hnm.successors s)
  rw [Nfa.subsets, Nfa.subsets, hsuccessors, hnm.startSet_eq]

theorem Dfa.alike_ofExploration (hnm : n.Alike m) (e : Exploration StateSet) :
    (ofExploration n e).Alike (ofExploration m e) := by
  have hfrom : ∀ s t, s = t →
      Forall₂ Transition.Alike (transitionsFrom n e s) (transitionsFrom m e t) := by
    rintro s _ rfl
    refine List.rel_map ?_ (hnm.successors s)
    rintro ⟨a, t⟩ ⟨b, _⟩ ⟨hab, rfl⟩
    exact ⟨rfl, hab, rfl⟩
  have htransitions := List.rel_flatMap (List.forall₂_same.mpr fun s _ => rfl : Forall₂ (· = ·)
    e.expanded e.expanded) (fun s t hst => hfrom s t hst)
  -- Compared with each other, the two automata would be unfolded.
  have hinitial : ∀ n : Nfa α, (ofExploration n e).initial = 0 := fun _ => rfl
  refine ⟨.of_forall₂ ((hinitial n).trans (hinitial m).symm) htransitions ?_,
    pointwise_iff_forall₂.mpr hnm.alphabet, rfl⟩
  simp only [ofExploration, StateGraph.make, hnm.acceptingSet_eq]

/-- **The deterministic automata are alike**, or both constructions fail with the same error. -/
theorem Nfa.Alike.determinize (hnm : n.Alike m) (o : DeterminizeOptions) :
    (∃ d d', (n.determinize o).outcome = .ok d ∧ (m.determinize o).outcome = .ok d' ∧
      d.Alike d') ∨
    ∃ err, (n.determinize o).outcome = .error err ∧ (m.determinize o).outcome = .error err := by
  simp only [Nfa.determinize_eq, ← hnm.subsets_eq o]
  cases n.subsets o with
  | ok e => exact Or.inl ⟨_, _, rfl, rfl, Dfa.alike_ofExploration hnm e⟩
  | error met => exact Or.inr ⟨_, rfl, rfl⟩

theorem Dfa.Alike.steps_eq (hd : d.Alike d') : d.steps = d'.steps := by
  have halphabet := pointwise_iff_forall₂.mp hd.2.1
  rw [steps, steps, numStates, numStates, hd.2.2]
  refine List.flatMap_congr fun i _ => filterMap_eq_of_forall₂ (fun a b hab => ?_) halphabet
  rw [hd.1.nextState_eq hab]

/-- Deterministic automata that are alike are empty together. -/
theorem Dfa.Alike.isEmpty_eq (hd : d.Alike d') : d.isEmpty = d'.isEmpty := by
  have hfound : ∀ q, decide (d.IsAccepting q) = decide (d'.IsAccepting q) := fun q =>
    decide_eq_decide.mpr hd.1.isAccepting_iff
  simp only [isEmpty, hd.1.accepting, hd.1.initial, hd.steps_eq, numStates, hd.2.2, hfound]
  rfl

end Determinize

/-! ## 5. All together -/

/-- `g.Exchangeable h`: whatever is done with one of two graphs or asked of it comes to the same, up
to spelling, for the other. -/
structure StateGraph.Exchangeable (g h : StateGraph α) : Prop where
  shiftTo : ∀ target, Agree StateGraph.Alike (g.shiftTo target) (h.shiftTo target)
  renumber : ∀ old new, (g.renumber old new).Alike (h.renumber old new)
  targets_eq : ∀ q a b, Same a b → g.targets q a = h.targets q b
  nextState_eq : ∀ q a b, Same a b → g.nextState q a = h.nextState q b
  isEmpty_eq : g.isEmpty = h.isEmpty

/-- `n.Exchangeable m`: the same for two automata. -/
structure Nfa.Exchangeable (n m : Nfa α) : Prop where
  graph : n.toStateGraph.Exchangeable m.toStateGraph
  shiftTo : ∀ target, Agree Nfa.Alike (n.shiftTo target) (m.shiftTo target)
  renumber : ∀ old new, (n.renumber old new).Alike (m.renumber old new)
  star : Agree Nfa.Alike n.star m.star
  closure_eq : ∀ s, n.closure s = m.closure s
  move_eq : ∀ s a b, Same a b → n.move s a = m.move s b
  /-- The deterministic automata stand for the same sets, or there is the same error. -/
  determinize : ∀ o,
    (∃ d d', (n.determinize o).outcome = .ok d ∧ (m.determinize o).outcome = .ok d' ∧
      d.Alike d') ∨
    ∃ err, (n.determinize o).outcome = .error err ∧ (m.determinize o).outcome = .error err

section Exchange

variable [Std.TransOrd α] {g h : StateGraph α} {n n' m m' : Nfa α} {d d' : Dfa α} {a b : α}

theorem StateGraph.Alike.exchangeable (hgh : g.Alike h) : g.Exchangeable h where
  shiftTo := hgh.shiftTo
  renumber := fun old new => hgh.rename fun q => if q = old then new else q
  targets_eq := fun _ _ _ => hgh.targets_eq
  nextState_eq := fun _ _ _ => hgh.nextState_eq
  isEmpty_eq := hgh.isEmpty_eq

theorem Nfa.Alike.exchangeable (hnm : n.Alike m) : n.Exchangeable m where
  graph := hnm.graph.exchangeable
  shiftTo := hnm.shiftTo
  renumber := hnm.renumber
  star := hnm.star
  closure_eq := fun _ => hnm.closure_eq
  move_eq := fun _ _ _ => hnm.move_eq
  determinize := hnm.determinize

/-- **How symbols are spelled makes no difference.**  Graphs, automata and deterministic automata
that are alike give the same answers when they are asked on symbols that are the same; what is made
of them is alike again, and where an operator fails on the one it fails on the other, with an error
that differs at most in spelling. -/
theorem alike_exchangeable (hg : g.Alike h) (hn : n.Alike n') (hm : m.Alike m') (hd : d.Alike d')
    (hab : Same a b) :
    g.Exchangeable h ∧ n.Exchangeable n' ∧ d.isEmpty = d'.isEmpty ∧
    Agree Nfa.Alike (n.concat m) (n'.concat m') ∧
    Agree Nfa.Alike (n.alternate m) (n'.alternate m') ∧
    Agree Nfa.Alike (n.expand a m) (n'.expand b m') :=
  ⟨hg.exchangeable, hn.exchangeable, hd.isEmpty_eq, hn.concat hm, hn.alternate hm,
    hn.expand hm hab⟩

end Exchange

/-- A letter any number of times, in capitals and in small letters. -/
def capitals : Nfa CaseFolded :=
  ⟨StateGraph.make 0 [⟨0, ⟨"A"⟩, 1⟩, ⟨1, ⟨"E"⟩, 0⟩] [1], ⟨"E"⟩⟩

def smallLetters : Nfa CaseFolded :=
  ⟨StateGraph.make 0 [⟨0, ⟨"a"⟩, 1⟩, ⟨1, ⟨"e"⟩, 0⟩] [1], ⟨"e"⟩⟩

def capitalsDfa : Dfa CaseFolded :=
  ⟨StateGraph.make 0 [⟨0, ⟨"A"⟩, 1⟩, ⟨1, ⟨"A"⟩, 1⟩] [1], [⟨"A"⟩], [.ofList [0], .ofList [0, 1]]⟩

def smallLettersDfa : Dfa CaseFolded :=
  ⟨StateGraph.make 0 [⟨0, ⟨"a"⟩, 1⟩, ⟨1, ⟨"a"⟩, 1⟩] [1], [⟨"a"⟩], [.ofList [0], .ofList [0, 1]]⟩

/-- The automaton in capitals, with itself on its letter. -/
def capitalsExpanded : Nfa CaseFolded :=
  ⟨StateGraph.make 0
    [⟨1, ⟨"E"⟩, 0⟩, ⟨0, ⟨"E"⟩, 2⟩, ⟨2, ⟨"A"⟩, 3⟩, ⟨3, ⟨"E"⟩, 2⟩, ⟨3, ⟨"E"⟩, 1⟩] [1], ⟨"E"⟩⟩

def smallLettersExpanded : Nfa CaseFolded :=
  ⟨StateGraph.make 0
    [⟨1, ⟨"e"⟩, 0⟩, ⟨0, ⟨"e"⟩, 2⟩, ⟨2, ⟨"a"⟩, 3⟩, ⟨3, ⟨"e"⟩, 2⟩, ⟨3, ⟨"e"⟩, 1⟩] [1], ⟨"e"⟩⟩

/-- Both expansions and both constructions succeed, each in the spelling of its automaton. -/
theorem alike_exchangeable_capitals :
    capitals.Alike smallLetters ∧ capitalsDfa.Alike smallLettersDfa ∧ capitals ≠ smallLetters ∧
    capitals.Exchangeable smallLetters ∧ capitalsDfa.isEmpty = smallLettersDfa.isEmpty ∧
    Agree Nfa.Alike (capitals.expand ⟨"A"⟩ capitals) (smallLetters.expand ⟨"a"⟩ smallLetters) ∧
    capitals.expand ⟨"A"⟩ capitals = .ok capitalsExpanded ∧
    smallLetters.expand ⟨"a"⟩ smallLetters = .ok smallLettersExpanded ∧
    capitals.determinize.outcome = .ok capitalsDfa ∧
    smallLetters.determinize.outcome = .ok smallLettersDfa := by
  have hletter : Same (⟨"A"⟩ : CaseFolded) ⟨"a"⟩ :=
    CaseFolded.same_iff_map_toLower.mpr (by decide +kernel)
  have hsilent : Same (⟨"E"⟩ : CaseFolded) ⟨"e"⟩ :=
    CaseFolded.same_iff_map_toLower.mpr (by decide +kernel)
  have hn : capitals.Alike smallLetters :=
    ⟨.of_forall₂ rfl (.cons ⟨rfl, hletter, rfl⟩ (.cons ⟨rfl, hsilent, rfl⟩ .nil)) rfl, hsilent⟩
  have hd : capitalsDfa.Alike smallLettersDfa :=
    ⟨.of_forall₂ rfl (.cons ⟨rfl, hletter, rfl⟩ (.cons ⟨rfl, hletter, rfl⟩ .nil)) rfl,
      pointwise_iff_forall₂.mpr (.cons hletter .nil), rfl⟩
  obtain ⟨-, hexchange, hempty, -, -, hexpand⟩ := alike_exchangeable hn.graph hn hn hd hletter
  exact ⟨hn, hd, by simp [capitals, smallLetters], hexchange, hempty, hexpand, by decide +kernel,
    by decide +kernel, by decide +kernel, by decide +kernel⟩

end Recognizer
