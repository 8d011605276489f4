/-
# The shape of the automaton of an expression

An expression that is made of literals alone can only fail to build when identifiers run out.  Its
operands have one accepting state and one epsilon, so no operator finds fault with them.  If the
build succeeds, the automaton is compact: nothing comes back to its initial state 0, its one
accepting state is another, and no identifier and no state is wasted.  Its numbers of states and
transitions can be told from those of the operands (`Expr.Measured`).

Compactness is what makes the numbers exact, and the operators keep it (`Recognizer.Proofs.Shape`).
So one induction on the expression gives both.

* `Expr.build_shaped`: the automaton that is built;
* `Expr.build_exhausts`: the only failure;
* `Expr.build_shape`: both.
-/
import Recognizer.Expr
import Recognizer.Proofs.Failure
import Recognizer.Proofs.Shape

namespace Recognizer

namespace Expr

variable {α : Type} [Ord α] {e : Expr α} {known : String → Option (Nfa α)} {epsilon : α} {n : Nfa α}
  {f g : Fragment α}

/-- `e.Nameless`: the expression is made of literals alone. -/
def Nameless : Expr α → Prop
  | literal _ => True
  | named _ => False
  | concat left right => left.Nameless ∧ right.Nameless
  | alternate left right => left.Nameless ∧ right.Nameless
  | star body => body.Nameless
  | expand host _ replacement => host.Nameless ∧ replacement.Nameless

/-- `e.Builds known epsilon f`: the automaton of the expression is the fragment. -/
def Builds (e : Expr α) (known : String → Option (Nfa α)) (epsilon : α) (f : Fragment α) : Prop :=
  (e.build known epsilon).outcome = .ok f.toNfa

/-- The numbers of states and transitions of the automaton of an expression.  Two operands in a row
share a state, and two that are alternatives share their ends; whatever leaves an exit that is to be
shared costs a state and a transition. -/
def Measured (known : String → Option (Nfa α)) (epsilon : α) (k : Fragment α) : Expr α → Prop
  | literal _ => k.states.size = 2 ∧ k.transitions.length = 1
  | named _ => False
  | concat left right => ∃ f g, left.Builds known epsilon f ∧ right.Builds known epsilon g ∧
    k.states.size + 1 = f.states.size + g.states.size ∧
    k.transitions.length = f.transitions.length + g.transitions.length
  | alternate left right => ∃ f g, left.Builds known epsilon f ∧ right.Builds known epsilon g ∧
    k.states.size + 2 = f.states.size + g.states.size + f.exitLinks + g.exitLinks ∧
    k.transitions.length =
      f.transitions.length + g.transitions.length + f.exitLinks + g.exitLinks
  | star body => ∃ f, body.Builds known epsilon f ∧ k.states.size = f.states.size + 2 ∧
    k.transitions.length = f.transitions.length + 4
  | expand host symbol replacement => ∃ f g, host.Builds known epsilon f ∧
    replacement.Builds known epsilon g ∧
    k.states.size + (f.transitionsOn symbol).length * 2 =
      f.states.size + (f.transitionsOn symbol).length * (g.states.size + g.exitLinks) ∧
    k.transitions.length + (f.transitionsOn symbol).length = f.transitions.length +
      (f.transitionsOn symbol).length * (g.transitions.length + g.exitLinks)

/-- `e.Shaped known epsilon f`: the automaton of the expression is the fragment, which has the given
epsilon, is compact and has the numbers of states and transitions that the expression says. -/
structure Shaped (e : Expr α) (known : String → Option (Nfa α)) (epsilon : α) (f : Fragment α) :
    Prop where
  builds : e.Builds known epsilon f
  epsilon_eq : f.epsilon = epsilon
  compact : f.Compact
  measured : e.Measured known epsilon f

/-- Two automata that are built over one epsilon agree on it. -/
theorem Shaped.isEpsilon [Std.ReflOrd α] {e' : Expr α} (hf : e.Shaped known epsilon f)
    (hg : e'.Shaped known epsilon g) : f.IsEpsilon g.epsilon := by
  have hsame : g.epsilon = f.epsilon := hg.epsilon_eq.trans hf.epsilon_eq.symm
  rw [hsame]
  exact Same.refl f.epsilon

/-- What an operator that succeeds was given. -/
theorem exists_operands {left right : Expr α} {op : Nfa α → Nfa α → Recorded α (Nfa α)} {r : Nfa α}
    (ihleft : ∀ {n}, (left.build known epsilon).outcome = .ok n →
      ∃ f : Fragment α, f.toNfa = n ∧ left.Shaped known epsilon f)
    (ihright : ∀ {n}, (right.build known epsilon).outcome = .ok n →
      ∃ g : Fragment α, g.toNfa = n ∧ right.Shaped known epsilon g)
    (h : (do
      let n ← left.build known epsilon
      let m ← right.build known epsilon
      op n m).outcome = .ok r) :
    ∃ f g : Fragment α, left.Shaped known epsilon f ∧ right.Shaped known epsilon g ∧
      (op f.toNfa g.toNfa).outcome = .ok r := by
  simp only [Recorded.outcome_bind, bind_eq_ok_iff] at h
  obtain ⟨_, hleft, _, hright, h⟩ := h
  obtain ⟨f, rfl, hf⟩ := ihleft hleft
  obtain ⟨g, rfl, hg⟩ := ihright hright
  exact ⟨f, g, hf, hg, h⟩

variable [Std.TransOrd α]

/-- **The automaton of an expression is compact and has the numbers of the expression.**  The
induction is on the expression; each operator keeps what it needs from its operands. -/
theorem build_shaped (he : e.Nameless) (h : (e.build known epsilon).outcome = .ok n) :
    ∃ f : Fragment α, f.toNfa = n ∧ e.Shaped known epsilon f := by
  induction e generalizing n with
  | literal symbol =>
    obtain rfl := Except.ok.inj h
    obtain ⟨hcompact, hsize⟩ := Nfa.literal_compact symbol epsilon
    exact ⟨Nfa.literalFragment symbol epsilon, rfl, rfl, rfl, hcompact, hsize, rfl⟩
  | named name => exact absurd he id
  | concat left right ihleft ihright =>
    obtain ⟨f, g, hf, hg, hop⟩ := exists_operands (ihleft he.1) (ihright he.2) h
    obtain ⟨k, rfl, hcompact, hmeasured⟩ := Nfa.concat_compact hf.compact hg.compact hop
    have hepsilon := (Nfa.concat_epsilon hop).2.trans hf.epsilon_eq
    exact ⟨k, rfl, h, hepsilon, hcompact, f, g, hf.builds, hg.builds, hmeasured⟩
  | alternate left right ihleft ihright =>
    obtain ⟨f, g, hf, hg, hop⟩ := exists_operands (ihleft he.1) (ihright he.2) h
    obtain ⟨k, rfl, hcompact, hmeasured⟩ := Nfa.alternate_compact hf.compact hg.compact hop
    have hepsilon := (Nfa.alternate_epsilon hop).2.trans hf.epsilon_eq
    exact ⟨k, rfl, h, hepsilon, hcompact, f, g, hf.builds, hg.builds, hmeasured⟩
  | star body ih =>
    have hbuild := h
    simp only [build, Recorded.outcome_bind, bind_eq_ok_iff] at h
    obtain ⟨_, hbody, hop⟩ := h
    obtain ⟨f, rfl, hf⟩ := ih he hbody
    obtain ⟨k, rfl, hcompact, hmeasured⟩ := Nfa.star_compact hf.compact hop
    have hepsilon := (Nfa.star_epsilon hop).trans hf.epsilon_eq
    exact ⟨k, rfl, hbuild, hepsilon, hcompact, f, hf.builds, hmeasured⟩
  | expand host symbol replacement ihhost ihreplacement =>
    obtain ⟨f, g, hf, hg, hop⟩ := exists_operands (ihhost he.1) (ihreplacement he.2) h
    obtain ⟨k, rfl, hcompact, hmeasured⟩ := Nfa.expand_compact hf.compact hg.compact hop
    have hepsilon := (Nfa.expand_epsilon hop).2.trans hf.epsilon_eq
    exact ⟨k, rfl, h, hepsilon, hcompact, f, g, hf.builds, hg.builds, hmeasured⟩

/-- Two operands that can be built, and then an operator that they suit. -/
theorem exhausts_of_operands {left right : Expr α} {op : Nfa α → Nfa α → Recorded α (Nfa α)}
    (hleft : left.Nameless) (hright : right.Nameless)
    (ihleft : Exhausts (left.build known epsilon).outcome)
    (ihright : Exhausts (right.build known epsilon).outcome)
    (hop : ∀ f g : Fragment α, f.IsEpsilon g.epsilon → Exhausts (op f.toNfa g.toNfa).outcome) :
    Exhausts (do
      let n ← left.build known epsilon
      let m ← right.build known epsilon
      op n m).outcome := by
  simp only [Recorded.outcome_bind]
  refine ihleft.bind fun n hn => ihright.bind fun m hm => ?_
  obtain ⟨f, rfl, hf⟩ := build_shaped hleft hn
  obtain ⟨g, rfl, hg⟩ := build_shaped hright hm
  exact hop f g (hf.isEpsilon hg)

/-- **Building fails only when identifiers run out.** -/
theorem build_exhausts (he : e.Nameless) : Exhausts (e.build known epsilon).outcome := by
  induction e with
  | literal symbol => exact .pure _
  | named name => exact absurd he id
  | concat left right ihleft ihright =>
    exact exhausts_of_operands he.1 he.2 (ihleft he.1) (ihright he.2)
      fun _ _ => Nfa.concat_exhausts
  | alternate left right ihleft ihright =>
    exact exhausts_of_operands he.1 he.2 (ihleft he.1) (ihright he.2)
      fun _ _ => Nfa.alternate_exhausts
  | star body ih =>
    simp only [build, Recorded.outcome_bind]
    refine (ih he).bind fun n hn => ?_
    obtain ⟨f, rfl, -⟩ := build_shaped (e := body) he hn
    exact Nfa.star_exhausts f
  | expand host symbol replacement ihhost ihreplacement =>
    exact exhausts_of_operands he.1 he.2 (ihhost he.1) (ihreplacement he.2)
      fun _ _ => Nfa.expand_exhausts

/-- **The shape of what expressions build.**  An expression that is made of literals alone fails to
build only when identifiers run out, and never because an operand has not one accepting state or
another epsilon.  If it does not fail, the automaton has one accepting state, is compact and has the
numbers of states and transitions that the expression says. -/
theorem build_shape (known : String → Option (Nfa α)) (epsilon : α) (he : e.Nameless) :
    (∀ err, (e.build known epsilon).outcome = .error err →
      ∃ q delta, err = .stateOutOfRange q delta) ∧
    ∀ n, (e.build known epsilon).outcome = .ok n →
      ∃ f : Fragment α, f.toNfa = n ∧ f.Compact ∧ e.Measured known epsilon f := by
  refine ⟨build_exhausts he, fun n h => ?_⟩
  obtain ⟨f, hn, hf⟩ := build_shaped he h
  exact ⟨f, hn, hf.compact, hf.measured⟩

/-- An `a`, with any number of `b` put for the epsilon behind it. -/
def silentReplaced : Expr Char :=
  .expand (.concat (.literal 'a') (.literal 'ε')) 'ε' (.star (.literal 'b'))

def silentReplacedNfa : Nfa Char :=
  .between 0 2 [⟨0, 'a', 1⟩, ⟨3, 'b', 4⟩, ⟨1, 'ε', 3⟩, ⟨4, 'ε', 5⟩, ⟨5, 'ε', 3⟩, ⟨1, 'ε', 5⟩,
    ⟨5, 'ε', 2⟩] 'ε'

theorem build_shape_silent_replaced :
    silentReplaced.Nameless ∧
    (∀ err, (silentReplaced.build (fun _ => none) 'ε').outcome = .error err →
      ∃ q delta, err = .stateOutOfRange q delta) ∧
    (silentReplaced.build (fun _ => none) 'ε').outcome = .ok silentReplacedNfa ∧
    ∃ f : Fragment Char, f.toNfa = silentReplacedNfa ∧ f.Compact ∧
      silentReplaced.Measured (fun _ => none) 'ε' f := by
  have he : silentReplaced.Nameless := ⟨⟨trivial, trivial⟩, trivial⟩
  have h : (silentReplaced.build (fun _ => none) 'ε').outcome = .ok silentReplacedNfa := by
    decide +kernel
  obtain ⟨hfails, hbuilt⟩ := build_shape (fun _ => none) 'ε' he
  exact ⟨he, hfails, h, hbuilt _ h⟩

end Expr

end Recognizer
