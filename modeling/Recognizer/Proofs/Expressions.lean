/-
# From an expression to a deterministic automaton

The words of the automaton that is built for an expression are the words that the expression stands
for.  The proof is by induction on the expression, with one case for each operator, and each case is
the theorem on the operator said in terms of languages.  An expansion has walks of labels in
between: a walk spells out a word of the host, and the symbols of this word then spell out a word of
the result (`mem_spelledOut_comp`).

* `build_language`: the automaton of an expression has the words of the expression;
* `determinize_build_iff`: so does the deterministic automaton that is made of it.
-/
import Recognizer.Expr
import Recognizer.Proofs.Alternation
import Recognizer.Proofs.Concatenation
import Recognizer.Proofs.Expansion
import Recognizer.Proofs.Lockstep
import Recognizer.Proofs.Star

namespace Recognizer

open Computability

variable {α : Type}

/-! ## 1. Words spelled out twice -/

theorem mem_spelledOut_append {words : α → Language α} {u v w : List α} :
    w ∈ spelledOut words (u ++ v) ↔
      ∃ x ∈ spelledOut words u, ∃ y ∈ spelledOut words v, x ++ y = w := by
  simp only [spelledOut, List.map_append, List.prod_append, Language.mem_mul]

theorem mem_spelledOut_singleton {words : α → Language α} {a : α} {w : List α} :
    w ∈ spelledOut words [a] ↔ w ∈ words a := by
  rw [spelledOut, List.map_singleton, List.prod_singleton]

/-- If each label stands for words that are spelled out by words of their own, the whole walk can be
spelled out first and its symbols after that. -/
theorem mem_spelledOut_comp {words first second : α → Language α}
    (h : ∀ a w, w ∈ words a ↔ ∃ u ∈ first a, w ∈ spelledOut second u) {labels w : List α} :
    w ∈ spelledOut words labels ↔ ∃ u ∈ spelledOut first labels, w ∈ spelledOut second u := by
  induction labels generalizing w with
  | nil =>
    simp only [mem_spelledOut_nil]
    constructor
    · rintro rfl
      exact ⟨[], rfl, mem_spelledOut_nil.mpr rfl⟩
    · rintro ⟨u, rfl, hw⟩
      exact mem_spelledOut_nil.mp hw
  | cons a labels ih =>
    rw [mem_spelledOut_cons]
    constructor
    · rintro ⟨x, hx, y, hy, rfl⟩
      obtain ⟨u, hu, hxu⟩ := (h a x).mp hx
      obtain ⟨v, hv, hyv⟩ := ih.mp hy
      exact ⟨u ++ v, mem_spelledOut_cons.mpr ⟨u, hu, v, hv, rfl⟩,
        mem_spelledOut_append.mpr ⟨x, hxu, y, hyv, rfl⟩⟩
    · rintro ⟨uv, huv, hw⟩
      obtain ⟨u, hu, v, hv, rfl⟩ := mem_spelledOut_cons.mp huv
      obtain ⟨x, hxu, y, hyv, rfl⟩ := mem_spelledOut_append.mp hw
      exact ⟨x, (h a x).mpr ⟨u, hu, hxu⟩, y, ih.mpr ⟨v, hv, hyv⟩, rfl⟩

/-! ## 2. The operators on languages -/

namespace Nfa

variable [Ord α] {n m r : Nfa α} {symbol epsilon : α} {w : List α}

/-- A fragment accepts the words that are spelled out along its walks. -/
theorem mem_language_iff_labelled {f : Fragment α} : w ∈ f.language ↔
    ∃ labels, f.Labelled f.initial labels f.exit ∧ w ∈ spelledOut f.reading labels := by
  rw [mem_language_iff, Fragment.accepts_iff_path, path_iff_route, route_leg_iff]

/-- The words of a literal. -/
theorem literal_language :
    (literal symbol epsilon).language = if Same symbol epsilon then 1 else letter symbol := by
  have hno : ∀ u p, ¬ (literal symbol epsilon).Leg (literal symbol epsilon).reading 1 u p := by
    rintro u p ⟨t, mem, hsource, -⟩
    rw [List.mem_singleton.mp mem] at hsource
    have hends : (0 : StateId) = 1 := hsource
    exact absurd hends (by decide)
  apply Language.ext
  intro w
  have haccepts : (literal symbol epsilon).Accepts w ↔ (literal symbol epsilon).Path 0 w 1 :=
    accepts_between_iff
  have hreading : (literal symbol epsilon).reading symbol =
      if Same symbol epsilon then 1 else letter symbol := rfl
  rw [mem_language_iff, haccepts, path_iff_route, ← hreading]
  constructor
  · intro hroute
    rcases hroute.cases_first with ⟨heq, -⟩ | ⟨u, p, v, first, rest, rfl⟩
    · exact absurd heq (by decide)
    · obtain ⟨t, mem, -, hu, rfl⟩ := first
      obtain rfl := List.mem_singleton.mp mem
      obtain ⟨-, rfl⟩ := rest.of_no_leg hno
      rwa [List.append_nil]
  · exact fun hw => .single ⟨⟨0, symbol, 1⟩, List.mem_singleton_self _, rfl, hw, rfl⟩

theorem star_language [Std.ReflOrd α] (h : n.star = .ok r) : r.language = n.language∗ :=
  Language.ext fun _ => star_accepts_iff h

variable [Std.TransOrd α]

theorem alternate_language (h : n.alternate m = .ok r) : r.language = n.language + m.language :=
  Language.ext fun _ => alternate_accepts_iff h

theorem concat_language (h : n.concat m = .ok r) : r.language = n.language * m.language := by
  apply Language.ext
  intro w
  rw [mem_language_iff, concat_accepts_iff h, Language.mem_mul]
  constructor
  · rintro ⟨u, v, rfl, hu, hv⟩
    exact ⟨u, hu, v, hv, rfl⟩
  · rintro ⟨u, hu, v, hv, rfl⟩
    exact ⟨u, v, rfl, hu, hv⟩

/-- What a label stands for in an expansion is what the words that it reads are replaced by. -/
theorem mem_expanded_iff_reading {replacement : Language α} (hsymbol : ¬ n.IsEpsilon symbol)
    (a : α) (w : List α) : w ∈ n.expanded symbol replacement a ↔ ∃ u ∈ n.reading a,
      w ∈ spelledOut (fun b => if Same b symbol then replacement else letter b) u := by
  rw [mem_expanded_iff]
  simp only [mem_reading_iff]
  constructor
  · rintro (⟨hsame, hw⟩ | ⟨hne, ⟨he, rfl⟩ | ⟨hread, b, hb, rfl⟩⟩)
    · have hread : ¬ n.IsEpsilon a := not_isEpsilon_of_same hsymbol hsame.symm
      refine ⟨[a], Or.inr ⟨hread, a, Same.refl a, rfl⟩, mem_spelledOut_singleton.mpr ?_⟩
      rwa [if_pos hsame]
    · exact ⟨[], Or.inl ⟨he, rfl⟩, mem_spelledOut_nil.mpr rfl⟩
    · refine ⟨[a], Or.inr ⟨hread, a, Same.refl a, rfl⟩, mem_spelledOut_singleton.mpr ?_⟩
      rw [if_neg hne]
      exact ⟨b, hb, rfl⟩
  · rintro ⟨u, ⟨he, rfl⟩ | ⟨hread, b, hb, rfl⟩, hw⟩
    · have hne : ¬ Same a symbol := fun hsame => hsymbol (hsame.symm.trans he)
      exact Or.inr ⟨hne, Or.inl ⟨he, mem_spelledOut_nil.mp hw⟩⟩
    · rw [mem_spelledOut_singleton] at hw
      by_cases hsame : Same a symbol
      · rw [if_pos (hb.symm.trans hsame)] at hw
        exact Or.inl ⟨hsame, hw⟩
      · rw [if_neg fun hbs => hsame (hb.trans hbs)] at hw
        obtain ⟨c, hc, rfl⟩ := hw
        exact Or.inr ⟨hsame, Or.inr ⟨hread, c, hb.trans hc, rfl⟩⟩

theorem expand_language (hsymbol : ¬ n.IsEpsilon symbol) (h : n.expand symbol m = .ok r) :
    r.language = substituted n.language symbol m.language := by
  obtain ⟨f, -, -, rfl, -⟩ := exists_expansion h
  apply Language.ext
  intro w
  rw [mem_language_iff, expand_accepts_iff h]
  simp only [mem_spelledOut_comp (mem_expanded_iff_reading hsymbol)]
  constructor
  · rintro ⟨exit, labels, hacc, hwalk, u, hu, hw⟩
    obtain rfl : f.exit = exit := (List.cons.inj (f.accepting_eq.symm.trans hacc)).1
    exact ⟨u, mem_language_iff_labelled.mpr ⟨labels, hwalk, hu⟩, hw⟩
  · rintro ⟨u, hu, hw⟩
    obtain ⟨labels, hwalk, hu⟩ := mem_language_iff_labelled.mp hu
    exact ⟨f.exit, labels, f.accepting_eq, hwalk, u, hu, hw⟩

end Nfa

/-! ## 3. The automaton of an expression -/

namespace Expr

variable [Ord α] {e : Expr α} {epsilon : α} {n : Nfa α} {d : Dfa α} {o : DeterminizeOptions}
  {known : String → Option (Nfa α)} {words : String → Language α} {w : List α}

/-- `e.Spares epsilon`: no expansion in the expression replaces the epsilon. -/
def Spares (epsilon : α) : Expr α → Prop
  | literal _ => True
  | named _ => True
  | concat left right => left.Spares epsilon ∧ right.Spares epsilon
  | alternate left right => left.Spares epsilon ∧ right.Spares epsilon
  | star body => body.Spares epsilon
  | expand host symbol replacement =>
    host.Spares epsilon ∧ ¬ Same symbol epsilon ∧ replacement.Spares epsilon

/-- The automaton has the given epsilon, in some spelling, and accepts the given words. -/
structure Recognizes (n : Nfa α) (epsilon : α) (words : Language α) : Prop where
  epsilon_same : Same n.epsilon epsilon
  language_eq : n.language = words

namespace Recognizes

variable {m r : Nfa α} {symbol : α} {words words' : Language α}

theorem star [Std.ReflOrd α] (hn : Recognizes n epsilon words) (h : n.star = .ok r) :
    Recognizes r epsilon words∗ := by
  refine ⟨?_, ?_⟩
  · rw [Nfa.star_epsilon h]
    exact hn.epsilon_same
  · rw [Nfa.star_language h, hn.language_eq]

variable [Std.TransOrd α]

theorem concat (hn : Recognizes n epsilon words) (hm : Recognizes m epsilon words')
    (h : n.concat m = .ok r) : Recognizes r epsilon (words * words') := by
  refine ⟨?_, ?_⟩
  · rw [(Nfa.concat_epsilon h).2]
    exact hn.epsilon_same
  · rw [Nfa.concat_language h, hn.language_eq, hm.language_eq]

theorem alternate (hn : Recognizes n epsilon words) (hm : Recognizes m epsilon words')
    (h : n.alternate m = .ok r) : Recognizes r epsilon (words + words') := by
  refine ⟨?_, ?_⟩
  · rw [(Nfa.alternate_epsilon h).2]
    exact hn.epsilon_same
  · rw [Nfa.alternate_language h, hn.language_eq, hm.language_eq]

theorem expand (hn : Recognizes n epsilon words) (hm : Recognizes m epsilon words')
    (hsymbol : ¬ Same symbol epsilon) (h : n.expand symbol m = .ok r) :
    Recognizes r epsilon (substituted words symbol words') := by
  have hread : ¬ n.IsEpsilon symbol := fun he => hsymbol (he.trans hn.epsilon_same)
  refine ⟨?_, ?_⟩
  · rw [(Nfa.expand_epsilon h).2]
    exact hn.epsilon_same
  · rw [Nfa.expand_language hread h, hn.language_eq, hm.language_eq]

end Recognizes

variable [Std.TransOrd α]

/-- **The automaton of an expression has the words of the expression**, if that holds for every
automaton that is known by a name. -/
theorem build_recognizes
    (hknown : ∀ name m, known name = some m → Recognizes m epsilon (words name))
    (hspares : e.Spares epsilon) (h : (e.build known epsilon).outcome = .ok n) :
    Recognizes n epsilon (e.language words epsilon) := by
  induction e generalizing n with
  | literal symbol =>
    obtain rfl := Except.ok.inj h
    exact ⟨Same.refl epsilon, Nfa.literal_language⟩
  | named name =>
    unfold build at h
    split at h
    · rename_i m hm
      obtain rfl := Except.ok.inj h
      exact hknown name _ hm
    · exact absurd h (by simp [Recorded.fail])
  | concat left right ihleft ihright =>
    simp only [build, Recorded.outcome_bind, bind_eq_ok_iff] at h
    obtain ⟨l, hl, r, hr, h⟩ := h
    exact (ihleft hspares.1 hl).concat (ihright hspares.2 hr) h
  | alternate left right ihleft ihright =>
    simp only [build, Recorded.outcome_bind, bind_eq_ok_iff] at h
    obtain ⟨l, hl, r, hr, h⟩ := h
    exact (ihleft hspares.1 hl).alternate (ihright hspares.2 hr) h
  | star body ih =>
    simp only [build, Recorded.outcome_bind, bind_eq_ok_iff] at h
    obtain ⟨b, hb, h⟩ := h
    exact (ih hspares hb).star h
  | expand host symbol replacement ihhost ihreplacement =>
    simp only [build, Recorded.outcome_bind, bind_eq_ok_iff] at h
    obtain ⟨l, hl, r, hr, h⟩ := h
    exact (ihhost hspares.1 hl).expand (ihreplacement hspares.2.2 hr) hspares.2.1 h

/-- **From an expression to a deterministic automaton.**  Whatever the order of the worklist and the
limit on states, if the automaton of an expression without names can be built and made
deterministic, then a word without the epsilon leads the deterministic automaton to an accepting
state exactly when the expression stands for it. -/
theorem determinize_build_iff (hspares : e.Spares epsilon)
    (hn : (e.build (fun _ => none) epsilon).outcome = .ok n)
    (hd : (n.determinize o).outcome = .ok d) (hw : ∀ a ∈ w, ¬ Same a epsilon) :
    (∃ q, d.after w = some q ∧ d.IsAccepting q) ↔ w ∈ e.language (fun _ => 0) epsilon := by
  have hbuilt : Recognizes n epsilon (e.language (fun _ => 0) epsilon) := by
    refine build_recognizes (fun name m hm => ?_) hspares hn
    exact absurd hm (by simp)
  have hread : n.Readable w := fun a ha he => hw a ha (he.trans hbuilt.epsilon_same)
  have haccepts : d.accepts w = true ↔ ∃ q, d.after w = some q ∧ d.IsAccepting q := by
    unfold Dfa.accepts
    cases d.after w <;> simp
  rw [← haccepts, Dfa.accepts_eq hd hread, Nfa.accepts_iff hread, ← Nfa.mem_language_iff,
    hbuilt.language_eq]

/-- Any number of `x` or nothing, with `ab` put for each `x`. -/
def repeatedPair : Expr Char :=
  .expand (.star (.alternate (.literal 'x') (.literal 'ε'))) 'x'
    (.concat (.literal 'a') (.literal 'b'))

def repeatedPairNfa : Nfa Char :=
  .between 0 3 [⟨1, 'ε', 2⟩, ⟨0, 'ε', 1⟩, ⟨2, 'ε', 3⟩, ⟨3, 'ε', 1⟩, ⟨0, 'ε', 3⟩, ⟨1, 'a', 4⟩,
    ⟨4, 'b', 2⟩] 'ε'

def repeatedPairDfa : Dfa Char :=
  ⟨StateGraph.make 0 [⟨0, 'a', 1⟩, ⟨1, 'b', 2⟩, ⟨2, 'a', 1⟩] [0, 2], ['a', 'b'],
    [.ofList [0, 1, 2, 3], .ofList [4], .ofList [1, 2, 3]]⟩

theorem determinize_build_iff_repeated_pair :
    repeatedPair.Spares 'ε' ∧
    (repeatedPair.build (fun _ => none) 'ε').outcome = .ok repeatedPairNfa ∧
    (repeatedPairNfa.determinize ⟨5, .fifo⟩).outcome = .ok repeatedPairDfa ∧
    ((∃ q, repeatedPairDfa.after ['a', 'b', 'a', 'b'] = some q ∧ repeatedPairDfa.IsAccepting q) ↔
      ['a', 'b', 'a', 'b'] ∈ repeatedPair.language (fun _ => 0) 'ε') := by
  have hspares : repeatedPair.Spares 'ε' := by
    refine ⟨⟨trivial, trivial⟩, ?_, trivial, trivial⟩
    decide
  have hn : (repeatedPair.build (fun _ => none) 'ε').outcome = .ok repeatedPairNfa := by
    decide +kernel
  have hd : (repeatedPairNfa.determinize ⟨5, .fifo⟩).outcome = .ok repeatedPairDfa := by
    decide +kernel
  have hw : repeatedPairNfa.Readable ['a', 'b', 'a', 'b'] := by decide +kernel
  exact ⟨hspares, hn, hd, determinize_build_iff hspares hn hd hw⟩

end Expr

end Recognizer
