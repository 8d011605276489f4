/-
# Reading a rendered graph

A rendered graph is text without escapes, yet it can be read back from the left.  A number ends
where its digits end, since an arrow, a parenthesis, the end of the line or the end of the text is
behind it.  A symbol that is a character takes one place, even if it looks like a part of the
syntax, and a symbol that is a number ends at the arrow.  So the lines can be told from the text
(`joined_injective`), where a line is a transition with the marks of its ends (`Line`).  The text
cannot be split at its new lines first, since a symbol may be one.

The lines stand in the order of the transitions, which forgets how they were put in
(`sortedTransitions_eq_iff`).  Hence two graphs have the same text just when they have the same
transitions, each as often, and the states that these join are marked alike (`text_eq_iff`).
-/
import Mathlib.Data.List.TakeWhile
import Recognizer.Graph.Render

namespace Recognizer

variable {α γ : Type}

/-! ## 1. Reading from the left -/

/-- `Delimited write stop`: what is written can be told from what is behind it, as long as that fits
`stop`. -/
def Delimited (write : γ → List Char) (stop : List Char → Prop) : Prop :=
  ∀ a b u v, stop u → stop v → write a ++ u = write b ++ v → a = b ∧ u = v

/-- The text does not go on with a digit. -/
def NoDigit (u : List Char) : Prop := ∀ c ∈ u.head?, c.isDigit = false

/-- The text goes on with an arrow. -/
def AtArrow (u : List Char) : Prop := ∃ v, u = '-' :: '>' :: v

theorem noDigit_nil : NoDigit [] := fun _ hc => absurd hc (by simp)

theorem noDigit_cons {c : Char} {u : List Char} (h : c.isDigit = false) : NoDigit (c :: u) := by
  intro d hd
  obtain rfl : c = d := by simpa using hd
  exact h

theorem AtArrow.noDigit {u : List Char} (h : AtArrow u) : NoDigit u := by
  obtain ⟨v, rfl⟩ := h
  exact noDigit_cons rfl

/-- The digits of a number. -/
def digits (q : UInt32) : List Char := (toString q).toList

theorem digits_eq (q : UInt32) : digits q = Nat.toDigits 10 q.toNat := Nat.toList_repr

theorem digits_injective : Function.Injective digits := by
  intro p q h
  rw [digits_eq, digits_eq] at h
  refine UInt32.toNat_inj.mp ?_
  calc p.toNat = Nat.ofDigitChars 10 (Nat.toDigits 10 p.toNat) 0 :=
        Nat.ofDigitChars_ten_toDigits.symm
    _ = Nat.ofDigitChars 10 (Nat.toDigits 10 q.toNat) 0 := by rw [h]
    _ = q.toNat := Nat.ofDigitChars_ten_toDigits

theorem isDigit_of_mem_digits {q : UInt32} {c : Char} (h : c ∈ digits q) : c.isDigit = true := by
  rw [digits_eq] at h
  exact Nat.isDigit_of_mem_toDigits (by decide) (by decide) h

/-- A number begins with a digit. -/
theorem exists_digits_eq_cons (q : UInt32) : ∃ c rest, digits q = c :: rest ∧ c.isDigit = true := by
  cases h : digits q with
  | nil => exact absurd ((digits_eq q).symm.trans h) Nat.toDigits_ne_nil
  | cons c rest => exact ⟨c, rest, rfl, isDigit_of_mem_digits (h ▸ List.mem_cons_self)⟩

/-- The digits in front of a text that begins with a number are those of the number. -/
theorem takeWhile_digits_append {q : UInt32} {u : List Char} (hu : NoDigit u) :
    (digits q ++ u).takeWhile Char.isDigit = digits q := by
  have hrest : u.takeWhile Char.isDigit = [] := by
    cases u with
    | nil => rfl
    | cons c u =>
      have hc : c.isDigit = false := hu c rfl
      exact List.takeWhile_cons_of_neg (by simp [hc])
  rw [List.takeWhile_append_of_pos fun c hc => isDigit_of_mem_digits hc, hrest, List.append_nil]

/-- **A number ends where its digits end.** -/
theorem delimited_digits : Delimited digits NoDigit := by
  intro p q u v hu hv h
  have hdigits : digits p = digits q := by
    rw [← takeWhile_digits_append hu, h, takeWhile_digits_append hv]
  rw [hdigits] at h
  exact ⟨digits_injective hdigits, List.append_cancel_left h⟩

/-! ## 2. Marked states -/

/-- A state with its marks. -/
structure Marked where
  initial : Bool
  accepting : Bool
  state : StateId

/-- A number, between parentheses if its state is accepting. -/
def numbered (accepting : Bool) (q : StateId) : List Char :=
  if accepting then '(' :: (digits q ++ [')']) else digits q

/-- A state with its marks, as it is written. -/
def Marked.chars (m : Marked) : List Char :=
  if m.initial then '>' :: numbered m.accepting m.state else numbered m.accepting m.state

theorem digits_append_ne_cons {q : UInt32} {c : Char} {u v : List Char} (hc : c.isDigit = false) :
    digits q ++ u ≠ c :: v := by
  obtain ⟨d, rest, hdigits, hd⟩ := exists_digits_eq_cons q
  intro h
  rw [hdigits] at h
  obtain rfl : d = c := (List.cons.inj h).1
  exact absurd hd (by simp [hc])

theorem numbered_append_ne_cons {a : Bool} {q : StateId} {u v : List Char} :
    numbered a q ++ u ≠ '>' :: v := by
  cases a with
  | false => exact digits_append_ne_cons rfl
  | true => exact fun h => absurd (List.cons.inj h).1 (by decide)

theorem delimited_numbered : Delimited (fun m : Bool × StateId => numbered m.1 m.2) NoDigit := by
  rintro ⟨a, p⟩ ⟨b, q⟩ u v hu hv h
  cases a <;> cases b
  · obtain ⟨rfl, rfl⟩ := delimited_digits p q u v hu hv h
    exact ⟨rfl, rfl⟩
  · exact absurd h (digits_append_ne_cons rfl)
  · exact absurd h.symm (digits_append_ne_cons rfl)
  · -- The number ends at the closing parenthesis.
    have hinside : digits p ++ ')' :: u = digits q ++ ')' :: v := by
      simpa [numbered] using h
    obtain ⟨rfl, hclosed⟩ := delimited_digits p q _ _ (noDigit_cons rfl) (noDigit_cons rfl) hinside
    exact ⟨rfl, (List.cons.inj hclosed).2⟩

/-- **A marked state ends where its number ends.** -/
theorem delimited_marked : Delimited Marked.chars NoDigit := by
  rintro ⟨i, a, p⟩ ⟨j, b, q⟩ u v hu hv h
  have hsame : numbered a p ++ u = numbered b q ++ v → (a, p) = (b, q) ∧ u = v :=
    delimited_numbered (a, p) (b, q) u v hu hv
  cases i <;> cases j
  · obtain ⟨⟨rfl, rfl⟩, rfl⟩ := (hsame h).imp_left Prod.mk.inj
    exact ⟨rfl, rfl⟩
  · exact absurd h numbered_append_ne_cons
  · exact absurd h.symm numbered_append_ne_cons
  · obtain ⟨⟨rfl, rfl⟩, rfl⟩ := (hsame (List.cons.inj h).2).imp_left Prod.mk.inj
    exact ⟨rfl, rfl⟩

/-! ## 3. Lines -/

/-- A transition with the marks of its ends. -/
structure Line (α : Type) where
  source : Marked
  symbol : α
  target : Marked

section Written

variable [Spelling α]

/-- A symbol as it is written. -/
def symbolChars (a : α) : List Char := (Spelling.text a).toList

/-- A line as it is written. -/
def Line.chars (l : Line α) : List Char :=
  l.source.chars ++ ('-' :: '>' :: (symbolChars l.symbol ++ ('-' :: '>' :: l.target.chars)))

theorem delimited_char : Delimited (symbolChars (α := Char)) AtArrow := by
  intro a b u v _ _ h
  have hcons : a :: u = b :: v := by simpa [symbolChars, Spelling.text] using h
  exact List.cons.inj hcons

theorem delimited_uint32 : Delimited (symbolChars (α := UInt32)) AtArrow :=
  fun a b u v hu hv h => delimited_digits a b u v hu.noDigit hv.noDigit h

/-- **A line can be read** where its symbol can be read before an arrow. -/
theorem delimited_line (hread : Delimited (symbolChars (α := α)) AtArrow) :
    Delimited (Line.chars (α := α)) NoDigit := by
  rintro ⟨source, a, target⟩ ⟨source', a', target'⟩ u v hu hv h
  have hline : source.chars ++ '-' :: '>' :: (symbolChars a ++ '-' :: '>' :: (target.chars ++ u)) =
      source'.chars ++ '-' :: '>' :: (symbolChars a' ++ '-' :: '>' :: (target'.chars ++ v)) := by
    simpa [Line.chars] using h
  obtain ⟨rfl, hsymbol⟩ := delimited_marked _ _ _ _ (noDigit_cons rfl) (noDigit_cons rfl) hline
  obtain ⟨rfl, htarget⟩ :=
    hread _ _ _ _ ⟨_, rfl⟩ ⟨_, rfl⟩ (List.cons.inj (List.cons.inj hsymbol).2).2
  obtain ⟨rfl, rfl⟩ :=
    delimited_marked _ _ _ _ hu hv (List.cons.inj (List.cons.inj htarget).2).2
  exact ⟨rfl, rfl⟩

/-- Lines, one below the other. -/
def joined (ls : List (Line α)) : List Char := ['\n'].intercalate (ls.map Line.chars)

/-- What stands behind a line: nothing, or a new line and the others. -/
def below : List (Line α) → List Char
  | [] => []
  | l :: ls => '\n' :: joined (l :: ls)

theorem noDigit_below (ls : List (Line α)) : NoDigit (below ls) := by
  cases ls with
  | nil => exact noDigit_nil
  | cons l ls => exact noDigit_cons rfl

theorem joined_cons (l : Line α) (ls : List (Line α)) :
    joined (l :: ls) = l.chars ++ below ls := by
  cases ls with
  | nil => simp [joined, below]
  | cons m ls => simp [joined, below, List.intercalate_cons_cons]

theorem joined_cons_ne_nil (l : Line α) (ls : List (Line α)) : joined (l :: ls) ≠ [] := by
  simp [joined_cons, Line.chars]

/-- **The lines can be told from the text.** -/
theorem joined_injective (hread : Delimited (symbolChars (α := α)) AtArrow) :
    Function.Injective (joined (α := α)) := by
  intro ls
  induction ls with
  | nil =>
    intro ms h
    cases ms with
    | nil => rfl
    | cons m ms => exact absurd h.symm (joined_cons_ne_nil m ms)
  | cons l ls ih =>
    intro ms h
    cases ms with
    | nil => exact absurd h (joined_cons_ne_nil l ls)
    | cons m ms =>
      rw [joined_cons, joined_cons] at h
      obtain ⟨rfl, hbelow⟩ :=
        delimited_line hread l m _ _ (noDigit_below ls) (noDigit_below ms) h
      cases ls <;> cases ms
      · rfl
      · exact absurd hbelow (List.cons_ne_nil _ _).symm
      · exact absurd hbelow (List.cons_ne_nil _ _)
      · rw [ih (List.cons.inj hbelow).2]

end Written

/-! ## 4. Lines of a graph -/

namespace StateGraph

variable {g h : StateGraph α} {q : StateId} {t u : Transition α}

/-- A state with the marks that it has in the graph. -/
def mark (g : StateGraph α) (q : StateId) : Marked :=
  ⟨decide (q = g.initial), decide (g.IsAccepting q), q⟩

/-- A transition with the marks that its ends have in the graph. -/
def line (g : StateGraph α) (t : Transition α) : Line α :=
  ⟨g.mark t.source, t.symbol, g.mark t.target⟩

theorem toList_stateText (g : StateGraph α) (q : StateId) :
    (g.stateText q).toList = (g.mark q).chars := by
  unfold stateText Marked.chars numbered
  simp only [mark, decide_eq_true_iff]
  split <;> split <;> simp [digits]

theorem toList_transitionText [Spelling α] (g : StateGraph α) (t : Transition α) :
    (g.transitionText t).toList = (g.line t).chars := by
  simp [transitionText, Line.chars, line, toList_stateText, symbolChars]

theorem mark_eq_iff : g.mark q = h.mark q ↔
    (q = g.initial ↔ q = h.initial) ∧ (g.IsAccepting q ↔ h.IsAccepting q) := by
  simp [mark]

theorem line_eq_iff : g.line t = h.line u ↔ t = u ∧ ∀ q ∈ t.ends, g.mark q = h.mark q := by
  constructor
  · intro heq
    injection heq with hsource hsymbol htarget
    obtain rfl : t = u := by
      cases t
      cases u
      injection hsource with _ _ hsource
      injection htarget with _ _ htarget
      simp_all
    refine ⟨rfl, fun q hq => ?_⟩
    simp only [Transition.ends, List.mem_cons, List.not_mem_nil, or_false] at hq
    rcases hq with rfl | rfl
    · exact hsource
    · exact htarget
  · rintro ⟨rfl, hmarks⟩
    rw [line, line, hmarks t.source (by simp [Transition.ends]),
      hmarks t.target (by simp [Transition.ends])]

theorem map_line_eq_iff {ts us : List (Transition α)} :
    ts.map g.line = us.map h.line ↔ ts = us ∧ ∀ t ∈ ts, ∀ q ∈ t.ends, g.mark q = h.mark q := by
  induction ts generalizing us with
  | nil => cases us <;> simp
  | cons t ts ih =>
    cases us with
    | nil => simp
    | cons u us =>
      rw [List.map_cons, List.map_cons, List.cons.injEq, line_eq_iff, ih, List.cons.injEq,
        List.forall_mem_cons, and_and_and_comm]

/-! ## 5. The order of the lines -/

variable [Ord α]

/-- Transitions in either order are the same. -/
theorem eq_of_isLE [Std.TransOrd α] [Std.LawfulEqOrd α] (h : (compare t u).isLE = true)
    (h' : (compare u t).isLE = true) : t = u := by
  have heq : compare t u = .eq := Std.OrientedCmp.isLE_antisymm h h'
  obtain ⟨hsource, hsymbol, htarget⟩ := Transition.compare_eq_iff.mp heq
  cases t
  cases u
  simp_all [same_iff_eq]

/-- **The order of the transitions forgets how they were put in.** -/
theorem sortedTransitions_eq_iff [Std.TransOrd α] [Std.LawfulEqOrd α] :
    g.sortedTransitions = h.sortedTransitions ↔ g.transitions.Perm h.transitions := by
  have hsorted : ∀ k : StateGraph α, k.sortedTransitions.Perm k.transitions := fun k =>
    List.mergeSort_perm _ _
  have hpairwise : ∀ k : StateGraph α,
      k.sortedTransitions.Pairwise fun t u => (compare t u).isLE = true := fun k =>
    List.pairwise_mergeSort (fun _ _ _ => Std.TransCmp.isLE_trans) isLE_or_isLE _
  constructor
  · intro heq
    exact (hsorted g).symm.trans (heq ▸ hsorted h)
  · intro hperm
    exact List.Perm.eq_of_pairwise (fun _ _ _ _ => eq_of_isLE) (hpairwise g) (hpairwise h)
      ((hsorted g).trans (hperm.trans (hsorted h).symm))

/-- What the text of a graph tells about it: `g.RendersAs h` if `h` is the same in all of that. -/
structure RendersAs (g h : StateGraph α) : Prop where
  transitions : g.transitions.Perm h.transitions
  initial : ∀ t ∈ g.transitions, ∀ q ∈ t.ends, (q = g.initial ↔ q = h.initial)
  accepting : ∀ t ∈ g.transitions, ∀ q ∈ t.ends, (g.IsAccepting q ↔ h.IsAccepting q)

/-! ## 6. Texts -/

variable [Spelling α]

theorem toList_text (g : StateGraph α) :
    g.text.toList = joined (g.sortedTransitions.map g.line) := by
  rw [text, String.toList_intercalate, joined, List.map_map, List.map_map]
  congr 1
  exact List.map_congr_left fun t _ => toList_transitionText g t

theorem text_eq_iff [Std.TransOrd α] [Std.LawfulEqOrd α]
    (hread : Delimited (symbolChars (α := α)) AtArrow) : g.text = h.text ↔ g.RendersAs h := by
  have hlines : g.text = h.text ↔
      g.sortedTransitions.map g.line = h.sortedTransitions.map h.line := by
    rw [← String.toList_inj, toList_text, toList_text, (joined_injective hread).eq_iff]
  have hmem : ∀ t, t ∈ g.sortedTransitions ↔ t ∈ g.transitions := fun t => List.mem_mergeSort
  rw [hlines, map_line_eq_iff, sortedTransitions_eq_iff]
  simp only [hmem, mark_eq_iff]
  constructor
  · rintro ⟨hperm, hmarks⟩
    exact ⟨hperm, fun t ht q hq => (hmarks t ht q hq).1, fun t ht q hq => (hmarks t ht q hq).2⟩
  · intro hsame
    exact ⟨hsame.transitions, fun t ht q hq =>
      ⟨hsame.initial t ht q hq, hsame.accepting t ht q hq⟩⟩

/-- **Rendering is faithful**, for characters and for numbers.  Two graphs have the same text just
when they have the same transitions, each as often, and agree on the marks of the states that these
join. -/
theorem text_faithful : (∀ g h : StateGraph Char, g.text = h.text ↔ g.RendersAs h) ∧
    ∀ g h : StateGraph UInt32, g.text = h.text ↔ g.RendersAs h :=
  ⟨fun _ _ => text_eq_iff delimited_char, fun _ _ => text_eq_iff delimited_uint32⟩

end StateGraph

end Recognizer
