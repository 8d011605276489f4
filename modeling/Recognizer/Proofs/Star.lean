/-
# Star is the Kleene closure

A star moves its operand up by one and puts it between a new entry and a new exit.  The operand is
entered from either of them and always left to the exit, and one silent transition goes from the
entry to the exit.  So each leg between the two reads nothing or a word of the operand.

* `starLayout_describes`: the automaton has the layout;
* `star_accepts_iff`: its words are the words of the operand, any number of them in a row;
* `star_closure`: the same for the simulation, with what the ends of the result are.
-/
import Recognizer.Proofs.Layout
import Recognizer.Proofs.Outcome
import Recognizer.Proofs.Renaming
import Recognizer.Proofs.Simulation

namespace Recognizer

open Computability

namespace Nfa

variable {α : Type} {n r : Nfa α} {f : Fragment α} {exit p q : StateId} {t : Transition α}
  {w : List α}

/-! ## 1. The layout -/

/-- The operand, moved up by one, between the entry 0 and the exit. -/
def starLayout (f : Fragment α) (exit : StateId) : Layout Unit α where
  Host p := p = 0 ∨ p = exit
  own := [⟨0, f.epsilon, exit⟩]
  part _ := f
  image _ := StateId.shifted 1
  Enters _ p := p = 0 ∨ p = exit
  Leaves _ q := q = exit

/-- The automaton that a star builds. -/
def starred (f : Fragment α) (exit : StateId) : Nfa α :=
  between 0 exit ((f.toNfa.rename (StateId.shifted 1)).transitions ++
    [⟨0, f.epsilon, f.initial.shifted 1⟩, ⟨f.exit.shifted 1, f.epsilon, exit⟩,
      ⟨exit, f.epsilon, f.initial.shifted 1⟩, ⟨0, f.epsilon, exit⟩]) f.epsilon

/-- `Between f exit`: the operand can be moved up by one, and then lies below the exit. -/
structure Between (f : Fragment α) (exit : StateId) : Prop where
  fits : ∀ q ∈ f.states, q.Fits 1
  below : ∀ q ∈ f.states, (q.shifted 1).toNat < exit.toNat

/-- A moved state is neither the entry nor the exit. -/
theorem Between.not_host (h : Between f exit) (hq : q ∈ f.states) :
    ¬ (starLayout f exit).Host (q.shifted 1) := by
  have hshifted := StateId.toNat_shifted (h.fits q hq)
  rintro (heq | heq)
  · rw [heq] at hshifted
    have hzero : (0 : StateId).toNat = 0 := rfl
    omega
  · have hlt := h.below q hq
    rw [heq] at hlt
    exact absurd hlt (Nat.lt_irrefl _)

theorem Between.shifted_inj (h : Between f exit) (hp : p ∈ f.states) (hq : q ∈ f.states)
    (heq : p.shifted 1 = q.shifted 1) : p = q := by
  have hshiftedp := StateId.toNat_shifted (h.fits p hp)
  have hshiftedq := StateId.toNat_shifted (h.fits q hq)
  rw [heq] at hshiftedp
  apply UInt32.toNat_inj.mp
  omega

/-- The transitions of a star: those of the operand, two ways in, one way out and one past it. -/
theorem mem_starred_iff : t ∈ (starred f exit).transitions ↔
    (∃ u ∈ f.transitions, t = u.rename (StateId.shifted 1)) ∨
    ((starLayout f exit).Enters () t.source ∧ t = ⟨t.source, f.epsilon, f.initial.shifted 1⟩) ∨
    t = ⟨f.exit.shifted 1, f.epsilon, exit⟩ ∨ t = ⟨0, f.epsilon, exit⟩ := by
  have hcopy : t ∈ (f.toNfa.rename (StateId.shifted 1)).transitions ↔
      ∃ u ∈ f.transitions, t = u.rename (StateId.shifted 1) := by
    rw [rename, StateGraph.rename, StateGraph.make, List.mem_map]
    simp only [eq_comm]
  rw [starred, between, List.mem_append, hcopy]
  simp only [List.mem_cons, List.not_mem_nil, or_false]
  constructor
  · rintro (hu | rfl | rfl | rfl | rfl)
    · exact Or.inl hu
    · exact Or.inr (Or.inl ⟨Or.inl rfl, rfl⟩)
    · exact Or.inr (Or.inr (Or.inl rfl))
    · exact Or.inr (Or.inl ⟨Or.inr rfl, rfl⟩)
    · exact Or.inr (Or.inr (Or.inr rfl))
  · rintro (hu | ⟨hsource | hsource, ht⟩ | ht | ht)
    · exact Or.inl hu
    · rw [hsource] at ht
      exact Or.inr (Or.inl ht)
    · rw [hsource] at ht
      exact Or.inr (Or.inr (Or.inr (Or.inl ht)))
    · exact Or.inr (Or.inr (Or.inl ht))
    · exact Or.inr (Or.inr (Or.inr (Or.inr ht)))

variable [Ord α] [Std.ReflOrd α]

/-- **A star has its layout.** -/
theorem starLayout_describes (h : Between f exit) :
    (starLayout f exit).Describes (starred f exit) where
  isEpsilon_iff := fun _ _ => Iff.rfl
  enters_host := fun hp => hp
  leaves_host := fun hq => Or.inr hq
  apart := fun hp hq _ heq => ⟨rfl, h.shifted_inj hp hq heq⟩
  fused := fun hp hhost => absurd hhost (h.not_host hp)
  origin := by
    intro t ht
    rcases mem_starred_iff.mp ht with ⟨u, hu, rfl⟩ | ⟨henters, heq⟩ | rfl | rfl
    · exact .copy (L := starLayout f exit) () hu
    · rw [heq]
      exact .entry () (Same.refl f.epsilon) henters rfl (h.not_host f.initial_mem_states)
    · refine .exit () (Same.refl f.epsilon) rfl rfl fun hhost => ?_
      exact absurd hhost (h.not_host f.exit_mem_states)
    · exact .own List.mem_cons_self (Or.inl rfl) (Or.inr rfl)
  own_mem := by
    intro t ht
    obtain rfl := List.mem_singleton.mp ht
    exact mem_starred_iff.mpr (Or.inr (Or.inr (Or.inr rfl)))
  copy_mem := fun _ t ht => mem_starred_iff.mpr (Or.inl ⟨t, ht, rfl⟩)
  enter := by
    intro i p hp
    have hmem : ⟨p, f.epsilon, f.initial.shifted 1⟩ ∈ (starred f exit).transitions :=
      mem_starred_iff.mpr (Or.inr (Or.inl ⟨hp, rfl⟩))
    exact Path.silent hmem (Same.refl f.epsilon) (.refl _)
  leave := by
    rintro i q rfl
    have hmem : ⟨f.exit.shifted 1, f.epsilon, q⟩ ∈ (starred f q).transitions :=
      mem_starred_iff.mpr (Or.inr (Or.inr (Or.inl rfl)))
    exact Path.silent hmem (Same.refl f.epsilon) (.refl _)

omit [Ord α] [Std.ReflOrd α] in
/-- The exit of a star is allocated above the moved operand. -/
theorem between_of_nextAvailable (hfits : ∀ q ∈ f.states, q.Fits 1)
    (hexit : (f.toNfa.rename (StateId.shifted 1)).nextAvailable = .ok exit) : Between f exit :=
  ⟨hfits, fun _ hq => StateGraph.lt_of_nextAvailable hexit (StateGraph.mem_states_rename hq)⟩

omit [Ord α] [Std.ReflOrd α] in
/-- What a star that succeeds has built. -/
theorem exists_starred (h : n.star = .ok r) :
    ∃ (f : Fragment α) (exit : StateId), f.toNfa = n ∧ starred f exit = r ∧ Between f exit := by
  obtain ⟨f, exit, rfl, hfits, hexit, rfl⟩ := star_eq_ok_iff.mp h
  exact ⟨f, exit, rfl, rfl, between_of_nextAvailable hfits hexit⟩

/-! ## 2. The language -/

/-- A leg reads nothing on the way past the operand, or a word of the operand. -/
theorem star_leg_iff : (starLayout f exit).Leg (starred f exit) p w q ↔ q = exit ∧
    ((p = 0 ∧ w = []) ∨ ((p = 0 ∨ p = exit) ∧ f.Accepts w)) := by
  rw [Fragment.accepts_iff_path]
  constructor
  · intro h
    cases h with
    | own mem reads =>
      obtain rfl := List.mem_singleton.mp mem
      obtain ⟨-, rfl⟩ | ⟨hne, -⟩ := mem_reading_iff.mp reads
      · exact ⟨rfl, Or.inl ⟨rfl, rfl⟩⟩
      · exact absurd (Same.refl f.epsilon) hne
    | copy i enters way leaves => exact ⟨leaves, Or.inr ⟨enters, way⟩⟩
  · rintro ⟨rfl, ⟨rfl, rfl⟩ | ⟨hp, hway⟩⟩
    · have reads : [] ∈ (starred f q).reading f.epsilon :=
        mem_reading_iff.mpr (Or.inl ⟨Same.refl f.epsilon, rfl⟩)
      exact .own (L := starLayout f q) (t := ⟨0, f.epsilon, q⟩) List.mem_cons_self reads
    · exact .copy () hp hway rfl

/-- Every route reads words of the operand, one after the other. -/
theorem star_route_mem
    (h : Route ((starLayout f exit).Leg (starred f exit)) p w q) : w ∈ f.language∗ := by
  rw [Language.mem_kstar]
  induction h with
  | refl q => exact ⟨[], rfl, fun v hv => absurd hv List.not_mem_nil⟩
  | leg first _ ih =>
    obtain ⟨ws, rfl, hws⟩ := ih
    obtain ⟨-, ⟨-, rfl⟩ | ⟨-, hfirst⟩⟩ := star_leg_iff.mp first
    · exact ⟨ws, rfl, hws⟩
    · exact ⟨_ :: ws, List.flatten_cons.symm, List.forall_mem_cons.mpr ⟨hfirst, hws⟩⟩

/-- From the exit, any number of words of the operand lead back to it. -/
theorem star_route_flatten {ws : List (List α)} (hws : ∀ u ∈ ws, f.Accepts u) :
    Route ((starLayout f exit).Leg (starred f exit)) exit ws.flatten exit := by
  induction ws with
  | nil => exact .refl exit
  | cons u ws ih =>
    obtain ⟨hu, hrest⟩ := List.forall_mem_cons.mp hws
    exact .leg (star_leg_iff.mpr ⟨rfl, Or.inr ⟨Or.inr rfl, hu⟩⟩) (ih hrest)

/-- **Star is the Kleene closure.** -/
theorem star_accepts_iff (h : n.star = .ok r) : r.Accepts w ↔ w ∈ n.language∗ := by
  obtain ⟨f, exit, rfl, rfl, hbetween⟩ := exists_starred h
  have haccepts : (starred f exit).Accepts w ↔ (starred f exit).Path 0 w exit :=
    accepts_between_iff
  rw [haccepts, (starLayout_describes hbetween).path_iff_route (Or.inl rfl) (Or.inr rfl)]
  constructor
  · exact star_route_mem
  · intro hw
    obtain ⟨ws, rfl, hws⟩ := Language.mem_kstar.mp hw
    exact Route.leg (u := []) (star_leg_iff.mpr ⟨rfl, Or.inl ⟨rfl, rfl⟩⟩) (star_route_flatten hws)

/-! ## 3. The simulation of a star -/

omit [Ord α] [Std.ReflOrd α] in
/-- The exit lies above the operand, so it is not the entry. -/
theorem Between.exit_ne (h : Between f exit) : exit ≠ 0 := by
  rintro rfl
  exact absurd (h.below _ f.initial_mem_states) (Nat.not_lt_zero _)

/-- A star starts in 0, which nothing enters, and has its one exit elsewhere. -/
theorem star_ends (h : n.star = .ok r) :
    r.initial = 0 ∧ (∀ t ∈ r.transitions, t.target ≠ 0) ∧
      ∃ exit, r.accepting = [exit] ∧ exit ≠ 0 := by
  obtain ⟨f, exit, rfl, rfl, hbetween⟩ := exists_starred h
  have hne : exit ≠ 0 := hbetween.exit_ne
  refine ⟨rfl, fun t ht => ?_, exit, rfl, hne⟩
  refine (starLayout_describes hbetween).target_ne ht (Or.inl rfl) ?_ fun _ => hne.symm
  intro t ht
  rw [List.mem_singleton.mp ht]
  exact hne

omit [Std.ReflOrd α] in
/-- **Star is the Kleene closure, between a new entry and a new exit.**  The simulation of the
result accepts a word exactly when the word can be cut into any number of words that the operand
accepts, whatever transitions the operand has at its ends.  The result starts in 0, which no
transition enters, and has one accepting state, which is not 0. -/
theorem star_closure [Std.TransOrd α] (h : n.star = .ok r) :
    r.initial = 0 ∧ (∀ t ∈ r.transitions, t.target ≠ 0) ∧
    (∃ exit, r.accepting = [exit] ∧ exit ≠ 0) ∧
    ∀ w, n.Readable w → (r.accepts w = true ↔
      ∃ ws : List (List α), w = ws.flatten ∧ ∀ u ∈ ws, n.accepts u = true) := by
  obtain ⟨hinitial, hentry, hexit⟩ := star_ends h
  refine ⟨hinitial, hentry, hexit, fun w hw => ?_⟩
  rw [accepts_iff ((readable_of_epsilon_eq (star_epsilon h)).mpr hw), star_accepts_iff h,
    Language.mem_kstar]
  constructor
  · rintro ⟨ws, rfl, hws⟩
    have hread := readable_flatten_iff.mp hw
    exact ⟨ws, rfl, fun u hu => (accepts_iff (hread u hu)).mpr (hws u hu)⟩
  · rintro ⟨ws, rfl, hws⟩
    have hread := readable_flatten_iff.mp hw
    exact ⟨ws, rfl, fun u hu => (accepts_iff (hread u hu)).mp (hws u hu)⟩

/-- A loop on `x` through a second state, with the one accepting state that is also initial and
not the smallest. -/
def roundTrip : Nfa Char := between 7 7 [⟨7, 'x', 3⟩, ⟨3, 'y', 7⟩] 'ε'

def roundTripStarred : Nfa Char :=
  between 0 9 [⟨8, 'x', 4⟩, ⟨4, 'y', 8⟩, ⟨0, 'ε', 8⟩, ⟨8, 'ε', 9⟩, ⟨9, 'ε', 8⟩, ⟨0, 'ε', 9⟩] 'ε'

theorem star_closure_round_trip :
    roundTrip.star = .ok roundTripStarred ∧ roundTripStarred.initial = 0 ∧
    (∀ t ∈ roundTripStarred.transitions, t.target ≠ 0) ∧
    (∃ exit, roundTripStarred.accepting = [exit] ∧ exit ≠ 0) ∧
    ∀ w, roundTrip.Readable w → (roundTripStarred.accepts w = true ↔
      ∃ ws : List (List Char), w = ws.flatten ∧ ∀ u ∈ ws, roundTrip.accepts u = true) := by
  have h : roundTrip.star = .ok roundTripStarred := by decide +kernel
  exact ⟨h, star_closure h⟩

end Nfa

end Recognizer
