/-
# Where the limit on states cuts a construction off

A run under a limit and a run without one expand the same nodes for as long as there is room.  So if
the second run comes to its end, the first one either comes to the same end or stops with the first
of the nodes that the second one meets: how many it may meet is all that the limit decides.  For a
deterministic automaton this means that a limit below its number of states makes the construction
fail after it has reported that many states, and that any other limit makes no difference.

* `Exploration.run_within`, `Exploration.run_cut`: two runs, by induction on the unlimited one;
* `exists_determinize_iff`: when a construction succeeds, for both orders of the worklist alike;
* `determinize_limited`: what a limit does to a construction and to its events.
-/
import Recognizer.Proofs.Representation

namespace Recognizer

/-! ## 1. Two runs of one exploration -/

namespace Exploration

variable {β : Type} [DecidableEq β] {successors : β → List β} {order : WorklistOrder}
  {limit limit' : Nat} {e e' : Exploration β}

/-- A run keeps what is met, in its order, and meets more behind it. -/
theorem run_extends (hrun : e.run successors order limit = .ok e') :
    e.discovered <+: e'.discovered := by
  fun_induction run successors order limit e with
  | case1 e hpending =>
    obtain rfl := Except.ok.inj hrun
    exact List.prefix_rfl
  | case2 e node rest hpending e₁ hlimit ih =>
    have hexpand : e.discovered <+: e₁.discovered := List.prefix_append _ _
    exact hexpand.trans (ih hrun)
  | case3 e node rest hpending e₁ hlimit => exact absurd hrun (by simp)

/-- **A limit that leaves room for all that is met makes no difference.** -/
theorem run_within (hrun : e.run successors order limit = .ok e')
    (hroom : e'.discovered.length ≤ limit') : e.run successors order limit' = .ok e' := by
  fun_induction run successors order limit e with
  | case1 e hpending =>
    obtain rfl := Except.ok.inj hrun
    exact run_of_pending_nil hpending
  | case2 e node rest hpending e₁ hlimit ih =>
    have hlength := (run_extends hrun).length_le
    rw [run_of_pending_cons hpending, if_pos (Nat.le_trans hlength hroom)]
    exact ih hrun
  | case3 e node rest hpending e₁ hlimit => exact absurd hrun (by simp)

/-- **A smaller limit cuts the run off**, and what was met up to there are the first nodes of the
whole run. -/
theorem run_cut (hrun : e.run successors order limit = .ok e')
    (hstart : e.discovered.length ≤ limit') (hcut : limit' < e'.discovered.length) :
    e.run successors order limit' = .error (e'.discovered.take limit') := by
  fun_induction run successors order limit e with
  | case1 e hpending =>
    obtain rfl := Except.ok.inj hrun
    omega
  | case2 e node rest hpending e₁ hlimit ih =>
    rw [run_of_pending_cons hpending]
    by_cases hroom : e₁.discovered.length ≤ limit'
    · rw [if_pos hroom]
      exact ih hrun hroom
    · obtain ⟨more, hmore⟩ := run_extends hrun
      rw [if_neg hroom, ← hmore, List.take_append_of_le_length (by omega)]
  | case3 e node rest hpending e₁ hlimit => exact absurd hrun (by simp)

end Exploration

/-! ## 2. Discoveries as events -/

section Events

variable {α : Type} {sets : List StateSet} {m : Nat}

theorem length_discoveries (sets : List StateSet) :
    (discoveries sets : List (Event α)).length = sets.length := by
  simp [discoveries]

theorem level_of_mem_discoveries {event : Event α} (h : event ∈ discoveries sets) :
    event.level = .trace := by
  obtain ⟨_, -, rfl⟩ := List.mem_map.mp h
  rfl

/-- The first discoveries are the discoveries of the first sets. -/
theorem discoveries_take (hm : m ≤ sets.length) :
    (discoveries (sets.take m) : List (Event α)) = (discoveries sets).take m := by
  have hzip : (sets.take m).zipIdx <+: sets.zipIdx := by
    refine ⟨(sets.drop m).zipIdx (0 + (sets.take m).length), ?_⟩
    rw [← List.zipIdx_append, List.take_append_drop]
  have hprefix : (discoveries (sets.take m) : List (Event α)) <+: discoveries sets := hzip.map _
  have htake := List.prefix_iff_eq_take.mp hprefix
  rwa [length_discoveries, List.length_take_of_le hm] at htake

end Events

/-! ## 3. Constructions -/

variable {α : Type} [Ord α] {n : Nfa α} {o : DeterminizeOptions} {order : WorklistOrder}
  {d : Dfa α} {e : Exploration StateSet} {m : Nat}

namespace DeterminizeOptions

theorem room_unlimited (order : WorklistOrder) :
    (⟨0, order⟩ : DeterminizeOptions).room = UInt32.size := if_pos rfl

theorem room_limited (hm : 1 ≤ m) (order : WorklistOrder) :
    (⟨m, order⟩ : DeterminizeOptions).room = min m UInt32.size :=
  if_neg (Nat.ne_of_gt hm)

end DeterminizeOptions

namespace Nfa

theorem determinize_of_ok (h : n.subsets o = .ok e) :
    n.determinize o = ⟨discoveries e.discovered ++ [.determinization n.states.size
      (Dfa.ofExploration n e).numStates (Dfa.ofExploration n e).transitions.length],
      .ok (Dfa.ofExploration n e)⟩ := by
  rw [determinize_eq, h]

theorem determinize_of_error {met : List StateSet} (h : n.subsets o = .error met) :
    n.determinize o =
      ⟨discoveries met, .error (.stateLimitExceeded (met.length + 1) o.maxStates)⟩ := by
  rw [determinize_eq, h]

/-- **A construction succeeds exactly when the simulation comes to no more sets than there is room
for**, whatever the order of the worklist. -/
theorem exists_determinize_iff [Std.TransOrd α] (n : Nfa α) (o : DeterminizeOptions) :
    (∃ d, (n.determinize o).outcome = .ok d) ↔ ∃ sets : List StateSet, sets.length ≤ o.room ∧
      ∀ w, n.Readable w → (n.after w).isEmpty = false → n.after w ∈ sets := by
  have hsubsets : (∃ d, (n.determinize o).outcome = .ok d) ↔ ∃ e, n.subsets o = .ok e := by
    simp only [determinize_outcome_eq_ok_iff]
    exact ⟨fun ⟨_, e, he, _⟩ => ⟨e, he⟩, fun ⟨e, he⟩ => ⟨_, e, he, rfl⟩⟩
  rw [hsubsets, subsets, Exploration.exists_explore_iff o.one_le_room]
  refine exists_congr fun sets => and_congr_right fun _ => ?_
  constructor
  · exact fun h w hw hne => h _ (reached_after hw hne)
  · intro h s hs
    obtain ⟨w, hw, rfl, hne⟩ := exists_word_of_reached hs
    exact h w hw hne

/-- **A construction fails when the simulation comes to more sets than there is room for**, and
says that it needs one state more. -/
theorem determinize_overflows {err : BuildError α} (h : (n.determinize o).outcome = .error err) :
    err = .stateLimitExceeded (o.room + 1) o.maxStates ∧
    ∃ sets : List StateSet, sets.Nodup ∧ o.room < sets.length ∧
      ∀ s ∈ sets, ∃ w, n.Readable w ∧ n.after w = s ∧ s.isEmpty = false := by
  cases hsubsets : n.subsets o with
  | ok e =>
    rw [determinize_of_ok hsubsets] at h
    exact absurd h (by simp)
  | error met =>
    obtain ⟨nodes, hnodup, hreached, hmore, rfl⟩ :=
      Exploration.explore_overflows o.one_le_room hsubsets
    rw [determinize_of_error hsubsets, List.length_take_of_le hmore.le] at h
    exact ⟨(Except.error.inj h).symm, nodes, hnodup, hmore,
      fun s hs => exists_word_of_reached (hreached s hs)⟩

/-- The order of the worklist does not decide whether a construction fails, nor how. -/
theorem determinize_error_of_order [Std.TransOrd α] {order' : WorklistOrder} {err : BuildError α}
    (h : (n.determinize ⟨m, order⟩).outcome = .error err) :
    (n.determinize ⟨m, order'⟩).outcome = .error err := by
  cases hother : (n.determinize ⟨m, order'⟩).outcome with
  | ok d =>
    obtain ⟨d', hd'⟩ := (n.exists_determinize_iff ⟨m, order⟩).mpr
      ((n.exists_determinize_iff ⟨m, order'⟩).mp ⟨d, hother⟩)
    exact absurd (hd'.symm.trans h) (by simp)
  | error err' =>
    rw [(determinize_overflows h).1, (determinize_overflows hother).1]
    rfl

/-- Where the whole construction succeeds, so does one with room for its states. -/
theorem subsets_within (h : n.subsets ⟨0, order⟩ = .ok e) (hroom : e.discovered.length ≤ m)
    (hm : 1 ≤ m) : n.subsets ⟨m, order⟩ = .ok e := by
  have hwithin := (subsets_explored h).within
  rw [DeterminizeOptions.room_unlimited] at hwithin
  refine Exploration.run_within h ?_
  rw [DeterminizeOptions.room_limited hm]
  omega

/-- With less room it stops with the first of the sets that the whole construction meets. -/
theorem subsets_cut (h : n.subsets ⟨0, order⟩ = .ok e) (hcut : m < e.discovered.length)
    (hm : 1 ≤ m) : n.subsets ⟨m, order⟩ = .error (e.discovered.take m) := by
  have hwithin := (subsets_explored h).within
  rw [DeterminizeOptions.room_unlimited] at hwithin
  have hroom : (⟨m, order⟩ : DeterminizeOptions).room = m := by
    rw [DeterminizeOptions.room_limited hm]
    omega
  rw [subsets, hroom]
  exact Exploration.run_cut h hm hcut

end Nfa

/-- **What a limit does to a construction.**  Suppose that the construction without a limit gives an
automaton.  A limit that is not below its number of states changes nothing.  A smaller limit makes
the construction fail, one state past the limit, after just as many discoveries as the limit
allows: the first ones that the whole construction reports.  Whether a limit makes a construction
fail does not depend on the order of the worklist. -/
theorem determinize_limited [Std.TransOrd α] (n : Nfa α) (hm : 1 ≤ m) :
    (∀ order d, (n.determinize ⟨0, order⟩).outcome = .ok d →
      (d.numStates ≤ m →
        (n.determinize ⟨m, order⟩).outcome = .ok d ∧
        (n.determinize ⟨m, order⟩).events = (n.determinize ⟨0, order⟩).events) ∧
      (m < d.numStates →
        (n.determinize ⟨m, order⟩).outcome = .error (.stateLimitExceeded (m + 1) m) ∧
        (n.determinize ⟨m, order⟩).events =
          ((n.determinize ⟨0, order⟩).events.filter fun event => event.level = .trace).take m ∧
        (n.determinize ⟨m, order⟩).events.length = m ∧
        ∀ event ∈ (n.determinize ⟨m, order⟩).events, event.level ≠ .debug)) ∧
    ∀ order order' err, (n.determinize ⟨m, order⟩).outcome = .error err ↔
      (n.determinize ⟨m, order'⟩).outcome = .error err := by
  refine ⟨fun order d hd => ?_, fun order order' err =>
    ⟨Nfa.determinize_error_of_order, Nfa.determinize_error_of_order⟩⟩
  obtain ⟨e, he, rfl⟩ := Nfa.determinize_outcome_eq_ok_iff.mp hd
  constructor
  · intro hroom
    rw [Nfa.determinize_of_ok (Nfa.subsets_within he hroom hm), Nfa.determinize_of_ok he]
    exact ⟨rfl, rfl⟩
  · intro hcut
    have hcut : m < e.discovered.length := hcut
    have hlength : (e.discovered.take m).length = m := List.length_take_of_le hcut.le
    have htraces : (n.determinize ⟨0, order⟩).events.filter (fun event => event.level = .trace) =
        discoveries e.discovered := by
      have hall : ∀ event ∈ (discoveries e.discovered : List (Event α)),
          decide (event.level = .trace) = true :=
        fun event hevent => decide_eq_true (level_of_mem_discoveries hevent)
      rw [Nfa.determinize_of_ok he, List.filter_append, List.filter_eq_self.mpr hall]
      exact List.append_nil _
    rw [htraces, ← discoveries_take hcut.le,
      Nfa.determinize_of_error (Nfa.subsets_cut he hcut hm), hlength]
    refine ⟨rfl, rfl, ?_, fun event hevent => ?_⟩
    · rw [length_discoveries, hlength]
    · rw [level_of_mem_discoveries hevent]
      decide

/-- Two ways that do not meet again; which of them is followed first depends on the order. -/
def fork : Nfa Char :=
  ⟨StateGraph.make 0 [⟨0, 'a', 1⟩, ⟨0, 'b', 2⟩, ⟨1, 'a', 3⟩, ⟨2, 'b', 4⟩] [3], 'ε'⟩

def forkDfa : Dfa Char :=
  ⟨StateGraph.make 0 [⟨0, 'a', 1⟩, ⟨0, 'b', 2⟩, ⟨2, 'b', 3⟩, ⟨1, 'a', 4⟩] [4], ['a', 'b'],
    [.ofList [0], .ofList [1], .ofList [2], .ofList [4], .ofList [3]]⟩

/-- With room for four states the fifth one is missing, with room for five nothing is. -/
theorem determinize_limited_fork :
    (fork.determinize ⟨0, .lifo⟩).outcome = .ok forkDfa ∧ 1 ≤ 4 ∧ 4 < forkDfa.numStates ∧
    (fork.determinize ⟨4, .lifo⟩).outcome = .error (.stateLimitExceeded 5 4) ∧
    (fork.determinize ⟨4, .fifo⟩).outcome = .error (.stateLimitExceeded 5 4) ∧
    (fork.determinize ⟨4, .lifo⟩).events =
      ((fork.determinize ⟨0, .lifo⟩).events.filter fun event => event.level = .trace).take 4 ∧
    1 ≤ 5 ∧ forkDfa.numStates ≤ 5 ∧
    (fork.determinize ⟨5, .lifo⟩).outcome = .ok forkDfa ∧
    (fork.determinize ⟨5, .lifo⟩).events = (fork.determinize ⟨0, .lifo⟩).events := by
  have hd : (fork.determinize ⟨0, .lifo⟩).outcome = .ok forkDfa := by decide +kernel
  have hcut : 4 < forkDfa.numStates := by decide
  have hroom : forkDfa.numStates ≤ 5 := by decide
  obtain ⟨hfour, horder⟩ := determinize_limited fork (m := 4) (by decide)
  obtain ⟨hfive, -⟩ := determinize_limited fork (m := 5) (by decide)
  obtain ⟨hfails, hevents, -, -⟩ := (hfour .lifo forkDfa hd).2 hcut
  obtain ⟨hsame, hsameEvents⟩ := (hfive .lifo forkDfa hd).1 hroom
  exact ⟨hd, by decide, hcut, hfails, (horder .lifo .fifo _).mp hfails, hevents, by decide, hroom,
    hsame, hsameEvents⟩

end Recognizer
