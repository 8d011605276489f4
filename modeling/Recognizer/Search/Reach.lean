/-
# Reachable states

The states that a list of directed edges leads to from some start.  A search looks at one pending
state after the other.  A state that was found before is dropped; any other is found now, and the
states that its edges lead to become pending, without those that are found already.  A state can be
pending several times, and it can be found while it is still pending.  The search ends when nothing
is pending, or when the next pending state is a goal.

The edges out of a state are followed when the state is found, and so only once.  Hence the edges
out of the states that are not found and the pending states together become fewer with each state
that is looked at (`left_step`), and the search ends on any edges, cycles and repetitions included.

* `Leads`: reachability as a relation, one edge at a time;
* `Search.Consistent`: how what is found, what is pending and the edges belong together;
* `mem_reachable`: a search without a goal finds exactly the states that some start leads to;
* `Search.done_iff`: a search with a goal ends with nothing pending exactly when it has none to
  come to.
-/
import Recognizer.Search.Explore
import Recognizer.State.Set

namespace Recognizer

/-! ## 1. The relation -/

/-- `Leads edges p q`: there is a walk along `edges` from `p` to `q`, the empty walk included. -/
inductive Leads (edges : List (StateId × StateId)) (p : StateId) : StateId → Prop
  | refl : Leads edges p p
  | tail {q r : StateId} : Leads edges p q → (q, r) ∈ edges → Leads edges p r

namespace Leads

variable {edges edges' : List (StateId × StateId)} {p q r : StateId}

theorem trans (h : Leads edges p q) (h' : Leads edges q r) : Leads edges p r := by
  induction h' with
  | refl => exact h
  | tail _ he ih => exact ih.tail he

theorem head (he : (p, q) ∈ edges) (h : Leads edges q r) : Leads edges p r :=
  (Leads.refl.tail he).trans h

/-- A map of states that turns each edge into a walk turns walks into walks. -/
theorem map {f : StateId → StateId} (hf : ∀ p q, (p, q) ∈ edges → Leads edges' (f p) (f q))
    (h : Leads edges p q) : Leads edges' (f p) (f q) := by
  induction h with
  | refl => exact .refl
  | tail _ he ih => exact ih.trans (hf _ _ he)

theorem mono (hsub : ∀ e ∈ edges, e ∈ edges') (h : Leads edges p q) : Leads edges' p q :=
  h.map (f := id) fun p q he => Leads.refl.tail (hsub (p, q) he)

end Leads

/-! ## 2. The search -/

/-- The states that one edge leads to from `q`, in the order of the edges. -/
def nextFrom (q : StateId) (edges : List (StateId × StateId)) : List StateId :=
  (edges.filter (·.1 == q)).map (·.2)

theorem mem_nextFrom {q r : StateId} {edges : List (StateId × StateId)} :
    r ∈ nextFrom q edges ↔ (q, r) ∈ edges := by
  simp only [nextFrom, List.mem_map, List.mem_filter, beq_iff_eq]
  constructor
  · rintro ⟨e, ⟨he, rfl⟩, rfl⟩
    exact he
  · exact fun h => ⟨(q, r), ⟨h, rfl⟩, rfl⟩

/-- How far a search has come. -/
structure Search where
  /-- The states found. -/
  found : StateSet
  /-- The states to be looked at, the next one first. -/
  pending : List StateId
  deriving DecidableEq

namespace Search

variable {edges : List (StateId × StateId)} {order : WorklistOrder} {goal : StateId → Bool}
  {states rest : List StateId} {s : Search} {p q r : StateId}

/-- Nothing is found, and the given states are pending. -/
def start (order : WorklistOrder) (states : List StateId) : Search := ⟨.empty, order.push [] states⟩

/-- Looks at the next pending state. -/
def step (edges : List (StateId × StateId)) (order : WorklistOrder) (s : Search) : Search :=
  match s.pending with
  | [] => s
  | q :: rest =>
    if q ∈ s.found then ⟨s.found, rest⟩
    else
      let found := s.found.insert q
      ⟨found, order.push rest ((nextFrom q edges).filter fun r => !found.contains r)⟩

theorem step_of_nil (h : s.pending = []) : s.step edges order = s := by
  rw [step, h]

theorem step_of_mem (h : s.pending = q :: rest) (hq : q ∈ s.found) :
    s.step edges order = ⟨s.found, rest⟩ := by
  simp only [step, h, if_pos hq]

theorem step_of_not_mem (h : s.pending = q :: rest) (hq : q ∉ s.found) :
    s.step edges order = ⟨s.found.insert q, order.push rest
      ((nextFrom q edges).filter fun r => !(s.found.insert q).contains r)⟩ := by
  simp only [step, h, if_neg hq]

/-- The edges out of the states that are not found. -/
def unfollowed (edges : List (StateId × StateId)) (s : Search) : List (StateId × StateId) :=
  edges.filter fun e => !s.found.contains e.1

/-- How many states the search can still look at. -/
def left (edges : List (StateId × StateId)) (s : Search) : Nat :=
  (s.unfollowed edges).length + s.pending.length

/-- When a state is found, its edges are followed. -/
theorem length_unfollowed_insert (edges : List (StateId × StateId)) (hq : q ∉ s.found)
    (pending : List StateId) :
    (unfollowed edges ⟨s.found.insert q, pending⟩).length + (nextFrom q edges).length =
      (s.unfollowed edges).length := by
  have hcontains : ∀ r, (s.found.insert q).contains r = (r == q || s.found.contains r) := by
    intro r
    rw [Bool.eq_iff_iff, StateSet.contains_iff, StateSet.mem_insert, Bool.or_eq_true, beq_iff_eq,
      StateSet.contains_iff]
  have hnew : s.found.contains q = false :=
    Bool.eq_false_iff.mpr fun h => hq (StateSet.contains_iff.mp h)
  simp only [unfollowed, hcontains, nextFrom]
  induction edges with
  | nil => rfl
  | cons e edges ih =>
    by_cases he : e.1 = q
    · simp [he, hnew] at ih ⊢
      omega
    · cases hfound : s.found.contains e.1 <;> simp [he, hfound] at ih ⊢ <;> omega

/-- **Each step leaves less to look at.** -/
theorem left_step (h : s.pending ≠ []) : (s.step edges order).left edges < s.left edges := by
  obtain ⟨q, rest, hpending⟩ := List.exists_cons_of_ne_nil h
  have hlength : s.pending.length = rest.length + 1 := congrArg List.length hpending
  by_cases hq : q ∈ s.found
  · rw [step_of_mem hpending hq, left, left, hlength]
    exact Nat.lt_succ_self _
  · have hfollowed := length_unfollowed_insert edges hq
      (order.push rest ((nextFrom q edges).filter fun r => !(s.found.insert q).contains r))
    have hfilter := List.length_filter_le (fun r => !(s.found.insert q).contains r)
      (nextFrom q edges)
    rw [step_of_not_mem hpending hq, left, left, WorklistOrder.length_push, hlength]
    omega

/-- Looks at pending states until none is left, or the next one is a goal. -/
def run (edges : List (StateId × StateId)) (order : WorklistOrder) (goal : StateId → Bool)
    (s : Search) : Search :=
  match _ : s.pending with
  | [] => s
  | q :: _ => if goal q then s else run edges order goal (s.step edges order)
termination_by s.left edges
decreasing_by
  rename_i hpending _
  exact left_step (by simp [hpending])

/-- Whether nothing is pending. -/
def done (s : Search) : Bool := s.pending.isEmpty

theorem done_eq_true_iff : s.done = true ↔ s.pending = [] := List.isEmpty_iff

/-! ## 3. What a search has found -/

/-- `s.Consistent edges goal states`: how far a search for a goal from these states has come. -/
structure Consistent (edges : List (StateId × StateId)) (goal : StateId → Bool)
    (states : List StateId) (s : Search) : Prop where
  /-- The states to start from are found or pending. -/
  started : ∀ p ∈ states, p ∈ s.found ∨ p ∈ s.pending
  /-- What one edge leads to from a state that is found is found or pending. -/
  closed : ∀ q ∈ s.found, ∀ r, (q, r) ∈ edges → r ∈ s.found ∨ r ∈ s.pending
  /-- Nothing else is found or pending than what some start leads to. -/
  reached : ∀ q, q ∈ s.found ∨ q ∈ s.pending → ∃ p ∈ states, Leads edges p q
  /-- No goal is found. -/
  missed : ∀ q ∈ s.found, goal q = false

theorem consistent_start (edges : List (StateId × StateId)) (order : WorklistOrder)
    (goal : StateId → Bool) (states : List StateId) :
    (start order states).Consistent edges goal states where
  started := fun _ hp => Or.inr (WorklistOrder.mem_push.mpr (Or.inr hp))
  closed := fun _ hq => absurd hq (StateSet.not_mem_empty _)
  reached := by
    rintro q (hq | hq)
    · exact absurd hq (StateSet.not_mem_empty q)
    · rcases WorklistOrder.mem_push.mp hq with hq | hq
      · exact absurd hq List.not_mem_nil
      · exact ⟨q, hq, .refl⟩
  missed := fun _ hq => absurd hq (StateSet.not_mem_empty _)

/-! What a step does, said once: the state looked at is found, whether it was before or not, and
nothing else is; what was behind it stays pending; and its edges are followed if it was not found. -/

theorem mem_found_step (hpending : s.pending = q :: rest) :
    r ∈ (s.step edges order).found ↔ r = q ∨ r ∈ s.found := by
  by_cases hq : q ∈ s.found
  · rw [step_of_mem hpending hq]
    exact ⟨Or.inr, fun hr => hr.elim (fun heq => heq ▸ hq) id⟩
  · rw [step_of_not_mem hpending hq]
    exact StateSet.mem_insert

theorem mem_pending_step (hpending : s.pending = q :: rest) (hr : r ∈ rest) :
    r ∈ (s.step edges order).pending := by
  by_cases hq : q ∈ s.found
  · rwa [step_of_mem hpending hq]
  · rw [step_of_not_mem hpending hq]
    exact WorklistOrder.mem_push.mpr (Or.inl hr)

theorem of_mem_pending_step (hpending : s.pending = q :: rest)
    (hr : r ∈ (s.step edges order).pending) : r ∈ rest ∨ (q, r) ∈ edges := by
  by_cases hq : q ∈ s.found
  · rw [step_of_mem hpending hq] at hr
    exact Or.inl hr
  · rw [step_of_not_mem hpending hq] at hr
    rcases WorklistOrder.mem_push.mp hr with hr | hr
    · exact Or.inl hr
    · exact Or.inr (mem_nextFrom.mp (List.mem_filter.mp hr).1)

/-- What is found already need not become pending. -/
theorem follow_step (hpending : s.pending = q :: rest) (hq : q ∉ s.found) (hedge : (q, r) ∈ edges) :
    r ∈ (s.step edges order).found ∨ r ∈ (s.step edges order).pending := by
  rw [step_of_not_mem hpending hq]
  cases hr : (s.found.insert q).contains r with
  | true => exact Or.inl (StateSet.contains_iff.mp hr)
  | false =>
    have hnew : r ∈ (nextFrom q edges).filter fun r => !(s.found.insert q).contains r :=
      List.mem_filter.mpr ⟨mem_nextFrom.mpr hedge, by rw [hr]; rfl⟩
    exact Or.inr (WorklistOrder.mem_push.mpr (Or.inr hnew))

/-- A step loses nothing that is found or pending. -/
theorem mem_step (hpending : s.pending = q :: rest) (hr : r ∈ s.found ∨ r ∈ s.pending) :
    r ∈ (s.step edges order).found ∨ r ∈ (s.step edges order).pending := by
  rw [mem_found_step hpending]
  rw [hpending, List.mem_cons] at hr
  rcases hr with hr | hr | hr
  · exact Or.inl (Or.inr hr)
  · exact Or.inl (Or.inl hr)
  · exact Or.inr (mem_pending_step hpending hr)

/-- **A step keeps the search consistent** if it does not look at a goal. -/
theorem Consistent.step (h : s.Consistent edges goal states) (hpending : s.pending = q :: rest)
    (hgoal : goal q = false) : (s.step edges order).Consistent edges goal states where
  started := fun p hp => mem_step hpending (h.started p hp)
  closed := by
    intro p hp r hedge
    by_cases hfound : p ∈ s.found
    · exact mem_step hpending (h.closed p hfound r hedge)
    · obtain rfl := ((mem_found_step hpending).mp hp).resolve_right hfound
      exact follow_step hpending hfound hedge
  reached := by
    have hpendingReached : ∀ r ∈ q :: rest, ∃ p ∈ states, Leads edges p r := fun r hr =>
      h.reached r (Or.inr (hpending ▸ hr))
    obtain ⟨p, hp, hleads⟩ := hpendingReached q List.mem_cons_self
    rintro r (hr | hr)
    · rcases (mem_found_step hpending).mp hr with rfl | hr
      · exact ⟨p, hp, hleads⟩
      · exact h.reached r (Or.inl hr)
    · rcases of_mem_pending_step hpending hr with hr | hedge
      · exact hpendingReached r (List.mem_cons_of_mem q hr)
      · exact ⟨p, hp, hleads.tail hedge⟩
  missed := by
    intro r hr
    rcases (mem_found_step hpending).mp hr with rfl | hr
    · exact hgoal
    · exact h.missed r hr

/-- **A run keeps the search consistent**, and it ends when nothing is pending or before a goal. -/
theorem Consistent.run (h : s.Consistent edges goal states) (order : WorklistOrder) :
    (s.run edges order goal).Consistent edges goal states ∧
      ∀ q ∈ (s.run edges order goal).pending.head?, goal q = true := by
  fun_induction Search.run edges order goal s with
  | case1 s hpending => exact ⟨h, by simp [hpending]⟩
  | case2 s q rest hpending hgoal => exact ⟨h, by simpa [hpending] using hgoal⟩
  | case3 s q rest hpending hgoal ih => exact ih (h.step hpending (Bool.eq_false_iff.mpr hgoal))

/-- When nothing is pending, what is found is what some start leads to. -/
theorem Consistent.mem_found_iff (h : s.Consistent edges goal states) (hdone : s.pending = []) :
    q ∈ s.found ↔ ∃ p ∈ states, Leads edges p q := by
  have hfound : ∀ r, r ∈ s.found ∨ r ∈ s.pending → r ∈ s.found := by
    intro r hr
    rw [hdone] at hr
    exact hr.resolve_right List.not_mem_nil
  constructor
  · exact fun hq => h.reached q (Or.inl hq)
  · rintro ⟨p, hp, hleads⟩
    induction hleads with
    | refl => exact hfound p (h.started p hp)
    | tail _ hedge ih => exact hfound _ (h.closed _ ih _ hedge)

/-- **A search ends with nothing pending exactly when no start leads to a goal.** -/
theorem done_iff : ((start order states).run edges order goal).done = true ↔
    ∀ p ∈ states, ∀ q, Leads edges p q → goal q = false := by
  obtain ⟨hc, hgoal⟩ := (consistent_start edges order goal states).run order
  rw [done_eq_true_iff]
  constructor
  · intro hdone p hp q hleads
    exact hc.missed q ((hc.mem_found_iff hdone).mpr ⟨p, hp, hleads⟩)
  · intro hnone
    cases hpending : ((start order states).run edges order goal).pending with
    | nil => rfl
    | cons q rest =>
      obtain ⟨p, hp, hleads⟩ := hc.reached q (Or.inr (hpending ▸ List.mem_cons_self))
      exact absurd (hgoal q (by simp [hpending])) (by simp [hnone p hp q hleads])

end Search

/-! ## 4. Searches from start to end -/

/-- The states that `edges` lead to from the entries of `start`.  The pending state that was added
last is looked at first. -/
def reachable (edges : List (StateId × StateId)) (start : List StateId) : StateSet :=
  ((Search.start .lifo start).run edges .lifo fun _ => false).found

/-- Whether `edges` lead to no goal from the entries of `start`.  The pending state that was added
first is looked at first. -/
def noneReachable (edges : List (StateId × StateId)) (start : List StateId)
    (goal : StateId → Bool) : Bool :=
  ((Search.start .fifo start).run edges .fifo goal).done

/-- A search without a goal ends with nothing pending. -/
theorem pending_reachable (edges : List (StateId × StateId)) (start : List StateId) :
    ((Search.start .lifo start).run edges .lifo fun _ => false).pending = [] :=
  Search.done_eq_true_iff.mp (Search.done_iff.mpr fun _ _ _ _ => rfl)

/-- **It finds exactly the states that some start leads to.** -/
theorem mem_reachable {edges : List (StateId × StateId)} {start : List StateId} {r : StateId} :
    r ∈ reachable edges start ↔ ∃ p ∈ start, Leads edges p r :=
  ((Search.consistent_start edges .lifo (fun _ => false) start).run .lifo).1.mem_found_iff
    (pending_reachable edges start)

/-- **A search with a goal comes to one exactly when some start leads to one.** -/
theorem noneReachable_eq_false_iff {edges : List (StateId × StateId)} {start : List StateId}
    {goal : StateId → Bool} : noneReachable edges start goal = false ↔
      ∃ p ∈ start, ∃ q, Leads edges p q ∧ goal q = true := by
  rw [← Bool.not_eq_true, noneReachable, Search.done_iff]
  simp

end Recognizer
