/-
# Renaming states

A renaming is applied to the initial state, both ends of every transition and the accepting
states, where states that become one are listed once.  Shifting all states by the same amount and
replacing one identifier by another are renamings.

A shift is carried out in place, and it can fail.  It is made of two passes: the first looks at every
state and fails at the first one that would leave the range of identifiers, the second renames.  So
the graph of a shift that fails is the graph that it was given (`on_moveTo`).
-/
import Recognizer.Graph.Basic

namespace Recognizer

namespace StateGraph

variable {α β γ : Type} {g g' : StateGraph α} {delta : Int} {target : StateId} {states : List StateId}

/-! ## 1. Renamings -/

/-- The graph with every state renamed. -/
def rename (f : StateId → StateId) (g : StateGraph α) : StateGraph α :=
  make (f g.initial) (g.transitions.map (·.rename f)) (g.accepting.map f)

/-- Replaces the identifier `old` by `new` everywhere.  If `new` was in use, the two states become
one. -/
def renumber (g : StateGraph α) (old new : StateId) : StateGraph α :=
  g.rename fun q => if q = old then new else q

theorem rename_id (g : StateGraph α) : g.rename id = g := by
  have htransitions : g.transitions.map (·.rename id) = g.transitions :=
    (List.map_congr_left fun t _ => t.rename_id).trans (List.map_id' _)
  have haccepting : (g.accepting.map id).eraseDups = g.accepting := by
    rw [List.map_id, eraseDups_of_nodup g.accepting_nodup]
  obtain ⟨initial, transitions, accepting, hnodup⟩ := g
  simp only [rename, make, htransitions, haccepting, id]

/-! ## 2. Shifts -/

/-- How far the states move when the initial state becomes `target`. -/
def distance (g : StateGraph α) (target : StateId) : Int := target.toNat - g.initial.toNat

/-- An edit of a graph in place that can fail.  What it wrote before it failed stays written. -/
abbrev Edit (α β : Type) := ExceptT (BuildError α) (StateM (StateGraph α)) β

/-- What comes of an edit of a graph, and the graph as the edit leaves it. -/
def Edit.on (e : Edit α β) (g : StateGraph α) : Except (BuildError α) β × StateGraph α :=
  e.run.run g

/-- Fails at the first of the states that leaves the range of identifiers. -/
def checkFits (delta : Int) (states : List StateId) : Edit α Unit :=
  states.forM fun q => do
    unless q.Fits delta do
      throw (.stateOutOfRange q delta)

/-- Shifts every state in place by the same amount so that the initial state becomes `target`. -/
def moveTo (target : StateId) : Edit α Unit := do
  let g ← get
  let delta := g.distance target
  unless delta = 0 do
    checkFits delta g.states.members
    modify (rename (StateId.shifted delta))

/-- The graph with every state shifted. -/
def shiftTo (g : StateGraph α) (target : StateId) : Except (BuildError α) (StateGraph α) :=
  match (moveTo target).on g with
  | (.ok (), moved) => .ok moved
  | (.error e, _) => .error e

/-- One edit after another. -/
theorem Edit.on_bind (e : Edit α β) (k : β → Edit α γ) (g : StateGraph α) :
    (e >>= k).on g = match e.on g with
      | (.ok b, left) => (k b).on left
      | (.error err, left) => (.error err, left) := by
  rcases h : e.on g with ⟨outcome, left⟩
  have hrun : e.run.run g = (outcome, left) := h
  rw [Edit.on, ExceptT.run_bind, StateT.run_bind, hrun]
  cases outcome with
  | ok b => rfl
  | error err => rfl

/-- The check fails at the first state that does not fit, and writes nothing. -/
theorem on_checkFits : (checkFits delta states).on g =
    (match states.find? (fun q => !q.Fits delta) with
      | some q => .error (.stateOutOfRange q delta)
      | none => .ok (), g) := by
  induction states with
  | nil => rfl
  | cons q states ih =>
    rw [checkFits, List.forM_eq_forM, List.forM_cons, Edit.on_bind]
    by_cases hfits : q.Fits delta
    · rw [List.find?_cons_of_neg (by simp [hfits]), ← ih, if_pos hfits]
      rfl
    · rw [List.find?_cons_of_pos (by simp [hfits]), if_neg hfits]
      rfl

/-- **A shift that fails leaves the graph as it was.** -/
theorem on_moveTo : (moveTo target).on g =
    match g.states.members.find? (fun q => !q.Fits (g.distance target)) with
      | some q => (.error (.stateOutOfRange q (g.distance target)), g)
      | none => (.ok (), g.rename (StateId.shifted (g.distance target))) := by
  rw [moveTo, Edit.on_bind]
  change Edit.on _ g = _
  by_cases hzero : g.distance target = 0
  · have hfind : g.states.members.find? (fun q => !q.Fits (g.distance target)) = none := by
      rw [hzero]
      exact List.find?_eq_none.mpr fun q _ => by simp [StateId.fits_zero]
    have hshifted : StateId.shifted (g.distance target) = id := by
      rw [hzero]
      exact funext StateId.shifted_zero
    rw [hfind, hshifted, rename_id, if_pos hzero]
    rfl
  · rw [if_neg hzero, Edit.on_bind, on_checkFits]
    cases g.states.members.find? (fun q => !q.Fits (g.distance target)) with
    | some q => rfl
    | none => rfl

/-- A shift that succeeds renames every state, and none of them leaves the range. -/
theorem on_moveTo_eq_ok_iff : (moveTo target).on g = (.ok (), g') ↔
    (∀ q ∈ g.states, q.Fits (g.distance target)) ∧
      g.rename (StateId.shifted (g.distance target)) = g' := by
  rw [on_moveTo]
  cases hfind : g.states.members.find? (fun q => !q.Fits (g.distance target)) with
  | some q =>
    have hout : ¬ q.Fits (g.distance target) := by simpa using List.find?_some hfind
    have hmem := StateSet.mem_members.mp (List.mem_of_find?_eq_some hfind)
    simp only [Prod.mk.injEq, reduceCtorEq, false_and, false_iff]
    exact fun h => hout (h.1 q hmem)
  | none =>
    have hfits : ∀ q ∈ g.states, q.Fits (g.distance target) := fun q hq => by
      simpa using List.find?_eq_none.mp hfind q (StateSet.mem_members.mpr hq)
    simp only [Prod.mk.injEq, true_and]
    exact ⟨fun h => ⟨hfits, h⟩, And.right⟩

theorem shiftTo_eq (g : StateGraph α) (target : StateId) : g.shiftTo target =
    match g.states.members.find? (fun q => !q.Fits (g.distance target)) with
      | some q => .error (.stateOutOfRange q (g.distance target))
      | none => .ok (g.rename (StateId.shifted (g.distance target))) := by
  rw [shiftTo, on_moveTo]
  cases g.states.members.find? (fun q => !q.Fits (g.distance target)) with
  | some q => rfl
  | none => rfl

end StateGraph

end Recognizer
