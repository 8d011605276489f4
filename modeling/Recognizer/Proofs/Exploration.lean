/-
# What an exploration has found when it stops

An exploration keeps three lists: the nodes met, the nodes expanded and the nodes pending.  The
invariant (`Exploration.Consistent`) ties them together: every node met is met once, it is either
expanded or pending, all that an expanded node leads to is met, and nothing is met that the root
does not lead to.  Expanding a pending node keeps the invariant whichever node the worklist order
takes.  So a run that stops without a failure has met and expanded the same nodes, and they are
those that the root leads to; a run that fails has met more nodes than the limit allows.  Neither
depends on the order.

An expansion discovers what a node leads to all at once, and then looks whether there was room for
it.  That comes to the same as meeting one node after the other and stopping at the first one for
which there is no room (`foldlM_meet`).

* `run_consistent`, `run_overflows`: what a run has found when it stops, and when it fails;
* `Consistent.mem_discovered_iff`: the nodes met are the nodes that the root leads to;
* `exists_explore_iff`: an exploration succeeds exactly when these are not more than the limit.
-/
import Mathlib.Data.List.Perm.Subperm
import Mathlib.Logic.Relation
import Recognizer.Graph.Basic
import Recognizer.Search.Explore

namespace Recognizer

open scoped List

namespace WorklistOrder

variable {β γ : Type}

/-- Either order puts the discovered nodes and the pending ones together. -/
theorem push_perm (order : WorklistOrder) (l m : List β) : order.push l m ~ l ++ m := by
  cases order with
  | lifo => exact (m.reverse_perm.append_right l).trans List.perm_append_comm
  | fifo => exact List.Perm.refl _

theorem push_nil (order : WorklistOrder) (l : List β) : order.push l [] = l := by
  cases order with
  | lifo => rfl
  | fifo => exact List.append_nil l

theorem push_push (order : WorklistOrder) (l m : List β) (b : β) :
    order.push (order.push l [b]) m = order.push l (b :: m) := by
  cases order with
  | lifo => simp [push]
  | fifo => simp [push]

theorem push_map (order : WorklistOrder) (f : β → γ) (l m : List β) :
    order.push (l.map f) (m.map f) = (order.push l m).map f := by
  cases order with
  | lifo => simp [push]
  | fifo => simp [push]

end WorklistOrder

namespace Exploration

variable {β : Type} {successors : β → List β} {order : WorklistOrder}
  {limit : Nat} {root node : β} {nodes rest : List β} {e e' : Exploration β}

/-! ## 1. The invariant -/

/-- `Reached successors root x`: a chain of successors leads from the root to `x`. -/
abbrev Reached (successors : β → List β) : β → β → Prop :=
  Relation.ReflTransGen fun x y => y ∈ successors x

/-- How the nodes met, the nodes expanded and the nodes pending belong together. -/
structure Consistent (successors : β → List β) (root : β) (limit : Nat) (e : Exploration β) :
    Prop where
  /-- No node is met twice. -/
  nodup : e.discovered.Nodup
  /-- The root is met first. -/
  first : e.discovered.head? = some root
  /-- A node that is met is either expanded or pending. -/
  perm : e.discovered ~ e.expanded ++ e.pending
  /-- All that an expanded node leads to is met. -/
  closed : ∀ x ∈ e.expanded, ∀ y ∈ successors x, y ∈ e.discovered
  /-- The root leads to all that is met. -/
  reached : ∀ x ∈ e.discovered, Reached successors root x
  /-- There is room for the nodes met. -/
  within : e.discovered.length ≤ limit

/-- When nothing is pending, the nodes expanded are the nodes met. -/
theorem Consistent.expanded_perm (h : e.Consistent successors root limit)
    (hpending : e.pending = []) : e.expanded ~ e.discovered := by
  have hperm := h.perm
  rw [hpending, List.append_nil] at hperm
  exact hperm.symm

theorem Consistent.mem_expanded_iff (h : e.Consistent successors root limit)
    (hpending : e.pending = []) {x : β} : x ∈ e.expanded ↔ x ∈ e.discovered :=
  (h.expanded_perm hpending).mem_iff

/-- A pending node is met. -/
theorem Consistent.mem_discovered_of_pending (h : e.Consistent successors root limit)
    (hpending : e.pending = node :: rest) : node ∈ e.discovered := by
  refine h.perm.mem_iff.mpr (List.mem_append_right _ ?_)
  rw [hpending]
  exact List.mem_cons_self

/-- More room does no harm. -/
theorem Consistent.mono {limit' : Nat} (h : e.Consistent successors root limit)
    (hle : limit ≤ limit') : e.Consistent successors root limit' :=
  { h with within := Nat.le_trans h.within hle }

/-- **When nothing is pending, the nodes met are the nodes that the root leads to.** -/
theorem Consistent.mem_discovered_iff (h : e.Consistent successors root limit)
    (hpending : e.pending = []) {x : β} : x ∈ e.discovered ↔ Reached successors root x := by
  constructor
  · exact h.reached x
  · intro hx
    induction hx with
    | refl => exact List.mem_of_mem_head? h.first
    | tail _ hy ih => exact h.closed _ ((h.mem_expanded_iff hpending).mpr ih) _ hy

/-- Before any expansion the root alone is met. -/
theorem consistent_start (h : 1 ≤ limit) : (start root).Consistent successors root limit where
  nodup := List.nodup_cons.mpr ⟨List.not_mem_nil, List.nodup_nil⟩
  first := rfl
  perm := List.Perm.refl _
  closed := fun _ hx => absurd hx List.not_mem_nil
  reached := fun _ hx => List.mem_singleton.mp hx ▸ .refl
  within := h

/-! ## 2. One expansion -/

variable [DecidableEq β]

theorem mem_fresh {x : β} :
    x ∈ e.fresh nodes ↔ x ∈ nodes ∧ x ∉ e.discovered := by
  rw [fresh, List.mem_eraseDups, List.mem_filter]
  simp

theorem mem_discovered_expand {x : β} :
    x ∈ (e.expand successors order node rest).discovered ↔
      x ∈ e.discovered ∨ x ∈ successors node := by
  rw [expand, List.mem_append, mem_fresh]
  by_cases hx : x ∈ e.discovered <;> simp [hx]

/-- **An expansion keeps the invariant.** -/
theorem Consistent.expand (h : e.Consistent successors root limit)
    (hpending : e.pending = node :: rest)
    (hlimit : (e.expand successors order node rest).discovered.length ≤ limit) :
    (e.expand successors order node rest).Consistent successors root limit where
  nodup := by
    refine List.nodup_append.mpr ⟨h.nodup, nodup_eraseDups _, fun x hx y hy hxy => ?_⟩
    exact (mem_fresh.mp hy).2 (hxy ▸ hx)
  first := by
    simp only [Exploration.expand, List.head?_append, h.first, Option.some_or]
  perm := by
    have hperm := h.perm
    rw [hpending] at hperm
    simp only [Exploration.expand]
    calc
      e.discovered ++ e.fresh (successors node)
          ~ (e.expanded ++ node :: rest) ++ e.fresh (successors node) := hperm.append_right _
      _ = (e.expanded ++ [node]) ++ (rest ++ e.fresh (successors node)) := by simp
      _ ~ (e.expanded ++ [node]) ++ order.push rest (e.fresh (successors node)) :=
          (order.push_perm _ _).symm.append_left _
  closed := by
    intro x hx y hy
    rw [mem_discovered_expand]
    rcases List.mem_append.mp hx with hx | hx
    · exact Or.inl (h.closed x hx y hy)
    · rw [List.mem_singleton.mp hx] at hy
      exact Or.inr hy
  reached := by
    intro x hx
    rcases mem_discovered_expand.mp hx with hx | hx
    · exact h.reached x hx
    · exact (h.reached node (h.mem_discovered_of_pending hpending)).tail hx
  within := hlimit

/-! ## 3. One node at a time -/

/-- Meets a node for the first time: it is discovered and becomes pending. -/
def discover (order : WorklistOrder) (e : Exploration β) (node : β) : Exploration β :=
  { e with
    discovered := e.discovered ++ [node]
    pending := order.push e.pending [node] }

omit [DecidableEq β] in
@[simp]
theorem discovered_discover (order : WorklistOrder) (e : Exploration β) (node : β) :
    (e.discover order node).discovered = e.discovered ++ [node] := rfl

omit [DecidableEq β] in
@[simp]
theorem pending_discover (order : WorklistOrder) (e : Exploration β) (node : β) :
    (e.discover order node).pending = order.push e.pending [node] := rfl

/-- Meets a node.  If it was not met before, it is discovered, provided that there is room for one
more. -/
def meet (order : WorklistOrder) (limit : Nat) (e : Exploration β) (node : β) :
    Except (List β) (Exploration β) :=
  if node ∈ e.discovered then .ok e
  else if e.discovered.length < limit then .ok (e.discover order node)
  else .error e.discovered

theorem meet_cases (h : e.meet order limit node = .ok e') :
    (node ∈ e.discovered ∧ e' = e) ∨
      (e.discovered.length < limit ∧ e' = e.discover order node) := by
  unfold meet at h
  split at h
  · exact Or.inl ⟨‹_›, (Except.ok.inj h).symm⟩
  · split at h
    · exact Or.inr ⟨‹_›, (Except.ok.inj h).symm⟩
    · exact absurd h (by simp)

theorem mem_discovered_of_meet (h : e.meet order limit node = .ok e') : node ∈ e'.discovered := by
  rcases meet_cases h with ⟨hmem, rfl⟩ | ⟨-, rfl⟩
  · exact hmem
  · exact List.mem_append_right _ List.mem_cons_self

theorem meet_within (hroom : e.discovered.length ≤ limit)
    (h : e.meet order limit node = .ok e') : e'.discovered.length ≤ limit := by
  rcases meet_cases h with ⟨-, rfl⟩ | ⟨hlt, rfl⟩
  · exact hroom
  · rw [discovered_discover, List.length_append]
    exact hlt

/-- Only what is met becomes pending. -/
theorem pending_subset_of_meet (hpending : e.pending ⊆ e.discovered)
    (h : e.meet order limit node = .ok e') : e'.pending ⊆ e'.discovered := by
  rcases meet_cases h with ⟨-, rfl⟩ | ⟨-, rfl⟩
  · exact hpending
  · intro x hx
    rw [pending_discover, WorklistOrder.mem_push] at hx
    exact List.mem_append.mpr (hx.imp_left fun hx => hpending hx)

theorem fresh_cons_of_mem (h : node ∈ e.discovered) : e.fresh (node :: nodes) = e.fresh nodes := by
  rw [fresh, List.filter_cons_of_neg (by simpa using h), fresh]

/-- A new node counts as met for those that come after it. -/
theorem fresh_cons_of_not_mem (h : node ∉ e.discovered)
    (h' : e'.discovered = e.discovered ++ [node]) :
    e.fresh (node :: nodes) = node :: e'.fresh nodes := by
  have hmet : ∀ x, (!x == node && !e.discovered.contains x) = !e'.discovered.contains x := by
    intro x
    rw [h', List.contains_append, List.contains_cons, List.contains_nil]
    simp [Bool.and_comm]
  rw [fresh, List.filter_cons_of_pos (by simpa using h), List.eraseDups_cons, fresh,
    List.filter_filter]
  simp only [hmet]

/-- **Meeting nodes one after the other is discovering them all at once.** -/
theorem foldlM_meet (hroom : e.discovered.length ≤ limit) :
    nodes.foldlM (meet order limit) e =
      if (e.discovered ++ e.fresh nodes).length ≤ limit then
        .ok ⟨e.discovered ++ e.fresh nodes, e.expanded, order.push e.pending (e.fresh nodes)⟩
      else .error ((e.discovered ++ e.fresh nodes).take limit) := by
  induction nodes generalizing e with
  | nil =>
    have hnone : e.fresh [] = [] := rfl
    rw [List.foldlM_nil, hnone, List.append_nil, if_pos hroom, WorklistOrder.push_nil]
    rfl
  | cons node nodes ih =>
    rw [List.foldlM_cons, meet]
    by_cases hmem : node ∈ e.discovered
    · rw [if_pos hmem, fresh_cons_of_mem hmem, ← ih hroom]
      rfl
    · rw [if_neg hmem]
      by_cases hfull : e.discovered.length < limit
      · let e₁ := e.discover order node
        have hroom₁ : e₁.discovered.length ≤ limit := by
          simp only [e₁, discovered_discover, List.length_append, List.length_singleton]
          omega
        have hfresh : e.fresh (node :: nodes) = node :: e₁.fresh nodes :=
          fresh_cons_of_not_mem hmem rfl
        have hall : e.discovered ++ e.fresh (node :: nodes) = e₁.discovered ++ e₁.fresh nodes := by
          simp [e₁, hfresh]
        have hpush : order.push e.pending (node :: e₁.fresh nodes) =
            order.push e₁.pending (e₁.fresh nodes) := (order.push_push _ _ _).symm
        rw [if_pos hfull, hall, hfresh, hpush]
        exact ih hroom₁
      · have hlength : e.discovered.length = limit := Nat.le_antisymm hroom (Nat.le_of_not_lt hfull)
        have hmore : ¬ (e.discovered ++ e.fresh (node :: nodes)).length ≤ limit := by
          have hnew : node ∈ e.fresh (node :: nodes) := mem_fresh.mpr ⟨List.mem_cons_self, hmem⟩
          have hpos := List.length_pos_of_mem hnew
          rw [List.length_append]
          omega
        rw [if_neg hfull, if_neg hmore, List.take_left' hlength]
        rfl

/-- What was met before stays met, in its order. -/
theorem foldlM_meet_extends (hroom : e.discovered.length ≤ limit)
    (h : nodes.foldlM (meet order limit) e = .ok e') : e.discovered <+: e'.discovered := by
  rw [foldlM_meet hroom] at h
  split at h
  · rw [← Except.ok.inj h]
    exact List.prefix_append _ _
  · exact absurd h (by simp)

/-! ## 4. A whole run -/

/-- A run stops when nothing is pending. -/
theorem run_of_pending_nil (h : e.pending = []) : e.run successors order limit = .ok e := by
  rw [run]
  split
  · rfl
  · rename_i hpending
    exact absurd (h.symm.trans hpending) (List.cons_ne_nil _ _).symm

/-- Otherwise it expands the next node and goes on, if there is room for what was discovered. -/
theorem run_of_pending_cons (h : e.pending = node :: rest) :
    e.run successors order limit =
      if (e.expand successors order node rest).discovered.length ≤ limit then
        (e.expand successors order node rest).run successors order limit
      else .error ((e.expand successors order node rest).discovered.take limit) := by
  rw [run]
  split
  · rename_i hpending
    exact absurd (h.symm.trans hpending) (List.cons_ne_nil _ _)
  · rename_i hpending
    obtain ⟨rfl, rfl⟩ := List.cons.inj (h.symm.trans hpending)
    rfl

/-- **A run keeps the invariant**, and it stops when nothing is pending. -/
theorem run_consistent (h : e.Consistent successors root limit)
    (hrun : e.run successors order limit = .ok e') :
    e'.Consistent successors root limit ∧ e'.pending = [] := by
  fun_induction run successors order limit e with
  | case1 e hpending =>
    obtain rfl := Except.ok.inj hrun
    exact ⟨h, hpending⟩
  | case2 e node rest hpending e₁ hlimit ih => exact ih (h.expand hpending hlimit) hrun
  | case3 e node rest hpending e₁ hlimit => exact absurd hrun (by simp)

/-- **A run that fails has met more than the limit allows**, and reports the first of what it has
met. -/
theorem run_overflows {met : List β} (h : e.Consistent successors root limit)
    (hrun : e.run successors order limit = .error met) :
    ∃ nodes : List β, nodes.Nodup ∧ (∀ x ∈ nodes, Reached successors root x) ∧
      limit < nodes.length ∧ met = nodes.take limit := by
  fun_induction run successors order limit e with
  | case1 e hpending => exact absurd hrun (by simp)
  | case2 e node rest hpending e₁ hlimit ih => exact ih (h.expand hpending hlimit) hrun
  | case3 e node rest hpending e₁ hlimit =>
    have hlimit : limit < e₁.discovered.length := Nat.lt_of_not_le hlimit
    have hexpand := (h.mono (Nat.le_of_lt hlimit)).expand hpending (Nat.le_refl _)
    exact ⟨e₁.discovered, hexpand.nodup, hexpand.reached, hlimit, (Except.error.inj hrun).symm⟩

theorem explore_consistent (hlimit : 1 ≤ limit)
    (h : explore successors order limit root = .ok e) :
    e.Consistent successors root limit ∧ e.pending = [] :=
  run_consistent (consistent_start hlimit) h

theorem explore_overflows {met : List β} (hlimit : 1 ≤ limit)
    (h : explore successors order limit root = .error met) :
    ∃ nodes : List β, nodes.Nodup ∧ (∀ x ∈ nodes, Reached successors root x) ∧
      limit < nodes.length ∧ met = nodes.take limit :=
  run_overflows (consistent_start hlimit) h

/-- **An exploration succeeds exactly when the root leads to no more nodes than the limit allows**,
whatever the order. -/
theorem exists_explore_iff (hlimit : 1 ≤ limit) :
    (∃ e, explore successors order limit root = .ok e) ↔
      ∃ nodes : List β, nodes.length ≤ limit ∧ ∀ x, Reached successors root x → x ∈ nodes := by
  constructor
  · rintro ⟨e, h⟩
    obtain ⟨hc, hdone⟩ := explore_consistent hlimit h
    exact ⟨e.discovered, hc.within, fun x hx => (hc.mem_discovered_iff hdone).mpr hx⟩
  · rintro ⟨nodes, hlength, hall⟩
    cases h : explore successors order limit root with
    | ok e => exact ⟨e, rfl⟩
    | error met =>
      obtain ⟨more, hnodup, hreached, hmore, -⟩ := explore_overflows hlimit h
      have hle := (List.subperm_of_subset hnodup fun x hx => hall x (hreached x hx)).length_le
      omega

end Exploration

end Recognizer
