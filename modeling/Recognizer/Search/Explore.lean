/-
# Numbering what can be reached

An exploration starts at a root and expands one pending node at a time: the successors that were
not met before are discovered, in the order in which they stand, and become pending.  A node's
number is its position in the order of discovery, so numbers never change once given.  Which
pending node comes next is the worklist order's choice.

The exploration stops as soon as it meets more nodes than a limit allows, and then reports the
nodes that it had met up to the limit.  Each step uses up one pending node and adds one for each
discovered node, so the room left under the limit together with the pending nodes becomes one
fewer.
-/

namespace Recognizer

/-- Which pending node is expanded next. -/
inductive WorklistOrder where
  /-- The one discovered last. -/
  | lifo
  /-- The one discovered first. -/
  | fifo
  deriving DecidableEq

/-- The pending nodes, next one first, once nodes are discovered after them. -/
def WorklistOrder.push {β : Type} (order : WorklistOrder) (pending discovered : List β) : List β :=
  match order with
  | .lifo => discovered.reverse ++ pending
  | .fifo => pending ++ discovered

theorem WorklistOrder.length_push {β : Type} (order : WorklistOrder) (l m : List β) :
    (order.push l m).length = l.length + m.length := by
  cases order with
  | lifo => simp only [push, List.length_append, List.length_reverse]; omega
  | fifo => simp only [push, List.length_append]

theorem WorklistOrder.mem_push {β : Type} {order : WorklistOrder} {l m : List β} {b : β} :
    b ∈ order.push l m ↔ b ∈ l ∨ b ∈ m := by
  cases order with
  | lifo => simp [push, or_comm]
  | fifo => simp [push]

/-- How far an exploration has come. -/
structure Exploration (β : Type) where
  /-- The nodes met, in the order of discovery. -/
  discovered : List β
  /-- The nodes expanded, in the order of expansion. -/
  expanded : List β
  /-- The nodes met and not yet expanded, the next one first. -/
  pending : List β
  deriving DecidableEq

namespace Exploration

variable {β : Type} [DecidableEq β]

/-- Only the root is met. -/
def start (root : β) : Exploration β := ⟨[root], [], [root]⟩

/-- The number of a node: its position in the order of discovery. -/
def number (e : Exploration β) (node : β) : Nat := e.discovered.idxOf node

/-- The nodes among `nodes` that were not met before, each once. -/
def fresh (e : Exploration β) (nodes : List β) : List β :=
  (nodes.filter (fun node => !e.discovered.contains node)).eraseDups

/-- Expands `node`, the first of the pending nodes, before the `rest` of them. -/
def expand (successors : β → List β) (order : WorklistOrder) (e : Exploration β) (node : β)
    (rest : List β) : Exploration β :=
  let new := e.fresh (successors node)
  ⟨e.discovered ++ new, e.expanded ++ [node], order.push rest new⟩

/-- Expands pending nodes until none is left; or, when more than `limit` nodes are met, stops
with the first `limit` of them. -/
def run (successors : β → List β) (order : WorklistOrder) (limit : Nat) (e : Exploration β) :
    Except (List β) (Exploration β) :=
  match _ : e.pending with
  | [] => .ok e
  | node :: rest =>
    let e' := e.expand successors order node rest
    if e'.discovered.length ≤ limit then run successors order limit e'
    else .error (e'.discovered.take limit)
termination_by limit - e.discovered.length + e.pending.length
decreasing_by
  rename_i hpending hle
  simp only [e', expand, List.length_append, WorklistOrder.length_push] at hle ⊢
  rw [hpending, List.length_cons]
  omega

end Exploration

/-- Explores from `root`, meeting at most `limit` nodes. -/
def explore {β : Type} [DecidableEq β] (successors : β → List β) (order : WorklistOrder)
    (limit : Nat) (root : β) : Except (List β) (Exploration β) :=
  (Exploration.start root).run successors order limit

end Recognizer
