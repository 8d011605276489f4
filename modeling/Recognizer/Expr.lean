/-
# Expressions

An expression says how an automaton is put together from literals and from automata that are known
by a name.  Operands are built from left to right, and building stops at the first error.
-/
import Recognizer.Nfa.Report

namespace Recognizer

/-- An expression over the symbols `α`. -/
inductive Expr (α : Type) where
  /-- The automaton of one symbol. -/
  | literal (symbol : α)
  /-- The automaton known by a name. -/
  | named (name : String)
  | concat (left right : Expr α)
  | alternate (left right : Expr α)
  | star (body : Expr α)
  /-- The host with each transition on `symbol` replaced by the replacement. -/
  | expand (host : Expr α) (symbol : α) (replacement : Expr α)
  deriving DecidableEq

namespace Expr

variable {α : Type} [Ord α]

/-- Builds the automaton of an expression, with literals over the given epsilon. -/
def build (known : String → Option (Nfa α)) (epsilon : α) : Expr α → Recorded α (Nfa α)
  | literal symbol => pure (.literal symbol epsilon)
  | named name =>
    match known name with
    | some n => pure n
    | none => .fail (.unboundName name)
  | concat left right => do
    let n ← left.build known epsilon
    let m ← right.build known epsilon
    n.concatReported m
  | alternate left right => do
    let n ← left.build known epsilon
    let m ← right.build known epsilon
    n.alternateReported m
  | star body => do
    let n ← body.build known epsilon
    n.starReported
  | expand host symbol replacement => do
    let n ← host.build known epsilon
    let m ← replacement.build known epsilon
    n.expandReported symbol m

end Expr

end Recognizer
