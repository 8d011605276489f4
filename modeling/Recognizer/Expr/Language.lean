/-
# The language of an expression

The words that an expression stands for, said without automata: a literal is the word of its symbol,
in any spelling, or the empty word if its symbol is the epsilon; concatenation, alternation and star
are the product, the sum and the Kleene star of languages; an expansion puts a word of the
replacement for each occurrence of the symbol, each chosen on its own.
-/
import Recognizer.Expr
import Mathlib.Computability.Language

namespace Recognizer

variable {α : Type} [Ord α]

/-- The words of one symbol that is the same as `a`. -/
def letter (a : α) : Language α := {w | ∃ b, Same a b ∧ w = [b]}

/-- The words that come of a word when each symbol is replaced by a word of its own language. -/
def spelledOut (f : α → Language α) (word : List α) : Language α := (word.map f).prod

/-- The words that come of words of `host` when each `symbol` is replaced by a word of
`replacement`. -/
def substituted (host : Language α) (symbol : α) (replacement : Language α) : Language α :=
  {w | ∃ u ∈ host, w ∈ spelledOut (fun a => if Same a symbol then replacement else letter a) u}

namespace Expr

open Computability

/-- The words of an expression over the given epsilon; a name that is not known has none. -/
def language (known : String → Language α) (epsilon : α) : Expr α → Language α
  | literal symbol => if Same symbol epsilon then 1 else letter symbol
  | named name => known name
  | concat left right => left.language known epsilon * right.language known epsilon
  | alternate left right => left.language known epsilon + right.language known epsilon
  | star body => (body.language known epsilon)∗
  | expand host symbol replacement =>
    substituted (host.language known epsilon) symbol (replacement.language known epsilon)

end Expr

end Recognizer
