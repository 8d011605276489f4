/-
# Alphabets

The alphabet of a list of labels is ascending and holds one spelling for each symbol: of labels
that are the same symbol, the spelling of the last one is kept.
-/
import Recognizer.Symbol.Basic

namespace Recognizer

namespace Alphabet

variable {α : Type} [Ord α]

/-- Puts a symbol at its place in an ascending list; it takes the place of an earlier spelling
of the same symbol. -/
def place (a : α) : List α → List α
  | [] => [a]
  | b :: bs =>
    match compare a b with
    | .lt => a :: b :: bs
    | .eq => a :: bs
    | .gt => b :: place a bs

/-- The symbols of a list, ascending, each in its last spelling. -/
def ofList (l : List α) : List α := l.foldl (fun symbols a => place a symbols) []

end Alphabet

end Recognizer
