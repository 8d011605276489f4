/-
# Writing symbols

A symbol is written bare in a rendered transition and quoted in a message about that symbol.
Numbers look the same both ways.
-/
import Recognizer.Symbol.Basic
import Recognizer.Text.Quoted

namespace Recognizer

/-- How the symbols of a type are written. -/
class Spelling (α : Type) where
  /-- The symbol as it stands in a rendered transition. -/
  text : α → String
  /-- The symbol as it stands in a message. -/
  quoted : α → String

instance : Spelling Char := ⟨String.singleton, Quoted.char⟩

instance : Spelling UInt32 := ⟨toString, toString⟩

instance : Spelling String := ⟨id, Quoted.text⟩

end Recognizer
