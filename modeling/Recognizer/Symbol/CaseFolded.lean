/-
# Symbols that ignore case

Texts whose order looks only at their lower-case form, where the letters `A` to `Z` and no others
have one.  Spellings of one word that differ in case are the same symbol (`same_iff`), and each is
written as it was spelled.
-/
import Recognizer.Symbol.Spelling

namespace Recognizer

/-- A text as a symbol for which case makes no difference. -/
structure CaseFolded where
  spelling : String
  deriving DecidableEq

namespace CaseFolded

/-- The form that the order looks at. -/
def folded (s : CaseFolded) : String := s.spelling.toLower

instance : Ord CaseFolded := ⟨compareOn folded⟩

instance : Std.TransOrd CaseFolded := inferInstanceAs (Std.TransCmp (compareOn folded))

theorem same_iff {s t : CaseFolded} : Same s t ↔ s.folded = t.folded :=
  same_iff_eq (a := s.folded) (b := t.folded)

/-- The same symbol, letter by letter. -/
theorem same_iff_map_toLower {s t : CaseFolded} : Same s t ↔
    s.spelling.toList.map Char.toLower = t.spelling.toList.map Char.toLower := by
  rw [same_iff, ← String.toList_inj]
  change (s.spelling.map Char.toLower).toList = (t.spelling.map Char.toLower).toList ↔ _
  rw [String.toList_map, String.toList_map]

instance : Spelling CaseFolded := ⟨spelling, fun s => Quoted.text s.spelling⟩

end CaseFolded

end Recognizer
