/-
# Quoted text

A character or a text is written between quotes with the control characters, the backslash and the
quote in use escaped: NUL, tab, line feed, carriage return and the backslash by a letter, the quote
by itself, every other control character by its number in hexadecimal.  All else stands as it is.

Which further characters do not show by themselves changes with the character tables, and no table
is kept here.  So characters that extend the one before them (combining accents and the like),
format characters, separators other than the blank, private characters and numbers to which no
character is assigned are not treated: they stand as they are, where a quoting by tables would write
their numbers.
-/

namespace Recognizer

namespace Quoted

/-- The quote around a single character. -/
def charQuote : Char := Char.ofNat 39

/-- The quote around a text. -/
def textQuote : Char := Char.ofNat 34

/-- Control characters: the C0 and C1 ranges with delete between them. -/
def isControl (c : Char) : Bool := c.toNat < 32 || (127 ≤ c.toNat && c.toNat < 160)

/-- The number of a character in lower-case hexadecimal, without leading zeros. -/
def hex (c : Char) : List Char := Nat.toDigits 16 c.toNat

/-- One character as it stands between quotes of the given kind.  Of the characters that do not show
by themselves the control characters are escaped and no others. -/
def escape (quote c : Char) : List Char :=
  if c = Char.ofNat 0 then ['\\', '0']
  else if c = '\t' then ['\\', 't']
  else if c = '\n' then ['\\', 'n']
  else if c = '\r' then ['\\', 'r']
  else if c = '\\' then ['\\', '\\']
  else if c = quote then ['\\', quote]
  else if isControl c then ['\\', 'u', Char.ofNat 123] ++ hex c ++ [Char.ofNat 125]
  else [c]

/-- Characters between quotes of the given kind. -/
def enclose (quote : Char) (cs : List Char) : String :=
  String.ofList (quote :: cs.flatMap (escape quote) ++ [quote])

/-- A quoted character. -/
def char (c : Char) : String := enclose charQuote [c]

/-- A quoted text. -/
def text (s : String) : String := enclose textQuote s.toList

end Quoted

end Recognizer
