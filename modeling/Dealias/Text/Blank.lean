/-!
# White space

The characters with the `White_Space` property of the Unicode standard, the smaller class that
settings values use around themselves, and trimming.
-/

namespace Dealias

/-- The ranges of `White_Space`, first and last code point of each. -/
def blankRanges : List (Nat × Nat) :=
  [(0x09, 0x0D), (0x20, 0x20), (0x85, 0x85), (0xA0, 0xA0), (0x1680, 0x1680), (0x2000, 0x200A),
    (0x2028, 0x2029), (0x202F, 0x202F), (0x205F, 0x205F), (0x3000, 0x3000)]

/-- Whether a character has the `White_Space` property. -/
def isBlank (character : Char) : Bool :=
  blankRanges.any fun range => range.1 ≤ character.toNat && character.toNat ≤ range.2

/-- Space, tab, line feed, form feed and carriage return. -/
def isAsciiBlank (character : Char) : Bool :=
  [0x20, 0x09, 0x0A, 0x0C, 0x0D].contains character.toNat

/-- Remove white space from both ends. -/
def trimBlanks (text : List Char) : List Char :=
  ((text.dropWhile isBlank).reverse.dropWhile isBlank).reverse

end Dealias
