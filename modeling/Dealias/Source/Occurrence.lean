/-!
# Import occurrences

An import shape is a keyword (`require(`, `import`, `import(` or `from`), at most one space, a
quote, a run without quotes, a quote, and the `)` that follows if one does.  The run is the
specifier.  Text is read from left to right; a shape is taken at the first place where one starts,
and the search goes on behind it.

Places are counted in bytes of the encoded text.
-/

namespace Dealias

/-- A range of bytes, from `start` up to and without `stop`. -/
structure Span where
  start : Nat
  stop : Nat
deriving DecidableEq, Repr

/-- A quoted import specifier and where it stands. -/
structure Occurrence where
  span : Span
  specifierSpan : Span
  specifier : String
deriving DecidableEq, Repr

/-- The number of bytes of an encoded text. -/
def byteSize : List Char → Nat
  | [] => 0
  | character :: rest => character.utf8Size + byteSize rest

/-- Either of the two quotes. -/
def isQuote (character : Char) : Bool :=
  character == '\'' || character == '"'

/-! ## Shapes -/

/-- The parts of an import shape at the front of a text. -/
structure Shape where
  /-- Keyword, space and quote. -/
  opening : List Char
  specifier : List Char
  /-- Quote and parenthesis. -/
  closing : List Char

/-- The keyword at the front of a text, and what comes after it. -/
def keyword? : List Char → Option (List Char × List Char)
  | 'r' :: 'e' :: 'q' :: 'u' :: 'i' :: 'r' :: 'e' :: '(' :: rest =>
    some (['r', 'e', 'q', 'u', 'i', 'r', 'e', '('], rest)
  | 'i' :: 'm' :: 'p' :: 'o' :: 'r' :: 't' :: '(' :: rest =>
    some (['i', 'm', 'p', 'o', 'r', 't', '('], rest)
  | 'i' :: 'm' :: 'p' :: 'o' :: 'r' :: 't' :: rest =>
    some (['i', 'm', 'p', 'o', 'r', 't'], rest)
  | 'f' :: 'r' :: 'o' :: 'm' :: rest => some (['f', 'r', 'o', 'm'], rest)
  | _ => none

/-- A space and a quote, or a quote, at the front of a text, and what comes after it. -/
def openingQuote? : List Char → Option (List Char × List Char)
  | ' ' :: quote :: rest => if isQuote quote then some ([' ', quote], rest) else none
  | quote :: rest => if isQuote quote then some ([quote], rest) else none
  | [] => none

/-- A quote, and the parenthesis that may follow it, at the front of a text. -/
def closingQuote? : List Char → Option (List Char)
  | quote :: ')' :: _ => if isQuote quote then some [quote, ')'] else none
  | quote :: _ => if isQuote quote then some [quote] else none
  | [] => none

/-- The import shape at the front of a text, if one starts there. -/
def shape? (text : List Char) : Option Shape := do
  let (keyword, afterKeyword) ← keyword? text
  let (quote, afterQuote) ← openingQuote? afterKeyword
  let specifier := afterQuote.takeWhile fun character => !isQuote character
  let closing ← closingQuote? (afterQuote.dropWhile fun character => !isQuote character)
  return ⟨keyword ++ quote, specifier, closing⟩

namespace Shape

/-- The number of characters of a shape. -/
def length (shape : Shape) : Nat :=
  shape.opening.length + shape.specifier.length + shape.closing.length

/-- The occurrence that a shape is when it starts at `offset`. -/
def occurrence (offset : Nat) (shape : Shape) : Occurrence :=
  let start := offset + byteSize shape.opening
  let stop := start + byteSize shape.specifier
  { span := ⟨offset, stop + byteSize shape.closing⟩
    specifierSpan := ⟨start, stop⟩
    specifier := String.ofList shape.specifier }

end Shape

/-! ## Scanning -/

/-- The occurrences in a text that starts at `offset`, its first `skipped` characters belonging to
a shape that is already taken. -/
def occurrencesFrom (offset skipped : Nat) : List Char → List Occurrence
  | [] => []
  | character :: rest =>
    match skipped with
    | left + 1 => occurrencesFrom (offset + character.utf8Size) left rest
    | 0 =>
      match shape? (character :: rest) with
      | none => occurrencesFrom (offset + character.utf8Size) 0 rest
      | some shape =>
        shape.occurrence offset ::
          occurrencesFrom (offset + character.utf8Size) (shape.length - 1) rest

/-- The import occurrences of a text, in text order. -/
def occurrences (text : String) : List Occurrence :=
  occurrencesFrom 0 0 text.toList

end Dealias
