import Dealias.Json.Token

/-!
# The grammar of JSON, strict and relaxed

What the format is, apart from any machine that reads it.  A text is a row of symbols with gaps
between them, and the symbols are those of a tree.  How symbols and gaps are written differs:

* strictly, gaps are blanks;
* relaxed, comments are gaps as well, and a container that is not empty may have a comma behind its
  last item or member;
* loosely, block comments within a line may also stand inside of words and numbers, empty containers
  may have the comma, too, and the last block comment need not end.

A tree tells where it has commas behind last items or members; without them it is bare.
-/

namespace Dealias.Json

/-! ## Numbers -/

/-- Digits, at least one. -/
def IsDigits (text : List Char) : Prop :=
  text ≠ [] ∧ ∀ digit ∈ text, digit.isDigit = true

/-- The digits before the point.  Zero does not lead others. -/
inductive IsWhole : List Char → Prop
  | zero : IsWhole ['0']
  | digits {digit : Char} {rest : List Char} : digit.isDigit = true → digit ≠ '0' →
      (∀ later ∈ rest, later.isDigit = true) → IsWhole (digit :: rest)

/-- A point and digits, or nothing. -/
def IsFraction (text : List Char) : Prop :=
  text = [] ∨ ∃ digits, text = '.' :: digits ∧ IsDigits digits

/-- A power of ten, or nothing. -/
def IsExponent (text : List Char) : Prop :=
  text = [] ∨ ∃ mark sign digits, text = mark :: (sign ++ digits) ∧ mark ∈ ['e', 'E'] ∧
    sign ∈ [[], ['+'], ['-']] ∧ IsDigits digits

/-- A number. -/
def IsNumeral (text : List Char) : Prop :=
  ∃ sign whole fraction exponent, text = sign ++ (whole ++ (fraction ++ exponent)) ∧
    sign ∈ [[], ['-']] ∧ IsWhole whole ∧ IsFraction fraction ∧ IsExponent exponent

/-! ## Texts in quotes -/

/-- A digit to the base of sixteen. -/
def IsHexDigit (character : Char) : Prop :=
  character.isDigit = true ∨ ('a' ≤ character ∧ character ≤ 'f') ∨
    ('A' ≤ character ∧ character ≤ 'F')

/-- What stands between quotes. -/
inductive IsBody : List Char → Prop
  | nil : IsBody []
  | plain {character : Char} {rest : List Char} : character ≠ '"' → character ≠ '\\' →
      0x20 ≤ character.toNat → IsBody rest → IsBody (character :: rest)
  | escape {character : Char} {rest : List Char} :
      character ∈ ['"', '\\', '/', 'b', 'f', 'n', 'r', 't'] → IsBody rest →
      IsBody ('\\' :: character :: rest)
  | code {first second third fourth : Char} {rest : List Char} : IsHexDigit first →
      IsHexDigit second → IsHexDigit third → IsHexDigit fourth → IsBody rest →
      IsBody ('\\' :: 'u' :: first :: second :: third :: fourth :: rest)

/-! ## Symbols -/

/-- A number as it is written. -/
structure Number where
  characters : List Char
  isNumeral : IsNumeral characters

/-- A text in quotes as it is written. -/
structure Literal where
  body : List Char
  isBody : IsBody body

/-- A value that holds no others. -/
inductive Scalar where
  | null
  | flag (value : Bool)
  | number (written : Number)
  | text (literal : Literal)

/-- What a text is made of, gaps apart. -/
inductive Symbol where
  | beginObject
  | endObject
  | beginArray
  | endArray
  | comma
  | colon
  | scalar (value : Scalar)

/-- The characters of a value that holds no others. -/
def Scalar.characters : Scalar → List Char
  | null => ['n', 'u', 'l', 'l']
  | flag true => ['t', 'r', 'u', 'e']
  | flag false => ['f', 'a', 'l', 's', 'e']
  | number written => written.characters
  | text literal => '"' :: (literal.body ++ ['"'])

/-- The characters of a symbol. -/
def Symbol.characters : Symbol → List Char
  | beginObject => ['{']
  | endObject => ['}']
  | beginArray => ['[']
  | endArray => [']']
  | comma => [',']
  | colon => [':']
  | scalar value => value.characters

/-! ## Comments -/

/-- A comment from `/*` to the next `*/`. -/
def IsBlockComment (comment : List Char) : Prop :=
  ∃ body, comment = '/' :: '*' :: (body ++ ['*', '/']) ∧ ¬ ['*', '/'] <:+: body

/-- Characters with block comments between them, all in one line. -/
inductive Interrupted : List Char → List Char → Prop
  | last (character : Char) : Interrupted [character] [character]
  | next (character : Char) {comments : List (List Char)} {rest text : List Char} :
      (∀ comment ∈ comments, IsBlockComment comment ∧ '\n' ∉ comment) → Interrupted rest text →
      Interrupted (character :: rest) (character :: (comments.flatten ++ text))

/-! ## Manners of writing -/

/-- How symbols are written. -/
structure Manner where
  /-- What may stand before a symbol, again and again. -/
  gap : List Char → Prop
  spelling : Symbol → List Char → Prop
  /-- What may stand behind all symbols and gaps. -/
  ending : List Char → Prop

/-- Whether a text is a row of symbols, written in a manner. -/
inductive Written (manner : Manner) : List Symbol → List Char → Prop
  | ending {text : List Char} : manner.ending text → Written manner [] text
  | gap {symbols : List Symbol} {front rest : List Char} : manner.gap front →
      Written manner symbols rest → Written manner symbols (front ++ rest)
  | symbol {symbol : Symbol} {symbols : List Symbol} {front rest : List Char} :
      manner.spelling symbol front → Written manner symbols rest →
      Written manner (symbol :: symbols) (front ++ rest)

/-- A gap of one character. -/
theorem Written.cons_gap {manner : Manner} {symbols : List Symbol} {character : Char}
    {rest : List Char} (hgap : manner.gap [character]) (hrest : Written manner symbols rest) :
    Written manner symbols (character :: rest) :=
  .gap hgap hrest

/-- A symbol, told by its first character. -/
theorem Written.cons_symbol {manner : Manner} {symbol : Symbol} {symbols : List Symbol}
    {first : Char} {later rest : List Char} (hspelling : manner.spelling symbol (first :: later))
    (hrest : Written manner symbols rest) :
    Written manner (symbol :: symbols) (first :: (later ++ rest)) :=
  .symbol hspelling hrest

/-- A blank. -/
inductive IsStrictGap : List Char → Prop
  | space {character : Char} : isSpace character = true → IsStrictGap [character]

/-- A blank or a comment. -/
inductive IsRelaxedGap : List Char → Prop
  | space {character : Char} : isSpace character = true → IsRelaxedGap [character]
  | lineComment {body : List Char} : '\n' ∉ body →
      IsRelaxedGap ('/' :: '/' :: (body ++ ['\n']))
  | blockComment {comment : List Char} : IsBlockComment comment → IsRelaxedGap comment

/-- Nothing, or a comment up to the end of the last line. -/
inductive IsRelaxedEnding : List Char → Prop
  | nothing : IsRelaxedEnding []
  | lineComment {body : List Char} : '\n' ∉ body → IsRelaxedEnding ('/' :: '/' :: body)

/-- Nothing, or a comment up to the end. -/
inductive IsLooseEnding : List Char → Prop
  | relaxed {text : List Char} : IsRelaxedEnding text → IsLooseEnding text
  | blockComment {body : List Char} : ¬ ['*', '/'] <:+: body →
      IsLooseEnding ('/' :: '*' :: body)

/-- The characters of a symbol, where comments may interrupt all but texts. -/
def IsLooseSpelling : Symbol → List Char → Prop
  | .scalar (.text literal), text => text = (Scalar.text literal).characters
  | symbol, text => Interrupted symbol.characters text

namespace Manner

/-- As the format is written by itself. -/
def strict : Manner where
  gap := IsStrictGap
  spelling symbol text := text = symbol.characters
  ending text := text = []

/-- With comments. -/
def relaxed : Manner where
  gap := IsRelaxedGap
  spelling symbol text := text = symbol.characters
  ending := IsRelaxedEnding

/-- With comments inside of words and numbers, too, and with an open one at the end. -/
def loose : Manner where
  gap := IsRelaxedGap
  spelling := IsLooseSpelling
  ending := IsLooseEnding

end Manner

/-! ## Trees -/

/-- A value with its spelling.  A container tells whether a comma stands before its end. -/
inductive Tree where
  | scalar (value : Scalar)
  | array (items : List Tree) (hasComma : Bool)
  | object (members : List (Literal × Tree)) (hasComma : Bool)

/-- The comma before the end of a container. -/
def lastComma (hasComma : Bool) : List Symbol :=
  if hasComma then [.comma] else []

mutual

/-- The symbols of a value. -/
def Tree.symbols : Tree → List Symbol
  | .scalar value => [.scalar value]
  | .array items hasComma =>
    .beginArray :: ((itemSymbols items).tail ++ (lastComma hasComma ++ [.endArray]))
  | .object members hasComma =>
    .beginObject :: ((memberSymbols members).tail ++ (lastComma hasComma ++ [.endObject]))

/-- The symbols of items, each behind a comma. -/
def itemSymbols : List Tree → List Symbol
  | [] => []
  | item :: items => .comma :: (item.symbols ++ itemSymbols items)

/-- The symbols of members, each behind a comma. -/
def memberSymbols : List (Literal × Tree) → List Symbol
  | [] => []
  | (key, value) :: members =>
    .comma :: .scalar (.text key) :: .colon :: (value.symbols ++ memberSymbols members)

end

mutual

/-- A value without commas before the ends of containers. -/
def Tree.bare : Tree → Tree
  | .scalar value => .scalar value
  | .array items _ => .array (bareItems items) false
  | .object members _ => .object (bareMembers members) false

/-- Items without commas before the ends of containers. -/
def bareItems : List Tree → List Tree
  | [] => []
  | item :: items => item.bare :: bareItems items

/-- Members without commas before the ends of containers. -/
def bareMembers : List (Literal × Tree) → List (Literal × Tree)
  | [] => []
  | (key, value) :: members => (key, value.bare) :: bareMembers members

end

mutual

/-- Whether no empty container has a comma. -/
def Tree.IsProper : Tree → Prop
  | .scalar _ => True
  | .array items hasComma => (hasComma = true → items ≠ []) ∧ AreProperItems items
  | .object members hasComma => (hasComma = true → members ≠ []) ∧ AreProperMembers members

/-- Whether no empty container among items has a comma. -/
def AreProperItems : List Tree → Prop
  | [] => True
  | item :: items => item.IsProper ∧ AreProperItems items

/-- Whether no empty container among members has a comma. -/
def AreProperMembers : List (Literal × Tree) → Prop
  | [] => True
  | (_, value) :: members => value.IsProper ∧ AreProperMembers members

end

/-! ## Texts -/

/-- Whether a text is strict JSON for a value, without its commas before the ends of containers. -/
def IsJson (tree : Tree) (text : String) : Prop :=
  Written .strict tree.bare.symbols text.toList

/-- Whether a text is relaxed JSON for a value. -/
def IsRelaxedJson (tree : Tree) (text : String) : Prop :=
  tree.IsProper ∧ Written .relaxed tree.symbols text.toList

/-- Whether a text is loose JSON for a value. -/
def IsLooseJson (tree : Tree) (text : String) : Prop :=
  Written .loose tree.symbols text.toList

/-! ## The characters of symbols -/

/-- A tree is written by its symbols one behind the other. -/
theorem written_flatMap (symbols : List Symbol) :
    Written .strict symbols (symbols.flatMap Symbol.characters) := by
  induction symbols with
  | nil => exact .ending rfl
  | cons symbol symbols ih => exact .symbol rfl ih

theorem isJson_of_eq {tree : Tree} {text : String}
    (htext : text.toList = tree.bare.symbols.flatMap Symbol.characters) : IsJson tree text := by
  rw [IsJson, htext]
  exact written_flatMap _

theorem Scalar.text_characters_append (literal : Literal) (rest : List Char) :
    (Scalar.text literal).characters ++ rest = '"' :: (literal.body ++ '"' :: rest) := by
  simp [Scalar.characters]

theorem IsHexDigit.isSome_hexDigit? {character : Char} (hdigit : IsHexDigit character) :
    (hexDigit? character).isSome = true := by
  unfold hexDigit?
  rcases hdigit with hdigit | hdigit | hdigit
  · simp [hdigit]
  · by_cases hdecimal : character.isDigit = true <;> simp [hdecimal, hdigit]
  · by_cases hdecimal : character.isDigit = true
    · simp [hdecimal]
    · by_cases hlower : 'a' ≤ character ∧ character ≤ 'f' <;> simp [hdecimal, hlower, hdigit]

theorem isHexDigit_of_isSome {character : Char} (hsome : (hexDigit? character).isSome = true) :
    IsHexDigit character := by
  unfold hexDigit? at hsome
  split at hsome
  case isTrue hdigit => exact .inl hdigit
  case isFalse =>
    split at hsome
    case isTrue hlower => exact .inr (.inl hlower)
    case isFalse =>
      split at hsome
      case isTrue hupper => exact .inr (.inr hupper)
      case isFalse => cases hsome

end Dealias.Json
