import Dealias.Number.Numeral
import Dealias.Text.Blank
import Dealias.Text.Bytes

/-!
# Values of environment variables

The text of a variable is read as a value: a truth value, a dictionary in braces, a list in
brackets, a quoted text, a single quoted character, a number, or else the plain text without the
white space around it.  A text that is no such value as a whole stands for itself, white space
included.
-/

namespace Dealias

/-- What the text of a variable stands for.  The parts of lists and dictionaries are not kept,
since no setting takes one. -/
inductive SettingValue where
  | text (value : String)
  | flag (value : Bool)
  | integer (value : Int)
  | decimal
  | list
  | dictionary
deriving DecidableEq, Repr

namespace SettingValue

/-! ## Plain values -/

/-- The characters that end a plain value. -/
def isSeparator (character : Char) : Bool :=
  [',', '\x7b', '\x7d', '[', ']'].contains character

/-- The value of a plain text: a decimal if it has a point, an integer, or a text. -/
def ofPlain (text : List Char) : SettingValue :=
  if text.contains '.' ∧ isDecimal text then decimal
  else
    match natural? text with
    | some number => integer number
    | none =>
      match integer? text with
      | some number => integer number
      | none => .text (String.ofList text)

/-! ## Quoted texts -/

/-- The character with a hexadecimal code point. -/
def characterOfHex? (digits : List Char) : Option Char := do
  let code ← digits.foldlM
    (fun (code : Nat) digit => (hexDigit? digit).map fun value => code * 16 + value) 0
  if code.isValidChar then some (Char.ofNat code) else none

/-- The character that a short escape stands for. -/
def escaped? : Char → Option Char
  | '"' => some '"'
  | '\\' => some '\\'
  | 'b' => some '\x08'
  | 'f' => some '\x0c'
  | 'n' => some '\n'
  | 'r' => some '\r'
  | 't' => some '\t'
  | _ => none

/-- Whether a character may stand in a quoted text as it is: all but the control characters of
ASCII, of which only the tab may. -/
def isPrintable (character : Char) : Bool :=
  character == '\t' || (0x20 ≤ character.toNat && character.toNat ≠ 0x7F)

/-- The text between quotes and what comes behind the closing quote.  A quote with a backslash in
front does not close. -/
def betweenQuotes? : List Char → Option (List Char × List Char)
  | [] => none
  | '"' :: rest => some ([], rest)
  | '\\' :: character :: rest =>
    (betweenQuotes? rest).map fun read => ('\\' :: character :: read.1, read.2)
  | character :: rest => (betweenQuotes? rest).map fun read => (character :: read.1, read.2)

/-- Where reading stands in a quoted text. -/
inductive QuotedMode where
  | plain
  | escape
  /-- In a hexadecimal escape, with the digits so far and the number of digits that are missing. -/
  | digits (read : List Char) (missing : Nat)

/-- A quoted text with its escapes replaced by what they stand for. -/
def resolveEscapes? : QuotedMode → List Char → Option (List Char)
  | .plain, [] => some []
  | _, [] => none
  | .plain, character :: rest =>
    if character = '\\' then resolveEscapes? .escape rest
    else if isPrintable character then (resolveEscapes? .plain rest).map (character :: ·)
    else none
  | .escape, character :: rest =>
    if character = 'u' then resolveEscapes? (.digits [] 4) rest
    else if character = 'U' then resolveEscapes? (.digits [] 8) rest
    else
      match escaped? character with
      | none => none
      | some meant => (resolveEscapes? .plain rest).map (meant :: ·)
  | .digits read missing, character :: rest =>
    if 1 < missing then resolveEscapes? (.digits (read ++ [character]) (missing - 1)) rest
    else
      match characterOfHex? (read ++ [character]) with
      | none => none
      | some meant => (resolveEscapes? .plain rest).map (meant :: ·)

/-- What a quoted text means.  If it has escapes, what stands before the first one is cut to as many
bytes as it has characters; only ASCII text comes through that whole. -/
def meaning? (quoted : List Char) : Option (List Char) :=
  let plain := quoted.takeWhile fun character => character != '\\'
  let escapes := quoted.drop plain.length
  if plain.all isPrintable then
    if escapes.isEmpty then some plain
    else (resolveEscapes? .plain escapes).map (takeBytes plain.length plain ++ ·)
  else none

/-- The meaning of a text after its opening quote, and what comes behind the closing one. -/
def quoted? (text : List Char) : Option (List Char × List Char) := do
  let (quoted, rest) ← betweenQuotes? text
  return (← meaning? quoted, rest)

/-! ## Values -/

/-- The text without the white space at its front. -/
def skipBlanks (text : List Char) : List Char :=
  text.dropWhile isAsciiBlank

/-- Whether a character may stand in an unquoted key. -/
def isKeyCharacter (character : Char) : Bool :=
  character.isAlphanum || character == '_' || character == '-'

/-- What comes behind a key. -/
def afterKey? (text : List Char) : Option (List Char) :=
  match text with
  | '"' :: rest => (quoted? rest).map Prod.snd
  | _ =>
    if (text.takeWhile isKeyCharacter).isEmpty then none
    else some (text.dropWhile isKeyCharacter)

/-- What comes behind a key, its equals sign and the white space around them. -/
def afterAssignment? (text : List Char) : Option (List Char) := do
  let rest ← afterKey? (skipBlanks text)
  match skipBlanks rest with
  | '=' :: value => some (skipBlanks value)
  | _ => none

mutual

/-- The value at the front of a text, and what comes behind it and behind white space.  Each
nested list or dictionary uses up some fuel. -/
def value? : (fuel : Nat) → List Char → Option (SettingValue × List Char)
  | 0, _ => none
  | fuel + 1, input => do
    let (value, rest) ← match skipBlanks input with
      | 't' :: 'r' :: 'u' :: 'e' :: rest => some (flag true, rest)
      | 'f' :: 'a' :: 'l' :: 's' :: 'e' :: rest => some (flag false, rest)
      | '\x7b' :: rest => (afterItems? fuel true rest).map fun rest => (dictionary, rest)
      | '[' :: rest => (afterItems? fuel false rest).map fun rest => (list, rest)
      | '"' :: rest =>
        (quoted? rest).map fun read => (.text (String.ofList read.1), read.2)
      | '\'' :: rest =>
        match rest with
        | character :: '\'' :: rest => some (.text (String.ofList [character]), rest)
        | _ => none
      | plain =>
        let characters := plain.takeWhile fun character => !isSeparator character
        some (ofPlain (trimBlanks characters), plain.drop characters.length)
    return (value, skipBlanks rest)

/-- What comes behind the items of a list or dictionary.  One comma may stand behind the last
item. -/
def afterItems? : (fuel : Nat) → (isDictionary : Bool) → List Char → Option (List Char)
  | 0, _, _ => none
  | fuel + 1, isDictionary, input => do
    let closing := if isDictionary then '\x7d' else ']'
    if input.head? = some closing then input.tail
    else
      let start ← if isDictionary then afterAssignment? input else some input
      let (_, rest) ← value? fuel start
      match rest with
      | ',' :: rest => afterItems? fuel isDictionary rest
      | _ => if rest.head? = some closing then rest.tail else none

end

/-- The value of a variable's text.  Every step of reading uses up a character, so the fuel is
enough. -/
def ofText (text : String) : SettingValue :=
  match value? (2 * text.toList.length + 2) text.toList with
  | some (value, []) => value
  | _ => .text text

end SettingValue
end Dealias
