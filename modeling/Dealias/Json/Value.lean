/-!
# Writing JSON

Values and their compact text: no blanks, members in the given order, and in texts only quotes,
backslashes and control characters escaped.
-/

namespace Dealias.Json

/-- A value to write. -/
inductive Value where
  | null
  | flag (value : Bool)
  | natural (value : Nat)
  | text (value : String)
  | list (items : List Value)
  | record (members : List (String × Value))

/-- A hexadecimal digit in lower case. -/
def hexDigit (digit : Nat) : Char :=
  if digit < 10 then Char.ofNat ('0'.toNat + digit) else Char.ofNat ('a'.toNat + (digit - 10))

/-- A character within a text. -/
def escape (character : Char) : List Char :=
  if character = '"' then ['\\', '"']
  else if character = '\\' then ['\\', '\\']
  else if character = '\n' then ['\\', 'n']
  else if character = '\r' then ['\\', 'r']
  else if character = '\t' then ['\\', 't']
  else if character = '\x08' then ['\\', 'b']
  else if character = '\x0c' then ['\\', 'f']
  else if character.toNat < 0x20 then
    ['\\', 'u', '0', '0', hexDigit (character.toNat / 16), hexDigit (character.toNat % 16)]
  else [character]

/-- A text in quotes. -/
def quoted (text : String) : List Char :=
  '"' :: (text.toList.flatMap escape ++ ['"'])

mutual

/-- The characters of a value. -/
def Value.characters : Value → List Char
  | .null => ['n', 'u', 'l', 'l']
  | .flag true => ['t', 'r', 'u', 'e']
  | .flag false => ['f', 'a', 'l', 's', 'e']
  | .natural value => Nat.toDigits 10 value
  | .text value => quoted value
  | .list items => '[' :: (itemCharacters items ++ [']'])
  | .record members => '{' :: (memberCharacters members ++ ['}'])

/-- The characters of items, with commas between them. -/
def itemCharacters : List Value → List Char
  | [] => []
  | [item] => item.characters
  | item :: items => item.characters ++ ',' :: itemCharacters items

/-- The characters of members, with commas between them. -/
def memberCharacters : List (String × Value) → List Char
  | [] => []
  | [(key, value)] => quoted key ++ ':' :: value.characters
  | (key, value) :: members =>
    quoted key ++ ':' :: (value.characters ++ ',' :: memberCharacters members)

end

/-- The compact text of a value. -/
def Value.compact (value : Value) : String :=
  String.ofList value.characters

end Dealias.Json
