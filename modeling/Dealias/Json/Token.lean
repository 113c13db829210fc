import Dealias.Number.Numeral
import Dealias.Number.Rounding

/-!
# JSON tokens

A text is cut into tokens by a machine that reads one character at a time.  Reading never fails:
what is no token becomes a broken one, at which the machine halts.

A token can be read strictly or be skipped.  Skipping asks less: a surrogate escape without its
partner, or a number of any size, is skipped without complaint.  Where the two differ a token
carries both faults.  Lines are counted from one.
-/

namespace Dealias.Json

/-! ## Faults -/

/-- What is wrong with a text. -/
inductive FaultKind where
  /-- It is not JSON. -/
  | malformed
  /-- It is JSON of another shape than the one asked for. -/
  | mismatched
  /-- It ends early. -/
  | truncated
deriving DecidableEq, Repr

/-- Where reading stops, and why. -/
structure Fault where
  kind : FaultKind
  line : Nat
deriving DecidableEq, Repr

/-- The faults of one place, for a strict reader and for one that skips. -/
structure Faults where
  strict : Fault
  lenient : Fault
deriving DecidableEq, Repr

/-- One fault for every reader. -/
def Fault.toAll (fault : Fault) : Faults where
  strict := fault
  lenient := fault

/-! ## Numerals -/

/-- A number as it is written. -/
structure Numeral where
  characters : List Char
deriving DecidableEq, Repr

/-- A significand with a power of ten, while digits are read.  Digits that no longer fit 64 bits
are left out. -/
structure Scaled where
  significand : Nat
  exponent : Int
  isFull : Bool

namespace Scaled

/-- Whether one more digit fits. -/
def fits (number : Scaled) (digit : Char) : Bool :=
  !number.isFull && 10 * number.significand + numberOfDigits [digit] ≤ maxNatural

/-- Read a digit before the point. -/
def pushWhole (number : Scaled) (digit : Char) : Scaled :=
  if number.fits digit then
    { number with significand := 10 * number.significand + numberOfDigits [digit] }
  else { number with exponent := number.exponent + 1, isFull := true }

/-- Read a digit behind the point. -/
def pushFraction (number : Scaled) (digit : Char) : Scaled :=
  if number.fits digit then
    { number with
      significand := 10 * number.significand + numberOfDigits [digit]
      exponent := number.exponent - 1 }
  else { number with isFull := true }

/-- Whether a number is too large for a binary number with 53 significant bits and an exponent
below 1024. -/
def isTooLarge (number : Scaled) : Bool :=
  if number.significand = 0 ∨ number.exponent < 0 then false
  else if 308 < number.exponent then true
  else
    let power := roundToDouble (mkRat (Nat.pow 10 number.exponent.toNat) 1)
    mkRat (Nat.pow 2 1024) 1 ≤
      roundToDouble (roundToDouble (mkRat number.significand 1) * power)

end Scaled

namespace Numeral

/-- The characters behind a minus sign. -/
def unsigned (numeral : Numeral) : List Char :=
  match numeral.characters with
  | '-' :: rest => rest
  | all => all

/-- The digits behind the point, if there is a point. -/
def fraction (numeral : Numeral) : List Char :=
  match numeral.unsigned.dropWhile Char.isDigit with
  | '.' :: rest => rest.takeWhile Char.isDigit
  | _ => []

/-- The power of ten that is written out. -/
def writtenExponent (numeral : Numeral) : Int :=
  match numeral.unsigned.dropWhile fun character => character != 'e' && character != 'E' with
  | _ :: '-' :: digits => -(numberOfDigits digits : Int)
  | _ :: '+' :: digits => numberOfDigits digits
  | _ :: digits => numberOfDigits digits
  | [] => 0

/-- The number as a significand with a power of ten. -/
def scaled (numeral : Numeral) : Scaled :=
  let whole := (numeral.unsigned.takeWhile Char.isDigit).foldl Scaled.pushWhole ⟨0, 0, false⟩
  let number := numeral.fraction.foldl Scaled.pushFraction { whole with isFull := false }
  { number with exponent := number.exponent + numeral.writtenExponent }

/-- Whether no reader takes the number. -/
def isTooLarge (numeral : Numeral) : Bool :=
  numeral.scaled.isTooLarge

/-- The number, if it is a natural one of 64 bits, written without sign, point and exponent. -/
def natural? (numeral : Numeral) : Option Nat :=
  (digits? numeral.characters).filter (· ≤ maxNatural)

end Numeral

/-! ## Tokens -/

/-- What a token is. -/
inductive Lexeme where
  | beginObject
  | endObject
  | beginArray
  | endArray
  | comma
  | colon
  | null
  | flag (value : Bool)
  | number (numeral : Numeral)
  /-- A text, as far as a strict reader takes it. -/
  | text (reading : Except Fault String)
  /-- A text that has no end. -/
  | brokenText (faults : Faults)
  | broken (faults : Faults)

/-- A token and the line it starts in. -/
structure Token where
  line : Nat
  lexeme : Lexeme

/-! ## Modes of reading -/

/-- What was read last of a number. -/
inductive NumberStage where
  | sign
  | zero
  | whole
  | point
  | fraction
  | mark
  | markSign
  | exponent
deriving DecidableEq, Repr

/-- Where reading stands in an escape. -/
inductive EscapeStage where
  | outside
  | started
  /-- Bytes read so far of the four that make a number, and the number unless a byte is no digit. -/
  | digits (bytes : Nat) (number : Option Nat)

/-- A text under way. -/
structure TextState where
  /-- The line that the text starts in. -/
  start : Nat
  /-- What a strict reader has so far, the latest character first. -/
  reading : Except Fault (List Char)
  /-- A leading surrogate that waits for its partner. -/
  surrogate : Option Nat
  escape : EscapeStage

/-- Where the machine stands. -/
inductive Mode where
  | between
  /-- In a word, with the characters that have to come. -/
  | word (lexeme : Lexeme) (missing : List Char)
  /-- In a number, with its characters, the latest first. -/
  | number (characters : List Char) (stage : NumberStage)
  | text (state : TextState)
  | halted

/-- The line behind a character. -/
def lineAfter (line : Nat) (character : Char) : Nat :=
  if character = '\n' then line + 1 else line

/-- The blanks of the format. -/
def isSpace (character : Char) : Bool :=
  character == ' ' || character == '\n' || character == '\t' || character == '\r'

/-! ## Reading texts -/

namespace TextState

/-- The state behind the opening quote. -/
def opened (line : Nat) : TextState where
  start := line
  reading := .ok []
  surrogate := none
  escape := .outside

/-- A strict reader stops here, unless it already has stopped. -/
def refuse (state : TextState) (line : Nat) : TextState :=
  { state with
    reading := state.reading.bind fun _ => .error ⟨.malformed, line⟩
    surrogate := none }

/-- One more character. -/
def push (state : TextState) (character : Char) : TextState :=
  { state with reading := state.reading.map (character :: ·) }

/-- A leading surrogate without its partner stops a strict reader. -/
def settleSurrogate (state : TextState) (line : Nat) : TextState :=
  if state.surrogate.isSome then state.refuse line else state

/-- The fault of a strict reader, given the one that ends the text for everyone. -/
def strictFault (state : TextState) (fault : Fault) : Fault :=
  match state.reading with
  | .ok _ => fault
  | .error earlier => earlier

/-- The token of a text that breaks off. -/
def breakOff (state : TextState) (strict lenient : Fault) : Token where
  line := state.start
  lexeme := .brokenText ⟨state.strictFault strict, lenient⟩

/-- The token of a text that is complete. -/
def close (state : TextState) : Token where
  line := state.start
  lexeme := .text (state.reading.map fun characters => String.ofList characters.reverse)

/-- The code point of a pair of surrogates. -/
def pairCode (leading trailing : Nat) : Nat :=
  0x10000 + (leading - 0xD800) * 0x400 + (trailing - 0xDC00)

/-- The number of an escape is complete. -/
def pushCode (state : TextState) (line code : Nat) : TextState :=
  let state := { state with escape := .outside }
  match state.surrogate with
  | some leading =>
    if 0xDC00 ≤ code ∧ code ≤ 0xDFFF then
      { state with surrogate := none }.push (Char.ofNat (pairCode leading code))
    else state.refuse line
  | none =>
    if 0xDC00 ≤ code ∧ code ≤ 0xDFFF then state.refuse line
    else if 0xD800 ≤ code ∧ code ≤ 0xDBFF then { state with surrogate := some code }
    else state.push (Char.ofNat code)

end TextState

/-- The character that a short escape stands for. -/
def shortEscape? : Char → Option Char
  | '"' => some '"'
  | '\\' => some '\\'
  | '/' => some '/'
  | 'b' => some '\x08'
  | 'f' => some '\x0c'
  | 'n' => some '\n'
  | 'r' => some '\r'
  | 't' => some '\t'
  | _ => none

/-- Read a character of a text outside of escapes. -/
def stepPlain (state : TextState) (line : Nat) (character : Char) : List Token × Mode :=
  if character = '"' then
    ([(state.settleSurrogate line).close], .between)
  else if character = '\\' then ([], .text { state with escape := .started })
  else if character.toNat < 0x20 then
    ([state.breakOff ⟨.malformed, lineAfter line character⟩ ⟨.malformed, line⟩], .halted)
  else ([], .text ((state.settleSurrogate line).push character))

/-- Read the character that says which escape it is. -/
def stepEscape (state : TextState) (line : Nat) (character : Char) : List Token × Mode :=
  if character = 'u' then ([], .text { state with escape := .digits 0 (some 0) })
  else
    let fault : Fault := ⟨.malformed, lineAfter line character⟩
    match shortEscape? character with
    | none => ([state.breakOff fault fault], .halted)
    | some escaped =>
      ([], .text ({ state.settleSurrogate line with escape := .outside }.push escaped))

/-- Read a character of an escape's number. -/
def stepDigits (state : TextState) (line bytes : Nat) (number : Option Nat) (character : Char) :
    List Token × Mode :=
  let bytes := bytes + character.utf8Size
  let number := number.bind fun high => (hexDigit? character).map fun low => high * 16 + low
  if bytes < 4 then ([], .text { state with escape := .digits bytes number })
  else
    match number with
    | some code => ([], .text (state.pushCode line code))
    | none =>
      let fault : Fault := ⟨.malformed, lineAfter line character⟩
      ([state.breakOff fault fault], .halted)

/-- Read a character of a text. -/
def stepText (state : TextState) (line : Nat) (character : Char) : List Token × Mode :=
  match state.escape with
  | .outside => stepPlain state line character
  | .started => stepEscape state line character
  | .digits bytes number => stepDigits state line bytes number character

/-! ## Reading everything else -/

/-- A token that is broken for every reader. -/
def brokenToken (line : Nat) (fault : Fault) : Token where
  line := line
  lexeme := .broken fault.toAll

/-- Read a character between tokens. -/
def stepBetween (line : Nat) (character : Char) : List Token × Mode :=
  if isSpace character then ([], .between)
  else
    match character with
    | '{' => ([⟨line, .beginObject⟩], .between)
    | '}' => ([⟨line, .endObject⟩], .between)
    | '[' => ([⟨line, .beginArray⟩], .between)
    | ']' => ([⟨line, .endArray⟩], .between)
    | ',' => ([⟨line, .comma⟩], .between)
    | ':' => ([⟨line, .colon⟩], .between)
    | 'n' => ([], .word .null ['u', 'l', 'l'])
    | 't' => ([], .word (.flag true) ['r', 'u', 'e'])
    | 'f' => ([], .word (.flag false) ['a', 'l', 's', 'e'])
    | '"' => ([], .text (TextState.opened line))
    | '-' => ([], .number ['-'] .sign)
    | '0' => ([], .number ['0'] .zero)
    | _ =>
      if character.isDigit then ([], .number [character] .whole)
      else ([brokenToken line ⟨.malformed, line⟩], .halted)

/-- Read a character of a word. -/
def stepWord (line : Nat) (lexeme : Lexeme) (missing : List Char) (character : Char) :
    List Token × Mode :=
  match missing with
  | [] => ([⟨line, lexeme⟩], .between)
  | expected :: rest =>
    if character = expected then
      match rest with
      | [] => ([⟨line, lexeme⟩], .between)
      | _ => ([], .word lexeme rest)
    else ([brokenToken line ⟨.malformed, lineAfter line character⟩], .halted)

/-- Whether a number can end here. -/
def NumberStage.isFinal : NumberStage → Bool
  | zero | whole | fraction | exponent => true
  | sign | point | mark | markSign => false

/-- What a character is in a number, if it goes on with it. -/
def NumberStage.next? (stage : NumberStage) (character : Char) : Option NumberStage :=
  let isMark := character == 'e' || character == 'E'
  let isSign := character == '+' || character == '-'
  match stage with
  | sign =>
    if character = '0' then some zero else if character.isDigit then some whole else none
  | zero => if character = '.' then some point else if isMark then some mark else none
  | whole =>
    if character.isDigit then some whole
    else if character = '.' then some point
    else if isMark then some mark
    else none
  | point => if character.isDigit then some fraction else none
  | fraction =>
    if character.isDigit then some fraction else if isMark then some mark else none
  | mark =>
    if character.isDigit then some exponent else if isSign then some markSign else none
  | markSign | exponent => if character.isDigit then some exponent else none

/-- The token of a complete number. -/
def numberToken (line : Nat) (characters : List Char) : Token where
  line := line
  lexeme := .number ⟨characters.reverse⟩

/-- Read a character of a number, or right behind it.  No digit may follow a leading zero. -/
def stepNumber (line : Nat) (characters : List Char) (stage : NumberStage) (character : Char) :
    List Token × Mode :=
  match stage.next? character with
  | some stage => ([], .number (character :: characters) stage)
  | none =>
    if stage.isFinal && !character.isDigit then
      let (tokens, mode) := stepBetween line character
      (numberToken line characters :: tokens, mode)
    else ([brokenToken line ⟨.malformed, lineAfter line character⟩], .halted)

/-! ## The machine -/

/-- Read one character. -/
def Mode.step (line : Nat) (character : Char) : Mode → List Token × Mode
  | between => stepBetween line character
  | word lexeme missing => stepWord line lexeme missing character
  | number characters stage => stepNumber line characters stage character
  | text state => stepText state line character
  | halted => ([], halted)

/-- The token that the end of the text completes or breaks. -/
def Mode.finish (line : Nat) : Mode → List Token
  | between => []
  | word _ _ => [brokenToken line ⟨.truncated, line⟩]
  | number characters stage =>
    if stage.isFinal then [numberToken line characters]
    else [⟨line, .broken ⟨⟨.truncated, line⟩, ⟨.malformed, line⟩⟩⟩]
  | text state => [state.breakOff ⟨.truncated, line⟩ ⟨.truncated, line⟩]
  | halted => []

/-- The tokens of a text, and its last line. -/
structure TokenList where
  tokens : List Token
  lastLine : Nat

/-- Read characters from a line on. -/
def tokensFrom (line : Nat) (mode : Mode) : List Char → TokenList
  | [] => ⟨mode.finish line, line⟩
  | character :: rest =>
    let (tokens, mode) := mode.step line character
    let later := tokensFrom (lineAfter line character) mode rest
    ⟨tokens ++ later.tokens, later.lastLine⟩

/-- The tokens of a text. -/
def tokensOf (text : String) : TokenList :=
  tokensFrom 1 .between text.toList

end Dealias.Json
