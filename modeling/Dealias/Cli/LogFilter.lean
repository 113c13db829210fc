import Dealias.Settings.Layers
import Dealias.Text.Alphanumeric

/-!
# Log filters

Which events are shown is said by directives: a level for everything, or a level for the events of
one target, within one span or with one field.  The more specific directives are written first,
those that look into spans behind the others.
-/

namespace Dealias.Cli

/-! ## Directives -/

/-- The value that a directive asks for. -/
inductive FieldValue where
  | flag (value : Bool)
  | natural (value : Nat)
  | integer (value : Int)
  | words (text : String)
deriving DecidableEq, Ord, Repr

/-- A field that a directive asks for, whatever its value or with one value. -/
structure FieldCondition where
  name : String
  value : Option FieldValue
deriving DecidableEq, Repr

/-- A level for everything, or for what has the target, the span and the field. -/
structure Directive where
  target : Option String
  span : Option String
  field : Option FieldCondition
  level : String
deriving DecidableEq, Repr

/-- A level for one target. -/
def Directive.ofTarget (target level : String) : Directive where
  target := some target
  span := none
  field := none
  level := level

/-- A level for everything. -/
def Directive.ofLevel (level : String) : Directive where
  target := none
  span := none
  field := none
  level := level

/-! ## Reading -/

/-- The names of the levels, the lowest first. -/
def levelNames : List String := ["off", "error", "warn", "info", "debug", "trace"]

/-- The level that a word or a number names. -/
def levelName? (text : String) : Option String :=
  match (natural? text.toList).bind fun number => levelNames[number]? with
  | some level => some level
  | none => levelNames.find? fun level => level == text.toLower

/-- The level behind the equals sign of a directive; nothing asks for everything. -/
def levelAfterEquals? (text : List Char) : Option String :=
  if text.isEmpty then some "trace" else levelName? (String.ofList text)

/-- The value that a text stands for. -/
def FieldValue.ofText (text : List Char) : FieldValue :=
  if text = "true".toList then flag true
  else if text = "false".toList then flag false
  else
    match natural? text with
    | some number => natural number
    | none =>
      match integer? text with
      | some number => integer number
      | none => words (String.ofList text)

/-- Read a field and possibly its value; what stands behind a second equals sign does not count. -/
def FieldCondition.ofText (text : List Char) : FieldCondition where
  name := String.ofList (text.takeWhile fun character => character != '=')
  value :=
    match text.dropWhile fun character => character != '=' with
    | [] => none
    | _ :: value => some (.ofText (value.takeWhile fun character => character != '='))

/-- Whether a target can begin with a character. -/
def startsTarget (character : Char) : Bool :=
  ['-', ':', '_'].contains character || isAlphanumeric character

/-- The number of bytes of a text. -/
def byteCount (text : List Char) : Nat := (String.ofList text).utf8ByteSize

/-- The part of a text between two byte positions. -/
def bytesBetween (text : List Char) (start stop : Nat) : List Char :=
  takeBytes (stop - start) (dropBytes start text)

/-- The level of a directive whose span ended right before a position. -/
def levelAfterSpan? (whole : List Char) (position : Nat) : List Char → Option String
  | [] => some "trace"
  | '=' :: _ => levelAfterEquals? (dropBytes (position + 1) whole)
  | _ => none

/-- Read a directive from its span on.  The span starts at a position, behind its bracket, and
`rest` is what is left to read there. -/
def Directive.withSpan? (whole : List Char) (target : Option String) (start : Nat)
    (rest : List Char) : Option Directive :=
  let isInside (character : Char) : Bool := character != ']' && character != '\x7b'
  let stop := start + byteCount (rest.takeWhile isInside)
  let span := String.ofList (bytesBetween whole start stop)
  match rest.dropWhile isInside with
  | ']' :: rest =>
    (levelAfterSpan? whole (stop + 1) rest).map fun level => ⟨target, some span, none, level⟩
  | '\x7b' :: rest =>
    let fieldStop := stop + 1 + byteCount (rest.takeWhile fun character => character != '\x7d')
    let field := bytesBetween whole (stop + 1) fieldStop
    match rest.dropWhile fun character => character != '\x7d' with
    | '\x7d' :: ']' :: rest =>
      if field.isEmpty then none
      else
        (levelAfterSpan? whole (fieldStop + 2) rest).map fun level =>
          ⟨target, if span.isEmpty then none else some span, some (.ofText field), level⟩
    | _ => none
  | _ => none

/-- Read a directive.  Its parts are found in the text without the white space around it, but are
cut at the positions found there out of the text with it.  A target alone asks for everything. -/
def Directive.ofText? (text : String) : Option Directive :=
  let whole := text.toList
  let isInside (character : Char) : Bool := character != '=' && character != '['
  match trimBlanks whole with
  | [] => none
  | '[' :: rest => withSpan? whole none 1 rest
  | first :: rest =>
    if startsTarget first then
      let stop := byteCount (first :: rest.takeWhile isInside)
      let target := String.ofList (takeBytes stop whole)
      match rest.dropWhile isInside with
      | [] => some (((levelName? text).map ofLevel).getD (ofTarget text "trace"))
      | '=' :: _ => (levelAfterEquals? (dropBytes (stop + 1) whole)).map (ofTarget target)
      | _ :: rest => withSpan? whole (some target) (stop + 1) rest
    else none

/-! ## Writing -/

/-- A value as a text. -/
def FieldValue.text : FieldValue → String
  | flag value => if value then "true" else "false"
  | natural value => toString value
  | integer value => toString value
  | words text => text

/-- A field and its value as a text. -/
def FieldCondition.text (field : FieldCondition) : String :=
  match field.value with
  | none => field.name
  | some value => field.name ++ "=" ++ value.text

/-- What a directive is about, as a text. -/
def Directive.subject (directive : Directive) : String :=
  let fields := match directive.field with
    | none => ""
    | some field => "\x7b" ++ field.text ++ "\x7d"
  directive.target.getD "" ++
    if directive.span.isNone && directive.field.isNone then ""
    else "[" ++ directive.span.getD "" ++ fields ++ "]"

/-- A directive as a text. -/
def Directive.text (directive : Directive) : String :=
  if directive.target.isNone && directive.span.isNone && directive.field.isNone then
    directive.level
  else directive.subject ++ "=" ++ directive.level

/-! ## Order -/

/-- Compare fields: one with a value is greater, then the name and the value decide. -/
def FieldCondition.order (first second : FieldCondition) : Ordering :=
  (compare first.value.isSome second.value.isSome).then
    ((compare first.name second.name).then (compare first.value second.value))

instance : Ord FieldCondition := ⟨FieldCondition.order⟩

/-- Compare directives by how specific they are: by the length of the target, then by having a span
and a field, and last by what they say about them.  The level does not matter. -/
def Directive.order (first second : Directive) : Ordering :=
  let size (directive : Directive) : Option Nat := directive.target.map String.utf8ByteSize
  (compare (size first) (size second)).then
    ((compare first.span.isSome second.span.isSome).then
      ((compare first.field.isSome second.field.isSome).then
        ((compare first.target second.target).then
          ((compare first.span second.span).then (compare first.field second.field)))))

/-- The more specific directives come first. -/
def Directive.precedes (first second : Directive) : Bool :=
  (first.order second).isGE

/-- Add a directive, over one about the same. -/
def addDirective (directives : List Directive) (directive : Directive) : List Directive :=
  directive :: directives.filter fun other => directive.order other != .eq

/-- Put directives in order; of several about the same the last one stays. -/
def arrange (directives : List Directive) : List Directive :=
  (directives.foldl addDirective []).mergeSort Directive.precedes

/-! ## Filters -/

/-- The directives that an event alone can meet, and those that look into spans. -/
structure LogFilter where
  plain : List Directive
  spanning : List Directive

/-- Whether a directive looks into spans. -/
def Directive.isSpanning (directive : Directive) : Bool :=
  directive.span.isSome || directive.field.isSome

/-- Whether an event alone can meet a directive: it asks for no span, and for no value. -/
def Directive.isPlain (directive : Directive) : Bool :=
  directive.span.isNone && directive.field.all fun field => field.value.isNone

/-- The filter of some directives; without any, only errors are shown. -/
def LogFilter.ofDirectives (directives : List Directive) : LogFilter where
  plain := if directives.isEmpty then [.ofLevel "error"] else arrange (directives.filter (·.isPlain))
  spanning := arrange (directives.filter (·.isSpanning))

/-- A filter as a text. -/
def LogFilter.text (filter : LogFilter) : String :=
  String.intercalate "," ((filter.plain ++ filter.spanning).map Directive.text)

/-- Read the directives between commas. -/
def LogFilter.ofText? (text : String) : Option LogFilter :=
  (((text.splitOn ",").filter fun part => part != "").mapM Directive.ofText?).map ofDirectives

/-- The parts of the program that tell about themselves. -/
def ownTargets : List String := ["tsalias", "tsalias_cli", "tsalias_core", "tsalias_config"]

/-- One level for all parts of the program. -/
def LogFilter.own (level : String) : LogFilter :=
  .ofDirectives (ownTargets.map fun target => .ofTarget target level)

/-- The filter in force: what the switches say, else what `RUST_LOG` says if it can be read, else
information from the program itself. -/
def logFilter (verbose quiet : Bool) (environment : Environment) : LogFilter :=
  if verbose then .own "debug"
  else if quiet then .ofDirectives [.ofLevel "error"]
  else
    match environment.entries.lookup "RUST_LOG" with
    | none => .own "info"
    | some text => (LogFilter.ofText? text).getD (.own "info")

end Dealias.Cli
