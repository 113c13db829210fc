import Dealias.Json.Document
import Dealias.OrderedMap

/-!
# Reading values out of JSON

A reader takes a value of one shape and refuses all others.  Readers go through a tree in text
order and stop at the first fault.  Values that nobody asked for are skipped, which finds only
the faults of the text.

A record is an object whose known members are read and whose other members are skipped, or an
array of the fields in their order.
-/

namespace Dealias.Json

/-- A reader of values. -/
abbrev Reader (Value : Type) := Node → Except Fault Value

/-! ## Skipping -/

mutual

/-- The fault that skipping a value finds. -/
def Node.fault? : Node → Option Fault
  | .null _ => none
  | .flag _ _ => none
  | .number _ _ => none
  | .text _ _ => none
  | .array _ items close => itemsFault? items <|> closeFault? close
  | .object _ members close => membersFault? members <|> closeFault? close
  | .broken _ faults => some faults.lenient

/-- The fault that skipping items finds. -/
def itemsFault? : List Node → Option Fault
  | [] => none
  | item :: items => item.fault? <|> itemsFault? items

/-- The fault that skipping members finds. -/
def membersFault? : List (Key × Node) → Option Fault
  | [] => none
  | (_, value) :: members => value.fault? <|> membersFault? members

/-- The fault that skipping the end of a container finds. -/
def closeFault? : Except Faults Nat → Option Fault
  | .ok _ => none
  | .error faults => some faults.lenient

end

/-- Skip a value. -/
def skip : Reader Unit := fun node =>
  match node.fault? with
  | none => .ok ()
  | some fault => .error fault

/-! ## Simple values -/

/-- The fault of a value that has the wrong shape.  A broken value tells its own fault, and so do
the texts and numbers that no reader takes. -/
def Node.mismatch : Node → Fault
  | .number line numeral => ⟨if numeral.isTooLarge then .malformed else .mismatched, line⟩
  | .text _ (.error fault) => fault
  | .broken _ faults => faults.strict
  | node => ⟨.mismatched, node.line⟩

/-- Read a text. -/
def text : Reader String
  | .text _ reading => reading
  | node => .error node.mismatch

/-- Read a flag. -/
def flag : Reader Bool
  | .flag _ value => .ok value
  | node => .error node.mismatch

/-- Read a natural number of 64 bits. -/
def natural : Reader Nat
  | .number line numeral =>
    match numeral.natural? with
    | some value => .ok value
    | none => .error (Node.number line numeral).mismatch
  | node => .error node.mismatch

/-- Read a value that may be `null`. -/
def optional {Value : Type} (read : Reader Value) : Reader (Option Value)
  | .null _ => .ok none
  | node => (read node).map some

/-! ## Containers -/

/-- Come to the end of a container. -/
def close (ending : Except Faults Nat) : Except Fault Nat :=
  ending.mapError Faults.strict

/-- Read a list. -/
def list {Value : Type} (read : Reader Value) : Reader (List Value)
  | .array _ items ending => do
    let values ← items.mapM read
    let _ ← close ending
    return values
  | node => .error node.mismatch

/-- Read a member of a map. -/
def entry {Value : Type} (read : Reader Value) (member : Key × Node) :
    Except Fault (String × Value) := do
  let key ← member.1.reading
  let value ← read member.2
  return (key, value)

/-- Read a map.  A key that comes again replaces the value and keeps the position. -/
def dictionary {Value : Type} (read : Reader Value) : Reader (OrderedMap Value)
  | .object _ members ending => do
    let entries ← members.mapM (entry read)
    let _ ← close ending
    return OrderedMap.ofList entries
  | node => .error node.mismatch

/-! ## Records -/

/-- One field of a record, as it is read into a draft. -/
structure Field (Draft : Type) where
  name : String
  /-- In the array form the field may be left out. -/
  hasDefault : Bool
  isSet : Draft → Bool
  read : Draft → Reader Draft

/-- A field of a record, given how a draft holds it. -/
def Field.make {Draft Value : Type} (name : String) (hasDefault : Bool) (reader : Reader Value)
    (get : Draft → Option Value) (set : Draft → Value → Draft) : Field Draft where
  name := name
  hasDefault := hasDefault
  isSet draft := (get draft).isSome
  read draft node := (reader node).map (set draft)

/-- A shape of records: the fields, and what makes a draft complete. -/
structure RecordShape (Draft Value : Type) where
  fields : List (Field Draft)
  blank : Draft
  complete? : Draft → Option Value

namespace RecordShape

variable {Draft Value : Type}

/-- Read a member into a draft.  A known key may come only once. -/
def readMember (shape : RecordShape Draft Value) (draft : Draft) (member : Key × Node) :
    Except Fault Draft := do
  let key ← member.1.reading
  match shape.fields.find? fun field => field.name == key with
  | none =>
    skip member.2
    return draft
  | some field =>
    if field.isSet draft then throw ⟨.mismatched, member.1.next⟩
    field.read draft member.2

/-- Read items into the fields in their order. -/
def readItems (ending : Except Faults Nat) :
    List (Field Draft) → Draft → List Node → Except Fault Draft
  | [], draft, [] => do
    let _ ← close ending
    return draft
  | [], _, item :: _ => throw ⟨.malformed, item.line⟩
  | field :: fields, draft, [] => do
    let line ← close ending
    if field.hasDefault then readItems ending fields draft []
    else throw ⟨.mismatched, line⟩
  | field :: fields, draft, item :: items => do
    let draft ← field.read draft item
    readItems ending fields draft items

/-- Turn a draft into a value at the line where the record ends. -/
def finish (shape : RecordShape Draft Value) (draft : Draft) (line : Nat) : Except Fault Value :=
  match shape.complete? draft with
  | some value => .ok value
  | none => .error ⟨.mismatched, line⟩

/-- Read a record. -/
def read (shape : RecordShape Draft Value) : Reader Value
  | .object _ members ending => do
    let draft ← members.foldlM shape.readMember shape.blank
    let line ← close ending
    shape.finish draft line
  | .array line items ending => do
    let draft ← readItems ending shape.fields shape.blank items
    shape.finish draft line
  | node => .error node.mismatch

end RecordShape

/-! ## Documents -/

/-- Read a whole text. -/
def readText {Value : Type} (read : Reader Value) (text : String) : Except Fault Value := do
  let document := Document.ofText text
  let value ← read document.root
  match document.trailing with
  | none => return value
  | some line => throw ⟨.malformed, line⟩

end Dealias.Json
