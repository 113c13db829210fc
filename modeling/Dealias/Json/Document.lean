import Dealias.Json.Token

/-!
# JSON documents

Tokens are put together to a tree.  Building never fails: where the tokens stop making sense, the
tree holds the fault that a reader finds there, and nothing behind it.  So a reader that goes
through the tree in text order finds the first fault of the text, and finds it only if it gets
there.

The tree is built by a machine that keeps what surrounds the value under way.
-/

namespace Dealias.Json

/-! ## Trees -/

/-- A member's key, as far as a strict reader takes it, and the line of the token behind it. -/
structure Key where
  reading : Except Fault String
  next : Nat

/-- A value and the line that it starts in.  A container ends at the line of its closing bracket,
or at a fault. -/
inductive Node where
  | null (line : Nat)
  | flag (line : Nat) (value : Bool)
  | number (line : Nat) (numeral : Numeral)
  | text (line : Nat) (reading : Except Fault String)
  | array (line : Nat) (items : List Node) (close : Except Faults Nat)
  | object (line : Nat) (members : List (Key × Node)) (close : Except Faults Nat)
  | broken (line : Nat) (faults : Faults)

/-- The line that a value starts in. -/
def Node.line : Node → Nat
  | null line => line
  | flag line _ => line
  | number line _ => line
  | text line _ => line
  | array line _ _ => line
  | object line _ _ => line
  | broken line _ => line

/-- The tree of a text, and the line of the first token behind it, if there is one. -/
structure Document where
  root : Node
  trailing : Option Nat

/-! ## Building -/

/-- What surrounds the value under way.  Items and members before it stand with the latest
first. -/
inductive Context where
  | top
  | item (line : Nat) (items : List Node) (outer : Context)
  | member (line : Nat) (members : List (Key × Node)) (key : Key) (outer : Context)

/-- Where the machine stands. -/
inductive Stage where
  /-- A value has to come. -/
  | value (context : Context)
  /-- An item, or the end of an array. -/
  | firstItem (line : Nat) (outer : Context)
  /-- A comma, or the end of an array. -/
  | moreItems (line : Nat) (items : List Node) (outer : Context)
  /-- A key, or the end of an object. -/
  | firstKey (line : Nat) (outer : Context)
  /-- A key has to come. -/
  | key (line : Nat) (members : List (Key × Node)) (outer : Context)
  /-- The colon behind a key has to come. -/
  | colon (line : Nat) (members : List (Key × Node)) (reading : Except Fault String)
      (outer : Context)
  /-- A comma, or the end of an object. -/
  | moreMembers (line : Nat) (members : List (Key × Node)) (outer : Context)
  /-- Nothing more may come. -/
  | complete (root : Node)
  | stopped (document : Document)

/-- Go on behind a value. -/
def Context.fill (node : Node) : Context → Stage
  | top => .complete node
  | item line items outer => .moreItems line (node :: items) outer
  | member line members key outer => .moreMembers line ((key, node) :: members) outer

/-- The tree when nothing comes behind a value.  No reader gets behind the fault in the value, so
the containers around it may end at any fault. -/
def Context.abandon (faults : Faults) (node : Node) : Context → Node
  | top => node
  | item line items outer =>
    outer.abandon faults (.array line (node :: items).reverse (.error faults))
  | member line members key outer =>
    outer.abandon faults (.object line ((key, node) :: members).reverse (.error faults))

namespace Document

/-- The document that stops at a broken value. -/
def brokenAt (context : Context) (line : Nat) (faults : Faults) : Document :=
  ⟨context.abandon faults (.broken line faults), none⟩

/-- The document that stops behind the items of an array. -/
def brokenArray (line : Nat) (items : List Node) (outer : Context) (faults : Faults) : Document :=
  ⟨outer.abandon faults (.array line items.reverse (.error faults)), none⟩

/-- The document that stops behind the members of an object. -/
def brokenObject (line : Nat) (members : List (Key × Node)) (outer : Context) (faults : Faults) :
    Document :=
  ⟨outer.abandon faults (.object line members.reverse (.error faults)), none⟩

end Document

namespace Stage

/-- The fault of a token that may not stand where it stands. -/
def misplaced (token : Token) : Faults :=
  Fault.toAll ⟨.malformed, token.line⟩

/-- Read the first token of a value. -/
def startValue (context : Context) (token : Token) : Stage :=
  match token.lexeme with
  | .beginObject => firstKey token.line context
  | .beginArray => firstItem token.line context
  | .null => context.fill (.null token.line)
  | .flag truth => context.fill (.flag token.line truth)
  | .number numeral => context.fill (.number token.line numeral)
  | .text reading => context.fill (.text token.line reading)
  | .brokenText faults => stopped (Document.brokenAt context token.line faults)
  | .broken faults => stopped (Document.brokenAt context token.line faults)
  | .endObject | .endArray | .comma | .colon =>
    stopped (Document.brokenAt context token.line (misplaced token))

/-- Read a token where a key has to stand. -/
def startKey (line : Nat) (members : List (Key × Node)) (outer : Context) (token : Token) : Stage :=
  match token.lexeme with
  | .text reading => colon line members reading outer
  | .brokenText faults => stopped (Document.brokenObject line members outer faults)
  | _ => stopped (Document.brokenObject line members outer (misplaced token))

/-- Read a token. -/
def step (token : Token) : Stage → Stage
  | value context => startValue context token
  | firstItem line outer =>
    match token.lexeme with
    | .endArray => outer.fill (.array line [] (.ok token.line))
    | _ => startValue (.item line [] outer) token
  | moreItems line items outer =>
    match token.lexeme with
    | .comma => value (.item line items outer)
    | .endArray => outer.fill (.array line items.reverse (.ok token.line))
    | _ => stopped (Document.brokenArray line items outer (misplaced token))
  | firstKey line outer =>
    match token.lexeme with
    | .endObject => outer.fill (.object line [] (.ok token.line))
    | _ => startKey line [] outer token
  | key line members outer => startKey line members outer token
  | colon line members reading outer =>
    let context := Context.member line members ⟨reading, token.line⟩ outer
    match token.lexeme with
    | .colon => value context
    | _ => stopped (Document.brokenAt context token.line (misplaced token))
  | moreMembers line members outer =>
    match token.lexeme with
    | .comma => key line members outer
    | .endObject => outer.fill (.object line members.reverse (.ok token.line))
    | _ => stopped (Document.brokenObject line members outer (misplaced token))
  | complete root => stopped ⟨root, some token.line⟩
  | stopped document => stopped document

/-- The document when the text ends in a line. -/
def finish (line : Nat) (stage : Stage) : Document :=
  let faults := Fault.toAll ⟨.truncated, line⟩
  match stage with
  | value context => Document.brokenAt context line faults
  | firstItem start outer => Document.brokenArray start [] outer faults
  | moreItems start items outer => Document.brokenArray start items outer faults
  | firstKey start outer => Document.brokenObject start [] outer faults
  | key start members outer => Document.brokenObject start members outer faults
  | colon start members reading outer =>
    Document.brokenAt (.member start members ⟨reading, line⟩ outer) line faults
  | moreMembers start members outer => Document.brokenObject start members outer faults
  | complete root => ⟨root, none⟩
  | stopped document => document

end Stage

/-- The document that tokens make. -/
def Document.ofTokens (list : TokenList) : Document :=
  (list.tokens.foldl (fun stage token => Stage.step token stage) (Stage.value .top)).finish list.lastLine

/-- The document of a text. -/
def Document.ofText (text : String) : Document :=
  Document.ofTokens (tokensOf text)

end Dealias.Json
