import Dealias.Json.Document

/-!
# The lines of tokens and trees

Lines are carried from the characters of a text to tokens, from there to the tree and to faults, and
nothing is decided by them.  So another count may be put in their place.  This is used twice: with
one count for all lines, which forgets them, and with the count of characters, which tells exactly
where a fault is.

* `Mode.step_relabel`: a counter that goes on as lines do can be changed before or behind a step.
* `Document.ofTokens_relabel`: the tree of tokens with changed counts is the changed tree.

## Strategy

Changing a count is a map on every type that holds one.  Each function of the two machines commutes
with it: one lemma for each, in the order in which they are defined.
-/

namespace Dealias.Json

variable (label : Nat → Nat)

/-! ## Faults and tokens -/

/-- A fault with another count of lines. -/
def Fault.relabel (fault : Fault) : Fault where
  kind := fault.kind
  line := label fault.line

/-- The faults of one place with another count of lines. -/
def Faults.relabel (faults : Faults) : Faults where
  strict := faults.strict.relabel label
  lenient := faults.lenient.relabel label

/-- What a reader has, with another count of lines in its fault. -/
def relabelReading {Value : Type} (reading : Except Fault Value) : Except Fault Value :=
  reading.mapError (Fault.relabel label)

/-- The end of a container with another count of lines. -/
def relabelClose : Except Faults Nat → Except Faults Nat
  | .ok line => .ok (label line)
  | .error faults => .error (faults.relabel label)

/-- What a token is, with another count of lines. -/
def Lexeme.relabel : Lexeme → Lexeme
  | text reading => text (relabelReading label reading)
  | brokenText faults => brokenText (faults.relabel label)
  | broken faults => broken (faults.relabel label)
  | lexeme => lexeme

/-- A token with another count of lines. -/
def Token.relabel (token : Token) : Token where
  line := label token.line
  lexeme := token.lexeme.relabel label

/-! ## Texts -/

/-- A text under way with another count of lines. -/
def TextState.relabel (state : TextState) : TextState where
  start := label state.start
  reading := relabelReading label state.reading
  surrogate := state.surrogate
  escape := state.escape

namespace TextState

theorem opened_relabel (line : Nat) : opened (label line) = (opened line).relabel label := rfl

theorem refuse_relabel (state : TextState) (line : Nat) :
    (state.relabel label).refuse (label line) = (state.refuse line).relabel label := by
  obtain ⟨start, reading, surrogate, escape⟩ := state
  cases reading <;> rfl

theorem push_relabel (state : TextState) (character : Char) :
    (state.relabel label).push character = (state.push character).relabel label := by
  obtain ⟨start, reading, surrogate, escape⟩ := state
  cases reading <;> rfl

theorem settleSurrogate_relabel (state : TextState) (line : Nat) :
    (state.relabel label).settleSurrogate (label line) =
      (state.settleSurrogate line).relabel label := by
  unfold settleSurrogate
  change (if state.surrogate.isSome then _ else _) = _
  split
  · exact refuse_relabel label state line
  · rfl

theorem breakOff_relabel (state : TextState) (strict lenient : Fault) :
    (state.relabel label).breakOff (strict.relabel label) (lenient.relabel label) =
      (state.breakOff strict lenient).relabel label := by
  obtain ⟨start, reading, surrogate, escape⟩ := state
  cases reading <;> rfl

theorem close_relabel (state : TextState) :
    (state.relabel label).close = state.close.relabel label := by
  obtain ⟨start, reading, surrogate, escape⟩ := state
  cases reading <;> rfl

theorem escape_relabel (state : TextState) : (state.relabel label).escape = state.escape := rfl

theorem setEscape_relabel (state : TextState) (escape : EscapeStage) :
    { state.relabel label with escape := escape } =
      { state with escape := escape }.relabel label := rfl

theorem pushCode_relabel (state : TextState) (line code : Nat) :
    (state.relabel label).pushCode (label line) code =
      (state.pushCode line code).relabel label := by
  obtain ⟨start, reading, surrogate, escape⟩ := state
  cases surrogate with
  | none =>
      simp only [pushCode, relabel]
      split
      · exact refuse_relabel label ⟨start, reading, none, .outside⟩ line
      · split
        · rfl
        · exact push_relabel label ⟨start, reading, none, .outside⟩ _
  | some leading =>
      simp only [pushCode, relabel]
      split
      · exact push_relabel label ⟨start, reading, none, .outside⟩ _
      · exact refuse_relabel label ⟨start, reading, some leading, .outside⟩ line

end TextState

/-! ## Modes -/

/-- Where the machine stands, with another count of lines. -/
def Mode.relabel : Mode → Mode
  | between => between
  | word lexeme missing => word (lexeme.relabel label) missing
  | number characters stage => number characters stage
  | text state => text (state.relabel label)
  | halted => halted

/-- What comes of a step, with another count of lines. -/
def relabelStep (result : List Token × Mode) : List Token × Mode :=
  (result.1.map (Token.relabel label), result.2.relabel label)

variable {label : Nat → Nat} {line : Nat} {character : Char}

theorem stepBetween_relabel :
    stepBetween (label line) character = relabelStep label (stepBetween line character) := by
  unfold stepBetween
  split
  · rfl
  · split <;> try rfl
    split <;> rfl

theorem stepWord_relabel
    (hlabel : lineAfter (label line) character = label (lineAfter line character))
    (lexeme : Lexeme) (missing : List Char) :
    stepWord (label line) (lexeme.relabel label) missing character =
      relabelStep label (stepWord line lexeme missing character) := by
  cases missing with
  | nil => rfl
  | cons expected rest =>
      simp only [stepWord, hlabel]
      split
      · cases rest <;> rfl
      · rfl

theorem stepNumber_relabel
    (hlabel : lineAfter (label line) character = label (lineAfter line character))
    (characters : List Char) (stage : NumberStage) :
    stepNumber (label line) characters stage character =
      relabelStep label (stepNumber line characters stage character) := by
  unfold stepNumber
  split
  · rfl
  · split
    · rw [stepBetween_relabel]
      rfl
    · rw [hlabel]
      rfl

theorem stepText_relabel
    (hlabel : lineAfter (label line) character = label (lineAfter line character))
    (state : TextState) :
    stepText (state.relabel label) (label line) character =
      relabelStep label (stepText state line character) := by
  have hfault (number : Nat) : (⟨.malformed, label number⟩ : Fault) =
      (⟨.malformed, number⟩ : Fault).relabel label := rfl
  rw [stepText, stepText, TextState.escape_relabel]
  cases state.escape with
  | outside =>
      simp only [stepPlain, hlabel]
      split
      · rw [state.settleSurrogate_relabel, TextState.close_relabel]
        rfl
      · split
        · rfl
        · split
          · rw [hfault, hfault, state.breakOff_relabel]
            rfl
          · rw [state.settleSurrogate_relabel, TextState.push_relabel]
            rfl
  | started =>
      simp only [stepEscape, hlabel]
      split
      · rfl
      · cases shortEscape? character with
        | none =>
            simp only [hfault, state.breakOff_relabel]
            rfl
        | some escaped =>
            simp only [state.settleSurrogate_relabel, TextState.setEscape_relabel,
              TextState.push_relabel]
            rfl
  | digits bytes number =>
      simp only [stepDigits, hlabel]
      split
      · rfl
      · split
        · rw [state.pushCode_relabel]
          rfl
        · simp only [hfault, state.breakOff_relabel]
          rfl

/-- **Counting otherwise.**  A counter that goes on as lines do can be changed before a character is
read or behind it. -/
theorem Mode.step_relabel
    (hlabel : lineAfter (label line) character = label (lineAfter line character)) (mode : Mode) :
    (mode.relabel label).step (label line) character =
      relabelStep label (mode.step line character) := by
  cases mode with
  | between => exact stepBetween_relabel
  | word lexeme missing => exact stepWord_relabel hlabel lexeme missing
  | number characters stage => exact stepNumber_relabel hlabel characters stage
  | text state => exact stepText_relabel hlabel state
  | halted => rfl

theorem Mode.finish_relabel (mode : Mode) :
    (mode.relabel label).finish (label line) =
      (mode.finish line).map (Token.relabel label) := by
  cases mode with
  | between => rfl
  | word lexeme missing => rfl
  | number characters stage =>
      simp only [Mode.relabel, Mode.finish]
      split <;> rfl
  | text state =>
      exact congrArg (fun token => [token])
        (state.breakOff_relabel label ⟨.truncated, line⟩ ⟨.truncated, line⟩)
  | halted => rfl

/-! ## Trees -/

variable (label)

/-- A key with another count of lines. -/
def Key.relabel (key : Key) : Key where
  reading := relabelReading label key.reading
  next := label key.next

mutual

/-- A value with another count of lines. -/
def Node.relabel : Node → Node
  | .null line => .null (label line)
  | .flag line value => .flag (label line) value
  | .number line numeral => .number (label line) numeral
  | .text line reading => .text (label line) (relabelReading label reading)
  | .array line items close => .array (label line) (relabelItems items) (relabelClose label close)
  | .object line members close =>
    .object (label line) (relabelMembers members) (relabelClose label close)
  | .broken line faults => .broken (label line) (faults.relabel label)

/-- Items with another count of lines. -/
def relabelItems : List Node → List Node
  | [] => []
  | item :: items => item.relabel :: relabelItems items

/-- Members with another count of lines. -/
def relabelMembers : List (Key × Node) → List (Key × Node)
  | [] => []
  | (key, value) :: members => (key.relabel label, value.relabel) :: relabelMembers members

end

/-- A member with another count of lines. -/
def relabelMember (member : Key × Node) : Key × Node :=
  (member.1.relabel label, member.2.relabel label)

theorem relabelItems_eq_map (items : List Node) :
    relabelItems label items = items.map (Node.relabel label) := by
  induction items with
  | nil => rfl
  | cons item items ih => rw [relabelItems, ih, List.map_cons]

theorem relabelMembers_eq_map (members : List (Key × Node)) :
    relabelMembers label members = members.map (relabelMember label) := by
  induction members with
  | nil => rfl
  | cons member members ih =>
      obtain ⟨key, value⟩ := member
      rw [relabelMembers, ih, List.map_cons, relabelMember]

@[simp]
theorem Node.line_relabel (node : Node) : (node.relabel label).line = label node.line := by
  cases node <;> rfl

/-- What surrounds a value, with another count of lines. -/
def Context.relabel : Context → Context
  | top => top
  | item line items outer =>
    item (label line) (items.map (Node.relabel label)) outer.relabel
  | member line members key outer =>
    member (label line) (members.map (relabelMember label)) (key.relabel label) outer.relabel

/-- A document with another count of lines. -/
def Document.relabel (document : Document) : Document where
  root := document.root.relabel label
  trailing := document.trailing.map label

/-- Where building stands, with another count of lines. -/
def Stage.relabel : Stage → Stage
  | value context => value (context.relabel label)
  | firstItem line outer => firstItem (label line) (outer.relabel label)
  | moreItems line items outer =>
    moreItems (label line) (items.map (Node.relabel label)) (outer.relabel label)
  | firstKey line outer => firstKey (label line) (outer.relabel label)
  | key line members outer =>
    key (label line) (members.map (relabelMember label)) (outer.relabel label)
  | colon line members reading outer =>
    colon (label line) (members.map (relabelMember label)) (relabelReading label reading)
      (outer.relabel label)
  | moreMembers line members outer =>
    moreMembers (label line) (members.map (relabelMember label)) (outer.relabel label)
  | complete root => complete (root.relabel label)
  | stopped document => stopped (document.relabel label)

theorem Context.fill_relabel (node : Node) (context : Context) :
    (context.relabel label).fill (node.relabel label) = (context.fill node).relabel label := by
  cases context <;> rfl

theorem Node.array_relabel (line : Nat) (items : List Node) (close : Except Faults Nat) :
    Node.array (label line) (items.map (Node.relabel label)).reverse (relabelClose label close) =
      (Node.array line items.reverse close).relabel label := by
  rw [Node.relabel, relabelItems_eq_map, List.map_reverse]

theorem Node.object_relabel (line : Nat) (members : List (Key × Node))
    (close : Except Faults Nat) :
    Node.object (label line) (members.map (relabelMember label)).reverse
        (relabelClose label close) =
      (Node.object line members.reverse close).relabel label := by
  rw [Node.relabel, relabelMembers_eq_map, List.map_reverse]

theorem Context.abandon_relabel (faults : Faults) (node : Node) (context : Context) :
    (context.relabel label).abandon (faults.relabel label) (node.relabel label) =
      (context.abandon faults node).relabel label := by
  induction context generalizing node with
  | top => rfl
  | item line items outer ih =>
      have harray := Node.array_relabel label line (node :: items) (.error faults)
      rw [Context.abandon, ← ih, ← harray]
      rfl
  | member line members key outer ih =>
      have hobject := Node.object_relabel label line ((key, node) :: members) (.error faults)
      rw [Context.abandon, ← ih, ← hobject]
      rfl

namespace Document

theorem brokenAt_relabel (context : Context) (line : Nat) (faults : Faults) :
    brokenAt (context.relabel label) (label line) (faults.relabel label) =
      (brokenAt context line faults).relabel label := by
  have habandon := Context.abandon_relabel label faults (.broken line faults) context
  exact congrArg (fun root => (⟨root, none⟩ : Document)) habandon

theorem brokenArray_relabel (line : Nat) (items : List Node) (outer : Context) (faults : Faults) :
    brokenArray (label line) (items.map (Node.relabel label)) (outer.relabel label)
        (faults.relabel label) =
      (brokenArray line items outer faults).relabel label := by
  have harray := Node.array_relabel label line items (.error faults)
  rw [brokenArray, brokenArray, relabel, ← Context.abandon_relabel, ← harray]
  rfl

theorem brokenObject_relabel (line : Nat) (members : List (Key × Node)) (outer : Context)
    (faults : Faults) :
    brokenObject (label line) (members.map (relabelMember label)) (outer.relabel label)
        (faults.relabel label) =
      (brokenObject line members outer faults).relabel label := by
  have hobject := Node.object_relabel label line members (.error faults)
  rw [brokenObject, brokenObject, relabel, ← Context.abandon_relabel, ← hobject]
  rfl

end Document

/-! ## Building -/

namespace Stage

theorem startValue_relabel (context : Context) (token : Token) :
    startValue (context.relabel label) (token.relabel label) =
      (startValue context token).relabel label := by
  obtain ⟨line, lexeme⟩ := token
  have hfill (node : Node) := context.fill_relabel label node
  have hbroken (faults : Faults) := Document.brokenAt_relabel label context line faults
  cases lexeme with
  | beginObject | beginArray => rfl
  | null => exact hfill (.null line)
  | flag value => exact hfill (.flag line value)
  | number numeral => exact hfill (.number line numeral)
  | text reading => exact hfill (.text line reading)
  | brokenText faults | broken faults => exact congrArg stopped (hbroken faults)
  | endObject | endArray | comma | colon =>
      exact congrArg stopped (hbroken (Fault.toAll ⟨.malformed, line⟩))

theorem startKey_relabel (line : Nat) (members : List (Key × Node)) (outer : Context)
    (token : Token) :
    startKey (label line) (members.map (relabelMember label)) (outer.relabel label)
        (token.relabel label) =
      (startKey line members outer token).relabel label := by
  obtain ⟨place, lexeme⟩ := token
  have hbroken (faults : Faults) :=
    congrArg stopped (Document.brokenObject_relabel label line members outer faults)
  cases lexeme with
  | text reading => rfl
  | brokenText faults => exact hbroken faults
  | _ => exact hbroken (Fault.toAll ⟨.malformed, place⟩)

theorem step_relabel (token : Token) (stage : Stage) :
    (stage.relabel label).step (token.relabel label) = (stage.step token).relabel label := by
  cases stage with
  | value context => exact startValue_relabel label context token
  | firstItem line outer =>
      obtain ⟨place, lexeme⟩ := token
      have hvalue := startValue_relabel label (.item line [] outer) ⟨place, lexeme⟩
      cases lexeme with
      | endArray => exact outer.fill_relabel label (.array line [] (.ok place))
      | _ => exact hvalue
  | moreItems line items outer =>
      obtain ⟨place, lexeme⟩ := token
      have hbroken :=
        congrArg stopped (Document.brokenArray_relabel label line items outer
          (Fault.toAll ⟨.malformed, place⟩))
      cases lexeme with
      | comma => rfl
      | endArray =>
          have harray := Node.array_relabel label line items (.ok place)
          exact (congrArg (outer.relabel label).fill harray).trans (outer.fill_relabel label _)
      | _ => exact hbroken
  | firstKey line outer =>
      obtain ⟨place, lexeme⟩ := token
      have hkey := startKey_relabel label line [] outer ⟨place, lexeme⟩
      cases lexeme with
      | endObject => exact outer.fill_relabel label (.object line [] (.ok place))
      | _ => exact hkey
  | key line members outer => exact startKey_relabel label line members outer token
  | colon line members reading outer =>
      obtain ⟨place, lexeme⟩ := token
      have hbroken :=
        congrArg stopped (Document.brokenAt_relabel label
          (.member line members ⟨reading, place⟩ outer) place (Fault.toAll ⟨.malformed, place⟩))
      cases lexeme with
      | colon => rfl
      | _ => exact hbroken
  | moreMembers line members outer =>
      obtain ⟨place, lexeme⟩ := token
      have hbroken :=
        congrArg stopped (Document.brokenObject_relabel label line members outer
          (Fault.toAll ⟨.malformed, place⟩))
      cases lexeme with
      | comma => rfl
      | endObject =>
          have hobject := Node.object_relabel label line members (.ok place)
          exact (congrArg (outer.relabel label).fill hobject).trans (outer.fill_relabel label _)
      | _ => exact hbroken
  | complete root => rfl
  | stopped document => rfl

theorem finish_relabel (line : Nat) (stage : Stage) :
    (stage.relabel label).finish (label line) = (stage.finish line).relabel label := by
  have hvalue (context : Context) :=
    Document.brokenAt_relabel label context line (Fault.toAll ⟨.truncated, line⟩)
  have harray (start : Nat) (items : List Node) (outer : Context) :=
    Document.brokenArray_relabel label start items outer (Fault.toAll ⟨.truncated, line⟩)
  have hobject (start : Nat) (members : List (Key × Node)) (outer : Context) :=
    Document.brokenObject_relabel label start members outer (Fault.toAll ⟨.truncated, line⟩)
  cases stage with
  | value context => exact hvalue context
  | firstItem start outer => exact harray start [] outer
  | moreItems start items outer => exact harray start items outer
  | firstKey start outer => exact hobject start [] outer
  | key start members outer => exact hobject start members outer
  | colon start members reading outer => exact hvalue (.member start members ⟨reading, line⟩ outer)
  | moreMembers start members outer => exact hobject start members outer
  | complete root => rfl
  | stopped document => rfl

end Stage

/-- Tokens with another count of lines. -/
def TokenList.relabel (list : TokenList) : TokenList where
  tokens := list.tokens.map (Token.relabel label)
  lastLine := label list.lastLine

/-- **Trees count as tokens do.**  The tree of tokens with another count is the tree of the tokens,
with that count. -/
theorem Document.ofTokens_relabel (list : TokenList) :
    Document.ofTokens (list.relabel label) = (Document.ofTokens list).relabel label := by
  have hfold (tokens : List Token) (stage : Stage) :
      (tokens.map (Token.relabel label)).foldl (fun stage token => stage.step token)
          (stage.relabel label) =
        (tokens.foldl (fun stage token => stage.step token) stage).relabel label := by
    induction tokens generalizing stage with
    | nil => rfl
    | cons token tokens ih => rw [List.map_cons, List.foldl_cons, stage.step_relabel, ih]; rfl
  have htokens := hfold list.tokens (.value .top)
  calc Document.ofTokens (list.relabel label)
      = ((list.tokens.foldl (fun stage token => Stage.step token stage)
          (Stage.value .top)).relabel label).finish (label list.lastLine) := by
        rw [← htokens]
        rfl
    _ = (Document.ofTokens list).relabel label := Stage.finish_relabel label _ _

end Dealias.Json
