import Dealias.Proofs.Json.Readers
import Dealias.Proofs.Json.Trees

/-!
# Building trees

The symbols of a bare value make its tree (`Document.ofTokens_bare`), and a document without faults
comes only of tokens that are all read and whole (`TokenList.complete_of_isFaultless`).

## Strategy

A value is built in whatever surrounds it, so the surroundings are arbitrary in the induction over
the value (`Tree.run_append`), and items and members are built behind those before them.

Building that has stopped never goes on, and it only stops at a fault.  This is an invariant of the
stages (`Stage.isHonest_step`), so what is faultless at the end has not stopped.
-/

namespace Dealias.Json

/-! ## Faultless documents -/

/-- Whether skipping a document finds no fault. -/
def Document.IsFaultless (document : Document) : Prop :=
  document.root.fault? = none ∧ document.trailing = none

/-- A broken value is faulty, whatever surrounds it. -/
theorem Context.abandon_fault? {node : Node} (hnode : node.fault? ≠ none) (faults : Faults)
    (context : Context) : (context.abandon faults node).fault? ≠ none := by
  have hclosed (first : Option Fault) : (first <|> some faults.lenient) ≠ none := by
    cases first <;> nofun
  induction context generalizing node with
  | top => exact hnode
  | item line items outer ih => exact ih (hclosed _)
  | member line members key outer ih => exact ih (hclosed _)

namespace Document

theorem not_isFaultless_brokenAt (context : Context) (line : Nat) (faults : Faults) :
    ¬ (brokenAt context line faults).IsFaultless :=
  have hnode : (Node.broken line faults).fault? ≠ none := Option.some_ne_none _
  fun hfaultless => Context.abandon_fault? hnode faults context hfaultless.1

theorem not_isFaultless_brokenArray (line : Nat) (items : List Node) (outer : Context)
    (faults : Faults) : ¬ (brokenArray line items outer faults).IsFaultless := by
  refine fun hfaultless => Context.abandon_fault? ?_ faults outer hfaultless.1
  rw [Node.fault?]
  cases itemsFault? items.reverse <;> nofun

theorem not_isFaultless_brokenObject (line : Nat) (members : List (Key × Node))
    (outer : Context) (faults : Faults) :
    ¬ (brokenObject line members outer faults).IsFaultless := by
  refine fun hfaultless => Context.abandon_fault? ?_ faults outer hfaultless.1
  rw [Node.fault?]
  cases membersFault? members.reverse <;> nofun

end Document

namespace Stage

/-- Whether a stage that has stopped has found a fault. -/
def IsHonest : Stage → Prop
  | stopped document => ¬ document.IsFaultless
  | _ => True

theorem isHonest_fill (node : Node) (context : Context) : (context.fill node).IsHonest := by
  cases context <;> trivial

theorem isHonest_startValue (context : Context) (token : Token) :
    (startValue context token).IsHonest := by
  obtain ⟨line, lexeme⟩ := token
  cases lexeme with
  | beginObject | beginArray => trivial
  | null | flag | number | text => exact isHonest_fill _ context
  | _ => exact Document.not_isFaultless_brokenAt context line _

theorem isHonest_startKey (line : Nat) (members : List (Key × Node)) (outer : Context)
    (token : Token) : (startKey line members outer token).IsHonest := by
  obtain ⟨place, lexeme⟩ := token
  cases lexeme with
  | text => trivial
  | _ => exact Document.not_isFaultless_brokenObject line members outer _

theorem isHonest_step {stage : Stage} (hhonest : stage.IsHonest) (token : Token) :
    (stage.step token).IsHonest := by
  obtain ⟨place, lexeme⟩ := token
  cases stage with
  | value context => exact isHonest_startValue context _
  | firstItem line outer =>
      have hvalue := isHonest_startValue (.item line [] outer) ⟨place, lexeme⟩
      cases lexeme with
      | endArray => exact isHonest_fill _ outer
      | _ => exact hvalue
  | moreItems line items outer =>
      cases lexeme with
      | comma => trivial
      | endArray => exact isHonest_fill _ outer
      | _ => exact Document.not_isFaultless_brokenArray line items outer _
  | firstKey line outer =>
      have hkey := isHonest_startKey line [] outer ⟨place, lexeme⟩
      cases lexeme with
      | endObject => exact isHonest_fill _ outer
      | _ => exact hkey
  | key line members outer => exact isHonest_startKey line members outer _
  | colon line members reading outer =>
      cases lexeme with
      | colon => trivial
      | _ => exact Document.not_isFaultless_brokenAt _ place _
  | moreMembers line members outer =>
      cases lexeme with
      | comma => trivial
      | endObject => exact isHonest_fill _ outer
      | _ => exact Document.not_isFaultless_brokenObject line members outer _
  | complete root => exact fun hfaultless => nomatch hfaultless.2
  | stopped document => exact hhonest

/-- Building stops at a broken token. -/
theorem step_of_isBroken {token : Token} (hbroken : token.isBroken = true) (stage : Stage) :
    ∃ document, stage.step token = stopped document := by
  obtain ⟨line, lexeme⟩ := token
  cases lexeme with
  | brokenText faults | broken faults => cases stage <;> exact ⟨_, rfl⟩
  | _ => cases hbroken

/-- Only what is complete at the end can be faultless. -/
theorem exists_of_finish {stage : Stage} (hhonest : stage.IsHonest) {line : Nat}
    (hfaultless : (stage.finish line).IsFaultless) : ∃ root, stage = complete root := by
  cases stage with
  | complete root => exact ⟨root, rfl⟩
  | stopped document => exact absurd hfaultless hhonest
  | value context => exact (Document.not_isFaultless_brokenAt _ _ _ hfaultless).elim
  | firstItem => exact (Document.not_isFaultless_brokenArray _ _ _ _ hfaultless).elim
  | moreItems => exact (Document.not_isFaultless_brokenArray _ _ _ _ hfaultless).elim
  | firstKey => exact (Document.not_isFaultless_brokenObject _ _ _ _ hfaultless).elim
  | key => exact (Document.not_isFaultless_brokenObject _ _ _ _ hfaultless).elim
  | colon => exact (Document.not_isFaultless_brokenAt _ _ _ hfaultless).elim
  | moreMembers => exact (Document.not_isFaultless_brokenObject _ _ _ _ hfaultless).elim

/-- Building that has stopped does not go on. -/
theorem foldl_stopped (document : Document) (tokens : List Token) :
    tokens.foldl (fun stage token => Stage.step token stage) (.stopped document) =
      .stopped document := by
  induction tokens with
  | nil => rfl
  | cons token tokens ih => exact ih

theorem complete_of_foldl {stage : Stage} (hhonest : stage.IsHonest) {line : Nat}
    {tokens : List Token}
    (hfaultless : ((tokens.foldl (fun stage token => Stage.step token stage) stage).finish
      line).IsFaultless) :
    (∃ root, tokens.foldl (fun stage token => Stage.step token stage) stage = .complete root) ∧
      ∀ token ∈ tokens, token.isBroken = false := by
  induction tokens generalizing stage with
  | nil => exact ⟨exists_of_finish hhonest hfaultless, nofun⟩
  | cons token tokens ih =>
      have hnext := isHonest_step hhonest token
      obtain ⟨hcomplete, hwhole⟩ := ih hnext hfaultless
      refine ⟨hcomplete, List.forall_mem_cons.mpr ⟨?_, hwhole⟩⟩
      cases hbroken : token.isBroken with
      | false => rfl
      | true =>
          obtain ⟨document, hstop⟩ := step_of_isBroken hbroken stage
          rw [List.foldl_cons, hstop, foldl_stopped] at hfaultless
          rw [hstop] at hnext
          exact absurd hfaultless hnext

end Stage

/-- **Faultless documents are complete.**  Tokens that make a faultless document are whole, and
building gets to the end of the tree with the last of them. -/
theorem TokenList.complete_of_isFaultless {list : TokenList}
    (hfaultless : (Document.ofTokens list).IsFaultless) :
    (∃ root, list.tokens.foldl (fun stage token => Stage.step token stage) (.value .top) =
      .complete root) ∧ list.IsWhole :=
  have hhonest : (Stage.value .top).IsHonest := trivial
  Stage.complete_of_foldl hhonest hfaultless

/-! ## Building trees -/

namespace Literal

/-- What a strict reader takes of a text. -/
def reading (literal : Literal) : Except Fault String :=
  (((literal.body.foldl (TextState.read 0) (.opened 0)).settleSurrogate 0).reading).map
    fun characters => String.ofList characters.reverse

theorem token_zero (literal : Literal) : literal.token 0 = ⟨0, .text literal.reading⟩ := by
  -- the line is the same when all lines are forgotten
  have hline := congrArg Token.line (literal.token_relabel forgetLine 0)
  exact congrArg (Token.mk · (.text literal.reading)) hline.symm

end Literal

theorem Symbol.token_text (literal : Literal) :
    Symbol.token 0 (.scalar (.text literal)) = ⟨0, .text literal.reading⟩ :=
  literal.token_zero

/-- The tree of a value that holds no others, without lines. -/
def Scalar.node : Scalar → Node
  | null => .null 0
  | flag value => .flag 0 value
  | number written => .number 0 ⟨written.characters⟩
  | text literal => .text 0 literal.reading

mutual

/-- The tree that is built for a value, without lines. -/
def Tree.node : Tree → Node
  | .scalar value => value.node
  | .array items _ => .array 0 (itemNodes items) (.ok 0)
  | .object members _ => .object 0 (memberNodes members) (.ok 0)

/-- The trees that are built for items. -/
def itemNodes : List Tree → List Node
  | [] => []
  | item :: items => item.node :: itemNodes items

/-- The members that are built. -/
def memberNodes : List (Literal × Tree) → List (Key × Node)
  | [] => []
  | (key, value) :: members => (⟨key.reading, 0⟩, value.node) :: memberNodes members

end

/-- Read symbols. -/
def Stage.run (stage : Stage) (symbols : List Symbol) : Stage :=
  symbols.foldl (fun stage symbol => stage.step (symbol.token 0)) stage

theorem Stage.run_cons (stage : Stage) (symbol : Symbol) (symbols : List Symbol) :
    stage.run (symbol :: symbols) = (stage.step (symbol.token 0)).run symbols := rfl

theorem foldl_tokensOfSymbols (symbols : List Symbol) (stage : Stage) :
    (tokensOfSymbols symbols).tokens.foldl (fun stage token => Stage.step token stage) stage =
      stage.run symbols :=
  List.foldl_map

theorem Stage.step_scalar (value : Scalar) (context : Context) :
    (Stage.value context).step (Symbol.token 0 (.scalar value)) = context.fill value.node := by
  cases value with
  | text literal =>
      rw [Symbol.token_text]
      rfl
  | _ => rfl

/-- The first item of an array is read as a value. -/
theorem Stage.step_firstItem {symbol : Symbol} (hstart : symbol.startsValue = true) (line : Nat)
    (outer : Context) : (Stage.firstItem line outer).step (symbol.token 0) =
      (Stage.value (.item line [] outer)).step (symbol.token 0) := by
  cases symbol with
  | scalar value =>
      cases value with
      | text literal =>
          rw [Symbol.token_text]
          rfl
      | _ => rfl
  | beginObject | beginArray => rfl
  | _ => cases hstart

/-- The first key of an object is read as a key. -/
theorem Stage.step_firstKey (key : Literal) (line : Nat) (outer : Context) :
    (Stage.firstKey line outer).step (Symbol.token 0 (.scalar (.text key))) =
      (Stage.key line [] outer).step (Symbol.token 0 (.scalar (.text key))) := by
  rw [Symbol.token_text]
  rfl

theorem Stage.run_key (key : Literal) (line : Nat) (members : List (Key × Node)) (outer : Context)
    (symbols : List Symbol) :
    (Stage.key line members outer).run (.scalar (.text key) :: .colon :: symbols) =
      (Stage.value (.member line members ⟨key.reading, 0⟩ outer)).run symbols := by
  rw [run_cons, run_cons, Symbol.token_text]
  rfl

mutual

/-- A value is built behind what surrounds it. -/
theorem Tree.run_append : (tree : Tree) → (context : Context) → (rest : List Symbol) →
    (Stage.value context).run (tree.bare.symbols ++ rest) = (context.fill tree.node).run rest
  | .scalar value, context, rest => by
      rw [Tree.bare, Tree.symbols, List.cons_append, Stage.run_cons, Stage.step_scalar]
      rfl
  | .array [] _, context, rest => rfl
  | .array (item :: items) _, context, rest => by
      obtain ⟨symbol, symbols, hsymbols, hstart⟩ := item.bare.exists_symbols
      have hfirst (later : List Symbol) :
          (Stage.firstItem 0 context).run (item.bare.symbols ++ later) =
            (Stage.value (.item 0 [] context)).run (item.bare.symbols ++ later) := by
        rw [hsymbols, List.cons_append, Stage.run_cons, Stage.run_cons, Stage.step_firstItem hstart]
      calc (Stage.value context).run ((Tree.array (item :: items) _).bare.symbols ++ rest)
          = (Stage.firstItem 0 context).run
              (item.bare.symbols ++ (itemSymbols (bareItems items) ++ .endArray :: rest)) := by
            simp [Tree.bare, bareItems, Tree.symbols, itemSymbols, lastComma]
            rfl
        _ = (Stage.moreItems 0 [item.node] context).run
              (itemSymbols (bareItems items) ++ .endArray :: rest) := by
            rw [hfirst, item.run_append]
            rfl
        _ = (Stage.moreItems 0 ((itemNodes items).reverse ++ [item.node]) context).run
              (.endArray :: rest) := run_itemSymbols items 0 _ context _
        _ = (context.fill (.array 0 (item.node :: itemNodes items) (.ok 0))).run rest := by
            rw [← List.reverse_cons]
            simp only [Stage.run_cons, Stage.step, Symbol.token, List.reverse_reverse]
  | .object [] _, context, rest => rfl
  | .object ((key, value) :: members) _, context, rest => by
      calc (Stage.value context).run
            ((Tree.object ((key, value) :: members) _).bare.symbols ++ rest)
          = (Stage.firstKey 0 context).run (.scalar (.text key) :: .colon :: (value.bare.symbols ++
              (memberSymbols (bareMembers members) ++ .endObject :: rest))) := by
            simp [Tree.bare, bareMembers, Tree.symbols, memberSymbols, lastComma]
            rfl
        _ = (Stage.moreMembers 0 [(⟨key.reading, 0⟩, value.node)] context).run
              (memberSymbols (bareMembers members) ++ .endObject :: rest) := by
            rw [Stage.run_cons, Stage.step_firstKey, ← Stage.run_cons, Stage.run_key,
              value.run_append]
            rfl
        _ = (Stage.moreMembers 0 ((memberNodes members).reverse ++
              [(⟨key.reading, 0⟩, value.node)]) context).run (.endObject :: rest) :=
            run_memberSymbols members 0 _ context _
        _ = (context.fill (.object 0 ((⟨key.reading, 0⟩, value.node) :: memberNodes members)
              (.ok 0))).run rest := by
            rw [← List.reverse_cons]
            simp only [Stage.run_cons, Stage.step, Symbol.token, List.reverse_reverse]

/-- Items are built behind those before them. -/
theorem run_itemSymbols : (items : List Tree) → (line : Nat) → (before : List Node) →
    (outer : Context) → (rest : List Symbol) →
    (Stage.moreItems line before outer).run (itemSymbols (bareItems items) ++ rest) =
      (Stage.moreItems line ((itemNodes items).reverse ++ before) outer).run rest
  | [], line, before, outer, rest => rfl
  | item :: items, line, before, outer, rest => by
      have hitem :=
        item.run_append (.item line before outer) (itemSymbols (bareItems items) ++ rest)
      rw [bareItems, itemSymbols, List.cons_append, List.append_assoc, itemNodes,
        List.reverse_cons, List.append_assoc]
      exact hitem.trans (run_itemSymbols items line (item.node :: before) outer rest)

/-- Members are built behind those before them. -/
theorem run_memberSymbols : (members : List (Literal × Tree)) → (line : Nat) →
    (before : List (Key × Node)) → (outer : Context) → (rest : List Symbol) →
    (Stage.moreMembers line before outer).run (memberSymbols (bareMembers members) ++ rest) =
      (Stage.moreMembers line ((memberNodes members).reverse ++ before) outer).run rest
  | [], line, before, outer, rest => rfl
  | (key, value) :: members, line, before, outer, rest => by
      have hkey := Stage.run_key key line before outer
        (value.bare.symbols ++ (memberSymbols (bareMembers members) ++ rest))
      rw [value.run_append] at hkey
      rw [bareMembers, memberSymbols, List.cons_append, List.cons_append, List.cons_append,
        List.append_assoc, memberNodes, List.reverse_cons, List.append_assoc]
      exact hkey.trans (run_memberSymbols members line _ outer rest)

end

mutual

theorem Tree.fault?_node : (tree : Tree) → tree.node.fault? = none
  | .scalar value => by cases value <;> rfl
  | .array items _ => by
      rw [Tree.node, Node.fault?, itemsFault?_itemNodes items]
      rfl
  | .object members _ => by
      rw [Tree.node, Node.fault?, membersFault?_memberNodes members]
      rfl

theorem itemsFault?_itemNodes : (items : List Tree) → itemsFault? (itemNodes items) = none
  | [] => rfl
  | item :: items => by
      rw [itemNodes, itemsFault?, item.fault?_node, itemsFault?_itemNodes items]
      rfl

theorem membersFault?_memberNodes : (members : List (Literal × Tree)) →
    membersFault? (memberNodes members) = none
  | [] => rfl
  | (key, value) :: members => by
      rw [memberNodes, membersFault?, value.fault?_node, membersFault?_memberNodes members]
      rfl

end

mutual

theorem Tree.node_bare : (tree : Tree) → tree.bare.node = tree.node
  | .scalar _ => rfl
  | .array items _ => by rw [Tree.bare, Tree.node, Tree.node, itemNodes_bareItems items]
  | .object members _ => by rw [Tree.bare, Tree.node, Tree.node, memberNodes_bareMembers members]

theorem itemNodes_bareItems : (items : List Tree) → itemNodes (bareItems items) = itemNodes items
  | [] => rfl
  | item :: items => by rw [bareItems, itemNodes, itemNodes, item.node_bare, itemNodes_bareItems]

theorem memberNodes_bareMembers : (members : List (Literal × Tree)) →
    memberNodes (bareMembers members) = memberNodes members
  | [] => rfl
  | (key, value) :: members => by
      rw [bareMembers, memberNodes, memberNodes, value.node_bare, memberNodes_bareMembers]

end

/-- **Building a value.**  The symbols of a bare value make its tree and nothing else. -/
theorem Document.ofTokens_bare (tree : Tree) :
    Document.ofTokens (tokensOfSymbols tree.bare.symbols) = ⟨tree.node, none⟩ := by
  have hrun := tree.run_append .top []
  rw [List.append_nil] at hrun
  rw [Document.ofTokens, foldl_tokensOfSymbols, hrun]
  rfl

end Dealias.Json
