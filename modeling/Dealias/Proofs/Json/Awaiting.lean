import Dealias.Proofs.Json.Building

/-!
# What building waits for

Symbols that make a faultless document are those of a value (`Document.exists_tree`), where commas
before the ends of containers may have been removed from them.

## Strategy

At every stage it can be said which symbols complete the document (`Stage.Awaits`): what the value
under way still needs, and what the containers around it need behind it.  One step takes the first
of these symbols (`Stage.awaits_of_step`), and a comma before the end of a container does no harm
(`Stage.awaits_comma`).  So the claim goes back from the last symbol, behind which nothing has to
come, to the first, before which a value has to come.
-/

namespace Dealias.Json

/-! ## What a stage waits for -/

/-- Items that follow others, the end of their array and what has to come behind it. -/
def MoreItems (behind : List Symbol → Prop) (symbols : List Symbol) : Prop :=
  ∃ items hasComma rest, symbols = itemSymbols items ++ (lastComma hasComma ++ .endArray :: rest) ∧
    behind rest

/-- Members that follow others, the end of their object and what has to come behind it. -/
def MoreMembers (behind : List Symbol → Prop) (symbols : List Symbol) : Prop :=
  ∃ members hasComma rest,
    symbols = memberSymbols members ++ (lastComma hasComma ++ .endObject :: rest) ∧ behind rest

/-- What has to come behind a value. -/
def Context.Awaits : Context → List Symbol → Prop
  | top => fun symbols => symbols = []
  | item _ _ outer => MoreItems outer.Awaits
  | member _ _ _ outer => MoreMembers outer.Awaits

/-- A value and what has to come behind it. -/
def AwaitsValue (behind : List Symbol → Prop) (symbols : List Symbol) : Prop :=
  ∃ tree rest, symbols = Tree.symbols tree ++ rest ∧ behind rest

/-- A member and what has to come behind it. -/
def AwaitsMember (behind : List Symbol → Prop) (symbols : List Symbol) : Prop :=
  ∃ key later, symbols = .scalar (.text key) :: .colon :: later ∧
    AwaitsValue (MoreMembers behind) later

/-- What has to come to complete the document, commas before the ends of containers allowed. -/
def Stage.Awaits (symbols : List Symbol) : Stage → Prop
  | value context => AwaitsValue context.Awaits symbols
  | firstItem _ outer =>
    (∃ hasComma rest, symbols = lastComma hasComma ++ .endArray :: rest ∧ outer.Awaits rest) ∨
      AwaitsValue (MoreItems outer.Awaits) symbols
  | moreItems _ _ outer => MoreItems outer.Awaits symbols
  | firstKey _ outer =>
    (∃ hasComma rest, symbols = lastComma hasComma ++ .endObject :: rest ∧ outer.Awaits rest) ∨
      AwaitsMember outer.Awaits symbols
  | key _ _ outer => AwaitsMember outer.Awaits symbols
  | colon _ _ _ outer =>
    ∃ later, symbols = .colon :: later ∧ AwaitsValue (MoreMembers outer.Awaits) later
  | moreMembers _ _ outer => MoreMembers outer.Awaits symbols
  | complete _ => symbols = []
  | stopped _ => False

namespace Stage

theorem awaits_fill {node : Node} {context : Context} {symbols : List Symbol}
    (hawaits : (context.fill node).Awaits symbols) : context.Awaits symbols := by
  cases context <;> exact hawaits

theorem awaits_startValue {symbol : Symbol} {context : Context} {symbols : List Symbol}
    (hawaits : (startValue context (symbol.token 0)).Awaits symbols) :
    AwaitsValue context.Awaits (symbol :: symbols) := by
  cases symbol with
  | beginObject =>
      rcases hawaits with ⟨hasComma, rest, rfl, hrest⟩ |
        ⟨key, later, rfl, value, symbols, rfl, members, hasComma, rest, rfl, hrest⟩
      · exact ⟨.object [] hasComma, rest, by simp [Tree.symbols, memberSymbols], hrest⟩
      · exact ⟨.object ((key, value) :: members) hasComma, rest,
          by simp [Tree.symbols, memberSymbols], hrest⟩
  | beginArray =>
      rcases hawaits with ⟨hasComma, rest, rfl, hrest⟩ |
        ⟨item, symbols, rfl, items, hasComma, rest, rfl, hrest⟩
      · exact ⟨.array [] hasComma, rest, by simp [Tree.symbols, itemSymbols], hrest⟩
      · exact ⟨.array (item :: items) hasComma, rest, by simp [Tree.symbols, itemSymbols], hrest⟩
  | scalar value =>
      have hfill : startValue context (Symbol.token 0 (.scalar value)) = context.fill value.node :=
        step_scalar value context
      rw [hfill] at hawaits
      exact ⟨.scalar value, symbols, by simp [Tree.symbols], awaits_fill hawaits⟩
  | endObject | endArray | comma | colon => exact hawaits.elim

theorem awaits_startKey {symbol : Symbol} {line : Nat} {members : List (Key × Node)}
    {outer : Context} {symbols : List Symbol}
    (hawaits : (startKey line members outer (symbol.token 0)).Awaits symbols) :
    AwaitsMember outer.Awaits (symbol :: symbols) := by
  cases symbol with
  | scalar value =>
      cases value with
      | text key =>
          rw [Symbol.token_text] at hawaits
          obtain ⟨later, rfl, hlater⟩ := hawaits
          exact ⟨key, later, rfl, hlater⟩
      | _ => exact hawaits.elim
  | _ => exact hawaits.elim

/-- What a stage waits for begins with what a step takes. -/
theorem awaits_of_step {stage : Stage} {symbol : Symbol} {symbols : List Symbol}
    (hawaits : (stage.step (symbol.token 0)).Awaits symbols) :
    stage.Awaits (symbol :: symbols) := by
  cases stage with
  | value context => exact awaits_startValue hawaits
  | firstItem line outer =>
      cases hstart : symbol.startsValue with
      | true =>
          rw [step_firstItem hstart] at hawaits
          exact .inr (awaits_startValue hawaits)
      | false =>
          cases symbol with
          | endArray => exact .inl ⟨false, symbols, rfl, awaits_fill hawaits⟩
          | scalar | beginObject | beginArray => cases hstart
          | _ => exact hawaits.elim
  | moreItems line items outer =>
      cases symbol with
      | comma =>
          obtain ⟨item, later, rfl, items, hasComma, rest, rfl, hrest⟩ := hawaits
          exact ⟨item :: items, hasComma, rest, by simp [itemSymbols], hrest⟩
      | endArray => exact ⟨[], false, symbols, rfl, awaits_fill hawaits⟩
      | scalar value => cases value <;> exact hawaits.elim
      | _ => exact hawaits.elim
  | firstKey line outer =>
      cases symbol with
      | endObject => exact .inl ⟨false, symbols, rfl, awaits_fill hawaits⟩
      | scalar value =>
          cases value with
          | text key =>
              rw [step_firstKey] at hawaits
              exact .inr (awaits_startKey hawaits)
          | _ => exact hawaits.elim
      | _ => exact hawaits.elim
  | key line members outer => exact awaits_startKey hawaits
  | colon line members reading outer =>
      cases symbol with
      | colon => exact ⟨symbols, rfl, hawaits⟩
      | scalar value => cases value <;> exact hawaits.elim
      | _ => exact hawaits.elim
  | moreMembers line members outer =>
      cases symbol with
      | comma =>
          obtain ⟨key, later, rfl, value, symbols, rfl, members, hasComma, rest, rfl, hrest⟩ :=
            hawaits
          exact ⟨(key, value) :: members, hasComma, rest, by simp [memberSymbols], hrest⟩
      | endObject => exact ⟨[], false, symbols, rfl, awaits_fill hawaits⟩
      | scalar value => cases value <;> exact hawaits.elim
      | _ => exact hawaits.elim
  | complete root => exact hawaits.elim
  | stopped document => exact hawaits.elim

theorem not_awaitsValue_of_isEnd {behind : List Symbol → Prop} {symbol : Symbol}
    {symbols : List Symbol} (hend : symbol.isEnd = true) :
    ¬ AwaitsValue behind (symbol :: symbols) := by
  rintro ⟨tree, rest, hsymbols, -⟩
  obtain ⟨first, later, htree, hstart⟩ := tree.exists_symbols
  rw [htree, List.cons_append] at hsymbols
  obtain ⟨rfl, -⟩ := List.cons.inj hsymbols
  rw [Symbol.isEnd_of_startsValue hstart] at hend
  cases hend

theorem lastComma_cons {symbol ending : Symbol} {symbols rest : List Symbol} {hasComma : Bool}
    (hend : symbol.isEnd = true)
    (hsymbols : symbol :: symbols = lastComma hasComma ++ ending :: rest) :
    .comma :: symbol :: symbols = lastComma true ++ ending :: rest := by
  cases hasComma with
  | false => exact congrArg (Symbol.comma :: ·) hsymbols
  | true =>
      obtain ⟨rfl, -⟩ := List.cons.inj hsymbols
      cases hend

/-- A comma may come before the end of a container. -/
theorem awaits_comma {stage : Stage} {symbol : Symbol} {symbols : List Symbol}
    (hend : symbol.isEnd = true) (hawaits : stage.Awaits (symbol :: symbols)) :
    stage.Awaits (.comma :: symbol :: symbols) := by
  have hmember {outer : Context} : ¬ AwaitsMember outer.Awaits (symbol :: symbols) := by
    rintro ⟨key, later, hsymbols, -⟩
    obtain ⟨rfl, -⟩ := List.cons.inj hsymbols
    cases hend
  cases stage with
  | value context => exact absurd hawaits (not_awaitsValue_of_isEnd hend)
  | firstItem line outer =>
      rcases hawaits with ⟨hasComma, rest, hsymbols, hrest⟩ | hvalue
      · exact .inl ⟨true, rest, lastComma_cons hend hsymbols, hrest⟩
      · exact absurd hvalue (not_awaitsValue_of_isEnd hend)
  | moreItems line items outer =>
      obtain ⟨items, hasComma, rest, hsymbols, hrest⟩ := hawaits
      cases items with
      | nil => exact ⟨[], true, rest, lastComma_cons hend hsymbols, hrest⟩
      | cons item items =>
          obtain ⟨rfl, -⟩ := List.cons.inj hsymbols
          cases hend
  | firstKey line outer =>
      rcases hawaits with ⟨hasComma, rest, hsymbols, hrest⟩ | hawaits
      · exact .inl ⟨true, rest, lastComma_cons hend hsymbols, hrest⟩
      · exact absurd hawaits hmember
  | key line members outer => exact absurd hawaits hmember
  | colon line members reading outer =>
      obtain ⟨later, hsymbols, -⟩ := hawaits
      obtain ⟨rfl, -⟩ := List.cons.inj hsymbols
      cases hend
  | moreMembers line members outer =>
      obtain ⟨members, hasComma, rest, hsymbols, hrest⟩ := hawaits
      cases members with
      | nil => exact ⟨[], true, rest, lastComma_cons hend hsymbols, hrest⟩
      | cons member members =>
          obtain ⟨rfl, -⟩ := List.cons.inj hsymbols
          cases hend
  | complete root => exact (List.cons_ne_nil _ _ hawaits).elim
  | stopped document => exact hawaits

theorem awaits_of_run {stage : Stage} {symbols : List Symbol} {root : Node}
    (hrun : stage.run (dropCommas symbols) = .complete root) : stage.Awaits symbols := by
  induction symbols generalizing stage with
  | nil =>
      obtain rfl : stage = .complete root := hrun
      rfl
  | cons symbol symbols ih =>
      rw [dropCommas] at hrun
      split at hrun
      case isTrue hdropped =>
        obtain ⟨hcomma, hend⟩ := hdropped
        rcases symbols with - | ⟨next, symbols⟩
        · cases hend
        · obtain rfl := Symbol.eq_comma_of_isComma hcomma
          exact awaits_comma (by simpa using hend) (ih hrun)
      case isFalse => exact awaits_of_step (ih hrun)

end Stage

/-- **Faultless trees.**  Where symbols make a faultless document once the commas before the ends of
containers are gone, they are those of a value. -/
theorem Document.exists_tree {symbols : List Symbol}
    (hfaultless : (Document.ofTokens (tokensOfSymbols (dropCommas symbols))).IsFaultless) :
    ∃ tree : Tree, symbols = tree.symbols := by
  obtain ⟨⟨root, hcomplete⟩, -⟩ := TokenList.complete_of_isFaultless hfaultless
  rw [foldl_tokensOfSymbols] at hcomplete
  obtain ⟨tree, rest, hsymbols, rfl⟩ := Stage.awaits_of_run hcomplete
  exact ⟨tree, by rw [hsymbols, List.append_nil]⟩

/-! ## Accepted texts -/

/-- Whether a text is accepted, whatever value it is. -/
def IsAccepted (text : String) : Prop :=
  readText skip text = .ok ()

theorem isAccepted_iff {text : String} : IsAccepted text ↔ (Document.ofText text).IsFaultless := by
  rw [IsAccepted, readText_eq, Document.read_eq_ok_iff, skip_eq_ok_iff, Document.IsFaultless]

theorem Document.isFaultless_relabel (label : Nat → Nat) (document : Document) :
    (document.relabel label).IsFaultless ↔ document.IsFaultless := by
  simp [IsFaultless, relabel, Node.fault?_relabel]

end Dealias.Json
