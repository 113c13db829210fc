import Dealias.Proofs.Json.Lexing

/-!
# Symbols of trees

Two facts about the symbols of a value: without the commas before the ends of containers they are
those of the bare value (`Tree.dropCommas_symbols`), and values that hold no others stand apart in
them (`Tree.areApart_symbols`).

Both are proved with symbols behind those of the value, by one case for each kind of value and one
for each kind of row within a container.
-/

namespace Dealias.Json

/-! ## Commas before the ends of containers -/

/-- Whether a symbol ends a container. -/
def Symbol.isEnd : Symbol → Bool
  | endObject | endArray => true
  | _ => false

/-- Whether a symbol is a comma. -/
def Symbol.isComma : Symbol → Bool
  | comma => true
  | _ => false

theorem Symbol.eq_comma_of_isComma {symbol : Symbol} (hcomma : symbol.isComma = true) :
    symbol = .comma := by
  cases symbol with
  | comma => rfl
  | _ => cases hcomma

/-- Symbols without commas before the ends of containers. -/
def dropCommas : List Symbol → List Symbol
  | [] => []
  | symbol :: symbols =>
    if symbol.isComma = true ∧ symbols.head?.any Symbol.isEnd = true then dropCommas symbols
    else symbol :: dropCommas symbols

/-- Whether a value can start with a symbol. -/
def Symbol.startsValue : Symbol → Bool
  | scalar _ | beginObject | beginArray => true
  | _ => false

theorem Symbol.isEnd_of_startsValue {symbol : Symbol} (hstart : symbol.startsValue = true) :
    symbol.isEnd = false := by
  cases symbol <;> first | rfl | cases hstart

theorem Tree.exists_symbols (tree : Tree) :
    ∃ symbol symbols, tree.symbols = symbol :: symbols ∧ symbol.startsValue = true := by
  cases tree with
  | scalar value => exact ⟨_, _, by rw [symbols], rfl⟩
  | array items hasComma => exact ⟨_, _, by rw [symbols], rfl⟩
  | object members hasComma => exact ⟨_, _, by rw [symbols], rfl⟩

theorem dropCommas_cons_of_ne {symbol : Symbol} (hcomma : symbol.isComma = false)
    (symbols : List Symbol) : dropCommas (symbol :: symbols) = symbol :: dropCommas symbols := by
  rw [dropCommas, if_neg]
  simp [hcomma]

theorem dropCommas_comma_of_startsValue {symbol : Symbol} (hstart : symbol.startsValue = true)
    (symbols : List Symbol) :
    dropCommas (.comma :: symbol :: symbols) = .comma :: dropCommas (symbol :: symbols) := by
  rw [dropCommas, if_neg]
  simp [Symbol.isEnd_of_startsValue hstart]

theorem dropCommas_lastComma (hasComma : Bool) (symbol : Symbol) (hend : symbol.isEnd = true)
    (symbols : List Symbol) :
    dropCommas (lastComma hasComma ++ symbol :: symbols) = symbol :: dropCommas symbols := by
  have hcomma : symbol.isComma = false := by
    cases symbol <;> first | rfl | cases hend
  cases hasComma with
  | false => exact dropCommas_cons_of_ne hcomma symbols
  | true =>
      change dropCommas (.comma :: symbol :: symbols) = _
      rw [dropCommas, if_pos ⟨rfl, by simpa using hend⟩, dropCommas_cons_of_ne hcomma]

mutual

theorem Tree.dropCommas_append : (tree : Tree) → (rest : List Symbol) →
    dropCommas (tree.symbols ++ rest) = tree.bare.symbols ++ dropCommas rest
  | .scalar value, rest => by
      rw [Tree.bare, Tree.symbols]
      exact dropCommas_cons_of_ne rfl rest
  | .array [] hasComma, rest => by
      have hend := dropCommas_lastComma hasComma .endArray rfl rest
      rw [Tree.bare, bareItems, Tree.symbols, Tree.symbols, List.cons_append,
        dropCommas_cons_of_ne rfl]
      simpa [itemSymbols, lastComma] using hend
  | .array (item :: items) hasComma, rest => by
      have hend := dropCommas_lastComma hasComma .endArray rfl rest
      have hitems := item.dropCommas_append
        (itemSymbols items ++ (lastComma hasComma ++ .endArray :: rest))
      rw [dropCommas_itemSymbols, hend] at hitems
      rw [Tree.bare, bareItems, Tree.symbols, Tree.symbols, List.cons_append,
        dropCommas_cons_of_ne rfl]
      simpa [itemSymbols, lastComma] using hitems
  | .object [] hasComma, rest => by
      have hend := dropCommas_lastComma hasComma .endObject rfl rest
      rw [Tree.bare, bareMembers, Tree.symbols, Tree.symbols, List.cons_append,
        dropCommas_cons_of_ne rfl]
      simpa [memberSymbols, lastComma] using hend
  | .object ((key, value) :: members) hasComma, rest => by
      have hend := dropCommas_lastComma hasComma .endObject rfl rest
      have hmembers := value.dropCommas_append
        (memberSymbols members ++ (lastComma hasComma ++ .endObject :: rest))
      rw [dropCommas_memberSymbols, hend] at hmembers
      have hkey (symbols : List Symbol) : dropCommas (.scalar (.text key) :: symbols) = _ :=
        dropCommas_cons_of_ne rfl symbols
      have hcolon (symbols : List Symbol) : dropCommas (.colon :: symbols) = _ :=
        dropCommas_cons_of_ne rfl symbols
      rw [Tree.bare, bareMembers, Tree.symbols, Tree.symbols, List.cons_append,
        dropCommas_cons_of_ne rfl]
      simpa [memberSymbols, lastComma, hkey, hcolon] using hmembers

theorem dropCommas_itemSymbols : (items : List Tree) → (rest : List Symbol) →
    dropCommas (itemSymbols items ++ rest) = itemSymbols (bareItems items) ++ dropCommas rest
  | [], rest => rfl
  | item :: items, rest => by
      obtain ⟨symbol, symbols, hsymbols, hstart⟩ := item.exists_symbols
      have hitem := item.dropCommas_append (itemSymbols items ++ rest)
      rw [dropCommas_itemSymbols items rest, hsymbols, List.cons_append] at hitem
      rw [itemSymbols, bareItems, itemSymbols, hsymbols, List.cons_append, List.append_assoc,
        List.cons_append, dropCommas_comma_of_startsValue hstart, hitem]
      simp

theorem dropCommas_memberSymbols : (members : List (Literal × Tree)) → (rest : List Symbol) →
    dropCommas (memberSymbols members ++ rest) =
      memberSymbols (bareMembers members) ++ dropCommas rest
  | [], rest => rfl
  | (key, value) :: members, rest => by
      have hvalue := value.dropCommas_append (memberSymbols members ++ rest)
      rw [dropCommas_memberSymbols members rest] at hvalue
      rw [memberSymbols, bareMembers, memberSymbols, List.cons_append, List.cons_append,
        List.cons_append, List.append_assoc, dropCommas_comma_of_startsValue rfl,
        dropCommas_cons_of_ne rfl, dropCommas_cons_of_ne rfl, hvalue]
      simp

end

/-- Symbols of a value without commas before the ends of containers are those of the bare value. -/
theorem Tree.dropCommas_symbols (tree : Tree) : dropCommas tree.symbols = tree.bare.symbols := by
  simpa [dropCommas] using tree.dropCommas_append []

/-! ## Values that hold no others stand apart -/

theorem areApart_cons_of_not_isScalar {symbol : Symbol} (hscalar : symbol.isScalar = false)
    {symbols : List Symbol} : AreApart (symbol :: symbols) ↔ AreApart symbols := by
  rw [AreApart, List.isChain_cons]
  simp [hscalar, AreApart]

theorem areApart_lastComma (hasComma : Bool) (symbol : Symbol) (hend : symbol.isEnd = true)
    {symbols : List Symbol} (hsymbols : AreApart symbols) :
    AreApart (lastComma hasComma ++ symbol :: symbols) ∧
      ∀ next ∈ (lastComma hasComma ++ symbol :: symbols).head?, next.isScalar = false := by
  have hscalar : symbol.isScalar = false := by
    cases symbol <;> first | rfl | cases hend
  have hapart := (areApart_cons_of_not_isScalar hscalar).mpr hsymbols
  cases hasComma with
  | false => exact ⟨hapart, by simpa [lastComma] using hscalar⟩
  | true =>
      have hcomma : AreApart (.comma :: symbol :: symbols) :=
        (areApart_cons_of_not_isScalar rfl).mpr hapart
      exact ⟨hcomma, by simp [lastComma, Symbol.isScalar]⟩

theorem areApart_tail {symbols rest : List Symbol}
    (hcomma : symbols.head?.all Symbol.isComma = true) (hsymbols : AreApart (symbols ++ rest)) :
    AreApart (symbols.tail ++ rest) := by
  rcases symbols with - | ⟨symbol, symbols⟩
  · exact hsymbols
  · have hscalar : symbol.isScalar = false := by
      cases symbol <;> first | rfl | cases hcomma
    exact (areApart_cons_of_not_isScalar hscalar).mp hsymbols

theorem head?_itemSymbols (items : List Tree) :
    (itemSymbols items).head?.all Symbol.isComma = true := by
  cases items <;> rfl

theorem head?_memberSymbols (members : List (Literal × Tree)) :
    (memberSymbols members).head?.all Symbol.isComma = true := by
  cases members <;> rfl

mutual

theorem Tree.areApart_append : (tree : Tree) → {rest : List Symbol} → AreApart rest →
    (∀ next ∈ rest.head?, next.isScalar = false) → AreApart (tree.symbols ++ rest)
  | .scalar value, rest, hrest, hhead => by
      rw [Tree.symbols]
      exact List.isChain_cons.mpr ⟨fun next hnext _ => hhead next hnext, hrest⟩
  | .array items hasComma, rest, hrest, _ => by
      obtain ⟨hend, hhead⟩ := areApart_lastComma hasComma .endArray rfl hrest
      have hitems := areApart_tail (head?_itemSymbols items) (areApart_itemSymbols items hend hhead)
      rw [Tree.symbols, List.cons_append, areApart_cons_of_not_isScalar rfl]
      simpa using hitems
  | .object members hasComma, rest, hrest, _ => by
      obtain ⟨hend, hhead⟩ := areApart_lastComma hasComma .endObject rfl hrest
      have hmembers :=
        areApart_tail (head?_memberSymbols members) (areApart_memberSymbols members hend hhead)
      rw [Tree.symbols, List.cons_append, areApart_cons_of_not_isScalar rfl]
      simpa using hmembers

theorem areApart_itemSymbols : (items : List Tree) → {rest : List Symbol} → AreApart rest →
    (∀ next ∈ rest.head?, next.isScalar = false) → AreApart (itemSymbols items ++ rest)
  | [], rest, hrest, _ => hrest
  | item :: items, rest, hrest, hhead => by
      rw [itemSymbols, List.cons_append, areApart_cons_of_not_isScalar rfl, List.append_assoc]
      refine item.areApart_append (areApart_itemSymbols items hrest hhead) ?_
      cases items with
      | nil => exact hhead
      | cons next items => simp [itemSymbols, Symbol.isScalar]

theorem areApart_memberSymbols : (members : List (Literal × Tree)) → {rest : List Symbol} →
    AreApart rest → (∀ next ∈ rest.head?, next.isScalar = false) →
    AreApart (memberSymbols members ++ rest)
  | [], rest, hrest, _ => hrest
  | (key, value) :: members, rest, hrest, hhead => by
      have hvalue : AreApart (value.symbols ++ (memberSymbols members ++ rest)) := by
        refine value.areApart_append (areApart_memberSymbols members hrest hhead) ?_
        cases members with
        | nil => exact hhead
        | cons next members => simp [memberSymbols, Symbol.isScalar]
      have hcolon : AreApart (.colon :: (value.symbols ++ (memberSymbols members ++ rest))) :=
        (areApart_cons_of_not_isScalar rfl).mpr hvalue
      rw [memberSymbols, List.cons_append, areApart_cons_of_not_isScalar rfl, List.cons_append,
        List.cons_append, List.append_assoc]
      exact List.isChain_cons.mpr ⟨by simp [Symbol.isScalar], hcolon⟩

end

theorem Tree.areApart_symbols (tree : Tree) : AreApart tree.symbols := by
  have happend : AreApart (tree.symbols ++ []) := tree.areApart_append List.IsChain.nil nofun
  rwa [List.append_nil] at happend

end Dealias.Json
