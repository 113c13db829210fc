import Dealias.Project.Basic
import Dealias.Proofs.Json.Awaiting
import Dealias.Proofs.Json.Commas
import Dealias.Proofs.Json.Comments

/-!
# Relaxed project files

A project file is read as the strict JSON that is left of it.  So what is decided about what is left
has to be decided about the file.

* `Project.ofText_relaxed`: relaxed JSON is read as the strict JSON for the same value.
* `Project.ofText_loose`: what is accepted is loose JSON, and all else is refused.
* `Project.ofText_not_only_relaxed`: loose JSON that is not relaxed is accepted as well.

## Strategy

The two passes and the two machines have been characterized one by one, in both directions.  Here
they are put together: a loose text of a value becomes a strict one
(`IsLooseJson.isJson_strictText`), whose document is the tree of the value (`IsJson.document_eq`);
and an accepted text is a row of symbols that make a faultless document, so they are those of a
value, and so is the text from which they are left (`exists_isLooseJson`).
-/

namespace Dealias

namespace Json

/-! ## Documents of written texts -/

theorem tokensOf_eq {symbols : List Symbol} {text : String}
    (hwritten : Written .strict symbols text.toList) (hapart : AreApart symbols) :
    (Document.ofText text).relabel forgetLine = Document.ofTokens (tokensOfSymbols symbols) := by
  rw [Document.ofText, ← Document.ofTokens_relabel, tokensOf, hwritten.tokensFrom_eq hapart]

/-- The document of a strict text is the tree of its value. -/
theorem IsJson.document_eq {tree : Tree} {text : String} (hjson : IsJson tree text) :
    (Document.ofText text).relabel forgetLine = ⟨tree.node, none⟩ := by
  rw [tokensOf_eq hjson tree.bare.areApart_symbols, Document.ofTokens_bare]

theorem isAccepted_of_document_eq {tree : Tree} {text : String}
    (hdocument : (Document.ofText text).relabel forgetLine = ⟨tree.node, none⟩) :
    IsAccepted text := by
  rw [isAccepted_iff, ← Document.isFaultless_relabel forgetLine, hdocument]
  exact ⟨tree.fault?_node, rfl⟩

/-- The symbols of an accepted text. -/
theorem IsAccepted.exists_written {text : String} (haccepted : IsAccepted text) :
    ∃ symbols, Written .strict symbols text.toList ∧
      (Document.ofTokens (tokensOfSymbols symbols)).IsFaultless := by
  have hfaultless := isAccepted_iff.mp haccepted
  obtain ⟨-, hwhole⟩ := TokenList.complete_of_isFaultless hfaultless
  obtain ⟨symbols, hwritten, htokens⟩ := Json.exists_written hwhole
  refine ⟨symbols, hwritten, ?_⟩
  rw [← htokens, Document.ofTokens_relabel, Document.isFaultless_relabel]
  exact hfaultless

/-! ## Stripped texts -/

theorem toList_strictText (text : String) :
    (strictText text).toList = removeCommasFrom false (removeCommentsFrom .plain text.toList) :=
  String.toList_ofList

theorem Interrupted.refl {word : List Char} (hword : word ≠ []) : Interrupted word word := by
  induction word with
  | nil => exact absurd rfl hword
  | cons character word ih =>
      rcases word with - | ⟨next, word⟩
      · exact .last character
      · exact @Interrupted.next character [] _ _ nofun (ih (List.cons_ne_nil _ _))

theorem isLooseSpelling_characters (symbol : Symbol) :
    IsLooseSpelling symbol symbol.characters := by
  cases hsymbol : symbol.isText with
  | false =>
      obtain ⟨first, later, hcharacters, -⟩ := Symbol.exists_characters hsymbol
      exact (isLooseSpelling_iff hsymbol).mpr (.refl (hcharacters ▸ List.cons_ne_nil _ _))
  | true =>
      obtain ⟨literal, rfl⟩ := Symbol.exists_of_isText hsymbol
      rfl

/-- What is relaxed is loose. -/
theorem Written.loose_of_relaxed {symbols : List Symbol} {text : List Char}
    (hwritten : Written .relaxed symbols text) : Written .loose symbols text := by
  induction hwritten with
  | ending hending => exact .ending (.relaxed hending)
  | gap hgap hwritten ih => exact .gap hgap ih
  | @symbol symbol symbols front rest hspelling hwritten ih =>
      obtain rfl : front = symbol.characters := hspelling
      exact .symbol (isLooseSpelling_characters symbol) ih

/-- What is strict is relaxed. -/
theorem Written.relaxed_of_strict {symbols : List Symbol} {text : List Char}
    (hwritten : Written .strict symbols text) : Written .relaxed symbols text := by
  induction hwritten with
  | ending hending =>
      obtain rfl := hending
      exact .ending .nothing
  | gap hgap hwritten ih =>
      obtain ⟨hspace⟩ := hgap
      exact .gap (IsRelaxedGap.space hspace) ih
  | symbol hspelling hwritten ih => exact .symbol hspelling ih

/-- What is left of loose JSON is strict JSON for the same value. -/
theorem IsLooseJson.isJson_strictText {tree : Tree} {text : String}
    (hloose : IsLooseJson tree text) : IsJson tree (strictText text) := by
  have hstrict := (Written.removeComments hloose).removeCommas
  rwa [tree.dropCommas_symbols, ← toList_strictText] at hstrict

/-- Where strict JSON is left, there was loose JSON. -/
theorem exists_isLooseJson {text : String} (haccepted : IsAccepted (strictText text)) :
    ∃ tree, IsLooseJson tree text := by
  obtain ⟨symbols, hwritten, hfaultless⟩ := haccepted.exists_written
  rw [toList_strictText] at hwritten
  obtain ⟨all, hall, rfl⟩ := hwritten.of_removeCommas
  obtain ⟨tree, rfl⟩ := Document.exists_tree hfaultless
  exact ⟨tree, hall.of_removeComments⟩

/-- **Loose texts.**  Accepted once comments and commas are removed is just loose JSON. -/
theorem isAccepted_strictText_iff (text : String) :
    IsAccepted (strictText text) ↔ ∃ tree, IsLooseJson tree text := by
  refine ⟨exists_isLooseJson, ?_⟩
  rintro ⟨tree, hloose⟩
  exact isAccepted_of_document_eq hloose.isJson_strictText.document_eq

/-! ## Readings without lines -/

theorem relabelReading_eq_ok_iff {Value : Type} {label : Nat → Nat}
    {reading : Except Fault Value} {value : Value} :
    relabelReading label reading = .ok value ↔ reading = .ok value := by
  cases reading <;> simp

/-- A strict text is read as the tree that it is written for. -/
theorem IsJson.readText_eq_ok_iff {tree : Tree} {text : String} (hjson : IsJson tree text)
    {Value : Type} {read : Reader Value} (hread : Reader.IsRegular read) {value : Value} :
    readText read text = .ok value ↔ read tree.node = .ok value := by
  rw [readText_eq, ← @relabelReading_eq_ok_iff _ forgetLine, ← Document.read_relabel hread,
    hjson.document_eq, Document.read_eq_ok_iff]
  exact and_iff_left rfl

/-- Texts with the same document are read alike. -/
theorem readText_eq_ok_iff_of_relabel {Value : Type} {read : Reader Value}
    (hread : Reader.IsRegular read) {label : Nat → Nat} {first second : String}
    (hdocument : (Document.ofText first).relabel label = (Document.ofText second).relabel label)
    (value : Value) : readText read first = .ok value ↔ readText read second = .ok value := by
  rw [readText_eq, readText_eq, ← @relabelReading_eq_ok_iff _ label,
    ← Document.read_relabel hread, hdocument, Document.read_relabel hread,
    relabelReading_eq_ok_iff]

/-- A text that some reader takes is accepted. -/
theorem isAccepted_of_readText {Value : Type} {read : Reader Value}
    (hread : Reader.IsRegular read) {text : String} {value : Value}
    (hvalue : readText read text = .ok value) : IsAccepted text := by
  rw [readText_eq, Document.read_eq_ok_iff] at hvalue
  exact isAccepted_iff.mpr ⟨hread.thorough _ value hvalue.1, hvalue.2⟩

/-! ## Texts that are not relaxed -/

/-- The symbols of a relaxed text stand in it as they are. -/
theorem Written.symbol_infix {symbols : List Symbol} {text : List Char}
    (hwritten : Written .relaxed symbols text) :
    ∀ symbol ∈ symbols, symbol.characters <:+: text := by
  induction hwritten with
  | ending hending => nofun
  | gap hgap hwritten ih =>
      exact fun symbol hsymbol => (ih symbol hsymbol).trans (List.suffix_append _ _).isInfix
  | @symbol symbol symbols front rest hspelling hwritten ih =>
      obtain rfl : front = symbol.characters := hspelling
      refine List.forall_mem_cons.mpr ⟨(List.prefix_append _ _).isInfix, fun later hlater => ?_⟩
      exact (ih later hlater).trans (List.suffix_append _ _).isInfix

/-- Relaxed texts can be joined by a line break. -/
theorem Written.append_line {symbols later : List Symbol} {text rest : List Char}
    (hwritten : Written .relaxed symbols text) (hlater : Written .relaxed later rest) :
    Written .relaxed (symbols ++ later) (text ++ '\n' :: rest) := by
  induction hwritten with
  | ending hending =>
      obtain - | @⟨body, hbody⟩ := hending
      · exact .cons_gap (IsRelaxedGap.space rfl) hlater
      · have hgap : Manner.relaxed.gap ('/' :: '/' :: (body ++ ['\n'])) := .lineComment hbody
        simpa using Written.gap hgap hlater
  | gap hgap hwritten ih =>
      rw [List.append_assoc]
      exact .gap hgap ih
  | symbol hspelling hwritten ih =>
      rw [List.append_assoc]
      exact .symbol hspelling ih

theorem Written.tokensFrom_removeComments {symbols : List Symbol} {text : List Char}
    (hwritten : Written .relaxed symbols text) (hapart : AreApart symbols) :
    (tokensFrom 1 .between (removeCommentsFrom .plain text)).tokens.map (Token.relabel forgetLine) =
      symbols.map (Symbol.token 0) :=
  congrArg TokenList.tokens (hwritten.loose_of_relaxed.removeComments.tokensFrom_eq hapart 1)

/-- A comment within a number makes two numbers of it. -/
theorem not_isRelaxedJson_glued (tree : Tree) : ¬ IsRelaxedJson tree "\x7b\"a\":1/**/2\x7d" := by
  rintro ⟨-, hwritten⟩
  have htext : "\x7b\"a\":1/**/2\x7d".toList =
      ['{', '"', 'a', '"', ':', '1', '/', '*', '*', '/', '2', '}'] := by decide +kernel
  rw [htext] at hwritten
  have htokens := hwritten.tokensFrom_removeComments tree.areApart_symbols
  have hmem : (⟨0, .number ⟨['1', '2']⟩⟩ : Token) ∈ tree.symbols.map (Symbol.token 0) := by
    rw [← htokens]
    exact .tail _ (.tail _ (.tail _ (.head _)))
  obtain ⟨symbol, hsymbol, htoken⟩ := List.mem_map.mp hmem
  have hinfix := hwritten.symbol_infix symbol hsymbol
  have hcharacters : symbol.characters = ['1', '2'] := by
    cases symbol with
    | scalar value =>
        cases value with
        | number written =>
            exact congrArg Numeral.characters (Lexeme.number.inj (Token.mk.inj htoken).2)
        | text literal =>
            rw [Symbol.token_text] at htoken
            cases htoken
        | _ => cases htoken
    | _ => cases htoken
  rw [hcharacters] at hinfix
  exact absurd hinfix (by decide)

/-- An empty object has no last member. -/
theorem not_isRelaxedJson_empty (tree : Tree) : ¬ IsRelaxedJson tree "\x7b,\x7d" := by
  rintro ⟨hproper, hwritten⟩
  have htext : "\x7b,\x7d".toList = ['{', ',', '}'] := by decide +kernel
  rw [htext] at hwritten
  have htokens : [⟨0, .beginObject⟩, ⟨0, .comma⟩, ⟨0, .endObject⟩] =
      tree.symbols.map (Symbol.token 0) :=
    hwritten.tokensFrom_removeComments tree.areApart_symbols
  cases tree with
  | scalar value => cases (congrArg List.length htokens)
  | array items hasComma => cases (List.cons.inj htokens).1
  | object members hasComma =>
      rcases members with - | ⟨⟨key, value⟩, members⟩
      · cases hasComma with
        | false => cases (congrArg List.length htokens)
        | true => exact absurd rfl (hproper.1 rfl)
      · have hkey := (List.cons.inj (List.cons.inj htokens).2).1
        rw [Symbol.token_text] at hkey
        cases hkey

/-- A block comment has to end. -/
theorem not_isRelaxedJson_open (tree : Tree) : ¬ IsRelaxedJson tree "\x7b\x7d/*" := by
  rintro ⟨-, hwritten⟩
  have htext : "\x7b\x7d/*".toList = ['{', '}', '/', '*'] := by decide +kernel
  rw [htext] at hwritten
  have hlength := congrArg List.length (hwritten.tokensFrom_removeComments tree.areApart_symbols)
  have hspelling : Manner.relaxed.spelling .comma [','] := rfl
  have hcomma : Written .relaxed [.comma] [','] :=
    .cons_symbol hspelling (.ending IsRelaxedEnding.nothing)
  have hmore := hwritten.append_line hcomma
  have hapart : AreApart (tree.symbols ++ [.comma]) :=
    tree.areApart_append (List.isChain_singleton _) (by simp [Symbol.isScalar])
  have hlonger := congrArg List.length (hmore.tokensFrom_removeComments hapart)
  have htwo : 2 = tree.symbols.length := hlength.trans (List.length_map _)
  have hthree : 2 = (tree.symbols ++ [Symbol.comma]).length := hlonger.trans (List.length_map _)
  rw [List.length_append, List.length_singleton] at hthree
  omega

end Json

/-! ## Project files -/

open Json

theorem isRegular_path : Reader.IsRegular path :=
  isRegular_map isRegular_text Path.mk

theorem CompilerOptions.isRegular_read : Reader.IsRegular CompilerOptions.shape.read := by
  have hpath := isRegular_optional isRegular_path
  have hpaths := isRegular_optional (isRegular_dictionary (isRegular_list isRegular_text))
  refine RecordShape.isRegular_read fun field hfield => ?_
  simp only [CompilerOptions.shape, CompilerOptionsDraft.fields, List.mem_cons,
    List.not_mem_nil, or_false] at hfield
  rcases hfield with rfl | rfl | rfl | rfl
  · exact Field.isRegular_make hpath _ _ _ _
  · exact Field.isRegular_make hpath _ _ _ _
  · exact Field.isRegular_make hpath _ _ _ _
  · exact Field.isRegular_make hpaths _ _ _ _

theorem Project.isRegular_read : Reader.IsRegular Project.shape.read := by
  refine RecordShape.isRegular_read fun field hfield => ?_
  simp only [Project.shape, ProjectDraft.fields, List.mem_cons, List.not_mem_nil, or_false]
    at hfield
  rcases hfield with rfl | rfl
  · exact Field.isRegular_make CompilerOptions.isRegular_read _ _ _ _
  · exact Field.isRegular_make (isRegular_optional isRegular_text) _ _ _ _

theorem Project.ofText_eq_ok_iff {text : String} {origin : Path} {project : Project} :
    Project.ofText text origin = .ok project ↔
      readText Project.shape.read (strictText text) = .ok project := by
  unfold Project.ofText
  cases readText Project.shape.read (strictText text) <;> simp [Except.mapError]

/-- **Relaxed JSON is read as the JSON it decorates.**  Blanks, comments and commas before the ends
of containers that are not empty change nothing but lines: what is left of a text with them makes
the document of the strict text, and the project is the same. -/
theorem Project.ofText_relaxed (tree : Tree) {json relaxed : String} (hjson : IsJson tree json)
    (hrelaxed : IsRelaxedJson tree relaxed) :
    IsAccepted json ∧ IsAccepted (strictText relaxed) ∧
      (Document.ofText (strictText relaxed)).relabel forgetLine =
        (Document.ofText json).relabel forgetLine ∧
      ∀ (origin : Path) (project : Project),
        Project.ofText relaxed origin = .ok project ↔ Project.ofText json origin = .ok project := by
  have hleft : IsJson tree (strictText relaxed) :=
    IsLooseJson.isJson_strictText hrelaxed.2.loose_of_relaxed
  have hself : IsJson tree.bare (strictText json) :=
    IsLooseJson.isJson_strictText (Written.relaxed_of_strict hjson).loose_of_relaxed
  have hdocument : (Document.ofText (strictText relaxed)).relabel forgetLine =
      (Document.ofText (strictText json)).relabel forgetLine := by
    rw [hleft.document_eq, hself.document_eq, tree.node_bare]
  refine ⟨isAccepted_of_document_eq hjson.document_eq, isAccepted_of_document_eq hleft.document_eq,
    hleft.document_eq.trans hjson.document_eq.symm, fun origin project => ?_⟩
  rw [Project.ofText_eq_ok_iff, Project.ofText_eq_ok_iff]
  exact readText_eq_ok_iff_of_relabel Project.isRegular_read hdocument project

/-- A text of two slashes. -/
def Json.Literal.slashes : Literal where
  body := ['/', '/']
  isBody := .plain (by decide) (by decide) (by decide) <|
    .plain (by decide) (by decide) (by decide) .nil

/-- An array with an empty object, a text of two slashes and a comma behind it. -/
def Json.Tree.sample : Tree :=
  .array [.object [] false, .scalar (.text .slashes)] true

/-- A comment with a comma, a text with slashes, a comma before the end and a comment behind it. -/
theorem Project.ofText_relaxed_sample :
    IsJson .sample "[{},\"//\"]" ∧ IsRelaxedJson .sample "[{},/*,*/\"//\",]//" ∧
      (Project.ofText "[{},/*,*/\"//\",]//" ⟨"tsconfig.json"⟩).toOption.map Project.extends? =
        some (some "//") := by
  have hjson : IsJson .sample "[{},\"//\"]" := by
    have htext : "[{},\"//\"]".toList = ['['] ++ (['{'] ++ (['}'] ++ ([','] ++
      (['"', '/', '/', '"'] ++ ([']'] ++ []))))) := by decide +kernel
    rw [IsJson, htext]
    exact .symbol rfl <| .symbol rfl <| .symbol rfl <| .symbol rfl <| .symbol rfl <|
      .symbol rfl <| .ending rfl
  have hrelaxed : IsRelaxedJson .sample "[{},/*,*/\"//\",]//" := by
    have htext : "[{},/*,*/\"//\",]//".toList = ['['] ++ (['{'] ++ (['}'] ++ ([','] ++
      (['/', '*', ',', '*', '/'] ++ (['"', '/', '/', '"'] ++ ([','] ++
        ([']'] ++ ['/', '/']))))))) := by decide +kernel
    have hcomment : IsBlockComment ['/', '*', ',', '*', '/'] := ⟨[','], rfl, by decide⟩
    have hlast : IsRelaxedEnding ['/', '/'] := .lineComment List.not_mem_nil
    refine ⟨by simp [Tree.sample, Tree.IsProper, AreProperItems, AreProperMembers], ?_⟩
    rw [htext]
    exact .symbol rfl <| .symbol rfl <| .symbol rfl <| .symbol rfl <|
      .gap (IsRelaxedGap.blockComment hcomment) <| .symbol rfl <| .symbol rfl <| .symbol rfl <|
      .ending hlast
  have hread : (Project.ofText "[{},\"//\"]" ⟨"tsconfig.json"⟩).toOption.map Project.extends? =
      some (some "//") := by decide +kernel
  refine ⟨hjson, hrelaxed, ?_⟩
  obtain ⟨-, -, -, hsame⟩ := Project.ofText_relaxed .sample hjson hrelaxed
  cases hresult : Project.ofText "[{},\"//\"]" ⟨"tsconfig.json"⟩ with
  | error fault =>
      rw [hresult] at hread
      cases hread
  | ok project =>
      rw [(hsame _ project).mpr hresult, ← hresult]
      exact hread

/-- **Only loose JSON is accepted.**  What is left of a text is accepted just if the text is a row
of symbols with blanks and comments between them that makes one value.  At most one comma stands
before the end of a container, comments stand inside of nothing but words and numbers and only
within a line, and none but the last is open.  All other texts are refused as invalid. -/
theorem Project.ofText_loose (text : String) :
    (IsAccepted (strictText text) ↔ ∃ tree, IsLooseJson tree text) ∧
      (∀ (origin : Path) (project : Project), Project.ofText text origin = .ok project →
        ∃ tree, IsLooseJson tree text) ∧
      ((∀ tree, ¬ IsLooseJson tree text) → ∀ origin : Path,
        ∃ fault, Project.ofText text origin = .error (.invalidJson origin fault)) := by
  have hproject (origin : Path) (project : Project)
      (hvalue : Project.ofText text origin = .ok project) : ∃ tree, IsLooseJson tree text :=
    exists_isLooseJson (isAccepted_of_readText Project.isRegular_read
      (Project.ofText_eq_ok_iff.mp hvalue))
  refine ⟨isAccepted_strictText_iff text, hproject, fun hnone origin => ?_⟩
  cases hresult : readText Project.shape.read (strictText text) with
  | ok project =>
      obtain ⟨tree, hloose⟩ := hproject origin project (Project.ofText_eq_ok_iff.mpr hresult)
      exact absurd hloose (hnone tree)
  | error fault =>
      refine ⟨fault, ?_⟩
      rw [Project.ofText, hresult]
      rfl

/-- A number with a comment inside is accepted, a single slash is not. -/
theorem Project.ofText_loose_sample :
    (IsAccepted (strictText "1/**/2") ∧ ∃ tree, IsLooseJson tree "1/**/2") ∧
      (∀ tree, ¬ IsLooseJson tree "/") ∧
      ∃ fault, Project.ofText "/" ⟨"tsconfig.json"⟩ =
        .error (.invalidJson ⟨"tsconfig.json"⟩ fault) := by
  have haccepted : readText skip (strictText "1/**/2") = .ok () := by decide +kernel
  have hrefused : readText skip (strictText "/") ≠ .ok () := by decide +kernel
  obtain ⟨hloose, -, -⟩ := Project.ofText_loose "1/**/2"
  obtain ⟨hiff, -, hinvalid⟩ := Project.ofText_loose "/"
  have hnone (tree : Tree) : ¬ IsLooseJson tree "/" := fun hslash =>
    hrefused (hiff.mpr ⟨tree, hslash⟩)
  exact ⟨⟨haccepted, hloose.mp haccepted⟩, hnone, hinvalid hnone _⟩

/-- Accepted is also what is no relaxed JSON: a number with a comment inside, an empty object with a
comma, and an open comment at the end. -/
theorem Project.ofText_not_only_relaxed :
    (IsAccepted (strictText "\x7b\"a\":1/**/2\x7d") ∧
      ¬ ∃ tree, IsRelaxedJson tree "\x7b\"a\":1/**/2\x7d") ∧
    (IsAccepted (strictText "\x7b,\x7d") ∧ ¬ ∃ tree, IsRelaxedJson tree "\x7b,\x7d") ∧
    (IsAccepted (strictText "\x7b\x7d/*") ∧ ¬ ∃ tree, IsRelaxedJson tree "\x7b\x7d/*") ∧
    (["\x7b\"a\":1/**/2\x7d", "\x7b,\x7d", "\x7b\x7d/*"].all fun text =>
      (Project.ofText text ⟨"tsconfig.json"⟩).toOption.isSome) = true := by
  have hglued : readText skip (strictText "\x7b\"a\":1/**/2\x7d") = .ok () := by decide +kernel
  have hempty : readText skip (strictText "\x7b,\x7d") = .ok () := by decide +kernel
  have hopen : readText skip (strictText "\x7b\x7d/*") = .ok () := by decide +kernel
  exact ⟨⟨hglued, not_exists.mpr not_isRelaxedJson_glued⟩,
    ⟨hempty, not_exists.mpr not_isRelaxedJson_empty⟩,
    ⟨hopen, not_exists.mpr not_isRelaxedJson_open⟩, by decide +kernel⟩

end Dealias
