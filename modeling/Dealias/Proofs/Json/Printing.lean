import Mathlib.Data.List.Forall2
import Dealias.Json.Value
import Dealias.Proofs.Json.Records
import Dealias.Proofs.Number.Numeral
import Dealias.Proofs.OrderedMap
import Dealias.Proofs.Project.Relaxed

/-!
# Reading what was written

What is written of a value is strict JSON for its tree, and texts, flags, numbers of 64 bits, lists
and maps are read from the tree as what they were.

* `readText_compact`: a text that was written is read as the tree of its value.
* `Literal.reading_ofText`: a text in quotes is read as the text, whatever its characters are.
* `Numeral.natural?_toDigits`: a number is read as itself, as long as it fits 64 bits.
* `Reader.Inverts.list`, `Reader.Inverts.dictionary`: where items are read as what they were, so are
  lists and maps of them.

## Strategy

A character is written in one of three ways (`escape_cases`): by a short escape, by its number, or
as it is.  Each of them is well-formed, and each brings a text under way from one state with nothing
pending to the next (`TextState.foldl_read_escape`); the rest is an induction over the characters.
-/

namespace Dealias.Json

/-! ## Characters within quotes -/

theorem hexDigit?_hexDigit {digit : Nat} (hdigit : digit < 16) :
    hexDigit? (hexDigit digit) = some digit := by
  have hall : ∀ digit < 16, hexDigit? (hexDigit digit) = some digit := by decide
  exact hall digit hdigit

theorem isHexDigit_hexDigit {digit : Nat} (hdigit : digit < 16) : IsHexDigit (hexDigit digit) := by
  apply isHexDigit_of_isSome
  rw [hexDigit?_hexDigit hdigit, Option.isSome_some]

/-- The number of a character below the blank, as an escape. -/
def codeEscape (code : Nat) : List Char :=
  ['\\', 'u', '0', '0', hexDigit (code / 16), hexDigit (code % 16)]

/-- A character is written by a short escape, by its number, or as it is. -/
theorem escape_cases (character : Char) :
    (∃ short, escape character = ['\\', short] ∧ shortEscape? short = some character) ∨
      (character.toNat < 0x20 ∧ escape character = codeEscape character.toNat) ∨
      (character ≠ '"' ∧ character ≠ '\\' ∧ 0x20 ≤ character.toNat ∧
        escape character = [character]) := by
  by_cases hshort : character ∈ ['"', '\\', '\n', '\r', '\t', '\x08', '\x0c']
  · left
    simp only [List.mem_cons, List.not_mem_nil, or_false] at hshort
    rcases hshort with rfl | rfl | rfl | rfl | rfl | rfl | rfl <;> exact ⟨_, rfl, rfl⟩
  · right
    simp only [List.mem_cons, List.not_mem_nil, or_false, not_or] at hshort
    obtain ⟨hquote, hbackslash, hline, hreturn, htab, hback, hfeed⟩ := hshort
    have hescape : escape character =
        if character.toNat < 0x20 then codeEscape character.toNat else [character] := by
      simp only [escape, codeEscape, hquote, hbackslash, hline, hreturn, htab, hback, hfeed,
        if_false]
    by_cases hcontrol : character.toNat < 0x20
    · left
      exact ⟨hcontrol, hescape.trans (if_pos hcontrol)⟩
    · right
      exact ⟨hquote, hbackslash, Nat.le_of_not_lt hcontrol, hescape.trans (if_neg hcontrol)⟩

theorem isBody_escape_append (character : Char) {rest : List Char} (hrest : IsBody rest) :
    IsBody (escape character ++ rest) := by
  rcases escape_cases character with ⟨short, hescape, hshort⟩ | ⟨hcontrol, hescape⟩ |
    ⟨hquote, hbackslash, hplain, hescape⟩
  · rw [hescape]
    apply IsBody.escape
    · apply shortEscape?_isSome_iff.mp
      rw [hshort, Option.isSome_some]
    · exact hrest
  · rw [hescape]
    have hzero : IsHexDigit '0' := @isHexDigit_hexDigit 0 (by decide)
    have hhigh : IsHexDigit (hexDigit (character.toNat / 16)) := isHexDigit_hexDigit (by omega)
    have hlow : IsHexDigit (hexDigit (character.toNat % 16)) := isHexDigit_hexDigit (by omega)
    exact IsBody.code hzero hzero hhigh hlow hrest
  · rw [hescape]
    exact IsBody.plain hquote hbackslash hplain hrest

theorem isBody_flatMap_escape (characters : List Char) : IsBody (characters.flatMap escape) := by
  induction characters with
  | nil => exact IsBody.nil
  | cons character characters ih =>
      rw [List.flatMap_cons]
      exact isBody_escape_append character ih

/-- A text as it is written. -/
def Literal.ofText (text : String) : Literal where
  body := text.toList.flatMap escape
  isBody := isBody_flatMap_escape text.toList

/-! ## Reading characters within quotes -/

namespace TextState

/-- A text under way with nothing pending, given its characters so far, the latest first. -/
def settled (start : Nat) (characters : List Char) : TextState where
  start := start
  reading := .ok characters
  surrogate := none
  escape := .outside

variable {line start : Nat}

theorem pushDigit_hexDigit {number digit : Nat} (hdigit : digit < 16) :
    pushDigit (some number) (hexDigit digit) = some (number * 16 + digit) := by
  rw [pushDigit, hexDigit?_hexDigit hdigit]
  rfl

theorem read_digit {state : TextState} {bytes number digit : Nat} (hdigit : digit < 16)
    (hstate : state.escape = .digits bytes (some number)) (hmore : bytes + 1 < 4) :
    state.read line (hexDigit digit) =
      { state with escape := .digits (bytes + 1) (some (number * 16 + digit)) } := by
  have hsize : (hexDigit digit).utf8Size = 1 := (isHexDigit_hexDigit hdigit).utf8Size_eq
  have hstep := @step_digit line (hexDigit digit) state bytes _ hstate (by omega)
  rw [hsize, pushDigit_hexDigit hdigit] at hstep
  exact read_eq hstep

theorem read_lastDigit {state : TextState} {number digit : Nat} (hdigit : digit < 16)
    (hstate : state.escape = .digits 3 (some number)) :
    state.read line (hexDigit digit) = state.pushCode line (number * 16 + digit) := by
  have hsize : (hexDigit digit).utf8Size = 1 := (isHexDigit_hexDigit hdigit).utf8Size_eq
  apply read_eq
  exact step_lastDigit hstate (by omega) (pushDigit_hexDigit hdigit)

/-- A number below those of surrogates is a character. -/
theorem pushCode_settled {characters : List Char} {code : Nat} (hcode : code < 0xD800)
    (escape : EscapeStage) :
    ({ settled start characters with escape := escape }).pushCode line code =
      settled start (Char.ofNat code :: characters) := by
  have htrailing : ¬ (0xDC00 ≤ code ∧ code ≤ 0xDFFF) := by omega
  have hleading : ¬ (0xD800 ≤ code ∧ code ≤ 0xDBFF) := by omega
  simp only [pushCode, settled, htrailing, hleading, if_false]
  rfl

theorem foldl_read_codeEscape {character : Char} (hcontrol : character.toNat < 0x20)
    (characters : List Char) :
    (codeEscape character.toNat).foldl (TextState.read line) (settled start characters) =
      settled start (character :: characters) := by
  have hhigh : character.toNat / 16 < 16 := by omega
  have hlow : character.toNat % 16 < 16 := by omega
  have hcode : ((0 * 16 + 0) * 16 + 0) * 16 + character.toNat / 16 = character.toNat / 16 := by
    omega
  calc (codeEscape character.toNat).foldl (TextState.read line) (settled start characters)
      = [hexDigit 0, hexDigit 0, hexDigit (character.toNat / 16),
            hexDigit (character.toNat % 16)].foldl (TextState.read line)
          { settled start characters with escape := .digits 0 (some 0) } := by
        rfl
    _ = TextState.read line
          { settled start characters with escape := .digits 3 (some (character.toNat / 16)) }
          (hexDigit (character.toNat % 16)) := by
        rw [List.foldl_cons, read_digit (by decide) rfl (by decide), List.foldl_cons,
          read_digit (by decide) rfl (by decide), List.foldl_cons,
          read_digit hhigh rfl (by decide), hcode]
        rfl
    _ = settled start (Char.ofNat (character.toNat / 16 * 16 + character.toNat % 16) ::
          characters) := by
        rw [read_lastDigit hlow rfl]
        exact pushCode_settled (by omega) _
    _ = settled start (character :: characters) := by
        rw [Nat.div_add_mod', Char.ofNat_toNat]

/-- What is written of a character is read as the character. -/
theorem foldl_read_escape (character : Char) (characters : List Char) :
    (Json.escape character).foldl (TextState.read line) (settled start characters) =
      settled start (character :: characters) := by
  rcases escape_cases character with ⟨short, hescape, hshort⟩ | ⟨hcontrol, hescape⟩ |
    ⟨hquote, hbackslash, hplain, hescape⟩
  · rw [hescape]
    show TextState.read line { settled start characters with escape := .started } short = _
    exact read_eq (step_shortEscape rfl hshort)
  · rw [hescape]
    exact foldl_read_codeEscape hcontrol characters
  · rw [hescape]
    exact read_eq (step_plain rfl hquote hbackslash hplain)

theorem foldl_read_flatMap_escape (characters before : List Char) :
    (characters.flatMap Json.escape).foldl (TextState.read line) (settled start before) =
      settled start (characters.reverse ++ before) := by
  induction characters generalizing before with
  | nil => rfl
  | cons character characters ih =>
      rw [List.flatMap_cons, List.foldl_append, foldl_read_escape, ih, List.reverse_cons,
        List.append_assoc]
      rfl

end TextState

/-- What is written of a text is read as the text. -/
theorem Literal.reading_ofText (text : String) : (Literal.ofText text).reading = .ok text := by
  have hread : (Literal.ofText text).body.foldl (TextState.read 0) (.opened 0) =
      TextState.settled 0 (text.toList.reverse ++ []) :=
    TextState.foldl_read_flatMap_escape text.toList []
  rw [Literal.reading, hread, List.append_nil]
  show Except.ok (String.ofList text.toList.reverse.reverse) = .ok text
  rw [List.reverse_reverse, String.ofList_toList]

/-! ## Numbers -/

/-- The first digit of a positive number is not zero. -/
theorem head?_toDigits_ne {value : Nat} (hpositive : 0 < value) :
    (Nat.toDigits 10 value).head? ≠ some '0' := by
  induction value using Nat.strongRecOn with
  | ind value ih =>
      by_cases hsmall : value < 10
      · rw [Nat.toDigits_of_lt_base hsmall]
        have hall : ∀ digit < 10, 0 < digit → [digit.digitChar].head? ≠ some '0' := by decide
        exact hall value hsmall hpositive
      · rw [Nat.toDigits_of_base_le (by decide) (by omega),
          List.head?_append_of_ne_nil _ Nat.toDigits_ne_nil]
        exact ih (value / 10) (by omega) (by omega)

theorem isDigits_toDigits (value : Nat) : IsDigits (Nat.toDigits 10 value) :=
  ⟨Nat.toDigits_ne_nil, isDigit_of_mem_toDigits⟩

theorem isNumeral_toDigits (value : Nat) : IsNumeral (Nat.toDigits 10 value) := by
  have hwhole : IsWhole (Nat.toDigits 10 value) := by
    by_cases hzero : value = 0
    · rw [hzero, Nat.toDigits_zero]
      exact IsWhole.zero
    · have hhead := head?_toDigits_ne (Nat.pos_of_ne_zero hzero)
      obtain ⟨-, hdigits⟩ := isDigits_toDigits value
      cases htext : Nat.toDigits 10 value with
      | nil => exact absurd htext Nat.toDigits_ne_nil
      | cons first rest =>
          rw [htext] at hhead hdigits
          obtain ⟨hfirst, hrest⟩ := List.forall_mem_cons.mp hdigits
          exact IsWhole.digits hfirst (fun hsame => hhead (congrArg some hsame)) hrest
  refine ⟨[], Nat.toDigits 10 value, [], [], ?_, List.mem_cons_self, hwhole, .inl rfl, .inl rfl⟩
  rw [List.nil_append, List.nil_append, List.append_nil]

/-- A natural number as it is written. -/
def Number.ofNatural (value : Nat) : Number where
  characters := Nat.toDigits 10 value
  isNumeral := isNumeral_toDigits value

/-- A number is read as itself, as long as it fits 64 bits. -/
theorem Numeral.natural?_toDigits {value : Nat} (hvalue : value ≤ maxNatural) :
    Numeral.natural? ⟨Nat.toDigits 10 value⟩ = some value := by
  show (digits? (Nat.toDigits 10 value)).filter (fun number => number ≤ maxNatural) = some value
  rw [digits?_toDigits, Option.filter_some, if_pos (decide_eq_true hvalue)]

theorem Numeral.le_of_natural? {numeral : Numeral} {value : Nat}
    (hvalue : numeral.natural? = some value) : value ≤ maxNatural :=
  of_decide_eq_true (Option.filter_eq_some_iff.mp hvalue).2

/-! ## Trees of values -/

mutual

/-- The tree of a value to write. -/
def Value.tree : Value → Tree
  | .null => .scalar .null
  | .flag value => .scalar (.flag value)
  | .natural value => .scalar (.number (.ofNatural value))
  | .text text => .scalar (.text (.ofText text))
  | .list items => .array (itemTrees items) false
  | .record members => .object (memberTrees members) false

/-- The trees of items. -/
def itemTrees : List Value → List Tree
  | [] => []
  | item :: items => item.tree :: itemTrees items

/-- The trees of members. -/
def memberTrees : List (String × Value) → List (Literal × Tree)
  | [] => []
  | (key, value) :: members => (.ofText key, value.tree) :: memberTrees members

end

theorem itemTrees_eq_map (items : List Value) : itemTrees items = items.map Value.tree := by
  induction items with
  | nil => rfl
  | cons item items ih => rw [itemTrees, ih, List.map_cons]

theorem memberTrees_eq_map (members : List (String × Value)) :
    memberTrees members = members.map fun member => (.ofText member.1, member.2.tree) := by
  induction members with
  | nil => rfl
  | cons member members ih =>
      rw [memberTrees, ih]
      rfl

mutual

/-- A value is written by the symbols of its tree. -/
theorem Value.characters_eq : (value : Value) →
    value.characters = value.tree.bare.symbols.flatMap Symbol.characters
  | .null => rfl
  | .flag true => rfl
  | .flag false => rfl
  | .natural value => (List.append_nil (Nat.toDigits 10 value)).symm
  | .text text => (List.append_nil (quoted text)).symm
  | .list items => by
      have hitems := itemCharacters_eq items
      rw [Value.characters, hitems, Value.tree, Tree.bare, Tree.symbols, List.flatMap_cons,
        List.flatMap_append]
      rfl
  | .record members => by
      have hmembers := memberCharacters_eq members
      rw [Value.characters, hmembers, Value.tree, Tree.bare, Tree.symbols, List.flatMap_cons,
        List.flatMap_append]
      rfl

/-- Items are written with commas between them. -/
theorem itemCharacters_eq : (items : List Value) →
    itemCharacters items =
      (itemSymbols (bareItems (itemTrees items))).tail.flatMap Symbol.characters
  | [] => rfl
  | [item] => by
      rw [itemCharacters, item.characters_eq]
      exact congrArg (List.flatMap Symbol.characters) (List.append_nil _).symm
  | item :: next :: items => by
      have hrest : ',' :: itemCharacters (next :: items) =
          (itemSymbols (bareItems (itemTrees (next :: items)))).flatMap Symbol.characters :=
        congrArg (',' :: ·) (itemCharacters_eq (next :: items))
      rw [itemCharacters, hrest, item.characters_eq]
      · exact List.flatMap_append.symm
      · nofun

/-- Members are written with commas between them. -/
theorem memberCharacters_eq : (members : List (String × Value)) →
    memberCharacters members =
      (memberSymbols (bareMembers (memberTrees members))).tail.flatMap Symbol.characters
  | [] => rfl
  | [(key, value)] => by
      rw [memberCharacters, value.characters_eq]
      exact congrArg (quoted key ++ ':' :: List.flatMap Symbol.characters ·)
        (List.append_nil _).symm
  | (key, value) :: next :: members => by
      have hrest : ',' :: memberCharacters (next :: members) =
          (memberSymbols (bareMembers (memberTrees (next :: members)))).flatMap
            Symbol.characters :=
        congrArg (',' :: ·) (memberCharacters_eq (next :: members))
      rw [memberCharacters, hrest, value.characters_eq]
      · exact congrArg (quoted key ++ ':' :: ·) List.flatMap_append.symm
      · nofun

end

/-- What is written of a value is strict JSON for its tree. -/
theorem Value.isJson_compact (value : Value) : IsJson value.tree value.compact := by
  apply isJson_of_eq
  rw [Value.compact, String.toList_ofList, value.characters_eq]

/-- A text that was written is read as the tree of its value. -/
theorem readText_compact {Item : Type} {read : Reader Item} (hread : Reader.IsRegular read)
    (value : Value) {item : Item} :
    readText read value.compact = .ok item ↔ read value.tree.node = .ok item :=
  value.isJson_compact.readText_eq_ok_iff hread

/-! ## Readers and writers -/

/-- Whether a reader takes what is written of each item for the item. -/
def Reader.Inverts {Item : Type} (read : Reader Item) (write : Item → Value) : Prop :=
  ∀ item, read (write item).tree.node = .ok item

theorem inverts_text : Reader.Inverts text .text :=
  Literal.reading_ofText

theorem inverts_flag : Reader.Inverts flag .flag :=
  fun _ => rfl

theorem natural_tree {value : Nat} (hvalue : value ≤ maxNatural) :
    natural (Value.natural value).tree.node = .ok value := by
  show natural (.number 0 ⟨Nat.toDigits 10 value⟩) = .ok value
  rw [natural, Numeral.natural?_toDigits hvalue]

theorem le_of_natural {node : Node} {value : Nat} (hread : natural node = .ok value) :
    value ≤ maxNatural := by
  cases node with
  | number line numeral =>
      cases hnatural : numeral.natural? with
      | none => simp [natural, hnatural] at hread
      | some found =>
          simp only [natural, hnatural, Except.ok.injEq] at hread
          exact hread ▸ Numeral.le_of_natural? hnatural
  | _ => cases hread

namespace Reader.Inverts

variable {Item : Type} {read : Reader Item} {write : Item → Value}

/-- A list is read as the items that were written. -/
theorem list (hinverts : read.Inverts write) :
    Reader.Inverts (Json.list read) fun items => .list (items.map write) := by
  intro items
  have hitems : (itemNodes (itemTrees (items.map write))).mapM read = .ok items := by
    rw [itemNodes_eq_map, itemTrees_eq_map, mapM_eq_ok_iff, List.map_map, List.map_map,
      List.forall₂_map_left_iff, List.forall₂_same]
    intro item _
    exact hinverts item
  exact bind_eq_ok_iff.mpr ⟨items, hitems, rfl⟩

/-- A map is read as the entries that were written, in their order. -/
theorem dictionary (hinverts : read.Inverts write) :
    Reader.Inverts (Json.dictionary read) fun map =>
      .record (map.entries.map fun entry => (entry.1, write entry.2)) := by
  intro map
  have hentries : (memberNodes (memberTrees (map.entries.map fun entry =>
      (entry.1, write entry.2)))).mapM (entry read) = .ok map.entries := by
    rw [memberNodes_eq_map, memberTrees_eq_map, mapM_eq_ok_iff, List.map_map, List.map_map,
      List.forall₂_map_left_iff, List.forall₂_same]
    intro pair _
    have hkey := Literal.reading_ofText pair.1
    exact bind_eq_ok_iff.mpr ⟨pair.1, hkey, bind_eq_ok_iff.mpr ⟨pair.2, hinverts pair.2, rfl⟩⟩
  exact bind_eq_ok_iff.mpr ⟨map.entries, hentries, congrArg Except.ok map.ofList_entries⟩

end Reader.Inverts

/-! ## Records -/

namespace RecordShape

variable {Draft Result : Type} {shape : RecordShape Draft Result}

/-- The next member that was written is taken by its field. -/
theorem readMembers_memberTrees {Held : Type} {name key : String} {hasDefault : Bool}
    {read : Reader Held} {get : Draft → Option Held} {set : Draft → Held → Draft} {value : Value}
    {held : Held} {members : List (String × Value)} {before behind : Draft}
    (hfield : shape.field? key = some (.make name hasDefault read get set))
    (hfree : get before = none) (hread : read value.tree.node = .ok held)
    (hmembers : shape.readMembers (memberTrees members) (set before held) = .ok behind) :
    shape.readMembers (memberTrees ((key, value) :: members)) before = .ok behind := by
  have hkey := Literal.reading_ofText key
  have htakes : (Field.make name hasDefault read get set).Takes value.tree.node before
      (set before held) :=
    Field.takes_make_iff.mpr ⟨hfree, held, hread, rfl⟩
  have hmember : shape.readMember before (⟨(Literal.ofText key).reading, 0⟩, value.tree.node) =
      .ok (set before held) :=
    readMember_eq_ok_iff.mpr ⟨key, hkey, .inr ⟨_, hfield, htakes⟩⟩
  exact foldlM_cons_eq_ok_iff.mpr ⟨set before held, hmember, hmembers⟩

end RecordShape

end Dealias.Json
