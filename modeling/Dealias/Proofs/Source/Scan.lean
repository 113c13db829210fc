import Dealias.Source.Occurrence
import Mathlib.Data.List.TakeWhile

/-!
# Pieces of a scanned text

Scanning cuts a text into pieces: import shapes, and single characters between them.
`Scan pieces` says that scanning the text of the pieces cuts it into just these pieces.

* `exists_scan`: every text is cut into pieces, and `Scan.occurrences_eq` reads its import
  occurrences off them.
* `Scan.replace`: exchanging the specifiers in the shapes for others without quotes gives a text
  that is cut in the same places.

## Strategy

Whether a shape starts somewhere is decided by what comes up to the first quote and by whether there
is another quote behind it (`shape?_ne_none_iff`).  The first quote stands between the pieces or
ends an opening, so it is not moved by the exchange, and specifiers hold no quotes, so the number of
quotes behind it stays as well.
-/

namespace Dealias

/-! ## Openings -/

/-- Whether a text has no quote. -/
def IsQuoteFree (text : List Char) : Prop :=
  ∀ character ∈ text, isQuote character = false

instance (text : List Char) : Decidable (IsQuoteFree text) :=
  List.decidableBAll _ text

theorem isQuoteFree_append {front back : List Char} :
    IsQuoteFree (front ++ back) ↔ IsQuoteFree front ∧ IsQuoteFree back :=
  List.forall_mem_append

/-- What can stand in front of the opening quote of a shape. -/
def openingFronts : List (List Char) :=
  ["require(".toList, "require( ".toList, "import(".toList, "import( ".toList, "import".toList,
    "import ".toList, "from".toList, "from ".toList]

/-- Whether a text opens a shape: a keyword, at most one space, and a quote. -/
def IsOpening (opening : List Char) : Prop :=
  ∃ front ∈ openingFronts, ∃ quote, isQuote quote = true ∧ opening = front ++ [quote]

theorem isQuoteFree_of_mem_openingFronts {front : List Char} (hfront : front ∈ openingFronts) :
    IsQuoteFree front := by
  have hall : ∀ front ∈ openingFronts, IsQuoteFree front := by decide +kernel
  exact hall front hfront

/-- The opening at the front of a text, and what comes after it. -/
def opening? (text : List Char) : Option (List Char × List Char) :=
  (keyword? text).bind fun found =>
    (openingQuote? found.2).map fun quoted => (found.1 ++ quoted.1, quoted.2)

theorem openingQuote?_eq_some {text quoted rest : List Char}
    (hquote : openingQuote? text = some (quoted, rest)) :
    ∃ quote, isQuote quote = true ∧ text = quoted ++ rest ∧
      (quoted = [quote] ∨ quoted = [' ', quote]) := by
  unfold openingQuote? at hquote
  split at hquote
  · rename_i quote rest'
    split at hquote
    · rename_i hisQuote
      obtain ⟨rfl, rfl⟩ := Prod.mk.inj (Option.some.inj hquote)
      exact ⟨quote, hisQuote, rfl, .inr rfl⟩
    · cases hquote
  · rename_i quote rest' _
    split at hquote
    · rename_i hisQuote
      obtain ⟨rfl, rfl⟩ := Prod.mk.inj (Option.some.inj hquote)
      exact ⟨quote, hisQuote, rfl, .inl rfl⟩
    · cases hquote
  · cases hquote

theorem keyword?_eq_some {text keyword rest : List Char}
    (hkeyword : keyword? text = some (keyword, rest)) :
    text = keyword ++ rest ∧
      keyword ∈ ["require(".toList, "import(".toList, "import".toList, "from".toList] := by
  unfold keyword? at hkeyword
  split at hkeyword
  case h_5 => cases hkeyword
  all_goals
    obtain ⟨rfl, rfl⟩ := Prod.mk.inj (Option.some.inj hkeyword)
    exact ⟨rfl, by decide +kernel⟩

theorem isQuote_cases {quote : Char} (hquote : isQuote quote = true) :
    quote = '\'' ∨ quote = '"' := by
  simpa [isQuote] using hquote

/-- An opening is found where one stands. -/
theorem opening?_eq_some_iff {text opening rest : List Char} :
    opening? text = some (opening, rest) ↔ text = opening ++ rest ∧ IsOpening opening := by
  constructor
  · intro hopening
    obtain ⟨⟨keyword, rest'⟩, hkeyword, hquoted⟩ := Option.bind_eq_some_iff.mp hopening
    obtain ⟨⟨quoted, rest''⟩, hquote, heq⟩ := Option.map_eq_some_iff.mp hquoted
    obtain ⟨rfl, rfl⟩ := Prod.mk.inj heq
    obtain ⟨rfl, hmem⟩ := keyword?_eq_some hkeyword
    obtain ⟨quote, hisQuote, rfl, hspaced⟩ := openingQuote?_eq_some hquote
    refine ⟨(List.append_assoc ..).symm, ?_⟩
    have hfronts : ∀ keyword ∈ ["require(".toList, "import(".toList, "import".toList,
        "from".toList], keyword ∈ openingFronts ∧ keyword ++ [' '] ∈ openingFronts := by
      decide +kernel
    obtain ⟨hbare, hspace⟩ := hfronts keyword hmem
    rcases hspaced with rfl | rfl
    · exact ⟨keyword, hbare, quote, hisQuote, rfl⟩
    · exact ⟨keyword ++ [' '], hspace, quote, hisQuote, by simp⟩
  · rintro ⟨rfl, front, hfront, quote, hquote, rfl⟩
    simp only [openingFronts, List.mem_cons, List.not_mem_nil, or_false] at hfront
    rcases isQuote_cases hquote with rfl | rfl <;>
      rcases hfront with rfl | rfl | rfl | rfl | rfl | rfl | rfl | rfl <;> rfl

/-! ## Shapes -/

/-- The text of a shape. -/
def Shape.text (shape : Shape) : List Char :=
  shape.opening ++ shape.specifier ++ shape.closing

/-- Whether a text closes a shape that `rest` follows: a quote, and the parenthesis if one is
there. -/
def IsClosing (closing rest : List Char) : Prop :=
  ∃ quote, isQuote quote = true ∧
    (closing = [quote, ')'] ∨ closing = [quote] ∧ rest.head? ≠ some ')')

theorem closingQuote?_eq_some_iff {text closing : List Char} :
    closingQuote? text = some closing ↔
      ∃ rest, text = closing ++ rest ∧ IsClosing closing rest := by
  constructor
  · intro hclosing
    unfold closingQuote? at hclosing
    split at hclosing
    · rename_i quote rest
      split at hclosing
      · rename_i hquote
        obtain rfl := Option.some.inj hclosing
        exact ⟨rest, rfl, quote, hquote, .inl rfl⟩
      · cases hclosing
    · rename_i quote rest hparenthesis
      split at hclosing
      · rename_i hquote
        obtain rfl := Option.some.inj hclosing
        refine ⟨rest, rfl, quote, hquote, .inr ⟨rfl, fun hhead => ?_⟩⟩
        obtain ⟨rest', rfl⟩ := List.head?_eq_some_iff.mp hhead
        exact hparenthesis rest' rfl
      · cases hclosing
    · cases hclosing
  · rintro ⟨rest, rfl, quote, hquote, rfl | ⟨rfl, hhead⟩⟩
    · simp [closingQuote?, hquote]
    · cases rest with
      | nil => simp [closingQuote?, hquote]
      | cons first rest =>
          have hfirst : first ≠ ')' := by simpa using hhead
          simp [closingQuote?, hquote, hfirst]

/-- Reading up to the first quote. -/
theorem takeWhile_quote {front back : List Char} (hfront : IsQuoteFree front)
    (hback : ∀ first, back.head? = some first → isQuote first = true) :
    (front ++ back).takeWhile (fun character => !isQuote character) = front ∧
      (front ++ back).dropWhile (fun character => !isQuote character) = back := by
  induction front with
  | nil =>
      cases back with
      | nil => simp
      | cons first back => simp [hback first rfl]
  | cons character front ih =>
      obtain ⟨hcharacter, hfront⟩ := List.forall_mem_cons.mp hfront
      simp [hcharacter, ih hfront]

theorem shape?_eq (text : List Char) :
    shape? text = (opening? text).bind fun opened =>
      (closingQuote? (opened.2.dropWhile fun character => !isQuote character)).map fun closing =>
        ⟨opened.1, opened.2.takeWhile fun character => !isQuote character, closing⟩ := by
  unfold shape? opening?
  cases keyword? text with
  | none => rfl
  | some found =>
      dsimp only [Option.bind_some, Option.bind_eq_bind]
      cases openingQuote? found.2 with
      | none => rfl
      | some quoted =>
          dsimp only [Option.bind_some, Option.map_some]
          cases closingQuote? (quoted.2.dropWhile fun character => !isQuote character) <;> rfl

/-- **Shapes.**  A shape is found where one stands. -/
theorem shape?_eq_some_iff {text : List Char} {shape : Shape} :
    shape? text = some shape ↔ ∃ rest, text = shape.text ++ rest ∧ IsOpening shape.opening ∧
      IsQuoteFree shape.specifier ∧ IsClosing shape.closing rest := by
  rw [shape?_eq]
  constructor
  · intro hshape
    obtain ⟨⟨opening, afterOpening⟩, hopening, hclosed⟩ := Option.bind_eq_some_iff.mp hshape
    obtain ⟨closing, hclosing, rfl⟩ := Option.map_eq_some_iff.mp hclosed
    obtain ⟨rfl, hisOpening⟩ := opening?_eq_some_iff.mp hopening
    obtain ⟨rest, hrest, hisClosing⟩ := closingQuote?_eq_some_iff.mp hclosing
    refine ⟨rest, ?_, hisOpening, fun character hcharacter => ?_, hisClosing⟩
    · rw [Shape.text, List.append_assoc, List.append_assoc, ← hrest,
        List.takeWhile_append_dropWhile]
    · simpa using List.mem_takeWhile_imp hcharacter
  · rintro ⟨rest, rfl, hopening, hspecifier, hclosing⟩
    obtain ⟨opening, specifier, closing⟩ := shape
    have htext : Shape.text ⟨opening, specifier, closing⟩ ++ rest =
        opening ++ (specifier ++ (closing ++ rest)) := by
      simp [Shape.text]
    have hback : ∀ first, (closing ++ rest).head? = some first → isQuote first = true := by
      obtain ⟨quote, hquote, rfl | ⟨rfl, -⟩⟩ := hclosing <;> simp [hquote]
    obtain ⟨htake, hdrop⟩ := takeWhile_quote hspecifier hback
    rw [htext, opening?_eq_some_iff.mpr ⟨rfl, hopening⟩, Option.bind_some]
    dsimp only
    rw [htake, hdrop, closingQuote?_eq_some_iff.mpr ⟨rest, rfl, hclosing⟩]
    rfl

/-- A shape starts where an opening stands and a quote comes behind it. -/
theorem shape?_ne_none_iff {text : List Char} :
    shape? text ≠ none ↔ ∃ opening rest, text = opening ++ rest ∧ IsOpening opening ∧
      ∃ character ∈ rest, isQuote character = true := by
  constructor
  · intro hshape
    obtain ⟨shape, hshape⟩ := Option.ne_none_iff_exists'.mp hshape
    obtain ⟨rest, rfl, hopening, -, quote, hquote, hclosing⟩ := shape?_eq_some_iff.mp hshape
    refine ⟨shape.opening, shape.specifier ++ shape.closing ++ rest, by simp [Shape.text], hopening,
      quote, ?_, hquote⟩
    rcases hclosing with hclosing | ⟨hclosing, -⟩ <;> simp [hclosing]
  · rintro ⟨opening, rest, rfl, hopening, character, hmem, hcharacter⟩
    rw [shape?_eq, opening?_eq_some_iff.mpr ⟨rfl, hopening⟩, Option.bind_some]
    -- there is a first quote behind the opening, and it closes the shape
    have hdrop : rest.dropWhile (fun character => !isQuote character) ≠ [] := by
      intro hempty
      have hall := List.dropWhile_eq_nil_iff.mp hempty character hmem
      simp [hcharacter] at hall
    obtain ⟨first, back, hback⟩ := List.exists_cons_of_ne_nil hdrop
    have hfirst : isQuote first = true := by
      have hhead := List.head_dropWhile_not (fun character => !isQuote character) hdrop
      simpa [hback] using hhead
    have hclosing : closingQuote? (first :: back) ≠ none := by
      unfold closingQuote?
      split <;> simp_all
    obtain ⟨closing, hclosing⟩ := Option.ne_none_iff_exists'.mp hclosing
    simp [hback, hclosing]

/-! ## Pieces -/

/-- A part of a scanned text: a character that belongs to no shape, or a shape. -/
inductive Piece where
  | plain (character : Char)
  | imported (shape : Shape)

/-- The text of a piece. -/
def Piece.text : Piece → List Char
  | plain character => [character]
  | imported shape => shape.text

/-- The text of pieces. -/
def textOf (pieces : List Piece) : List Char :=
  pieces.flatMap Piece.text

@[simp] theorem textOf_nil : textOf [] = [] := rfl

@[simp] theorem textOf_cons (piece : Piece) (pieces : List Piece) :
    textOf (piece :: pieces) = piece.text ++ textOf pieces := rfl

/-- Whether scanning the text of pieces cuts it into them. -/
inductive Scan : List Piece → Prop
  | nil : Scan []
  | plain {character : Char} {pieces : List Piece}
      (hshape : shape? (character :: textOf pieces) = none) (hscan : Scan pieces) :
      Scan (.plain character :: pieces)
  | imported {shape : Shape} {pieces : List Piece}
      (hshape : shape? (shape.text ++ textOf pieces) = some shape) (hscan : Scan pieces) :
      Scan (.imported shape :: pieces)

theorem Shape.text_ne_nil {shape : Shape} (hopening : IsOpening shape.opening) :
    shape.text ≠ [] := by
  obtain ⟨front, -, quote, -, hopening⟩ := hopening
  simp [Shape.text, hopening]

/-- Every text is cut into pieces. -/
theorem exists_scan (text : List Char) : ∃ pieces, Scan pieces ∧ textOf pieces = text := by
  induction hlength : text.length using Nat.strong_induction_on generalizing text with
  | _ length ih =>
      subst hlength
      cases text with
      | nil => exact ⟨[], .nil, rfl⟩
      | cons character rest =>
          cases hshape : shape? (character :: rest) with
          | none =>
              obtain ⟨pieces, hscan, rfl⟩ := ih rest.length (by simp) rest rfl
              exact ⟨.plain character :: pieces, .plain hshape hscan, rfl⟩
          | some shape =>
              obtain ⟨back, htext, hopening, -⟩ := shape?_eq_some_iff.mp hshape
              -- a shape is not empty, so what comes behind it is shorter
              have hshorter : back.length < (character :: rest).length := by
                have hpositive := List.length_pos_iff.mpr (Shape.text_ne_nil hopening)
                rw [htext, List.length_append]
                omega
              obtain ⟨pieces, hscan, rfl⟩ := ih back.length hshorter back rfl
              exact ⟨.imported shape :: pieces, .imported (htext ▸ hshape) hscan, htext.symm⟩

/-! ## Occurrences of pieces -/

theorem byteSize_append (front back : List Char) :
    byteSize (front ++ back) = byteSize front + byteSize back := by
  induction front with
  | nil => simp [byteSize]
  | cons character front ih => simp only [List.cons_append, byteSize, ih]; omega

/-- The import occurrences of pieces that start at `offset`. -/
def occurrencesOf (offset : Nat) : List Piece → List Occurrence
  | [] => []
  | .plain character :: pieces => occurrencesOf (offset + character.utf8Size) pieces
  | .imported shape :: pieces =>
    shape.occurrence offset :: occurrencesOf (offset + byteSize shape.text) pieces

/-- The characters of a shape that is taken are passed over. -/
theorem occurrencesFrom_append (front rest : List Char) (offset : Nat) :
    occurrencesFrom offset front.length (front ++ rest) =
      occurrencesFrom (offset + byteSize front) 0 rest := by
  induction front generalizing offset with
  | nil => rfl
  | cons character front ih =>
      rw [List.length_cons, List.cons_append, occurrencesFrom, ih, byteSize, Nat.add_assoc]

theorem occurrencesFrom_of_none {character : Char} {rest : List Char}
    (hshape : shape? (character :: rest) = none) (offset : Nat) :
    occurrencesFrom offset 0 (character :: rest) =
      occurrencesFrom (offset + character.utf8Size) 0 rest := by
  rw [occurrencesFrom, hshape]

theorem occurrencesFrom_of_some {shape : Shape} {rest : List Char}
    (hshape : shape? (shape.text ++ rest) = some shape) (offset : Nat) :
    occurrencesFrom offset 0 (shape.text ++ rest) =
      shape.occurrence offset :: occurrencesFrom (offset + byteSize shape.text) 0 rest := by
  have hlength : shape.length = shape.text.length := by
    simp [Shape.length, Shape.text, Nat.add_assoc]
  obtain ⟨-, -, hopening, -⟩ := shape?_eq_some_iff.mp hshape
  obtain ⟨character, front, htext⟩ := List.exists_cons_of_ne_nil (Shape.text_ne_nil hopening)
  rw [htext, List.cons_append] at hshape ⊢
  rw [occurrencesFrom, hshape]
  dsimp only
  rw [hlength, htext, List.length_cons, Nat.add_sub_cancel, occurrencesFrom_append, byteSize,
    Nat.add_assoc]

/-- The import occurrences of a text are those of its pieces. -/
theorem Scan.occurrences_eq {pieces : List Piece} (hscan : Scan pieces) (offset : Nat) :
    occurrencesFrom offset 0 (textOf pieces) = occurrencesOf offset pieces := by
  induction hscan generalizing offset with
  | nil => rfl
  | plain hshape _ ih =>
      rw [textOf_cons, occurrencesOf, ← ih]
      exact occurrencesFrom_of_none hshape offset
  | imported hshape _ ih =>
      rw [textOf_cons, occurrencesOf, ← ih]
      exact occurrencesFrom_of_some hshape offset

/-- The specifiers of a scanned text have no quotes. -/
theorem Scan.isQuoteFree {pieces : List Piece} (hscan : Scan pieces) {offset : Nat}
    {occurrence : Occurrence} (hmem : occurrence ∈ occurrencesOf offset pieces) :
    IsQuoteFree occurrence.specifier.toList := by
  induction hscan generalizing offset with
  | nil => cases hmem
  | plain _ _ ih => exact ih hmem
  | @imported shape pieces hshape _ ih =>
      rcases List.mem_cons.mp hmem with rfl | hmem
      · obtain ⟨-, -, -, hspecifier, -⟩ := shape?_eq_some_iff.mp hshape
        simpa [Shape.occurrence] using hspecifier
      · exact ih hmem

/-! ## Exchanging specifiers -/

/-- The piece with its specifier exchanged, if it has one. -/
def Piece.replace (change : String → String) : Piece → Piece
  | plain character => plain character
  | imported shape =>
    .imported { shape with specifier := (change (String.ofList shape.specifier)).toList }

/-- The pieces with their specifiers exchanged. -/
def replaceAll (change : String → String) (pieces : List Piece) : List Piece :=
  pieces.map (Piece.replace change)

/-- The number of quotes in a text. -/
def quotes (text : List Char) : Nat :=
  text.countP isQuote

theorem quotes_append (front back : List Char) :
    quotes (front ++ back) = quotes front + quotes back :=
  List.countP_append

theorem IsQuoteFree.quotes_eq {text : List Char} (htext : IsQuoteFree text) : quotes text = 0 := by
  rw [quotes, List.countP_eq_zero]
  intro character hmem
  simp [htext character hmem]

/-- The first quote of a text splits it in one way. -/
theorem eq_of_append_quote {front front' back back' : List Char} {quote quote' : Char}
    (hfront : IsQuoteFree front) (hfront' : IsQuoteFree front') (hquote : isQuote quote = true)
    (hquote' : isQuote quote' = true) (heq : front ++ quote :: back = front' ++ quote' :: back') :
    front = front' ∧ quote = quote' ∧ back = back' := by
  induction front generalizing front' with
  | nil =>
      cases front' with
      | nil => simpa using heq
      | cons character front' =>
          obtain ⟨rfl, -⟩ := List.cons.inj heq
          rw [hfront' quote (List.mem_cons_self ..)] at hquote
          cases hquote
  | cons character front ih =>
      obtain ⟨hcharacter, hfront⟩ := List.forall_mem_cons.mp hfront
      cases front' with
      | nil =>
          obtain ⟨rfl, -⟩ := List.cons.inj heq
          rw [hcharacter] at hquote'
          cases hquote'
      | cons character' front' =>
          obtain ⟨rfl, hrest⟩ := List.cons.inj heq
          obtain ⟨rfl, h⟩ := ih hfront (List.forall_mem_cons.mp hfront').2 hrest
          exact ⟨rfl, h⟩

variable {change : String → String}

section Exchange

variable (hchange : ∀ specifier : String, IsQuoteFree specifier.toList →
  IsQuoteFree (change specifier).toList)
include hchange

/-- Exchanging specifiers does not change the number of quotes. -/
theorem Scan.quotes_replaceAll {pieces : List Piece} (hscan : Scan pieces) :
    quotes (textOf (replaceAll change pieces)) = quotes (textOf pieces) := by
  induction hscan with
  | nil => rfl
  | plain _ _ ih =>
      rw [replaceAll, List.map_cons, textOf_cons, textOf_cons, quotes_append, quotes_append]
      exact congrArg _ ih
  | @imported shape pieces hshape _ ih =>
      obtain ⟨-, -, -, hspecifier, -⟩ := shape?_eq_some_iff.mp hshape
      have hnew := (hchange (String.ofList shape.specifier) (by simpa using hspecifier)).quotes_eq
      rw [replaceAll, List.map_cons, textOf_cons, textOf_cons, quotes_append, quotes_append]
      refine congrArg₂ _ ?_ ih
      simp only [Piece.replace, Piece.text, Shape.text, quotes_append, hnew, hspecifier.quotes_eq]

/-- What comes up to the first quote is not changed by an exchange, nor is the number of quotes
behind it. -/
theorem Scan.first_quote {pieces : List Piece} (hscan : Scan pieces) {front back : List Char}
    {quote : Char} (hfront : IsQuoteFree front) (hquote : isQuote quote = true)
    (htext : textOf (replaceAll change pieces) = front ++ quote :: back) :
    ∃ back', textOf pieces = front ++ quote :: back' ∧ quotes back' = quotes back := by
  induction hscan generalizing front with
  | nil => simp [replaceAll] at htext
  | @plain character pieces hshape hscan ih =>
      cases front with
      | nil =>
          obtain ⟨rfl, rfl⟩ := List.cons.inj htext
          exact ⟨textOf pieces, rfl, (hscan.quotes_replaceAll hchange).symm⟩
      | cons first front =>
          obtain ⟨rfl, hrest⟩ := List.cons.inj htext
          obtain ⟨back', hback', hquotes⟩ := ih (List.forall_mem_cons.mp hfront).2 hrest
          exact ⟨back', by rw [textOf_cons, hback']; rfl, hquotes⟩
  | @imported shape pieces hshape hscan ih =>
      obtain ⟨-, -, ⟨front', hfront', quote', hquote', hopening⟩, hspecifier, -⟩ :=
        shape?_eq_some_iff.mp hshape
      have hnew := hchange (String.ofList shape.specifier) (by simpa using hspecifier)
      -- the first quote ends the opening of the shape, which is not exchanged
      have hsplit : textOf (replaceAll change (.imported shape :: pieces)) =
          front' ++ quote' :: ((change (String.ofList shape.specifier)).toList ++ shape.closing ++
            textOf (replaceAll change pieces)) := by
        simp [replaceAll, Piece.replace, Piece.text, Shape.text, hopening]
      obtain ⟨rfl, rfl, rfl⟩ := eq_of_append_quote (isQuoteFree_of_mem_openingFronts hfront')
        hfront hquote' hquote (hsplit.symm.trans htext)
      refine ⟨shape.specifier ++ shape.closing ++ textOf pieces, ?_, ?_⟩
      · simp [Piece.text, Shape.text, hopening]
      · simp only [quotes_append, hnew.quotes_eq, hspecifier.quotes_eq,
          hscan.quotes_replaceAll hchange]

omit hchange in
/-- The first character is not changed by an exchange. -/
theorem Scan.head?_replaceAll {pieces : List Piece} (hscan : Scan pieces) :
    (textOf (replaceAll change pieces)).head? = (textOf pieces).head? := by
  cases hscan with
  | nil => rfl
  | plain hshape hscan => rfl
  | @imported shape pieces hshape hscan =>
      obtain ⟨-, -, ⟨front, -, quote, -, hopening⟩, -⟩ := shape?_eq_some_iff.mp hshape
      simp only [replaceAll, List.map_cons, textOf_cons, Piece.replace, Piece.text, Shape.text,
        hopening, List.append_assoc]
      cases front <;> rfl

/-- **Scanning again.**  Exchanging the specifiers of a scanned text for others without quotes gives
a text that is cut in the same places. -/
theorem Scan.replace {pieces : List Piece} (hscan : Scan pieces) :
    Scan (replaceAll change pieces) := by
  induction hscan with
  | nil => exact .nil
  | @plain character pieces hshape hscan ih =>
      refine .plain ?_ ih
      -- no shape starts at a character where none started before the exchange
      by_contra hfound
      obtain ⟨opening, rest, htext, hopening, quote', hmem, hquote'⟩ := shape?_ne_none_iff.mp hfound
      obtain ⟨front, hfront, quote, hquote, rfl⟩ := hopening
      rw [List.append_assoc] at htext
      obtain ⟨back, hback, hquotes⟩ := (Scan.plain hshape hscan).first_quote hchange
        (isQuoteFree_of_mem_openingFronts hfront) hquote htext
      -- a quote behind the first one closes a shape before the exchange as well
      have hpositive : 0 < quotes back := hquotes ▸ List.countP_pos_iff.mpr ⟨quote', hmem, hquote'⟩
      refine shape?_ne_none_iff.mpr ⟨front ++ [quote], back, ?_,
        ⟨front, hfront, quote, hquote, rfl⟩, List.countP_pos_iff.mp hpositive⟩ hshape
      rw [List.append_assoc]
      exact hback
  | @imported shape pieces hshape hscan ih =>
      refine .imported ?_ ih
      obtain ⟨rest, htext, hopening, hspecifier, quote, hquote, hclosing⟩ :=
        shape?_eq_some_iff.mp hshape
      obtain rfl : textOf pieces = rest := List.append_cancel_left htext
      refine shape?_eq_some_iff.mpr ⟨_, rfl, hopening, hchange _ (by simpa using hspecifier), quote,
        hquote, ?_⟩
      -- whether a parenthesis follows depends on the next character alone
      rw [← hscan.head?_replaceAll] at hclosing
      exact hclosing

end Exchange

/-- The specifiers of exchanged pieces are the exchanged specifiers. -/
theorem specifiers_replaceAll (pieces : List Piece) (offset offset' : Nat) :
    (occurrencesOf offset (replaceAll change pieces)).map Occurrence.specifier =
      (occurrencesOf offset' pieces).map fun occurrence => change occurrence.specifier := by
  induction pieces generalizing offset offset' with
  | nil => rfl
  | cons piece pieces ih =>
      cases piece with
      | plain character => exact ih _ _
      | imported shape =>
          rw [replaceAll, List.map_cons, Piece.replace, occurrencesOf, occurrencesOf, List.map_cons,
            List.map_cons]
          refine congrArg₂ _ ?_ (ih _ _)
          simp [Shape.occurrence]

end Dealias
