import Dealias.Proofs.Alias.Table
import Dealias.Proofs.Source.Edit

/-!
# What rewiring does to a text

A rewired text has been made by edits at places that were counted in the text before.  Here it is
compared with that text: from left to right, as a whole, and by what scanning finds in both.

* `Rewired.spliced_ofFindings`: nothing but the specifiers that are resolved is exchanged, each at
  its own place.
* `Rewired.code_ne_iff`: the text is another one as soon as one specifier is resolved, provided that
  what is put in is a file address and what it takes the place of is not.
* `Rewired.shapes_ofFindings_iff`: the keywords, quotes and parentheses that scanning finds are the
  same ones, and stand around the new specifiers, exactly when no quote is put in.

## Strategy

Up to its first quote a text is a file address or it is not.  What is put in place of a specifier
stands before a closing quote just as the specifier did, so a file address that took the place of
another specifier is seen there, whatever comes behind it (`eq_of_textOf_replaceAll`).
-/

namespace Dealias

variable {resolution : String → Resolution} {change : String → String}

/-! ## Splices -/

/-- The occurrence and the address that takes the place of its specifier, when it resolves as
given. -/
def Occurrence.exchange? (occurrence : Occurrence) : Resolution → Option (Occurrence × String)
  | .resolved address => some (occurrence, address)
  | _ => none

/-- The exchanges that findings ask for. -/
abbrev exchangesOf (findings : List (Occurrence × Resolution)) : List (Occurrence × String) :=
  findings.filterMap fun finding => finding.1.exchange? finding.2

theorem Occurrence.exchange?_cases (occurrence : Occurrence) (resolution : Resolution) :
    occurrence.exchange? resolution =
        some (occurrence, resolution.address occurrence.specifier) ∨
      occurrence.exchange? resolution = none ∧
        resolution.address occurrence.specifier = occurrence.specifier := by
  cases resolution with
  | resolved address => exact .inl rfl
  | _ => exact .inr ⟨rfl, rfl⟩

/-- **Splicing.**  Rewiring exchanges the resolved specifiers, and nothing else. -/
theorem Rewired.spliced_ofFindings (resolution : String → Resolution) (text : String) :
    Spliced 0 (exchangesOf (findingsOf resolution (occurrences text))) text.toList
      (Rewired.ofFindings text (findingsOf resolution (occurrences text))).code.toList := by
  obtain ⟨pieces, hscan, htext⟩ := exists_scan text.toList
  rw [exchangesOf, List.filterMap_map, code_ofFindings hscan htext, occurrences, ← htext,
    hscan.occurrences_eq]
  exact spliced_textOf (fun occurrence =>
    occurrence.exchange?_cases (resolution occurrence.specifier)) pieces 0 []

/-! ## Texts that differ -/

/-- A file address is one up to its first quote already. -/
theorem AliasTable.isFileAddress_takeWhile {address : String}
    (haddress : isFileAddress address = true) :
    isFileAddress (String.ofList (address.toList.takeWhile fun character => !isQuote character)) =
      true := by
  unfold isFileAddress at haddress
  split at haddress <;> simp_all [isFileAddress, isQuote]

theorem takeWhile_append_quote {quote : Char} (hquote : isQuote quote = true)
    (front back : List Char) :
    (front ++ quote :: back).takeWhile (fun character => !isQuote character) =
      front.takeWhile fun character => !isQuote character := by
  induction front with
  | nil => simp [hquote]
  | cons character front ih => simp [List.takeWhile_cons, ih]

/-- A file address does not read as another specifier in front of a quote. -/
theorem AliasTable.isFileAddress_of_append_eq {specifier address : String} {quote quote' : Char}
    {back back' : List Char} (hspecifier : Dealias.IsQuoteFree specifier.toList)
    (hquote : isQuote quote = true) (hquote' : isQuote quote' = true)
    (haddress : isFileAddress address = true)
    (heq : address.toList ++ quote' :: back' = specifier.toList ++ quote :: back) :
    isFileAddress specifier = true := by
  have hbefore : (specifier.toList ++ quote :: back).takeWhile
      (fun character => !isQuote character) = specifier.toList :=
    (takeWhile_quote hspecifier (by simpa using hquote)).1
  have hsame : address.toList.takeWhile (fun character => !isQuote character) =
      specifier.toList := by
    rw [← hbefore, ← heq, takeWhile_append_quote hquote']
  have hstart := isFileAddress_takeWhile haddress
  rwa [hsame, String.ofList_toList] at hstart

/-- An exchange that leaves the text as it was has left every specifier as it was. -/
theorem Scan.eq_of_textOf_replaceAll {pieces : List Piece} (hscan : Scan pieces)
    (hchange : ∀ specifier, change specifier ≠ specifier →
      AliasTable.isFileAddress (change specifier) = true ∧
        AliasTable.isFileAddress specifier = false)
    (heq : textOf (replaceAll change pieces) = textOf pieces) (offset : Nat) :
    ∀ occurrence ∈ occurrencesOf offset pieces,
      change occurrence.specifier = occurrence.specifier := by
  induction hscan generalizing offset with
  | nil => simp [occurrencesOf]
  | plain hshape hscan ih => exact ih (List.cons.inj heq).2 _
  | @imported shape pieces hshape hscan ih =>
      obtain ⟨rest, -, -, hspecifier, quote, hquote, hclosing⟩ := shape?_eq_some_iff.mp hshape
      have hrest : (change (String.ofList shape.specifier)).toList ++
          (shape.closing ++ textOf (replaceAll change pieces)) =
            (String.ofList shape.specifier).toList ++ (shape.closing ++ textOf pieces) := by
        simpa [replaceAll, Piece.replace, Piece.text, Shape.text] using heq
      have hkept : change (String.ofList shape.specifier) = String.ofList shape.specifier := by
        by_contra hne
        obtain ⟨haddress, hname⟩ := hchange _ hne
        obtain ⟨back, hback⟩ : ∃ back, shape.closing = quote :: back := by
          rcases hclosing with hclosing | ⟨hclosing, -⟩
          · exact ⟨[')'], hclosing⟩
          · exact ⟨[], hclosing⟩
        rw [hback, List.cons_append, List.cons_append] at hrest
        rw [AliasTable.isFileAddress_of_append_eq (by simpa using hspecifier) hquote hquote haddress
          hrest] at hname
        cases hname
      rw [hkept] at hrest
      refine List.forall_mem_cons.mpr ⟨hkept, ih ?_ _⟩
      exact List.append_cancel_left (List.append_cancel_left hrest)

/-- The number of replacements is the number of specifiers that are resolved. -/
theorem Rewired.replaced_eq_length (hresolution : ∀ specifier address,
      resolution specifier = .resolved address → address ≠ specifier) (text : String) :
    (Rewired.ofFindings text (findingsOf resolution (occurrences text))).replaced =
      (exchangesOf (findingsOf resolution (occurrences text))).length := by
  change (editsOf _).length = _
  rw [editsOf, exchangesOf, List.length_filterMap_eq_countP, List.length_filterMap_eq_countP]
  refine List.countP_congr fun finding hfinding => ?_
  obtain ⟨occurrence, -, rfl⟩ := List.mem_map.mp hfinding
  cases hspecifier : resolution occurrence.specifier with
  | resolved address =>
      simp [Occurrence.isSome_edit?, Occurrence.exchange?, Resolution.address,
        hresolution _ _ hspecifier]
  | _ => simp [Occurrence.edit?, Occurrence.exchange?]

/-- **Changes.**  A text is another one just when something is replaced. -/
theorem Rewired.code_ne_iff (hresolution : ∀ specifier address,
      resolution specifier = .resolved address →
        AliasTable.isFileAddress address = true ∧ AliasTable.isFileAddress specifier = false)
    (text : String) :
    (Rewired.ofFindings text (findingsOf resolution (occurrences text))).code ≠ text ↔
      0 < (Rewired.ofFindings text (findingsOf resolution (occurrences text))).replaced := by
  have hchange : ∀ specifier, (resolution specifier).address specifier ≠ specifier →
      AliasTable.isFileAddress ((resolution specifier).address specifier) = true ∧
        AliasTable.isFileAddress specifier = false := by
    intro specifier hne
    cases hspecifier : resolution specifier with
    | resolved address => exact hresolution _ _ hspecifier
    | _ => exact absurd (by rw [hspecifier]; rfl) hne
  rw [Nat.pos_iff_ne_zero]
  refine not_congr ⟨fun hsame => ?_, fun hnone => ?_⟩
  · obtain ⟨pieces, hscan, htext⟩ := exists_scan text.toList
    have heq : (ofFindings text (findingsOf resolution (occurrences text))).code.toList = _ :=
      code_ofFindings hscan htext
    rw [hsame, ← htext] at heq
    have hkept := hscan.eq_of_textOf_replaceAll hchange heq.symm 0
    rw [replaced_ofFindings, List.countP_map, List.countP_eq_zero, occurrences, ← htext,
      hscan.occurrences_eq]
    intro occurrence hoccurrence
    simp [hkept occurrence hoccurrence]
  · have hedits : editsOf (findingsOf resolution (occurrences text)) = [] :=
      List.length_eq_zero_iff.mp hnone
    change applyEdits text (editsOf (findingsOf resolution (occurrences text))) = text
    rw [hedits, applyEdits, editFrom, String.ofList_toList]

/-! ## Shapes in a rewired text -/

/-- The shape that an occurrence is in a text: what the text has between the starts of its two spans
and between their ends, with the specifier in the middle. -/
def Occurrence.shapeIn (text : String) (occurrence : Occurrence) : Shape where
  opening := takeBytes (occurrence.specifierSpan.start - occurrence.span.start)
    (dropBytes occurrence.span.start text.toList)
  specifier := occurrence.specifier.toList
  closing := takeBytes (occurrence.span.stop - occurrence.specifierSpan.stop)
    (dropBytes occurrence.specifierSpan.stop text.toList)

/-- The shapes in a text, in text order. -/
def shapesIn (text : String) : List Shape :=
  (occurrences text).map (Occurrence.shapeIn text)

/-- The shape with another specifier. -/
def Shape.replace (change : String → String) (shape : Shape) : Shape :=
  { shape with specifier := (change (String.ofList shape.specifier)).toList }

/-- The shape that a piece is, if it is one. -/
def Piece.shape? : Piece → Option Shape
  | plain _ => none
  | imported shape => some shape

theorem Shape.shapeIn_occurrence (shape : Shape) {text : String} (front back : List Char)
    (htext : text.toList = front ++ shape.text ++ back) :
    (shape.occurrence (byteSize front)).shapeIn text = shape := by
  have hopening : text.toList =
      front ++ (shape.opening ++ (shape.specifier ++ shape.closing ++ back)) := by
    simp [htext, Shape.text]
  have hclosing : text.toList =
      front ++ shape.opening ++ shape.specifier ++ (shape.closing ++ back) := by
    simp [htext, Shape.text]
  have hstop : byteSize front + byteSize shape.opening + byteSize shape.specifier =
      byteSize (front ++ shape.opening ++ shape.specifier) := by
    simp only [byteSize_append]
  unfold Occurrence.shapeIn Shape.occurrence
  dsimp only
  congr 1
  · rw [hopening, dropBytes_append, Nat.add_sub_cancel_left, takeBytes_append]
  · exact String.toList_ofList
  · rw [hclosing, hstop, dropBytes_append, Nat.add_sub_cancel_left, takeBytes_append]

/-- The occurrences of pieces that stand behind some text are the shapes among them. -/
theorem map_shapeIn_occurrencesOf {text : String} (pieces : List Piece) (front : List Char)
    (htext : text.toList = front ++ textOf pieces) :
    (occurrencesOf (byteSize front) pieces).map (Occurrence.shapeIn text) =
      pieces.filterMap Piece.shape? := by
  induction pieces generalizing front with
  | nil => rfl
  | cons piece pieces ih =>
      have hrest := ih (front ++ piece.text) (by rw [htext]; simp)
      rw [byteSize_append] at hrest
      cases piece with
      | plain character =>
          simpa [occurrencesOf, Piece.text, byteSize, List.filterMap_cons, Piece.shape?] using hrest
      | imported shape =>
          have hshape : (shape.occurrence (byteSize front)).shapeIn text = shape :=
            shape.shapeIn_occurrence front (textOf pieces) (by rw [htext]; simp [Piece.text])
          simpa [occurrencesOf, Piece.text, Piece.shape?, hshape] using hrest

/-- The shapes in a text are those of its pieces. -/
theorem Scan.shapesIn_eq {pieces : List Piece} (hscan : Scan pieces) {text : String}
    (htext : textOf pieces = text.toList) : shapesIn text = pieces.filterMap Piece.shape? := by
  rw [shapesIn, occurrences, ← htext, hscan.occurrences_eq]
  exact map_shapeIn_occurrencesOf pieces [] (by simp [htext])

/-- The specifiers in a text have no quotes. -/
theorem isQuoteFree_of_mem_occurrences {text : String} {occurrence : Occurrence}
    (hoccurrence : occurrence ∈ occurrences text) : IsQuoteFree occurrence.specifier.toList := by
  obtain ⟨pieces, hscan, htext⟩ := exists_scan text.toList
  rw [occurrences, ← htext, hscan.occurrences_eq] at hoccurrence
  exact hscan.isQuoteFree hoccurrence

/-- Exchanging the specifiers of pieces exchanges them in their shapes. -/
theorem filterMap_shape?_replaceAll (change : String → String) (pieces : List Piece) :
    (replaceAll change pieces).filterMap Piece.shape? =
      (pieces.filterMap Piece.shape?).map (Shape.replace change) := by
  rw [replaceAll, List.filterMap_map, List.map_filterMap]
  refine List.filterMap_congr fun piece _ => ?_
  cases piece <;> rfl

theorem replaceAll_congr {change' : String → String} {pieces : List Piece}
    (hsame : ∀ shape ∈ pieces.filterMap Piece.shape?,
      shape.replace change = shape.replace change') :
    replaceAll change pieces = replaceAll change' pieces := by
  refine List.map_congr_left fun piece hpiece => ?_
  cases piece with
  | plain character => rfl
  | imported shape =>
      have hshape : shape ∈ pieces.filterMap Piece.shape? :=
        List.mem_filterMap.mpr ⟨.imported shape, hpiece, rfl⟩
      exact congrArg Piece.imported (hsame shape hshape)

/-- The exchange that leaves a specifier as it is where a quote would be put in. -/
def withoutQuotes (change : String → String) (specifier : String) : String :=
  if IsQuoteFree (change specifier).toList then change specifier else specifier

theorem isQuoteFree_withoutQuotes {specifier : String} (hspecifier : IsQuoteFree specifier.toList) :
    IsQuoteFree (withoutQuotes change specifier).toList := by
  unfold withoutQuotes
  split
  · assumption
  · exact hspecifier

/-- **Shapes.**  A rewired text has the shapes of the text before, with the new specifiers, exactly
when none of these has a quote. -/
theorem Rewired.shapes_ofFindings_iff (resolution : String → Resolution) (text : String) :
    shapesIn (Rewired.ofFindings text (findingsOf resolution (occurrences text))).code =
        (shapesIn text).map (Shape.replace fun specifier =>
          (resolution specifier).address specifier) ↔
      ∀ occurrence ∈ occurrences text,
        IsQuoteFree ((resolution occurrence.specifier).address occurrence.specifier).toList := by
  constructor
  · intro hshapes occurrence hoccurrence
    have hmem : (occurrence.shapeIn text).replace
        (fun specifier => (resolution specifier).address specifier) ∈
          shapesIn (ofFindings text (findingsOf resolution (occurrences text))).code := by
      rw [hshapes]
      exact List.mem_map_of_mem (List.mem_map_of_mem hoccurrence)
    obtain ⟨found, hfound, hshape⟩ := List.mem_map.mp hmem
    have hspecifier : found.specifier.toList =
        ((resolution occurrence.specifier).address occurrence.specifier).toList := by
      simpa [Shape.replace, Occurrence.shapeIn] using congrArg Shape.specifier hshape
    exact hspecifier ▸ isQuoteFree_of_mem_occurrences hfound
  · intro hquoteFree
    obtain ⟨pieces, hscan, htext⟩ := exists_scan text.toList
    have hshapes := hscan.shapesIn_eq htext
    -- specifiers that are not in the text may be resolved to addresses with quotes
    have hsame : ∀ shape ∈ pieces.filterMap Piece.shape?,
        (shape.replace fun specifier => (resolution specifier).address specifier) =
          shape.replace (withoutQuotes fun specifier =>
            (resolution specifier).address specifier) := by
      intro shape hshape
      obtain ⟨occurrence, hoccurrence, rfl⟩ := List.mem_map.mp (hshapes ▸ hshape)
      have haddress := hquoteFree occurrence hoccurrence
      simp [Shape.replace, Occurrence.shapeIn, withoutQuotes, haddress]
    have hcode : (ofFindings text (findingsOf resolution (occurrences text))).code.toList = _ :=
      code_ofFindings hscan htext
    rw [replaceAll_congr hsame] at hcode
    rw [(hscan.replace fun _ => isQuoteFree_withoutQuotes).shapesIn_eq hcode.symm,
      filterMap_shape?_replaceAll, hshapes]
    exact (List.map_congr_left hsame).symm

end Dealias
