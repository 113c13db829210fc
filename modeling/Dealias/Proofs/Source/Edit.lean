import Dealias.Proofs.Source.Scan
import Dealias.Rewiring
import Mathlib.Data.List.Basic

/-!
# Rewired texts

Rewiring makes one edit for each import occurrence that resolves to another specifier.  Edits at the
places of specifiers exchange these and keep everything else (`Spliced`).  When the resolution
depends on the specifier alone, the rewired text is the text of the same pieces with their
specifiers exchanged (`Rewired.code_ofFindings`), and so rewiring it again starts from the exchanged
specifiers (`specifiers_code`).
-/

namespace Dealias

/-! ## Cutting at byte positions -/

theorem takeBytes_append (front rest : List Char) :
    takeBytes (byteSize front) (front ++ rest) = front := by
  induction front with
  | nil =>
      cases rest with
      | nil => rfl
      | cons character rest =>
          rw [byteSize, List.nil_append, takeBytes, if_neg]
          exact Nat.not_le.mpr character.utf8Size_pos
  | cons character front ih =>
      rw [byteSize, List.cons_append, takeBytes, if_pos (Nat.le_add_right ..),
        Nat.add_sub_cancel_left, ih]

theorem dropBytes_append (front rest : List Char) :
    dropBytes (byteSize front) (front ++ rest) = rest := by
  induction front with
  | nil =>
      cases rest with
      | nil => rfl
      | cons character rest =>
          rw [byteSize, List.nil_append, dropBytes, if_neg]
          exact Nat.not_le.mpr character.utf8Size_pos
  | cons character front ih =>
      rw [byteSize, List.cons_append, dropBytes, if_pos (Nat.le_add_right ..),
        Nat.add_sub_cancel_left, ih]

/-- Replacing the range between two texts. -/
theorem editFrom_append (offset : Nat) (front old back : List Char) (new : String)
    (edits : List Edit) :
    editFrom offset (front ++ old ++ back)
        (⟨⟨offset + byteSize front, offset + byteSize (front ++ old)⟩, new⟩ :: edits) =
      front ++ new.toList ++ editFrom (offset + byteSize (front ++ old)) back edits := by
  rw [editFrom]
  dsimp only
  rw [Nat.add_sub_cancel_left, Nat.add_sub_cancel_left, dropBytes_append,
    List.append_assoc front old back, takeBytes_append]

/-! ## Splices -/

/-- Whether a text that starts at `offset` becomes another one when specifiers are exchanged, each
at the place of its occurrence, and everything between them and behind them is kept. -/
inductive Spliced : Nat → List (Occurrence × String) → List Char → List Char → Prop
  | kept {offset : Nat} {text : List Char} : Spliced offset [] text text
  | exchanged {offset : Nat} (gap : List Char) (occurrence : Occurrence) (address : String)
      {exchanges : List (Occurrence × String)} {old new : List Char}
      (hstart : occurrence.specifierSpan.start = offset + byteSize gap)
      (hstop : occurrence.specifierSpan.stop =
        offset + byteSize (gap ++ occurrence.specifier.toList))
      (hrest : Spliced occurrence.specifierSpan.stop exchanges old new) :
      Spliced offset ((occurrence, address) :: exchanges)
        (gap ++ occurrence.specifier.toList ++ old) (gap ++ address.toList ++ new)

/-- Edits at the places of specifiers make the splice. -/
theorem Spliced.editFrom_eq {offset : Nat} {exchanges : List (Occurrence × String)}
    {old new : List Char} (hspliced : Spliced offset exchanges old new) :
    editFrom offset old (exchanges.map fun exchange => ⟨exchange.1.specifierSpan, exchange.2⟩) =
      new := by
  induction hspliced with
  | kept => rfl
  | @exchanged offset gap occurrence address exchanges old new hstart hstop hrest ih =>
      have hspan : occurrence.specifierSpan = ⟨offset + byteSize gap,
          offset + byteSize (gap ++ occurrence.specifier.toList)⟩ := by
        rw [← hstart, ← hstop]
      rw [hstop] at ih
      rw [List.map_cons, hspan, editFrom_append, ih]

variable {change : String → String}

/-- Exchanging the specifiers of pieces that stand behind some text splices the whole, whether or
not occurrences that keep their specifiers are among the exchanges. -/
theorem spliced_textOf {exchange? : Occurrence → Option (Occurrence × String)}
    (hexchange : ∀ occurrence,
      exchange? occurrence = some (occurrence, change occurrence.specifier) ∨
        exchange? occurrence = none ∧ change occurrence.specifier = occurrence.specifier)
    (pieces : List Piece) (offset : Nat) (front : List Char) :
    Spliced offset ((occurrencesOf (offset + byteSize front) pieces).filterMap exchange?)
      (front ++ textOf pieces) (front ++ textOf (replaceAll change pieces)) := by
  induction pieces generalizing offset front with
  | nil => exact .kept
  | cons piece pieces ih =>
      cases piece with
      | plain character =>
          have hrest := ih offset (front ++ [character])
          rw [byteSize_append, ← Nat.add_assoc] at hrest
          simpa [occurrencesOf, replaceAll, Piece.replace, Piece.text, byteSize] using hrest
      | imported shape =>
          let occurrence : Occurrence := shape.occurrence (offset + byteSize front)
          have hspecifier : occurrence.specifier = String.ofList shape.specifier := rfl
          rw [occurrencesOf]
          rcases hexchange occurrence with hsome | ⟨hnone, hkept⟩
          · -- an exchange: the gap ends with the opening, and the closing starts what is behind
            have hstart : occurrence.specifierSpan.start =
                offset + byteSize (front ++ shape.opening) := by
              simp only [occurrence, Shape.occurrence, byteSize_append, Nat.add_assoc]
            have hstop : occurrence.specifierSpan.stop =
                offset + byteSize (front ++ shape.opening ++ occurrence.specifier.toList) := by
              simp only [occurrence, Shape.occurrence, byteSize_append, Nat.add_assoc,
                String.toList_ofList]
            have hspliced := Spliced.exchanged (front ++ shape.opening) occurrence
              (change occurrence.specifier) hstart hstop
                (ih occurrence.specifierSpan.stop shape.closing)
            have hsize : offset + byteSize front + byteSize shape.text =
                occurrence.specifierSpan.stop + byteSize shape.closing := by
              simp only [occurrence, Shape.occurrence, Shape.text, byteSize_append, Nat.add_assoc]
            rw [List.filterMap_cons_some hsome, hsize]
            simpa [replaceAll, Piece.replace, Piece.text, Shape.text, hspecifier] using hspliced
          · -- no exchange: the shape joins the text in front
            have hrest := ih offset (front ++ shape.text)
            rw [byteSize_append, ← Nat.add_assoc] at hrest
            rw [hspecifier] at hkept
            rw [List.filterMap_cons_none hnone]
            simpa [replaceAll, Piece.replace, Piece.text, hkept] using hrest

/-! ## Edits of pieces -/

/-- The specifier that a resolution puts in place of another one. -/
def Resolution.address (specifier : String) : Resolution → String
  | .resolved address => address
  | _ => specifier

variable {resolution : String → Resolution}

/-- The findings about occurrences whose resolution depends on their specifiers alone. -/
abbrev findingsOf (resolution : String → Resolution) (occurrences : List Occurrence) :
    List (Occurrence × Resolution) :=
  occurrences.map fun occurrence => (occurrence, resolution occurrence.specifier)

/-- The edits that findings ask for. -/
abbrev editsOf (findings : List (Occurrence × Resolution)) : List Edit :=
  findings.filterMap fun finding => finding.1.edit? finding.2

/-- An occurrence asks for an edit unless it keeps its specifier. -/
theorem Occurrence.edit?_cases (occurrence : Occurrence) (resolution : Resolution) :
    occurrence.edit? resolution =
        some ⟨occurrence.specifierSpan, resolution.address occurrence.specifier⟩ ∨
      occurrence.edit? resolution = none ∧
        resolution.address occurrence.specifier = occurrence.specifier := by
  cases resolution with
  | resolved address =>
      by_cases hsame : address = occurrence.specifier
      · exact .inr ⟨if_pos hsame, hsame⟩
      · exact .inl (if_neg hsame)
  | _ => exact .inr ⟨rfl, rfl⟩

/-- The edit of an occurrence, as an exchange. -/
def Occurrence.editExchange? (occurrence : Occurrence) (resolution : Resolution) :
    Option (Occurrence × String) :=
  (occurrence.edit? resolution).map fun edit => (occurrence, edit.replacement)

theorem Occurrence.editExchange?_cases (occurrence : Occurrence) (resolution : Resolution) :
    occurrence.editExchange? resolution =
        some (occurrence, resolution.address occurrence.specifier) ∨
      occurrence.editExchange? resolution = none ∧
        resolution.address occurrence.specifier = occurrence.specifier := by
  rcases occurrence.edit?_cases resolution with hedit | ⟨hedit, hkept⟩
  · exact .inl (by simp [editExchange?, hedit])
  · exact .inr ⟨by simp [editExchange?, hedit], hkept⟩

theorem editsOf_findingsOf (resolution : String → Resolution) (occurrences : List Occurrence) :
    editsOf (findingsOf resolution occurrences) =
      (occurrences.filterMap fun occurrence =>
        occurrence.editExchange? (resolution occurrence.specifier)).map
          fun exchange => ⟨exchange.1.specifierSpan, exchange.2⟩ := by
  rw [editsOf, List.filterMap_map, List.map_filterMap]
  refine List.filterMap_congr fun occurrence _ => ?_
  rcases occurrence.edit?_cases (resolution occurrence.specifier) with hedit | ⟨hedit, -⟩ <;>
    simp [Occurrence.editExchange?, hedit]

/-- Making the edits of pieces exchanges their specifiers. -/
theorem editFrom_textOf (resolution : String → Resolution) (pieces : List Piece) :
    editFrom 0 (textOf pieces) (editsOf (findingsOf resolution (occurrencesOf 0 pieces))) =
      textOf (replaceAll (fun specifier => (resolution specifier).address specifier) pieces) := by
  rw [editsOf_findingsOf]
  exact (spliced_textOf (fun occurrence =>
    occurrence.editExchange?_cases (resolution occurrence.specifier)) pieces 0 []).editFrom_eq

/-! ## Rewired texts -/

/-- **The rewired text.**  It is the text of the same pieces with their specifiers exchanged. -/
theorem Rewired.code_ofFindings {text : String} {pieces : List Piece} (hscan : Scan pieces)
    (htext : textOf pieces = text.toList) :
    (Rewired.ofFindings text (findingsOf resolution (occurrences text))).code.toList =
      textOf (replaceAll (fun specifier => (resolution specifier).address specifier) pieces) := by
  rw [Rewired.ofFindings, applyEdits, occurrences, String.toList_ofList, ← htext,
    hscan.occurrences_eq, editFrom_textOf]

/-- **Rewiring again.**  The specifiers in a rewired text are those that the resolutions put in
place, as long as these have no quotes. -/
theorem specifiers_code (hquoteFree : ∀ specifier : String, IsQuoteFree specifier.toList →
      IsQuoteFree ((resolution specifier).address specifier).toList) (text : String) :
    (occurrences (Rewired.ofFindings text
        (findingsOf resolution (occurrences text))).code).map Occurrence.specifier =
      (occurrences text).map fun occurrence =>
        (resolution occurrence.specifier).address occurrence.specifier := by
  obtain ⟨pieces, hscan, htext⟩ := exists_scan text.toList
  have hagain := hscan.replace hquoteFree
  have hcode : (Rewired.ofFindings text
      (findingsOf resolution (occurrences text))).code.toList =
        textOf (replaceAll (fun specifier => (resolution specifier).address specifier) pieces) :=
    Rewired.code_ofFindings hscan htext
  calc (occurrences (Rewired.ofFindings text
        (findingsOf resolution (occurrences text))).code).map Occurrence.specifier
      = (occurrencesOf 0 (replaceAll (fun specifier => (resolution specifier).address specifier)
          pieces)).map Occurrence.specifier := by
        rw [occurrences, hcode, hagain.occurrences_eq]
    _ = (occurrencesOf 0 pieces).map fun occurrence =>
          (resolution occurrence.specifier).address occurrence.specifier :=
        specifiers_replaceAll pieces 0 0
    _ = (occurrences text).map fun occurrence =>
          (resolution occurrence.specifier).address occurrence.specifier := by
        rw [occurrences, ← htext, hscan.occurrences_eq]

/-! ## What is found in a text -/

theorem Occurrence.isSome_edit? (occurrence : Occurrence) (resolution : Resolution) :
    (occurrence.edit? resolution).isSome =
      decide (resolution.address occurrence.specifier ≠ occurrence.specifier) := by
  cases resolution with
  | resolved address =>
      by_cases hsame : address = occurrence.specifier <;> simp [edit?, Resolution.address, hsame]
  | _ => simp [edit?, Resolution.address]

/-- The number of replacements is the number of specifiers that another one takes the place of. -/
theorem Rewired.replaced_ofFindings (text : String) (occurrences : List Occurrence) :
    (Rewired.ofFindings text (findingsOf resolution occurrences)).replaced =
      (occurrences.map Occurrence.specifier).countP fun specifier =>
        (resolution specifier).address specifier ≠ specifier := by
  change (editsOf (findingsOf resolution occurrences)).length = _
  rw [editsOf, List.length_filterMap_eq_countP, findingsOf, List.countP_map, List.countP_map]
  refine List.countP_congr fun occurrence _ => ?_
  simp only [Function.comp_apply, Occurrence.isSome_edit?]

/-- The unresolved imports are those of the specifiers. -/
theorem Rewired.unresolved_ofFindings (text : String) (occurrences : List Occurrence) :
    (Rewired.ofFindings text (findingsOf resolution occurrences)).unresolved =
      (occurrences.map Occurrence.specifier).filterMap fun specifier =>
        match resolution specifier with
        | .unresolved pattern => some ⟨specifier, pattern⟩
        | _ => none := by
  change (findingsOf resolution occurrences).filterMap
    (fun finding => finding.1.unresolved? finding.2) = _
  rw [findingsOf, List.filterMap_map, List.filterMap_map]
  refine congrArg (List.filterMap · occurrences) (funext fun occurrence => ?_)
  cases hresolution : resolution occurrence.specifier <;>
    simp [Occurrence.unresolved?, hresolution]

end Dealias
