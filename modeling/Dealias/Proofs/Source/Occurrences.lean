import Dealias.Proofs.Source.Scan

/-!
# Import occurrences and import shapes

Scanning is greedy: it takes a shape at the first place where one starts and goes on behind it.  Its
pieces are therefore shapes of the text, and a shape of the text that is not among the pieces starts
inside of one that is.

* `occurrences_exact`: the occurrences stand one behind the other, each of them is a shape of the
  text, and every shape of the text is one of them or starts inside of one.

## Strategy

Both directions go through the pieces.  `Scan.standsIn` follows a piece back to the text in front of
it.  `Scan.found_or_inside` follows a shape of the text through the pieces in front of it until it
starts where a piece does, or inside of a piece.
-/

namespace Dealias

/-! ## Shapes in a text -/

/-- Whether an import shape stands in a text, between the texts in front of it and behind it. -/
structure Shape.StandsIn (shape : Shape) (text front back : List Char) : Prop where
  text_eq : text = front ++ shape.text ++ back
  opening : IsOpening shape.opening
  specifier : IsQuoteFree shape.specifier
  closing : IsClosing shape.closing back

theorem Shape.stop_occurrence (shape : Shape) (offset : Nat) :
    (shape.occurrence offset).span.stop = offset + byteSize shape.text := by
  simp only [occurrence, text, byteSize_append]
  omega

theorem byteSize_pos {text : List Char} (htext : text ≠ []) : 0 < byteSize text := by
  cases text with
  | nil => exact absurd rfl htext
  | cons character rest => exact Nat.add_pos_left character.utf8Size_pos _

theorem byteSize_toList (text : String) : byteSize text.toList = text.utf8ByteSize := by
  have hsize : ∀ characters : List Char,
      byteSize characters = (String.ofList characters).utf8ByteSize := by
    intro characters
    induction characters with
    | nil => rfl
    | cons character characters ih =>
        rw [byteSize, ih, String.ofList_cons, String.utf8ByteSize_append,
          String.utf8ByteSize_singleton]
  rw [hsize, String.ofList_toList]

/-! ## Pieces -/

namespace Scan

variable {pieces : List Piece} {occurrence : Occurrence}

/-- The occurrences of pieces start where the pieces do, or behind. -/
theorem offset_le {offset : Nat} (hmem : occurrence ∈ occurrencesOf offset pieces) :
    offset ≤ occurrence.span.start := by
  induction pieces generalizing offset with
  | nil => cases hmem
  | cons piece pieces ih =>
      cases piece with
      | plain character => exact (Nat.le_add_right ..).trans (ih hmem)
      | imported shape =>
          rcases List.mem_cons.mp hmem with rfl | hmem
          · exact le_rfl
          · exact (Nat.le_add_right ..).trans (ih hmem)

/-- The occurrences of pieces stand one behind the other. -/
theorem pairwise_occurrencesOf (offset : Nat) (pieces : List Piece) :
    (occurrencesOf offset pieces).Pairwise fun first second =>
      first.span.stop ≤ second.span.start := by
  induction pieces generalizing offset with
  | nil => exact .nil
  | cons piece pieces ih =>
      cases piece with
      | plain character => exact ih _
      | imported shape =>
          refine List.pairwise_cons.mpr ⟨fun second hsecond => ?_, ih _⟩
          exact shape.stop_occurrence offset ▸ offset_le hsecond

/-- Every occurrence of pieces is a shape of the text. -/
theorem standsIn (hscan : Scan pieces) {front : List Char}
    (hmem : occurrence ∈ occurrencesOf (byteSize front) pieces) :
    ∃ (shape : Shape) (before back : List Char),
      shape.StandsIn (front ++ textOf pieces) before back ∧
      occurrence = shape.occurrence (byteSize before) := by
  induction hscan generalizing front with
  | nil => cases hmem
  | @plain character pieces _ _ ih =>
      have hnext : byteSize front + character.utf8Size = byteSize (front ++ [character]) := by
        rw [byteSize_append]
        rfl
      rw [occurrencesOf, hnext] at hmem
      obtain ⟨shape, before, back, hstands, rfl⟩ := ih hmem
      rw [List.append_assoc] at hstands
      exact ⟨shape, before, back, hstands, rfl⟩
  | @imported shape pieces hshape _ ih =>
      rw [occurrencesOf, ← byteSize_append] at hmem
      rcases List.mem_cons.mp hmem with rfl | hmem
      · obtain ⟨back, htext, hopening, hspecifier, hclosing⟩ := shape?_eq_some_iff.mp hshape
        refine ⟨shape, front, back, ⟨?_, hopening, hspecifier, hclosing⟩, rfl⟩
        rw [List.append_assoc, ← htext]
        rfl
      · obtain ⟨shape', before, back, hstands, rfl⟩ := ih hmem
        rw [List.append_assoc] at hstands
        exact ⟨shape', before, back, hstands, rfl⟩

/-- Every shape of the text is an occurrence of the pieces, or starts inside of one. -/
theorem found_or_inside (hscan : Scan pieces) {shape : Shape} {front back : List Char}
    (hstands : shape.StandsIn (textOf pieces) front back) (offset : Nat) :
    shape.occurrence (offset + byteSize front) ∈ occurrencesOf offset pieces ∨
      ∃ occurrence ∈ occurrencesOf offset pieces,
        occurrence.span.start < offset + byteSize front ∧
          offset + byteSize front < occurrence.span.stop := by
  have hnonempty := Shape.text_ne_nil hstands.opening
  obtain ⟨htext, hopening, hspecifier, hclosing⟩ := hstands
  rw [List.append_assoc] at htext
  induction hscan generalizing front offset with
  | nil => simp_all
  | @plain character pieces hshape _ ih =>
      cases front with
      | nil =>
          have hfound := shape?_eq_some_iff.mpr ⟨back, htext, hopening, hspecifier, hclosing⟩
          exact absurd (hshape.symm.trans hfound) nofun
      | cons first front =>
          obtain ⟨rfl, hrest⟩ := List.cons.inj htext
          rw [byteSize, ← Nat.add_assoc]
          exact ih _ hrest
  | @imported taken pieces hshape _ ih =>
      by_cases hbehind : taken.text <+: front
      · obtain ⟨front, rfl⟩ := hbehind
        rw [List.append_assoc] at htext
        rw [byteSize_append, ← Nat.add_assoc]
        rcases ih _ (List.append_cancel_left htext) with hfound | ⟨occurrence, hmem, hinside⟩
        · exact .inl (List.mem_cons_of_mem _ hfound)
        · exact .inr ⟨occurrence, List.mem_cons_of_mem _ hmem, hinside⟩
      · by_cases hfront : front = []
        · -- only one shape starts in one place
          subst hfront
          have hfound := shape?_eq_some_iff.mpr ⟨back, htext, hopening, hspecifier, hclosing⟩
          obtain rfl := Option.some.inj (hshape.symm.trans hfound)
          exact .inl (List.mem_cons_self ..)
        · have hprefix : front <+: taken.text :=
            (List.prefix_or_prefix_of_prefix ⟨_, htext.symm⟩ ⟨_, rfl⟩).resolve_right hbehind
          obtain ⟨rest, hrest⟩ := hprefix
          have hrestNonempty : rest ≠ [] := by
            rintro rfl
            exact hbehind (hrest ▸ (List.append_nil front).symm ▸ List.prefix_refl _)
          have hinside := byteSize_pos hrestNonempty
          refine .inr ⟨taken.occurrence offset, List.mem_cons_self .., ?_, ?_⟩
          · exact Nat.lt_add_of_pos_right (byteSize_pos hfront)
          · rw [taken.stop_occurrence, ← hrest, byteSize_append]
            omega

end Scan

/-! ## Occurrences -/

/-- **Import occurrences.**  The occurrences of a text stand one behind the other.  Each of them is
an import shape of the text: its specifier stands between the two quotes, strictly inside of it, and
all places are between characters of the text.  Every import shape of the text is one of the
occurrences or starts inside of one that starts before it. -/
theorem occurrences_exact (text : String) :
    ((occurrences text).Pairwise fun first second => first.span.stop ≤ second.span.start) ∧
    (∀ occurrence ∈ occurrences text,
      occurrence.span.start < occurrence.specifierSpan.start ∧
      occurrence.specifierSpan.start ≤ occurrence.specifierSpan.stop ∧
      occurrence.specifierSpan.stop < occurrence.span.stop ∧
      occurrence.span.stop ≤ text.utf8ByteSize ∧
      ∃ (shape : Shape) (front back : List Char), shape.StandsIn text.toList front back ∧
        occurrence.span = ⟨byteSize front, byteSize (front ++ shape.text)⟩ ∧
        occurrence.specifierSpan = ⟨byteSize (front ++ shape.opening),
          byteSize (front ++ shape.opening ++ shape.specifier)⟩ ∧
        occurrence.specifier.toList = shape.specifier) ∧
    ∀ (shape : Shape) (front back : List Char), shape.StandsIn text.toList front back →
      shape.occurrence (byteSize front) ∈ occurrences text ∨
        ∃ occurrence ∈ occurrences text,
          occurrence.span.start < byteSize front ∧ byteSize front < occurrence.span.stop := by
  obtain ⟨pieces, hscan, htext⟩ := exists_scan text.toList
  have hoccurrences : occurrences text = occurrencesOf 0 pieces := by
    rw [occurrences, ← htext, hscan.occurrences_eq]
  rw [hoccurrences]
  refine ⟨Scan.pairwise_occurrencesOf 0 pieces, fun occurrence hmem => ?_,
    fun shape front back hstands => ?_⟩
  · have hstart : occurrence ∈ occurrencesOf (byteSize []) pieces := hmem
    obtain ⟨shape, front, back, hstands, rfl⟩ := hscan.standsIn hstart
    rw [List.nil_append, htext] at hstands
    have hopening : 0 < byteSize shape.opening := by
      obtain ⟨front, -, quote, -, hopening⟩ := hstands.opening
      exact byteSize_pos (by simp [hopening])
    have hclosing : 0 < byteSize shape.closing := by
      obtain ⟨quote, -, hclosing | ⟨hclosing, -⟩⟩ := hstands.closing
      · exact byteSize_pos (by simp [hclosing])
      · exact byteSize_pos (by simp [hclosing])
    have hsize : text.utf8ByteSize =
        byteSize front + byteSize shape.text + byteSize back := by
      rw [← byteSize_toList, hstands.text_eq, byteSize_append, byteSize_append]
    refine ⟨Nat.lt_add_of_pos_right hopening, Nat.le_add_right .., Nat.lt_add_of_pos_right hclosing,
      ?_, shape, front, back, hstands, ?_, ?_, String.toList_ofList⟩
    · rw [shape.stop_occurrence, hsize]
      exact Nat.le_add_right ..
    · rw [byteSize_append, ← shape.stop_occurrence]
      rfl
    · simp only [byteSize_append]
      rfl
  · rw [← htext] at hstands
    have hfound := hscan.found_or_inside hstands 0
    rwa [Nat.zero_add] at hfound

/-- A shape that is no occurrence, because it starts in the specifier of one. -/
theorem occurrences_exact_sample :
    occurrences "from 'import' 'b'" = [⟨⟨0, 13⟩, ⟨6, 12⟩, "import"⟩] ∧
      Shape.StandsIn ⟨"import'".toList, " ".toList, "'".toList⟩ "from 'import' 'b'".toList
        "from '".toList "b'".toList ∧
      ∃ occurrence ∈ occurrences "from 'import' 'b'",
        occurrence.span.start < 6 ∧ 6 < occurrence.span.stop := by
  have hstands : Shape.StandsIn ⟨"import'".toList, " ".toList, "'".toList⟩
      "from 'import' 'b'".toList "from '".toList "b'".toList :=
    ⟨by decide, ⟨"import".toList, by decide +kernel, '\'', rfl, by decide⟩, by decide,
      '\'', rfl, .inr ⟨by decide, by decide⟩⟩
  have hoccurrences : occurrences "from 'import' 'b'" = [⟨⟨0, 13⟩, ⟨6, 12⟩, "import"⟩] := by
    decide +kernel
  obtain ⟨-, -, hcomplete⟩ := occurrences_exact "from 'import' 'b'"
  refine ⟨hoccurrences, hstands, (hcomplete _ _ _ hstands).resolve_left ?_⟩
  rw [hoccurrences]
  decide +kernel

end Dealias
