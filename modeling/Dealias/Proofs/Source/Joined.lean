import Dealias.Proofs.Rewiring
import Dealias.Proofs.Source.Occurrences

/-!
# Scanning texts one behind the other

A shape may begin in one text and end in the next.  It does so when the first text stops between an
opening and the quote that closes it, and the second text has that quote.  Whole lines in front of a
text hide none of its imports, unless they leave a shape open.

* `occurrences_append_iff`: when the occurrences of two texts are those of the texts joined, and how
  whole lines whose literals are closed can leave a shape open all the same, by the last literal.
* `occurrences_hidden_by_literal`: a literal that ends in a keyword hides the import behind it.

## Strategy

No opening has a line break, so none of them straddles the end of the first text.  Its pieces are
therefore pieces of the joined text as well, as long as no opening among them finds its quote in the
second text (`Scan.append`).  An opening that does makes a shape that reaches from one text into the
other, which is no occurrence of either.
-/

namespace Dealias

/-! ## Whole lines -/

/-- Whether a text is made of whole lines. -/
def EndsLine (text : List Char) : Prop :=
  text = [] ∨ text.getLast? = some '\n'

instance (text : List Char) : Decidable (EndsLine text) :=
  inferInstanceAs (Decidable (_ ∨ _))

theorem EndsLine.of_append {front back : List Char} (hlines : EndsLine (front ++ back)) :
    EndsLine back := by
  by_cases hback : back = []
  · exact .inl hback
  · right
    rcases hlines with hempty | hlast
    · simp_all
    · rwa [List.getLast?_append_of_ne_nil _ hback] at hlast

theorem IsOpening.lineBreak_notMem {opening : List Char} (hopening : IsOpening opening) :
    '\n' ∉ opening := by
  obtain ⟨front, hfront, quote, hquote, rfl⟩ := hopening
  have hfronts : ∀ front ∈ openingFronts, '\n' ∉ front := by decide +kernel
  have hne : '\n' ≠ quote := by
    rintro rfl
    simp [isQuote] at hquote
  simp [hfronts front hfront, hne]

/-- An opening that starts in whole lines ends in them. -/
theorem IsOpening.ends_in_lines {opening front back rest : List Char}
    (hopening : IsOpening opening) (hlines : EndsLine front) (hnonempty : front ≠ [])
    (htext : front ++ back = opening ++ rest) :
    ∃ between, front = opening ++ between ∧ rest = between ++ back := by
  rcases List.append_eq_append_iff.mp htext with ⟨between, hbetween, -⟩ | hbetween
  · have hlast : '\n' ∈ front :=
      List.mem_of_getLast? (hlines.resolve_left hnonempty)
    have hmem : '\n' ∈ opening := hbetween ▸ List.mem_append_left _ hlast
    exact absurd hmem hopening.lineBreak_notMem
  · exact hbetween

/-! ## Open shapes -/

/-- Whether a text stops within a shape: behind all of its occurrences stands an opening, and no
quote comes behind that. -/
def LeavesShapeOpen (text : String) : Prop :=
  ∃ front opening rest, text.toList = front ++ opening ++ rest ∧ IsOpening opening ∧
    IsQuoteFree rest ∧ ∀ occurrence ∈ occurrences text, occurrence.span.stop ≤ byteSize front

/-- Whether pieces stop within a shape. -/
def LeavesOpen : List Piece → Prop
  | [] => False
  | .plain character :: pieces =>
    (∃ opening rest, character :: textOf pieces = opening ++ rest ∧ IsOpening opening ∧
      IsQuoteFree rest) ∨ LeavesOpen pieces
  | .imported _ :: pieces => LeavesOpen pieces

theorem IsOpening.quotes_eq {opening : List Char} (hopening : IsOpening opening) :
    quotes opening = 1 := by
  obtain ⟨front, hfront, quote, hquote, rfl⟩ := hopening
  rw [quotes_append, (isQuoteFree_of_mem_openingFronts hfront).quotes_eq]
  simp [quotes, hquote]

/-- A shape has the quote of its opening and one that closes it. -/
theorem Shape.two_le_quotes {shape : Shape} {rest : List Char} (hopening : IsOpening shape.opening)
    (hclosing : IsClosing shape.closing rest) : 2 ≤ quotes shape.text := by
  obtain ⟨quote, hquote, hclosing⟩ := hclosing
  have hlast : 1 ≤ quotes shape.closing :=
    List.countP_pos_iff.mpr ⟨quote, by rcases hclosing with h | ⟨h, -⟩ <;> simp [h], hquote⟩
  rw [text, quotes_append, quotes_append, hopening.quotes_eq]
  omega

/-- There is no occurrence where there are less than two quotes. -/
theorem Scan.occurrencesOf_eq_nil {pieces : List Piece} (hscan : Scan pieces)
    (hquotes : quotes (textOf pieces) < 2) (offset : Nat) : occurrencesOf offset pieces = [] := by
  induction hscan generalizing offset with
  | nil => rfl
  | @plain character pieces hshape hscan ih =>
      rw [textOf_cons, quotes_append] at hquotes
      exact ih (by omega) _
  | @imported shape pieces hshape hscan ih =>
      obtain ⟨rest, -, hopening, -, hclosing⟩ := shape?_eq_some_iff.mp hshape
      have htwo := Shape.two_le_quotes hopening hclosing
      rw [textOf_cons, quotes_append] at hquotes
      change quotes shape.text + _ < 2 at hquotes
      omega

/-- Pieces that stop within a shape do so behind all of their occurrences. -/
theorem Scan.exists_opening {pieces : List Piece} (hscan : Scan pieces) (hopen : LeavesOpen pieces)
    (offset : Nat) :
    ∃ front opening rest, textOf pieces = front ++ opening ++ rest ∧ IsOpening opening ∧
      IsQuoteFree rest ∧ ∀ occurrence ∈ occurrencesOf offset pieces,
        occurrence.span.stop ≤ offset + byteSize front := by
  induction hscan generalizing offset with
  | nil => cases hopen
  | @plain character pieces hshape hscan ih =>
      rcases hopen with ⟨opening, rest, htext, hopening, hrest⟩ | hopen
      · have hquotes : quotes (textOf (.plain character :: pieces)) < 2 := by
          change quotes (character :: textOf pieces) < 2
          rw [htext, quotes_append, hopening.quotes_eq, hrest.quotes_eq]
          omega
        refine ⟨[], opening, rest, htext, hopening, hrest, ?_⟩
        rw [(Scan.plain hshape hscan).occurrencesOf_eq_nil hquotes]
        simp
      · obtain ⟨front, opening, rest, htext, hopening, hrest, hstop⟩ :=
          ih hopen (offset + character.utf8Size)
        refine ⟨character :: front, opening, rest, ?_, hopening, hrest, ?_⟩
        · rw [textOf_cons, htext]
          rfl
        · intro occurrence hmem
          rw [byteSize, ← Nat.add_assoc]
          exact hstop occurrence hmem
  | @imported shape pieces hshape hscan ih =>
      obtain ⟨front, opening, rest, htext, hopening, hrest, hstop⟩ :=
        ih hopen (offset + byteSize shape.text)
      refine ⟨shape.text ++ front, opening, rest, ?_, hopening, hrest, ?_⟩
      · rw [textOf_cons, htext]
        simp [Piece.text]
      · intro occurrence hmem
        rw [byteSize_append, ← Nat.add_assoc]
        rcases List.mem_cons.mp hmem with rfl | hmem
        · rw [shape.stop_occurrence]
          exact Nat.le_add_right ..
        · exact hstop occurrence hmem

/-! ## Joining -/

theorem textOf_append (front back : List Piece) :
    textOf (front ++ back) = textOf front ++ textOf back :=
  List.flatMap_append

/-- **Joining pieces.**  Pieces of whole lines stay pieces in front of another text, unless a shape
that they leave open finds a quote there. -/
theorem Scan.append {pieces later : List Piece} (hscan : Scan pieces) (hlater : Scan later)
    (hlines : EndsLine (textOf pieces))
    (hclosed : IsQuoteFree (textOf later) ∨ ¬ LeavesOpen pieces) : Scan (pieces ++ later) := by
  induction hscan with
  | nil => exact hlater
  | @plain character pieces hshape hscan ih =>
      rw [List.cons_append]
      refine .plain ?_ (ih hlines.of_append (hclosed.imp_right fun hnot hopen =>
        hnot (.inr hopen)))
      -- a shape that starts here would have started here before, or have been left open
      by_contra hfound
      obtain ⟨opening, rest, htext, hopening, quote, hmem, hquote⟩ := shape?_ne_none_iff.mp hfound
      rw [textOf_append, ← List.cons_append] at htext
      obtain ⟨between, hfront, rfl⟩ := hopening.ends_in_lines hlines (List.cons_ne_nil _ _) htext
      by_cases hbetween : IsQuoteFree between
      · rcases List.mem_append.mp hmem with hmem | hmem
        · rw [hbetween quote hmem] at hquote
          cases hquote
        · rcases hclosed with hfree | hnot
          · rw [hfree quote hmem] at hquote
            cases hquote
          · exact hnot (.inl ⟨opening, between, hfront, hopening, hbetween⟩)
      · simp only [IsQuoteFree, not_forall] at hbetween
        obtain ⟨quote', hmem', hquote'⟩ := hbetween
        exact shape?_ne_none_iff.mpr ⟨opening, between, hfront, hopening, quote', hmem',
          by simpa using hquote'⟩ hshape
  | @imported shape pieces hshape hscan ih =>
      rw [List.cons_append]
      refine .imported ?_ (ih hlines.of_append hclosed)
      obtain ⟨rest, htext, hopening, hspecifier, hclosing⟩ := shape?_eq_some_iff.mp hshape
      obtain rfl : textOf pieces = rest := List.append_cancel_left htext
      refine shape?_eq_some_iff.mpr ⟨_, rfl, hopening, hspecifier, ?_⟩
      obtain ⟨quote, hquote, hclosing⟩ := hclosing
      refine ⟨quote, hquote, hclosing.imp_right fun hbehind => ?_⟩
      obtain ⟨hbare, hhead⟩ := hbehind
      refine ⟨hbare, ?_⟩
      rw [textOf_append]
      -- behind the last shape comes at least the line break
      have hrest : textOf pieces ≠ [] := by
        intro hempty
        have hline := hlines
        rw [textOf_cons, hempty, List.append_nil] at hline
        have hlast : (Piece.imported shape).text.getLast? = some quote := by
          simp [Piece.text, Shape.text, hbare]
        rcases hline with hline | hline
        · simp [hline] at hlast
        · rw [hline] at hlast
          rw [← Option.some.inj hlast] at hquote
          simp [isQuote] at hquote
      rwa [List.head?_append_of_ne_nil _ hrest]

/-- An occurrence in a text, as it stands when `offset` bytes come in front of the text. -/
def Occurrence.shift (offset : Nat) (occurrence : Occurrence) : Occurrence where
  span := ⟨offset + occurrence.span.start, offset + occurrence.span.stop⟩
  specifierSpan := ⟨offset + occurrence.specifierSpan.start, offset + occurrence.specifierSpan.stop⟩
  specifier := occurrence.specifier

theorem occurrencesOf_add (pieces : List Piece) (offset further : Nat) :
    occurrencesOf (offset + further) pieces =
      (occurrencesOf further pieces).map (Occurrence.shift offset) := by
  induction pieces generalizing further with
  | nil => rfl
  | cons piece pieces ih =>
      cases piece with
      | plain character =>
          rw [occurrencesOf, occurrencesOf, Nat.add_assoc, ih]
      | imported shape =>
          rw [occurrencesOf, occurrencesOf, Nat.add_assoc, ih, List.map_cons]
          simp only [Occurrence.shift, Shape.occurrence, Nat.add_assoc]

theorem occurrencesOf_append (pieces later : List Piece) (offset : Nat) :
    occurrencesOf offset (pieces ++ later) =
      occurrencesOf offset pieces ++ occurrencesOf (offset + byteSize (textOf pieces)) later := by
  induction pieces generalizing offset with
  | nil => rfl
  | cons piece pieces ih =>
      cases piece with
      | plain character =>
          rw [List.cons_append, occurrencesOf, ih, occurrencesOf, textOf_cons, byteSize_append]
          simp [Piece.text, byteSize, Nat.add_assoc]
      | imported shape =>
          rw [List.cons_append, occurrencesOf, ih, occurrencesOf, textOf_cons, byteSize_append,
            List.cons_append]
          simp [Piece.text, Nat.add_assoc]

/-! ## Literals -/

/-- Where reading literals stands. -/
inductive LiteralState where
  | outside
  | inside (quote : Char)
  /-- Behind a backslash. -/
  | escaped (quote : Char)

/-- The quote of the literal that is under way. -/
def LiteralState.quote? : LiteralState → Option Char
  | outside => none
  | inside quote => some quote
  | escaped quote => some quote

/-- Where reading stands behind one more character. -/
def LiteralState.next (character : Char) : LiteralState → LiteralState
  | outside => if isQuote character then .inside character else .outside
  | inside quote =>
    if character = quote then .outside
      else if character = '\\' then .escaped quote else .inside quote
  | escaped quote => .inside quote

/-- Whether every literal of a text is closed by its own quote, in its own line. -/
def closesLiterals : LiteralState → List Char → Bool
  | state, [] => state.quote?.isNone
  | state, character :: rest =>
    (state.quote?.isNone || character != '\n') && closesLiterals (state.next character) rest

/-- Whether a text goes on inside the literal that is under way and leaves it open: it has no line
break, the quote of the literal only behind a backslash, and no backslash at its end. -/
def staysInside : LiteralState → List Char → Bool
  | .inside _, [] => true
  | _, [] => false
  | state, character :: rest =>
    state.quote?.isSome && character != '\n' && staysInside (state.next character) rest

/-- A literal that is under way behind a character was so before, or the character opens it. -/
theorem LiteralState.quote?_next {state : LiteralState} {character quote : Char}
    (hnext : (state.next character).quote? = some quote) :
    (state = .outside ∧ isQuote quote = true ∧ character = quote) ∨ state.quote? = some quote := by
  cases state with
  | outside =>
      rw [next] at hnext
      split at hnext
      · rename_i hcharacter
        obtain rfl := Option.some.inj hnext
        exact .inl ⟨rfl, hcharacter, rfl⟩
      · cases hnext
  | inside opened =>
      right
      rw [next] at hnext
      split at hnext
      · cases hnext
      · split at hnext <;> exact hnext
  | escaped opened => exact .inr hnext

/-- The literals under way are opened by quotes. -/
theorem LiteralState.isQuote_next {state : LiteralState}
    (hstate : ∀ opened, state.quote? = some opened → isQuote opened = true)
    {character opened : Char} (hnext : (state.next character).quote? = some opened) :
    isQuote opened = true := by
  rcases quote?_next hnext with ⟨-, hopened, -⟩ | hopened
  · exact hopened
  · exact hstate opened hopened

theorem closesLiterals_cons {state : LiteralState} {character : Char} {rest : List Char} :
    closesLiterals state (character :: rest) = true ↔
      (state ≠ .outside → character ≠ '\n') ∧
        closesLiterals (state.next character) rest = true := by
  cases state <;> simp [closesLiterals, LiteralState.quote?]

theorem staysInside_cons {state : LiteralState} {character : Char} {rest : List Char} :
    staysInside state (character :: rest) = true ↔
      state ≠ .outside ∧ character ≠ '\n' ∧ staysInside (state.next character) rest = true := by
  cases state <;> simp [staysInside, LiteralState.quote?]

/-- A literal that is under way needs its quote. -/
theorem closesLiterals_of_isQuoteFree {state : LiteralState} {quote : Char} {text : List Char}
    (hstate : state.quote? = some quote) (hquote : isQuote quote = true)
    (htext : IsQuoteFree text) : closesLiterals state text = false := by
  induction text generalizing state with
  | nil => cases state <;> simp_all [closesLiterals, LiteralState.quote?]
  | cons character text ih =>
      obtain ⟨hcharacter, htext⟩ := List.forall_mem_cons.mp htext
      have hnext : (state.next character).quote? = some quote := by
        cases state with
        | outside => cases hstate
        | inside opened =>
            obtain rfl := Option.some.inj hstate
            have hne : character ≠ opened := by
              rintro rfl
              simp [hcharacter] at hquote
            rw [LiteralState.next, if_neg hne]
            split <;> rfl
        | escaped opened => exact hstate
      rw [Bool.eq_false_iff, Ne, closesLiterals_cons]
      rintro ⟨-, hclosed⟩
      rw [ih hnext htext] at hclosed
      cases hclosed

/-- The last quote of a text ends a literal, be it one that is under way at its start.  All that
stands between the quotes is inside that one literal. -/
theorem exists_literal {state : LiteralState} {text rest : List Char} {quote : Char}
    (hstate : ∀ opened, state.quote? = some opened → isQuote opened = true)
    (hquote : isQuote quote = true) (hrest : IsQuoteFree rest)
    (hclosed : closesLiterals state (text ++ quote :: rest) = true) :
    (state.quote? = some quote ∧ staysInside state text = true) ∨
      ∃ before body, text = before ++ quote :: body ∧ closesLiterals state before = true ∧
        staysInside (.inside quote) body = true := by
  induction text generalizing state with
  | nil =>
      -- no quote comes behind this one, so it leaves no literal under way
      obtain ⟨-, hclosed⟩ := closesLiterals_cons.mp hclosed
      have hends : (state.next quote).quote? = none := by
        by_contra hopened
        obtain ⟨opened, hopened⟩ := Option.ne_none_iff_exists'.mp hopened
        have hquoted := LiteralState.isQuote_next hstate hopened
        rw [closesLiterals_of_isQuoteFree hopened hquoted hrest] at hclosed
        cases hclosed
      cases state with
      | outside => simp [LiteralState.next, LiteralState.quote?, hquote] at hends
      | inside opened =>
          by_cases hsame : quote = opened
          · exact .inl ⟨congrArg some hsame.symm, rfl⟩
          · rw [LiteralState.next, if_neg hsame] at hends
            split at hends <;> cases hends
      | escaped opened => cases hends
  | cons character text ih =>
      obtain ⟨hline, hclosed⟩ := closesLiterals_cons.mp hclosed
      rcases ih (fun _ hopened => LiteralState.isQuote_next hstate hopened) hclosed with
        ⟨hopened, hstays⟩ | ⟨before, body, rfl, hbefore, hbody⟩
      · rcases LiteralState.quote?_next hopened with ⟨rfl, -, rfl⟩ | hunder
        · -- the literal begins here
          rw [LiteralState.next, if_pos hquote] at hstays
          exact .inr ⟨[], text, rfl, rfl, hstays⟩
        · have hinside : state ≠ .outside := by
            rintro rfl
            cases hunder
          exact .inl ⟨hunder, staysInside_cons.mpr ⟨hinside, hline hinside, hstays⟩⟩
      · exact .inr ⟨character :: before, body, rfl, closesLiterals_cons.mpr ⟨hline, hbefore⟩, hbody⟩

/-- When all literals are closed, a shape is left open by the last of them: what stands inside it
ends in a keyword and at most one space. -/
theorem LeavesShapeOpen.exists_literal {text : String} (hopen : LeavesShapeOpen text)
    (hclosed : closesLiterals .outside text.toList = true) :
    ∃ before quote body rest, text.toList = before ++ quote :: (body ++ quote :: rest) ∧
      isQuote quote = true ∧ closesLiterals .outside before = true ∧
      staysInside (.inside quote) body = true ∧ IsQuoteFree rest ∧
      ∃ front ∈ openingFronts, front <:+ body := by
  obtain ⟨front, opening, rest, htext, ⟨word, hword, quote, hquote, rfl⟩, hrest, -⟩ := hopen
  have hsplit : text.toList = (front ++ word) ++ quote :: rest := by simp [htext]
  rw [hsplit] at hclosed
  obtain ⟨before, body, hbefore, houtside, hbody⟩ :=
    (Dealias.exists_literal (by simp [LiteralState.quote?]) hquote hrest hclosed).resolve_left
      fun hopened => nomatch hopened.1
  refine ⟨before, quote, body, rest, by simp [hsplit, hbefore], hquote, houtside, hbody, hrest,
    word, hword, ?_⟩
  -- the word has no quote, so it stands behind the one that opens the literal
  rw [← List.singleton_append, ← List.append_assoc] at hbefore
  rcases List.append_eq_append_iff.mp hbefore with ⟨between, hopened, hwordEq⟩ | ⟨between, -, hbody⟩
  · rcases List.eq_nil_or_concat between with rfl | ⟨between, last, rfl⟩
    · exact ⟨[], hwordEq⟩
    · have hlast : quote = last := by
        have hends := congrArg List.getLast? hopened
        simpa using hends
      have hmem : quote ∈ word := by simp [hwordEq, hlast]
      rw [isQuoteFree_of_mem_openingFronts hword quote hmem] at hquote
      cases hquote
  · exact ⟨between, hbody.symm⟩

/-! ## Occurrences of joined texts -/

theorem Scan.occurrences_of_textOf {pieces : List Piece} {text : String} (hscan : Scan pieces)
    (hpieces : textOf pieces = text.toList) : occurrences text = occurrencesOf 0 pieces := by
  rw [occurrences, ← hpieces, hscan.occurrences_eq]

/-- A shape without its second quote takes the next one that comes, beyond all that has none. -/
theorem IsOpening.exists_reaching {opening rest back : List Char} (before : List Char)
    (hopening : IsOpening opening) (hrest : IsQuoteFree rest) (hback : ¬ IsQuoteFree back) :
    ∃ (shape : Shape) (behind : List Char),
      shape.StandsIn (before ++ (opening ++ (rest ++ back))) before behind ∧
        byteSize (opening ++ rest) < byteSize shape.text := by
  have hfound : shape? (opening ++ (rest ++ back)) ≠ none := by
    simp only [IsQuoteFree, not_forall] at hback
    obtain ⟨quote, hmem, hquote⟩ := hback
    exact shape?_ne_none_iff.mpr ⟨opening, _, rfl, hopening, quote,
      List.mem_append_right _ hmem, by simpa using hquote⟩
  obtain ⟨shape, hshape⟩ := Option.ne_none_iff_exists'.mp hfound
  obtain ⟨behind, htext, hopening', hspecifier, hclosing⟩ := shape?_eq_some_iff.mp hshape
  refine ⟨shape, behind, ⟨?_, hopening', hspecifier, hclosing⟩, ?_⟩
  · rw [htext, List.append_assoc]
  -- the shape has two quotes, what stands here has one
  have htwo := Shape.two_le_quotes hopening' hclosing
  have hone : quotes (opening ++ rest) = 1 := by
    rw [quotes_append, hopening.quotes_eq, hrest.quotes_eq]
  rcases List.append_eq_append_iff.mp (List.append_assoc opening rest _ ▸ htext) with
    ⟨between, hshape, -⟩ | ⟨between, hbefore, -⟩
  · rw [hshape, quotes_append, hone] at htwo
    have hbetween : between ≠ [] := by
      intro hempty
      subst hempty
      simp [quotes] at htwo
    rw [hshape, byteSize_append (opening ++ rest)]
    exact Nat.lt_add_of_pos_right (byteSize_pos hbetween)
  · rw [hbefore, quotes_append] at hone
    omega

/-- No occurrence of two texts reaches from one into the other. -/
theorem stop_le_or_le_start {front back : String} {size : Nat}
    (hstop : ∀ occurrence ∈ occurrences front, occurrence.span.stop ≤ size) :
    ∀ occurrence ∈ occurrences front ++
      (occurrences back).map (Occurrence.shift front.utf8ByteSize),
      occurrence.span.stop ≤ size ∨ front.utf8ByteSize ≤ occurrence.span.start := by
  intro occurrence hmem
  rcases List.mem_append.mp hmem with hmem | hmem
  · exact .inl (hstop occurrence hmem)
  · obtain ⟨later, -, rfl⟩ := List.mem_map.mp hmem
    exact .inr (Nat.le_add_right ..)

/-- A shape that is left open hides what comes behind its text. -/
theorem LeavesShapeOpen.occurrences_ne {front back : String} (hopen : LeavesShapeOpen front)
    (hquotes : ¬ IsQuoteFree back.toList) :
    occurrences (front ++ back) ≠
      occurrences front ++ (occurrences back).map (Occurrence.shift front.utf8ByteSize) := by
  obtain ⟨before, opening, rest, hfront, hopening, hrest, hstop⟩ := hopen
  intro heq
  have htext : (front ++ back).toList = before ++ (opening ++ (rest ++ back.toList)) := by
    simp only [String.toList_append, hfront, List.append_assoc]
  obtain ⟨shape, behind, hstands, hreach⟩ := hopening.exists_reaching before hrest hquotes
  have hsize : front.utf8ByteSize = byteSize before + byteSize (opening ++ rest) := by
    rw [← byteSize_toList, hfront, List.append_assoc, byteSize_append]
  have hpositive : 0 < byteSize (opening ++ rest) := by
    obtain ⟨word, -, quote, -, rfl⟩ := hopening
    exact byteSize_pos (by simp)
  obtain ⟨pieces, hscan, hpieces⟩ := exists_scan (front ++ back).toList
  rw [← htext, ← hpieces] at hstands
  -- the shape is found, or an occurrence covers its start
  have hcovered := hscan.found_or_inside hstands 0
  rw [← hscan.occurrences_of_textOf hpieces, heq, Nat.zero_add] at hcovered
  rcases hcovered with hmem | ⟨occurrence, hmem, hstart, hbehind⟩
  · have hends := stop_le_or_le_start hstop _ hmem
    rw [shape.stop_occurrence] at hends
    change byteSize before + byteSize shape.text ≤ byteSize before ∨
      front.utf8ByteSize ≤ byteSize before at hends
    omega
  · have hends := stop_le_or_le_start hstop _ hmem
    omega

/-- Texts that leave no shape open are cut into the pieces of both. -/
theorem exists_scan_append {front back : String} (hlines : EndsLine front.toList)
    (hclosed : IsQuoteFree back.toList ∨ ¬ LeavesShapeOpen front) :
    ∃ pieces later, Scan pieces ∧ Scan later ∧ Scan (pieces ++ later) ∧
      textOf pieces = front.toList ∧ textOf later = back.toList ∧
      textOf (pieces ++ later) = (front ++ back).toList := by
  obtain ⟨pieces, hscan, hpieces⟩ := exists_scan front.toList
  obtain ⟨later, hlater, hbehind⟩ := exists_scan back.toList
  have hjoined : textOf (pieces ++ later) = (front ++ back).toList := by
    rw [textOf_append, hpieces, hbehind, String.toList_append]
  refine ⟨pieces, later, hscan, hlater, hscan.append hlater (hpieces ▸ hlines) ?_, hpieces,
    hbehind, hjoined⟩
  rw [hbehind]
  refine hclosed.imp_right fun hnot hopen => hnot ?_
  obtain ⟨before, opening, rest, htext, hopening, hrest, hstop⟩ := hscan.exists_opening hopen 0
  refine ⟨before, opening, rest, hpieces ▸ htext, hopening, hrest, ?_⟩
  intro occurrence hmem
  rw [hscan.occurrences_of_textOf hpieces] at hmem
  simpa using hstop occurrence hmem

/-- The specifiers of joined texts are exchanged in each of them. -/
theorem Rewired.code_append (resolution : String → Resolution) {front back : String}
    (hlines : EndsLine front.toList)
    (hclosed : IsQuoteFree back.toList ∨ ¬ LeavesShapeOpen front) :
    (ofFindings (front ++ back) (findingsOf resolution (occurrences (front ++ back)))).code =
      (ofFindings front (findingsOf resolution (occurrences front))).code ++
        (ofFindings back (findingsOf resolution (occurrences back))).code := by
  obtain ⟨pieces, later, hscan, hlater, hjoined, hpieces, hbehind, htext⟩ :=
    exists_scan_append hlines hclosed
  rw [← String.toList_inj, String.toList_append, code_ofFindings hscan hpieces,
    code_ofFindings hlater hbehind, code_ofFindings hjoined htext, replaceAll, List.map_append,
    textOf_append]
  rfl

/-- **Texts one behind the other.**  Behind whole lines, the occurrences of a text are those that it
has by itself, moved by the size of the lines, exactly when it has no quotes or the lines leave no
shape open.  Then it is rewired as it is by itself, too.  Lines in which all literals are closed
leave a shape open only by the last literal, when what stands inside it ends in a keyword and at
most one space. -/
theorem occurrences_append_iff (front back : String) (hlines : EndsLine front.toList) :
    (occurrences (front ++ back) =
        occurrences front ++ (occurrences back).map (Occurrence.shift front.utf8ByteSize) ↔
      IsQuoteFree back.toList ∨ ¬ LeavesShapeOpen front) ∧
    (IsQuoteFree back.toList ∨ ¬ LeavesShapeOpen front →
      ∀ (table : AliasTable) (file : Path) (tree : MemoryTree) (world : World MemoryTree),
        world.Agrees tree → ((table.rewire (front ++ back) file).run world).1.code =
          ((table.rewire front file).run world).1.code ++
            ((table.rewire back file).run world).1.code) ∧
    (closesLiterals .outside front.toList = true → LeavesShapeOpen front →
      ∃ before quote body rest, front.toList = before ++ quote :: (body ++ quote :: rest) ∧
        isQuote quote = true ∧ closesLiterals .outside before = true ∧
        staysInside (.inside quote) body = true ∧ IsQuoteFree rest ∧
        ∃ word ∈ openingFronts, word <:+ body) := by
  refine ⟨⟨fun heq => ?_, fun hclosed => ?_⟩, fun hclosed table file tree world hagrees => ?_,
    fun hclosed hopen => hopen.exists_literal hclosed⟩
  · by_contra hboth
    obtain ⟨hquotes, hopen⟩ := not_or.mp hboth
    exact (not_not.mp hopen).occurrences_ne hquotes heq
  · obtain ⟨pieces, later, hscan, hlater, hjoined, hpieces, hbehind, htext⟩ :=
      exists_scan_append hlines hclosed
    have hfront := hscan.occurrences_of_textOf hpieces
    have hback := hlater.occurrences_of_textOf hbehind
    calc occurrences (front ++ back)
        = occurrencesOf 0 (pieces ++ later) := hjoined.occurrences_of_textOf htext
      _ = occurrencesOf 0 pieces ++ occurrencesOf (front.utf8ByteSize + 0) later := by
          rw [occurrencesOf_append, hpieces, byteSize_toList, Nat.add_comm]
      _ = occurrences front ++ (occurrences back).map (Occurrence.shift front.utf8ByteSize) := by
          rw [occurrencesOf_add, ← hfront, ← hback]
  · simp only [AliasTable.run_rewire_eq hagrees]
    exact Rewired.code_append _ hlines hclosed

/-- An import behind a literal that ends in no keyword, and the literal that is found where a shape
is left open. -/
theorem occurrences_append_sample :
    (EndsLine "x = 'form';\n".toList ∧ ¬ LeavesShapeOpen "x = 'form';\n" ∧
      ((RunConfig.sample.aliases.rewire ("x = 'form';\n" ++ "import '@/b'") ⟨"/p/dist/a.js"⟩).run
        (World.start MemoryTree.sample)).1.code = "x = 'form';\nimport './b'") ∧
    EndsLine "x = 'from'\n".toList ∧ LeavesShapeOpen "x = 'from'\n" ∧
      closesLiterals .outside "x = 'from'\n".toList = true ∧
      ∃ before quote body rest, "x = 'from'\n".toList = before ++ quote :: (body ++ quote :: rest) ∧
        isQuote quote = true ∧ closesLiterals .outside before = true ∧
        staysInside (.inside quote) body = true ∧ IsQuoteFree rest ∧
        ∃ word ∈ openingFronts, word <:+ body := by
  have hform : EndsLine "x = 'form';\n".toList := by decide +kernel
  have hfrom : EndsLine "x = 'from'\n".toList := by decide +kernel
  obtain ⟨hshift, hcode, -⟩ := occurrences_append_iff "x = 'form';\n" "import '@/b'" hform
  obtain ⟨hhidden, -, hliteral⟩ := occurrences_append_iff "x = 'from'\n" "import 'y'" hfrom
  have hclosed := hshift.mp (by decide +kernel)
  have hopen : LeavesShapeOpen "x = 'from'\n" :=
    not_not.mp (not_or.mp (mt hhidden.mpr (by decide +kernel))).2
  have hliterals : closesLiterals .outside "x = 'from'\n".toList = true := by decide +kernel
  refine ⟨⟨hform, hclosed.resolve_left (by decide +kernel), ?_⟩, hfrom, hopen, hliterals,
    hliteral hliterals hopen⟩
  rw [hcode hclosed RunConfig.sample.aliases ⟨"/p/dist/a.js"⟩ MemoryTree.sample _
    (World.agrees_start (.refl _) (List.suffix_refl _))]
  decide +kernel

/-- A literal whose text is a keyword takes the import behind it for a specifier, though it is
closed in its own line. -/
theorem occurrences_hidden_by_literal :
    EndsLine "x = 'from'\n".toList ∧ closesLiterals .outside "x = 'from'\n".toList = true ∧
      occurrences "x = 'from'\n" = [] ∧
      occurrences "import 'y'" = [⟨⟨0, 10⟩, ⟨8, 9⟩, "y"⟩] ∧
      occurrences ("x = 'from'\n" ++ "import 'y'") = [⟨⟨5, 19⟩, ⟨10, 18⟩, "\nimport "⟩] ∧
      occurrences ("x = 'from'\n" ++ "import 'y'") ≠ occurrences "x = 'from'\n" ++
        (occurrences "import 'y'").map (Occurrence.shift "x = 'from'\n".utf8ByteSize) := by
  decide +kernel

end Dealias
