import Dealias.Proofs.Json.Characters

/-!
# Removing comments

* `Written.removeComments`: what is loosely written becomes strictly written, with the same symbols.
* `Written.of_removeComments`: what becomes strictly written was loosely written.

## Strategy

Removing comments comes to the end, takes a comment away or keeps a character
(`removeComments_cases`).  Of a comment only line breaks are left, which are gaps.  Between the
characters of a word or a number no gap may be left, so all comments there stand within the line
(`removeCommentsFrom_eq_cons`).
-/

namespace Dealias.Json

/-! ## Comments -/

/-- The line breaks of a text. -/
def lineBreaks (text : List Char) : List Char :=
  text.filter (· == '\n')

theorem lineBreaks_eq_nil_iff {text : List Char} : lineBreaks text = [] ↔ '\n' ∉ text := by
  simp only [lineBreaks, List.filter_eq_nil_iff, beq_iff_eq]
  exact ⟨fun hall hmem => hall '\n' hmem rfl, fun hmem _ hcharacter h => hmem (h ▸ hcharacter)⟩

theorem removeCommentsFrom_cons {character : Char} (hslash : character ≠ '/') (rest : List Char) :
    removeCommentsFrom .plain (character :: rest) =
      character :: removeCommentsFrom (if character = '"' then .text else .plain) rest := by
  rw [removeCommentsFrom]
  · exact fun _ h _ => hslash h
  · exact fun _ h _ => hslash h

theorem removeCommentsFrom_lineComment {body : List Char} (hbody : '\n' ∉ body)
    (rest : List Char) : removeCommentsFrom .lineComment (body ++ '\n' :: rest) =
      '\n' :: removeCommentsFrom .plain rest := by
  induction body with
  | nil => rfl
  | cons character body ih =>
      rw [List.cons_append, removeCommentsFrom, if_neg (List.ne_of_not_mem_cons hbody).symm,
        ih (List.not_mem_of_not_mem_cons hbody)]

theorem removeCommentsFrom_lastLineComment {body : List Char} (hbody : '\n' ∉ body) :
    removeCommentsFrom .lineComment body = [] := by
  induction body with
  | nil => rfl
  | cons character body ih =>
      rw [removeCommentsFrom, if_neg (List.ne_of_not_mem_cons hbody).symm,
        ih (List.not_mem_of_not_mem_cons hbody)]

/-- Whether a block comment does not end within a text, be it behind a star. -/
def IsUnended (afterStar : Bool) (text : List Char) : Prop :=
  ¬ ['*', '/'] <:+: (if afterStar = true then '*' :: text else text)

theorem IsUnended.of_cons {afterStar : Bool} {character : Char} {text : List Char}
    (hunended : IsUnended afterStar (character :: text)) :
    ¬ (afterStar = true ∧ character = '/') ∧ IsUnended (decide (character = '*')) text ∧
      IsUnended false text := by
  have hinner : ¬ ['*', '/'] <:+: character :: text := by
    refine fun hinfix => hunended ?_
    split
    · exact List.infix_cons hinfix
    · exact hinfix
  refine ⟨?_, ?_, fun hinfix => hinner (List.infix_cons hinfix)⟩
  · rintro ⟨rfl, rfl⟩
    exact hunended ⟨[], text, rfl⟩
  · intro hinfix
    by_cases hstar : character = '*'
    · subst hstar
      exact hinner hinfix
    · rw [if_neg (by simpa using hstar)] at hinfix
      exact hinner (List.infix_cons hinfix)

theorem removeCommentsFrom_blockComment {afterStar : Bool} {body : List Char}
    (hbody : IsUnended afterStar body) (rest : List Char) :
    removeCommentsFrom (.blockComment afterStar) (body ++ '*' :: '/' :: rest) =
      lineBreaks body ++ removeCommentsFrom .plain rest := by
  induction body generalizing afterStar with
  | nil =>
      simp [removeCommentsFrom, lineBreaks]
  | cons character body ih =>
      obtain ⟨hopen, hstar, hline⟩ := hbody.of_cons
      rw [List.cons_append, removeCommentsFrom]
      by_cases hbreak : character = '\n'
      · rw [if_pos hbreak, ih hline, hbreak]
        rfl
      · rw [if_neg hbreak, if_neg hopen, ih hstar]
        simp [lineBreaks, hbreak]

theorem removeCommentsFrom_lastBlockComment {afterStar : Bool} {body : List Char}
    (hbody : IsUnended afterStar body) :
    removeCommentsFrom (.blockComment afterStar) body = lineBreaks body := by
  induction body generalizing afterStar with
  | nil => rfl
  | cons character body ih =>
      obtain ⟨hopen, hstar, hline⟩ := hbody.of_cons
      rw [removeCommentsFrom]
      by_cases hbreak : character = '\n'
      · rw [if_pos hbreak, ih hline, hbreak]
        rfl
      · rw [if_neg hbreak, if_neg hopen, ih hstar]
        simp [lineBreaks, hbreak]

theorem IsBlockComment.removeCommentsFrom_append {comment : List Char}
    (hcomment : IsBlockComment comment) (rest : List Char) :
    removeCommentsFrom .plain (comment ++ rest) =
      lineBreaks comment ++ removeCommentsFrom .plain rest := by
  obtain ⟨body, rfl, hbody⟩ := hcomment
  have hbreaks : lineBreaks ('/' :: '*' :: (body ++ ['*', '/'])) = lineBreaks body := by
    simp [lineBreaks]
  rw [hbreaks, List.cons_append, List.cons_append, List.append_assoc, removeCommentsFrom]
  have hunended : IsUnended false body := hbody
  exact removeCommentsFrom_blockComment hunended rest

theorem IsBlockComment.length_lt_append {comment : List Char} (hcomment : IsBlockComment comment)
    (rest : List Char) : rest.length < (comment ++ rest).length := by
  obtain ⟨body, rfl, -⟩ := hcomment
  simp only [List.length_append, List.length_cons]
  omega

/-- A comment ends somewhere, or it does not. -/
theorem exists_end (text : List Char) :
    (∃ body rest, text = body ++ '*' :: '/' :: rest ∧ ¬ ['*', '/'] <:+: body) ∨
      ¬ ['*', '/'] <:+: text := by
  induction text with
  | nil => exact .inr (by simp)
  | cons character text ih =>
      by_cases hstops : ['*', '/'] <+: character :: text
      · obtain ⟨rest, hrest⟩ := hstops
        exact .inl ⟨[], rest, hrest.symm, by simp⟩
      · rcases ih with ⟨body, rest, rfl, hbody⟩ | hunended
        · refine .inl ⟨character :: body, rest, rfl, ?_⟩
          rw [List.infix_cons_iff]
          refine not_or.mpr ⟨fun hfront => hstops (hfront.trans ?_), hbody⟩
          exact (List.prefix_append (character :: body) _)
        · exact .inr (by rw [List.infix_cons_iff]; exact not_or.mpr ⟨hstops, hunended⟩)

/-- What removing comments does next: it comes to the end, takes away a comment or keeps a
character. -/
theorem removeComments_cases (text : List Char) :
    text = [] ∨
    (∃ body, '\n' ∉ body ∧ text = '/' :: '/' :: body ∧ removeCommentsFrom .plain text = []) ∨
    (∃ body rest, '\n' ∉ body ∧ text = '/' :: '/' :: (body ++ '\n' :: rest) ∧
      removeCommentsFrom .plain text = '\n' :: removeCommentsFrom .plain rest) ∨
    (∃ body, ¬ ['*', '/'] <:+: body ∧ text = '/' :: '*' :: body ∧
      removeCommentsFrom .plain text = lineBreaks body) ∨
    (∃ comment rest, IsBlockComment comment ∧ text = comment ++ rest ∧
      removeCommentsFrom .plain text = lineBreaks comment ++ removeCommentsFrom .plain rest) ∨
    (∃ character rest, text = character :: rest ∧ removeCommentsFrom .plain text =
      character :: removeCommentsFrom (if character = '"' then .text else .plain) rest) := by
  rcases text with - | ⟨character, text⟩
  · exact .inl rfl
  right
  by_cases hline : character = '/' ∧ text.head? = some '/'
  · obtain ⟨rfl, hhead⟩ := hline
    obtain ⟨text, rfl⟩ := List.head?_eq_some_iff.mp hhead
    by_cases hbreak : '\n' ∈ text
    · obtain ⟨body, rest, rfl, hbody⟩ := List.eq_append_cons_of_mem hbreak
      exact .inr (.inl ⟨body, rest, hbody, rfl, removeCommentsFrom_lineComment hbody rest⟩)
    · exact .inl ⟨text, hbreak, rfl, removeCommentsFrom_lastLineComment hbreak⟩
  by_cases hblock : character = '/' ∧ text.head? = some '*'
  · obtain ⟨rfl, hhead⟩ := hblock
    obtain ⟨text, rfl⟩ := List.head?_eq_some_iff.mp hhead
    rcases exists_end text with ⟨body, rest, rfl, hbody⟩ | hunended
    · have hcomment : IsBlockComment ('/' :: '*' :: (body ++ ['*', '/'])) := ⟨body, rfl, hbody⟩
      have htext : '/' :: '*' :: (body ++ '*' :: '/' :: rest) =
          '/' :: '*' :: (body ++ ['*', '/']) ++ rest := by simp
      refine .inr (.inr (.inr (.inl ⟨_, rest, hcomment, htext, ?_⟩)))
      rw [htext]
      exact hcomment.removeCommentsFrom_append rest
    · have hlast : IsUnended false text := hunended
      exact .inr (.inr (.inl ⟨text, hunended, rfl, removeCommentsFrom_lastBlockComment hlast⟩))
  · refine .inr (.inr (.inr (.inr ⟨character, text, rfl, ?_⟩)))
    rw [removeCommentsFrom]
    · rintro rest rfl rfl
      exact hline ⟨rfl, rfl⟩
    · rintro rest rfl rfl
      exact hblock ⟨rfl, rfl⟩

/-! ## Removing comments -/

/-- Removing comments keeps texts. -/
theorem removeCommentsFrom_literal (literal : Literal) (rest : List Char) :
    removeCommentsFrom .plain ((Scalar.text literal).characters ++ rest) =
      (Scalar.text literal).characters ++ removeCommentsFrom .plain rest := by
  have hopen : removeCommentsFrom .plain ('"' :: (literal.body ++ '"' :: rest)) =
      '"' :: removeCommentsFrom .text (literal.body ++ '"' :: rest) := rfl
  rw [Scalar.text_characters_append, Scalar.text_characters_append, hopen,
    removeCommentsFrom_text, splitText_append literal.isBody.isQuoted, List.append_assoc]
  rfl

/-- Removing comments joins what they interrupt. -/
theorem Interrupted.removeCommentsFrom_append {word front : List Char}
    (hinterrupted : Interrupted word front)
    (hword : ∀ character ∈ word, character ≠ '"' ∧ character ≠ '/') (rest : List Char) :
    removeCommentsFrom .plain (front ++ rest) = word ++ removeCommentsFrom .plain rest := by
  have hfirst {character : Char} (hne : character ≠ '"' ∧ character ≠ '/') (later : List Char) :
      removeCommentsFrom .plain (character :: later) =
        character :: removeCommentsFrom .plain later := by
    rw [removeCommentsFrom_cons hne.2, if_neg hne.1]
  induction hinterrupted with
  | last character => exact hfirst (hword character (List.mem_singleton_self _)) rest
  | @next character comments word text hcomments hinterrupted ih =>
      obtain ⟨hcharacter, hword⟩ := List.forall_mem_cons.mp hword
      have hflatten : removeCommentsFrom .plain (comments.flatten ++ (text ++ rest)) =
          removeCommentsFrom .plain (text ++ rest) := by
        clear ih
        induction comments with
        | nil => rfl
        | cons comment comments ih =>
            obtain ⟨⟨hcomment, hline⟩, hcomments⟩ := List.forall_mem_cons.mp hcomments
            rw [List.flatten_cons, List.append_assoc, hcomment.removeCommentsFrom_append,
              lineBreaks_eq_nil_iff.mpr hline, List.nil_append, ih hcomments]
      rw [List.cons_append, List.append_assoc, hfirst hcharacter, hflatten, ih hword]
      rfl

theorem isLooseSpelling_iff {symbol : Symbol} (htext : symbol.isText = false)
    {front : List Char} : IsLooseSpelling symbol front ↔ Interrupted symbol.characters front := by
  cases symbol with
  | scalar value => cases value <;> first | rfl | cases htext
  | _ => rfl

theorem Written.lineBreaks_append {symbols : List Symbol} {text : List Char}
    (hwritten : Written .strict symbols text) (gap : List Char) :
    Written .strict symbols (lineBreaks gap ++ text) := by
  induction gap with
  | nil => exact hwritten
  | cons character gap ih =>
      by_cases hbreak : character = '\n'
      · subst hbreak
        exact .cons_gap (IsStrictGap.space rfl) ih
      · simpa [lineBreaks, hbreak] using ih

/-- **Removing comments.**  What is loosely written becomes strictly written. -/
theorem Written.removeComments {symbols : List Symbol} {text : List Char}
    (hwritten : Written .loose symbols text) :
    Written .strict symbols (removeCommentsFrom .plain text) := by
  induction hwritten with
  | ending hending =>
      obtain @⟨text, hrelaxed⟩ | @⟨body, hunended⟩ := hending
      · obtain - | @⟨body, hbody⟩ := hrelaxed
        · exact .ending rfl
        · rw [removeCommentsFrom, removeCommentsFrom_lastLineComment hbody]
          exact .ending rfl
      · have hlast : IsUnended false body := hunended
        have hempty : Written .strict [] [] := .ending rfl
        rw [removeCommentsFrom, removeCommentsFrom_lastBlockComment hlast]
        simpa using hempty.lineBreaks_append body
  | gap hgap hwritten ih =>
      obtain @⟨character, hspace⟩ | @⟨body, hbody⟩ | hcomment := hgap
      · have hfacts := (isSpace_facts hspace).2
        have hne : character ≠ '"' ∧ character ≠ '/' ∧ character ≠ ',' := by simpa using hfacts
        rw [List.singleton_append, removeCommentsFrom_cons hne.2.1, if_neg hne.1]
        exact .cons_gap (IsStrictGap.space hspace) ih
      · rw [List.cons_append, List.cons_append, List.append_assoc, removeCommentsFrom,
          List.singleton_append, removeCommentsFrom_lineComment hbody]
        exact .cons_gap (IsStrictGap.space rfl) ih
      · rw [hcomment.removeCommentsFrom_append]
        exact ih.lineBreaks_append _
  | @symbol symbol symbols front rest hspelling hwritten ih =>
      cases hsymbol : symbol.isText with
      | false =>
          have hinterrupted := (isLooseSpelling_iff hsymbol).mp hspelling
          rw [hinterrupted.removeCommentsFrom_append (Symbol.marks_notMem hsymbol)]
          exact .symbol rfl ih
      | true =>
          obtain ⟨literal, rfl⟩ := Symbol.exists_of_isText hsymbol
          obtain rfl : front = (Scalar.text literal).characters := hspelling
          rw [removeCommentsFrom_literal]
          exact .symbol rfl ih

/-- What stands before a character that is left: comments within the line. -/
theorem removeCommentsFrom_eq_cons {text out : List Char} {character : Char}
    (hcharacter : character ∉ ['\n', '"'])
    (htext : removeCommentsFrom .plain text = character :: out) :
    ∃ comments rest, text = List.flatten comments ++ character :: rest ∧
      (∀ comment ∈ comments, IsBlockComment comment ∧ '\n' ∉ comment) ∧
      removeCommentsFrom .plain rest = out := by
  have hne : character ≠ '\n' ∧ character ≠ '"' := by simpa using hcharacter
  have hbreaks {gap rest : List Char} (heq : lineBreaks gap ++ rest = character :: out) :
      '\n' ∉ gap := by
    rw [← lineBreaks_eq_nil_iff]
    rcases hgap : lineBreaks gap with - | ⟨first, later⟩
    · rfl
    · have hmem : first ∈ lineBreaks gap := hgap ▸ List.mem_cons_self
      rw [hgap] at heq
      rw [(List.cons.inj heq).1] at hmem
      have hbreak : character = '\n' := by simpa [lineBreaks] using (List.mem_filter.mp hmem).2
      exact absurd hbreak hne.1
  induction hlength : text.length using Nat.strong_induction_on generalizing text with
  | h length ih =>
    subst hlength
    rcases removeComments_cases text with rfl | ⟨body, -, -, hremoved⟩ |
      ⟨body, rest, -, -, hremoved⟩ | ⟨body, -, -, hremoved⟩ |
      ⟨comment, rest, hcomment, rfl, hremoved⟩ | ⟨first, rest, rfl, hremoved⟩
    · cases htext
    · rw [hremoved] at htext
      cases htext
    · rw [hremoved] at htext
      exact absurd (List.cons.inj htext).1.symm hne.1
    · rw [hremoved, ← List.append_nil (lineBreaks body)] at htext
      rw [lineBreaks_eq_nil_iff.mpr (hbreaks htext)] at htext
      cases htext
    · rw [hremoved] at htext
      have hline := hbreaks htext
      rw [lineBreaks_eq_nil_iff.mpr hline, List.nil_append] at htext
      obtain ⟨comments, later, rfl, hcomments, hlater⟩ :=
        ih _ (hcomment.length_lt_append rest) htext rfl
      exact ⟨comment :: comments, later, by simp,
        List.forall_mem_cons.mpr ⟨⟨hcomment, hline⟩, hcomments⟩, hlater⟩
    · rw [hremoved] at htext
      obtain ⟨rfl, hlater⟩ := List.cons.inj htext
      rw [if_neg hne.2] at hlater
      exact ⟨[], rest, rfl, nofun, hlater⟩

/-- What is left of a word was there, with comments in it. -/
theorem exists_interrupted {word : List Char} (hword : word ⊆ wordCharacters) (first : Char)
    {text out : List Char} (htext : removeCommentsFrom .plain text = word ++ out) :
    ∃ front rest, first :: text = front ++ rest ∧ Interrupted (first :: word) front ∧
      removeCommentsFrom .plain rest = out := by
  induction word generalizing first text with
  | nil => exact ⟨[first], text, rfl, .last first, htext⟩
  | cons character word ih =>
      obtain ⟨hcharacter, hword⟩ := List.cons_subset.mp hword
      have hfacts := (wordCharacter_facts hcharacter).2
      obtain ⟨comments, later, rfl, hcomments, hlater⟩ :=
        removeCommentsFrom_eq_cons (by simp at hfacts ⊢; tauto) htext
      obtain ⟨front, rest, hfront, hinterrupted, hrest⟩ := ih hword character hlater
      refine ⟨first :: (comments.flatten ++ front), rest, ?_, .next first hcomments hinterrupted,
        hrest⟩
      rw [hfront]
      simp

theorem Written.of_lineBreaks_append {symbols : List Symbol} {gap text : List Char}
    (hwritten : Written .strict symbols (lineBreaks gap ++ text)) :
    Written .strict symbols text := by
  induction gap with
  | nil => exact hwritten
  | cons character gap ih =>
      by_cases hbreak : character = '\n'
      · subst hbreak
        rcases Written.cons_cases (show Written .strict symbols ('\n' :: (lineBreaks gap ++ text))
          from hwritten) with ⟨-, hlater⟩ | ⟨literal, later, behind, -, hquote, -⟩ |
          ⟨symbol, later, characters, behind, -, hsymbol, hcharacters, -⟩
        · exact ih hlater
        · cases hquote
        · obtain ⟨first, word, hcharacters', -, -, hfirst, -⟩ := Symbol.exists_characters hsymbol
          rw [(List.cons.inj (hcharacters'.symm.trans hcharacters)).1] at hfirst
          simp at hfirst
      · exact ih (by simpa [lineBreaks, hbreak] using hwritten)

/-- **No other texts.**  What becomes strictly written was loosely written. -/
theorem Written.of_removeComments {symbols : List Symbol} {text : List Char}
    (hwritten : Written .strict symbols (removeCommentsFrom .plain text)) :
    Written .loose symbols text := by
  induction hlength : text.length using Nat.strong_induction_on generalizing symbols text with
  | h length ih =>
    subst hlength
    rcases removeComments_cases text with rfl | ⟨body, hbody, rfl, hremoved⟩ |
      ⟨body, rest, hbody, rfl, hremoved⟩ | ⟨body, hunended, rfl, hremoved⟩ |
      ⟨comment, rest, hcomment, rfl, hremoved⟩ | ⟨character, rest, rfl, hremoved⟩
    · obtain rfl := hwritten.nil_of_nil
      exact .ending (.relaxed .nothing)
    · rw [hremoved] at hwritten
      obtain rfl := hwritten.nil_of_nil
      exact .ending (.relaxed (.lineComment hbody))
    · rw [hremoved] at hwritten
      have hgap : Manner.loose.gap ('/' :: '/' :: (body ++ ['\n'])) := .lineComment hbody
      have hstrict : Written .strict symbols (removeCommentsFrom .plain rest) :=
        Written.of_lineBreaks_append (show Written .strict symbols (lineBreaks ['\n'] ++ _)
          from hwritten)
      have hlater := ih rest.length (by simp; omega) hstrict rfl
      simpa using Written.gap hgap hlater
    · rw [hremoved, ← List.append_nil (lineBreaks body)] at hwritten
      obtain rfl := hwritten.of_lineBreaks_append.nil_of_nil
      exact .ending (.blockComment hunended)
    · rw [hremoved] at hwritten
      exact .gap (IsRelaxedGap.blockComment hcomment)
        (ih _ (hcomment.length_lt_append rest) hwritten.of_lineBreaks_append rfl)
    rw [hremoved] at hwritten
    rcases hwritten.cons_cases with ⟨hspace, hlater⟩ |
      ⟨literal, later, behind, rfl, rfl, hbody, hlater⟩ |
      ⟨symbol, later, characters, behind, rfl, hsymbol, hcharacters, hword, hlater⟩
    · have hquote : character ≠ '"' := by
        rintro rfl
        cases hspace
      rw [if_neg hquote] at hlater
      exact .cons_gap (IsRelaxedGap.space hspace) (ih _ (Nat.lt_succ_self _) hlater rfl)
    · rw [if_pos rfl, removeCommentsFrom_text] at hbody
      obtain ⟨tail, hfront, rfl, hshorter⟩ :=
        exists_of_splitText (removeCommentsFrom .plain) rfl hbody
      rw [hfront]
      exact .symbol rfl (ih _ hshorter hlater rfl)
    · obtain ⟨first, word, hcharacters', hsubset, -, hfirst, -⟩ :=
        Symbol.exists_characters hsymbol
      obtain ⟨rfl, rfl⟩ := List.cons.inj (hcharacters.symm.trans hcharacters')
      have hquote : character ≠ '"' := by
        rintro rfl
        simp at hfirst
      rw [if_neg hquote] at hword
      obtain ⟨front, tail, hfront, hinterrupted, rfl⟩ := exists_interrupted hsubset character hword
      have hshorter : tail.length < (character :: rest).length := by
        have hnonempty : front ≠ [] := by
          rintro rfl
          cases hinterrupted
        rw [hfront, List.length_append]
        exact Nat.lt_add_of_pos_left (List.length_pos_of_ne_nil hnonempty)
      rw [hfront]
      refine .symbol ?_ (ih _ hshorter hlater rfl)
      exact (isLooseSpelling_iff hsymbol).mpr (hcharacters ▸ hinterrupted)

end Dealias.Json
