import Dealias.Proofs.Json.Characters

/-!
# Removing commas

* `Written.removeCommas`: of a strict row of symbols the commas before the ends of containers are
  removed, and nothing else.
* `Written.of_removeCommas`: what becomes a strict row of symbols was one.

## Strategy

Whether a comma is removed depends on the next character that is not blank, in a strict row on the
next symbol (`Written.closesNext_eq`).  The second statement needs that no comma is removed within a
word or a number.  Behind such a comma a bracket or a blank would stand, which is kept and which no
word or number has (`removeCommasFrom_eq_word`).
-/

namespace Dealias.Json

/-! ## Removing commas -/

theorem closesNext_cons (character : Char) (rest : List Char) :
    closesNext (character :: rest) =
      if isBlank character = true then closesNext rest
      else decide (character = '}' ∨ character = ']') := by
  unfold closesNext
  by_cases hblank : isBlank character = true
  · rw [List.dropWhile_cons_of_pos hblank, if_pos hblank]
  · rw [List.dropWhile_cons_of_neg hblank, if_neg hblank]
    by_cases hobject : character = '}'
    · simp [hobject]
    · by_cases harray : character = ']' <;> simp [hobject, harray]

/-- Whether a container ends next can be seen from the next symbol. -/
theorem Written.closesNext_eq {symbols : List Symbol} {text : List Char}
    (hwritten : Written .strict symbols text) :
    closesNext text = symbols.head?.any Symbol.isEnd := by
  induction hwritten with
  | ending hending =>
      obtain rfl := hending
      rfl
  | gap hgap hwritten ih =>
      obtain ⟨hspace⟩ := hgap
      rw [List.singleton_append, closesNext_cons, if_pos (isSpace_facts hspace).1, ih]
  | @symbol symbol symbols front rest hspelling hwritten ih =>
      obtain rfl : front = symbol.characters := hspelling
      cases hsymbol : symbol.isText with
      | false =>
          obtain ⟨first, later, hcharacters, -, hblank, -, -, hend⟩ :=
            Symbol.exists_characters hsymbol
          rw [hcharacters, List.cons_append, closesNext_cons, if_neg (by simp [hblank])]
          simp [hend]
      | true =>
          obtain ⟨literal, rfl⟩ := Symbol.exists_of_isText hsymbol
          rfl

theorem removeCommasFrom_cons {character : Char} {rest : List Char}
    (hkept : ¬ (character = ',' ∧ closesNext rest = true)) (hquote : character ≠ '"') :
    removeCommasFrom false (character :: rest) = character :: removeCommasFrom false rest := by
  rw [removeCommasFrom, if_neg hkept, decide_eq_false hquote]

theorem removeCommasFrom_word {word : List Char} (hword : word ⊆ wordCharacters)
    (rest : List Char) :
    removeCommasFrom false (word ++ rest) = word ++ removeCommasFrom false rest := by
  induction word with
  | nil => rfl
  | cons character word ih =>
      obtain ⟨hcharacter, hword⟩ := List.cons_subset.mp hword
      have hfacts := (wordCharacter_facts hcharacter).2
      rw [List.cons_append, removeCommasFrom_cons, ih hword]
      · rfl
      · rintro ⟨rfl, -⟩
        simp at hfacts
      · rintro rfl
        simp at hfacts

/-- Removing commas keeps texts. -/
theorem removeCommasFrom_literal (literal : Literal) (rest : List Char) :
    removeCommasFrom false ((Scalar.text literal).characters ++ rest) =
      (Scalar.text literal).characters ++ removeCommasFrom false rest := by
  have hopen : removeCommasFrom false ('"' :: (literal.body ++ '"' :: rest)) =
      '"' :: removeCommasFrom true (literal.body ++ '"' :: rest) := rfl
  rw [Scalar.text_characters_append, Scalar.text_characters_append, hopen, removeCommasFrom_text,
    splitText_append literal.isBody.isQuoted, List.append_assoc]
  rfl

/-- **Removing commas.**  Of a strict row of symbols, just the commas before the ends of containers
are removed. -/
theorem Written.removeCommas {symbols : List Symbol} {text : List Char}
    (hwritten : Written .strict symbols text) :
    Written .strict (dropCommas symbols) (removeCommasFrom false text) := by
  induction hwritten with
  | ending hending =>
      obtain rfl := hending
      exact .ending rfl
  | gap hgap hwritten ih =>
      obtain @⟨character, hspace⟩ := hgap
      have hfacts := (isSpace_facts hspace).2
      rw [List.singleton_append, removeCommasFrom_cons]
      · exact .cons_gap (IsStrictGap.space hspace) ih
      · rintro ⟨rfl, -⟩
        simp at hfacts
      · rintro rfl
        simp at hfacts
  | @symbol symbol symbols front rest hspelling hwritten ih =>
      obtain rfl : front = symbol.characters := hspelling
      have hcloses := hwritten.closesNext_eq
      cases hsymbol : symbol.isText with
      | false =>
          obtain ⟨first, later, hcharacters, hlater, -, hfirst, hcomma, -⟩ :=
            Symbol.exists_characters hsymbol
          rw [hcharacters, List.cons_append, dropCommas]
          by_cases hdropped : symbol.isComma = true ∧ symbols.head?.any Symbol.isEnd = true
          · obtain rfl := Symbol.eq_comma_of_isComma hdropped.1
            obtain ⟨rfl, rfl⟩ := List.cons.inj hcharacters
            rw [if_pos hdropped, List.nil_append, removeCommasFrom,
              if_pos ⟨rfl, hcloses.trans hdropped.2⟩]
            exact ih
          · rw [if_neg hdropped, removeCommasFrom_cons, removeCommasFrom_word hlater]
            · exact .cons_symbol hcharacters.symm ih
            · rintro ⟨hfirst, hnext⟩
              obtain rfl := Symbol.eq_comma_of_isComma (hcomma.mp hfirst)
              obtain ⟨rfl, rfl⟩ := List.cons.inj hcharacters
              rw [List.nil_append, hcloses] at hnext
              exact hdropped ⟨rfl, hnext⟩
            · rintro rfl
              simp at hfirst
      | true =>
          obtain ⟨literal, rfl⟩ := Symbol.exists_of_isText hsymbol
          rw [dropCommas_cons_of_ne rfl, Symbol.characters, removeCommasFrom_literal]
          exact .symbol rfl ih

/-- What is left of a word was there: no comma in it is removed. -/
theorem removeCommasFrom_eq_word {text word out : List Char} (hword : word ⊆ wordCharacters)
    (htext : removeCommasFrom false text = word ++ out) :
    ∃ rest, text = word ++ rest ∧ removeCommasFrom false rest = out := by
  induction word generalizing text with
  | nil => exact ⟨text, rfl, htext⟩
  | cons character word ih =>
      obtain ⟨hblank, hfacts⟩ := wordCharacter_facts (List.cons_subset.mp hword).1
      -- behind a comma that is removed stands a blank or a bracket, and it is kept
      have hclosed {text : List Char} (hcloses : closesNext text = true) :
          removeCommasFrom false text ≠ character :: (word ++ out) := by
        rcases text with - | ⟨first, text⟩
        · cases hcloses
        · rw [closesNext_cons] at hcloses
          have hne {mark : Char} (hmark : isBlank mark = false ∧ ¬ (mark = '}' ∨ mark = ']')) :
              first ≠ mark := by
            rintro rfl
            rw [if_neg (by simp [hmark.1])] at hcloses
            exact hmark.2 (of_decide_eq_true hcloses)
          rw [removeCommasFrom_cons (fun hremoved => hne (by decide) hremoved.1) (hne (by decide))]
          intro heq
          obtain rfl := (List.cons.inj heq).1
          rw [if_neg (by simp [hblank])] at hcloses
          rcases of_decide_eq_true hcloses with rfl | rfl <;> simp at hfacts
      rcases text with - | ⟨first, text⟩
      · cases htext
      · rw [removeCommasFrom] at htext
        split at htext
        case isTrue hremoved => exact absurd htext (hclosed hremoved.2)
        case isFalse =>
          obtain ⟨rfl, hlater⟩ := List.cons.inj htext
          have hquote : first ≠ '"' := by
            rintro rfl
            simp at hfacts
          rw [decide_eq_false hquote] at hlater
          obtain ⟨rest, rfl, hrest⟩ := ih (List.cons_subset.mp hword).2 hlater
          exact ⟨rest, rfl, hrest⟩

/-- **No other commas.**  What becomes a strict row of symbols was one, and had only commas before
the ends of containers besides. -/
theorem Written.of_removeCommas {symbols : List Symbol} {text : List Char}
    (hwritten : Written .strict symbols (removeCommasFrom false text)) :
    ∃ all, Written .strict all text ∧ dropCommas all = symbols := by
  induction hlength : text.length using Nat.strong_induction_on generalizing symbols text with
  | h length ih =>
    subst hlength
    rcases text with - | ⟨character, text⟩
    · exact ⟨[], .ending rfl, hwritten.nil_of_nil.symm⟩
    by_cases hremoved : character = ',' ∧ closesNext text = true
    · rw [removeCommasFrom, if_pos hremoved] at hwritten
      obtain ⟨all, hall, rfl⟩ := ih text.length (Nat.lt_succ_self _) hwritten rfl
      refine ⟨.comma :: all, ?_, ?_⟩
      · have hcomma : Manner.strict.spelling .comma [','] := rfl
        rw [hremoved.1]
        exact .cons_symbol hcomma hall
      · rw [dropCommas, if_pos ⟨rfl, hall.closesNext_eq ▸ hremoved.2⟩]
    rw [removeCommasFrom, if_neg hremoved] at hwritten
    rcases hwritten.cons_cases with ⟨hspace, hlater⟩ |
      ⟨literal, later, behind, rfl, rfl, hbody, hlater⟩ |
      ⟨symbol, later, characters, behind, rfl, hsymbol, hcharacters, hword, hlater⟩
    · have hquote : character ≠ '"' := by
        rintro rfl
        cases hspace
      rw [decide_eq_false hquote] at hlater
      obtain ⟨all, hall, rfl⟩ := ih text.length (Nat.lt_succ_self _) hlater rfl
      exact ⟨all, .cons_gap (IsStrictGap.space hspace) hall, rfl⟩
    · rw [decide_eq_true rfl, removeCommasFrom_text] at hbody
      obtain ⟨tail, hfront, rfl, hshorter⟩ :=
        exists_of_splitText (removeCommasFrom false) rfl hbody
      obtain ⟨all, hall, rfl⟩ := ih _ hshorter hlater rfl
      refine ⟨.scalar (.text literal) :: all, ?_, dropCommas_cons_of_ne rfl all⟩
      rw [hfront]
      exact .symbol rfl hall
    · obtain ⟨first, word, hcharacters', hsubset, -, hfirst, hcomma, -⟩ :=
        Symbol.exists_characters hsymbol
      obtain ⟨rfl, rfl⟩ := List.cons.inj (hcharacters.symm.trans hcharacters')
      have hquote : character ≠ '"' := by
        rintro rfl
        simp at hfirst
      rw [decide_eq_false hquote] at hword
      obtain ⟨rest, rfl, rfl⟩ := removeCommasFrom_eq_word hsubset hword
      have hshorter : rest.length < (character :: (characters ++ rest)).length := by
        simp only [List.length_append, List.length_cons]
        omega
      obtain ⟨all, hall, rfl⟩ := ih _ hshorter hlater rfl
      refine ⟨symbol :: all, ?_, ?_⟩
      · exact .cons_symbol hcharacters.symm hall
      · rw [dropCommas, if_neg]
        rintro ⟨hsymbolComma, hnext⟩
        obtain rfl := Symbol.eq_comma_of_isComma hsymbolComma
        obtain ⟨rfl, rfl⟩ := List.cons.inj hcharacters
        rw [List.nil_append, hall.closesNext_eq] at hremoved
        exact hremoved ⟨rfl, hnext⟩

end Dealias.Json
