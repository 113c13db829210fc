import Mathlib.Data.Bool.AllAny
import Dealias.Json.Relaxed
import Dealias.Proofs.Json.Trees

/-!
# The characters of symbols and texts

What removing comments and commas has to know of the characters: words and numbers have none with a
meaning of their own (`wordCharacter_facts`), a strict row begins with a blank, a text or another
symbol (`Written.cons_cases`), and texts in quotes are kept up to their closing quote
(`removeCommentsFrom_text`, `removeCommasFrom_text`).  Both passes end texts at the same quote as
the grammar does (`splitText_append`, `exists_of_splitText`).
-/

namespace Dealias.Json

/-! ## The characters of symbols -/

/-- The characters of words and numbers. -/
def wordCharacters : List Char :=
  ['0', '1', '2', '3', '4', '5', '6', '7', '8', '9', '+', '-', '.', 'e', 'E', 'n', 'u', 'l', 't',
    'r', 'f', 'a', 's']

theorem mem_wordCharacters_of_isDigit {digit : Char} (hdigit : digit.isDigit = true) :
    digit ∈ wordCharacters := by
  simp only [Char.isDigit, Bool.and_eq_true, decide_eq_true_eq] at hdigit
  have hlow : 48 ≤ digit.toNat := UInt32.le_iff_toNat_le.mp hdigit.1
  have hhigh : digit.toNat ≤ 57 := UInt32.le_iff_toNat_le.mp hdigit.2
  have hdigits : ∀ code ∈ List.range' 48 10, Char.ofNat code ∈ wordCharacters := by decide
  rw [← Char.ofNat_toNat digit]
  exact hdigits _ (List.mem_range'_1.mpr ⟨hlow, by omega⟩)

/-- Words and numbers have no characters with a meaning of their own. -/
theorem wordCharacter_facts {character : Char} (hword : character ∈ wordCharacters) :
    isBlank character = false ∧ character ∉ ['\n', '"', '/', ',', '}', ']'] := by
  have hall : ∀ character ∈ wordCharacters,
      isBlank character = false ∧ character ∉ ['\n', '"', '/', ',', '}', ']'] :=
    List.all_iff_forall_prop.mp (by decide)
  exact hall character hword

theorem isSpace_cases {character : Char} (hspace : isSpace character = true) :
    character ∈ [' ', '\n', '\t', '\r'] := by
  simpa [isSpace, or_assoc] using hspace

/-- Blanks of the format have no meaning of their own. -/
theorem isSpace_facts {character : Char} (hspace : isSpace character = true) :
    isBlank character = true ∧ character ∉ ['"', '/', ','] := by
  have hall : ∀ character ∈ [' ', '\n', '\t', '\r'],
      isBlank character = true ∧ character ∉ ['"', '/', ','] :=
    List.all_iff_forall_prop.mp (by decide)
  exact hall character (isSpace_cases hspace)

theorem IsDigits.subset {digits : List Char} (hdigits : ∀ digit ∈ digits, digit.isDigit = true) :
    digits ⊆ wordCharacters :=
  fun digit hmem => mem_wordCharacters_of_isDigit (hdigits digit hmem)

theorem IsNumeral.subset {text : List Char} (hnumeral : IsNumeral text) :
    text ⊆ wordCharacters := by
  obtain ⟨sign, whole, fraction, exponent, rfl, hsign, hwhole, hfraction, hexponent⟩ := hnumeral
  refine List.append_subset.mpr ⟨?_, List.append_subset.mpr ⟨?_, List.append_subset.mpr ⟨?_, ?_⟩⟩⟩
  · have hall : ∀ sign ∈ [[], ['-']], sign ⊆ wordCharacters := by decide
    exact hall sign hsign
  · cases hwhole with
    | zero => decide
    | digits hdigit hzero hrest =>
        exact List.cons_subset.mpr ⟨mem_wordCharacters_of_isDigit hdigit, IsDigits.subset hrest⟩
  · rcases hfraction with rfl | ⟨digits, rfl, hdigits⟩
    · exact List.nil_subset _
    · exact List.cons_subset.mpr ⟨by decide, IsDigits.subset hdigits.2⟩
  · rcases hexponent with rfl | ⟨mark, sign, digits, rfl, hmark, hsign, hdigits⟩
    · exact List.nil_subset _
    · have hmarks : ['e', 'E'] ⊆ wordCharacters := by decide
      have hsigns : ∀ sign ∈ [[], ['+'], ['-']], sign ⊆ wordCharacters := by decide
      exact List.cons_subset.mpr ⟨hmarks hmark,
        List.append_subset.mpr ⟨hsigns sign hsign, IsDigits.subset hdigits.2⟩⟩

/-- Whether a symbol is a text. -/
def Symbol.isText : Symbol → Bool
  | scalar (.text _) => true
  | _ => false

theorem Symbol.exists_of_isText {symbol : Symbol} (htext : symbol.isText = true) :
    ∃ literal, symbol = .scalar (.text literal) := by
  cases symbol with
  | scalar value =>
      cases value with
      | text literal => exact ⟨literal, rfl⟩
      | _ => cases htext
  | _ => cases htext

/-- A symbol that is no text starts with a character of its own, and words and numbers go on with
their characters. -/
theorem Symbol.exists_characters {symbol : Symbol} (htext : symbol.isText = false) :
    ∃ first later, symbol.characters = first :: later ∧ later ⊆ wordCharacters ∧
      isBlank first = false ∧ first ∉ ['\n', '"', '/'] ∧ (first = ',' ↔ symbol.isComma = true) ∧
      (first = '}' ∨ first = ']' ↔ symbol.isEnd = true) := by
  have hword {characters : List Char} (hsubset : characters ⊆ wordCharacters)
      (hnonempty : characters ≠ []) : ∃ first later, characters = first :: later ∧
        later ⊆ wordCharacters ∧ isBlank first = false ∧ first ∉ ['\n', '"', '/'] ∧
        (first = ',' ↔ false = true) ∧ (first = '}' ∨ first = ']' ↔ false = true) := by
    obtain ⟨first, later, rfl⟩ := List.exists_cons_of_ne_nil hnonempty
    obtain ⟨hfirst, hlater⟩ := List.cons_subset.mp hsubset
    obtain ⟨hblank, hothers⟩ := wordCharacter_facts hfirst
    simp only [List.mem_cons, List.not_mem_nil, or_false, not_or] at hothers
    exact ⟨first, later, rfl, hlater, hblank, by simp [hothers], by simp [hothers],
      by simp [hothers]⟩
  cases symbol with
  | scalar value =>
      cases value with
      | null => exact hword (by decide) (by decide)
      | flag value => cases value <;> exact hword (by decide) (by decide)
      | number written => exact hword written.isNumeral.subset written.isNumeral.ne_nil
      | text literal => cases htext
  | _ => exact ⟨_, [], rfl, List.nil_subset _, by decide, by decide, by decide, by decide⟩

/-- Symbols other than texts have neither quotes nor slashes. -/
theorem Symbol.marks_notMem {symbol : Symbol} (htext : symbol.isText = false) :
    ∀ character ∈ symbol.characters, character ≠ '"' ∧ character ≠ '/' := by
  obtain ⟨first, later, hcharacters, hlater, -, hfirst, -⟩ := Symbol.exists_characters htext
  rw [hcharacters, List.forall_mem_cons]
  constructor
  · simp only [List.mem_cons, List.not_mem_nil, or_false, not_or] at hfirst
    exact hfirst.2
  · intro character hmem
    have hfacts := (wordCharacter_facts (hlater hmem)).2
    simp only [List.mem_cons, List.not_mem_nil, or_false, not_or] at hfacts
    exact ⟨hfacts.2.1, hfacts.2.2.1⟩

/-! ## Strict rows of symbols -/

theorem Written.nil_of_nil {symbols : List Symbol} (hwritten : Written .strict symbols []) :
    symbols = [] := by
  generalize htext : ([] : List Char) = text at hwritten
  induction hwritten with
  | ending hending => rfl
  | gap hgap hwritten ih => exact ih (List.append_eq_nil_iff.mp htext.symm).2.symm
  | @symbol symbol symbols front rest hspelling hwritten ih =>
      obtain rfl : front = symbol.characters := hspelling
      have hempty := (List.append_eq_nil_iff.mp htext.symm).1
      cases hsymbol : symbol.isText with
      | false =>
          obtain ⟨first, later, hcharacters, -⟩ := Symbol.exists_characters hsymbol
          rw [hcharacters] at hempty
          cases hempty
      | true =>
          obtain ⟨literal, rfl⟩ := Symbol.exists_of_isText hsymbol
          cases hempty

/-- What a strict row of symbols begins with: a blank, a text or another symbol. -/
theorem Written.cons_cases {symbols : List Symbol} {character : Char} {rest : List Char}
    (hwritten : Written .strict symbols (character :: rest)) :
    (isSpace character = true ∧ Written .strict symbols rest) ∨
    (∃ literal later behind, symbols = .scalar (.text literal) :: later ∧ character = '"' ∧
      rest = literal.body ++ '"' :: behind ∧ Written .strict later behind) ∨
    (∃ symbol later characters behind, symbols = symbol :: later ∧ symbol.isText = false ∧
      symbol.characters = character :: characters ∧ rest = characters ++ behind ∧
      Written .strict later behind) := by
  generalize htext : character :: rest = text at hwritten
  cases hwritten with
  | ending hending => cases htext.trans hending
  | gap hgap hwritten =>
      obtain ⟨hspace⟩ := hgap
      obtain ⟨rfl, rfl⟩ := List.cons.inj htext
      exact .inl ⟨hspace, hwritten⟩
  | @symbol symbol later front behind hspelling hwritten =>
      obtain rfl : front = symbol.characters := hspelling
      cases hsymbol : symbol.isText with
      | false =>
          obtain ⟨first, characters, hcharacters, -⟩ := Symbol.exists_characters hsymbol
          rw [hcharacters] at htext
          obtain ⟨rfl, rfl⟩ := List.cons.inj htext
          exact .inr (.inr ⟨symbol, later, characters, behind, rfl, hsymbol, hcharacters, rfl,
            hwritten⟩)
      | true =>
          obtain ⟨literal, rfl⟩ := Symbol.exists_of_isText hsymbol
          obtain ⟨rfl, hrest⟩ := List.cons.inj htext
          refine .inr (.inl ⟨literal, later, behind, rfl, rfl, ?_, hwritten⟩)
          simpa using hrest

/-! ## Texts are kept -/

/-- A text in quotes up to its closing quote, and what comes behind. -/
def splitText : List Char → List Char × List Char
  | [] => ([], [])
  | '\\' :: escaped :: rest => ('\\' :: escaped :: (splitText rest).1, (splitText rest).2)
  | character :: rest =>
    if character = '"' then ([character], rest)
    else (character :: (splitText rest).1, (splitText rest).2)

theorem removeCommentsFrom_text (text : List Char) :
    removeCommentsFrom .text text =
      (splitText text).1 ++ removeCommentsFrom .plain (splitText text).2 := by
  fun_induction splitText text with
  | case1 => rfl
  | case2 escaped rest ih => rw [removeCommentsFrom, ih]; rfl
  | case3 rest => rfl
  | case4 character rest hescape hquote ih =>
      rw [removeCommentsFrom, if_neg hquote, ih]
      · rfl
      · exact hescape

theorem removeCommasFrom_text (text : List Char) :
    removeCommasFrom true text =
      (splitText text).1 ++ removeCommasFrom false (splitText text).2 := by
  fun_induction splitText text with
  | case1 => rfl
  | case2 escaped rest ih => rw [removeCommasFrom, ih]; rfl
  | case3 rest => rfl
  | case4 character rest hescape hquote ih =>
      have hinside : (character != '"') = true := by simpa using hquote
      rw [removeCommasFrom, hinside, ih]
      · rfl
      · exact hescape

theorem splitText_cons_of_ne {character : Char} {rest : List Char} (hquote : character ≠ '"')
    (hescape : ∀ escaped later, character = '\\' → rest = escaped :: later → False) :
    splitText (character :: rest) = (character :: (splitText rest).1, (splitText rest).2) := by
  rw [splitText, if_neg hquote]
  exact hescape

/-- What stands between quotes, as far as quotes and backslashes matter. -/
inductive IsQuoted : List Char → Prop
  | nil : IsQuoted []
  | plain {character : Char} {rest : List Char} : character ≠ '"' → character ≠ '\\' →
      IsQuoted rest → IsQuoted (character :: rest)
  | escaped {character : Char} {rest : List Char} : IsQuoted rest →
      IsQuoted ('\\' :: character :: rest)

theorem IsHexDigit.ne_of_not {character other : Char} (hdigit : IsHexDigit character)
    (hother : (hexDigit? other).isSome = false) : character ≠ other := by
  rintro rfl
  rw [hdigit.isSome_hexDigit?] at hother
  cases hother

theorem IsBody.isQuoted {body : List Char} (hbody : IsBody body) : IsQuoted body := by
  induction hbody with
  | nil => exact .nil
  | plain hquote hbackslash _ _ ih => exact .plain hquote hbackslash ih
  | escape _ _ ih => exact .escaped ih
  | code hfirst hsecond hthird hfourth _ ih =>
      have hplain {character : Char} (hdigit : IsHexDigit character) {rest : List Char}
          (hrest : IsQuoted rest) : IsQuoted (character :: rest) :=
        .plain (hdigit.ne_of_not rfl) (hdigit.ne_of_not rfl) hrest
      exact .escaped (hplain hfirst (hplain hsecond (hplain hthird (hplain hfourth ih))))

theorem splitText_append {body : List Char} (hbody : IsQuoted body) (rest : List Char) :
    splitText (body ++ '"' :: rest) = (body ++ ['"'], rest) := by
  induction hbody with
  | nil => rfl
  | plain hquote hbackslash hbody ih =>
      rw [List.cons_append, splitText_cons_of_ne hquote (fun _ _ hescape _ => hbackslash hescape),
        ih]
      rfl
  | escaped hbody ih =>
      rw [List.cons_append, List.cons_append, splitText, ih]
      rfl

/-- A text that is kept was there. -/
theorem splitText_of_append {body text behind out : List Char} (hbody : IsQuoted body)
    (hend : (splitText text).2 = [] → out = [])
    (htext : (splitText text).1 ++ out = body ++ '"' :: behind) :
    text = body ++ '"' :: (splitText text).2 ∧ out = behind := by
  induction hbody generalizing text with
  | nil =>
      fun_cases splitText text with
      | case1 => exact absurd htext (by simp [splitText, hend rfl])
      | case2 escaped rest => exact absurd htext (by simp [splitText])
      | case3 rest => exact ⟨rfl, by simpa [splitText] using htext⟩
      | case4 character rest hescape hquote =>
          rw [splitText_cons_of_ne hquote hescape] at htext
          exact absurd (List.cons.inj htext).1 hquote
  | @plain character body hquote hbackslash hbody ih =>
      fun_cases splitText text with
      | case1 => exact absurd htext (by simp [splitText, hend rfl])
      | case2 escaped rest =>
          rw [splitText] at htext
          exact absurd (List.cons.inj htext).1.symm hbackslash
      | case3 rest => exact absurd (List.cons.inj htext).1.symm hquote
      | case4 first rest hescape hne =>
          rw [splitText_cons_of_ne hne hescape] at hend htext
          obtain ⟨rfl, hlater⟩ := List.cons.inj htext
          obtain ⟨hrest, hout⟩ := ih hend hlater
          exact ⟨congrArg (first :: ·) hrest, hout⟩
  | @escaped character body hbody ih =>
      fun_cases splitText text with
      | case1 => exact absurd htext (by simp [splitText, hend rfl])
      | case2 escaped rest =>
          rw [splitText] at hend htext
          obtain ⟨-, hescaped⟩ := List.cons.inj htext
          obtain ⟨rfl, hlater⟩ := List.cons.inj hescaped
          obtain ⟨hrest, hout⟩ := ih hend hlater
          exact ⟨congrArg (fun later => '\\' :: escaped :: later) hrest, hout⟩
      | case3 rest => cases (List.cons.inj htext).1
      | case4 first rest hescape hne =>
          rw [splitText_cons_of_ne hne hescape] at hend htext
          obtain ⟨rfl, hlater⟩ := List.cons.inj htext
          -- a backslash at the very end leaves nothing behind
          have hrest : rest = [] := by
            rcases rest with - | ⟨next, rest⟩
            · rfl
            · exact (hescape next rest rfl rfl).elim
          subst hrest
          rw [hend rfl] at hlater
          cases hlater

/-- What is left of a text in quotes was there, and what stands behind it is cleaned. -/
theorem exists_of_splitText {literal : Literal} {text behind : List Char}
    (clean : List Char → List Char) (hclean : clean [] = [])
    (htext : (splitText text).1 ++ clean (splitText text).2 = literal.body ++ '"' :: behind) :
    ∃ rest, '"' :: text = (Scalar.text literal).characters ++ rest ∧ clean rest = behind ∧
      rest.length < ('"' :: text).length := by
  obtain ⟨hkept, hbehind⟩ := splitText_of_append literal.isBody.isQuoted
    (fun hempty => by rw [hempty, hclean]) htext
  refine ⟨(splitText text).2, ?_, hbehind, ?_⟩
  · rw [Scalar.text_characters_append, ← hkept]
  · have hsize := congrArg List.length hkept
    simp only [List.length_append, List.length_cons] at hsize ⊢
    omega

end Dealias.Json
