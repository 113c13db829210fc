import Mathlib.Data.List.Chain
import Dealias.Proofs.Json.Lines
import Dealias.Proofs.Json.Scanning

/-!
# Tokens and symbols

The machine cuts a text into the tokens of its symbols, and it finds no tokens in other texts.

* `Written.tokensFrom_eq`: the tokens of a strict row of symbols are those of the symbols.
* `exists_written`: a text without broken tokens is a strict row of symbols.

## Strategy

Gaps make no token, and a symbol makes its own one (`tokensFrom_symbol`).  Only a number needs to
see what comes next; nothing that may follow one in a tree goes on with it, so values that hold no
others have to stand apart (`AreApart`).  The other way, a character between tokens begins a gap or
a symbol or breaks (`stepBetween_cases`), and the rest of the symbol follows (`exists_symbol`).
-/

namespace Dealias.Json

variable {line : Nat} {character : Char} {rest : List Char}

/-! ## Symbols -/

/-- The token of a text. -/
def Literal.token (line : Nat) (literal : Literal) : Token :=
  ((literal.body.foldl (TextState.read line) (.opened line)).settleSurrogate line).close

/-- The token of a symbol. -/
def Symbol.token (line : Nat) : Symbol → Token
  | beginObject => ⟨line, .beginObject⟩
  | endObject => ⟨line, .endObject⟩
  | beginArray => ⟨line, .beginArray⟩
  | endArray => ⟨line, .endArray⟩
  | comma => ⟨line, .comma⟩
  | colon => ⟨line, .colon⟩
  | scalar .null => ⟨line, .null⟩
  | scalar (.flag value) => ⟨line, .flag value⟩
  | scalar (.number written) => ⟨line, .number ⟨written.characters⟩⟩
  | scalar (.text literal) => literal.token line

theorem IsBody.lineBreak_notMem {body : List Char} (hbody : IsBody body) : '\n' ∉ body := by
  induction hbody with
  | nil => exact List.not_mem_nil
  | plain hquote hbackslash hplain hbody ih =>
      refine List.not_mem_cons_of_ne_of_not_mem ?_ ih
      rintro rfl
      exact absurd hplain (by decide)
  | escape hescape hbody ih =>
      refine List.not_mem_cons_of_ne_of_not_mem (by decide)
        (List.not_mem_cons_of_ne_of_not_mem ?_ ih)
      rintro rfl
      exact absurd hescape (by decide)
  | code hfirst hsecond hthird hfourth hbody ih =>
      simp only [List.mem_cons, not_or]
      exact ⟨by decide, by decide, hfirst.ne_lineBreak.symm, hsecond.ne_lineBreak.symm,
        hthird.ne_lineBreak.symm, hfourth.ne_lineBreak.symm, ih⟩

theorem TextState.read_relabel {label : Nat → Nat} (state : TextState) (hne : character ≠ '\n') :
    (state.relabel label).read (label line) character =
      (state.read line character).relabel label := by
  have hlabel : lineAfter (label line) character = label (lineAfter line character) := by
    rw [lineAfter_of_ne hne, lineAfter_of_ne hne]
  have hstep := stepText_relabel hlabel state
  unfold read
  rw [hstep, relabelStep]
  generalize (stepText state line character).2 = later
  cases later <;> rfl

theorem Literal.token_relabel (label : Nat → Nat) (line : Nat) (literal : Literal) :
    (literal.token line).relabel label = literal.token (label line) := by
  have hfold (body : List Char) (hbody : '\n' ∉ body) (state : TextState) :
      body.foldl (TextState.read (label line)) (state.relabel label) =
        (body.foldl (TextState.read line) state).relabel label := by
    induction body generalizing state with
    | nil => rfl
    | cons character body ih =>
        have hne : character ≠ '\n' := (List.ne_of_not_mem_cons hbody).symm
        rw [List.foldl_cons, List.foldl_cons, state.read_relabel hne,
          ih (List.not_mem_of_not_mem_cons hbody)]
  rw [token, token, TextState.opened_relabel, hfold _ literal.isBody.lineBreak_notMem,
    TextState.settleSurrogate_relabel, TextState.close_relabel]

theorem Symbol.token_relabel (label : Nat → Nat) (line : Nat) (symbol : Symbol) :
    (symbol.token line).relabel label = symbol.token (label line) := by
  cases symbol with
  | scalar value =>
      cases value with
      | text literal => exact literal.token_relabel label line
      | _ => rfl
  | _ => rfl

/-- Whether a symbol is a value that holds no others. -/
def Symbol.isScalar : Symbol → Bool
  | scalar _ => true
  | _ => false

theorem step_space (hspace : isSpace character = true) :
    Mode.between.step line character = ([], .between) := by
  simp only [Mode.step, stepBetween, hspace, if_true]

theorem stepBetween_of_isDigit (hdigit : character.isDigit = true) (hzero : character ≠ '0') :
    stepBetween line character = ([], .number [character] .whole) := by
  have hspace : isSpace character = false := by
    by_contra hspace
    simp only [isSpace, Bool.not_eq_false, Bool.or_eq_true, beq_iff_eq] at hspace
    rcases hspace with ((rfl | rfl) | rfl) | rfl <;> cases hdigit
  unfold stepBetween
  rw [if_neg (Bool.not_eq_true _ ▸ hspace)]
  split <;> first | exact absurd rfl hzero | cases hdigit | exact if_pos hdigit

/-- A symbol makes one token, unless it is a number with more of a number behind it. -/
theorem tokensFrom_symbol (symbol : Symbol)
    (hend : symbol.isScalar = true → ∀ next ∈ rest.head?, continuesNumber next = false) :
    tokensFrom line .between (symbol.characters ++ rest) =
      (tokensFrom line .between rest).push (symbol.token line) := by
  cases symbol with
  | beginObject | endObject | beginArray | endArray | comma | colon => rfl
  | scalar value =>
      cases value with
      | null => exact tokensFrom_word ['u', 'l', 'l'] (by decide) (by decide)
      | flag value =>
          cases value with
          | true => exact tokensFrom_word ['r', 'u', 'e'] (by decide) (by decide)
          | false => exact tokensFrom_word ['a', 'l', 's', 'e'] (by decide) (by decide)
      | text literal =>
          have hbody : tokensFrom line (.text (.opened line)) (literal.body ++ '"' :: rest) = _ :=
            tokensFrom_body literal.isBody rfl
          rw [Symbol.characters, Scalar.text_characters_append]
          exact hbody
      | number written =>
          obtain ⟨characters, hnumeral⟩ := written
          obtain ⟨character, characters, rfl⟩ := List.exists_cons_of_ne_nil hnumeral.ne_nil
          have hstart : ∃ stage, stepBetween line character = ([], .number [character] stage) ∧
              stage.Rest characters ∧ character ≠ '\n' := by
            rcases isNumeral_cons_iff.mp hnumeral with ⟨rfl, hrest⟩ | hrest
            · exact ⟨.sign, rfl, hrest, by decide⟩
            · rcases NumberStage.rest_sign_cons_iff.mp hrest with
                ⟨rfl, hzero⟩ | ⟨hzero, hdigit, hwhole⟩
              · exact ⟨.zero, rfl, hzero, by decide⟩
              · refine ⟨.whole, stepBetween_of_isDigit hdigit hzero, hwhole, ?_⟩
                rintro rfl
                cases hdigit
          obtain ⟨stage, hstep, hrest, hne⟩ := hstart
          have hnumber : tokensFrom line (.number [character] stage) (characters ++ rest) = _ :=
            tokensFrom_number hrest (hend rfl)
          rw [numberToken, List.reverse_append, List.reverse_reverse] at hnumber
          rw [Symbol.characters, Scalar.characters, List.cons_append,
            tokensFrom_of_silent (show Mode.step line character .between = _ from hstep),
            lineAfter_of_ne hne]
          exact hnumber

/-! ## Rows of symbols -/

theorem TokenList.relabel_push (label : Nat → Nat) (token : Token) (list : TokenList) :
    (list.push token).relabel label = (list.relabel label).push (token.relabel label) := rfl

/-- One count for all lines. -/
def forgetLine (_ : Nat) : Nat := 0

/-- The tokens of symbols, without lines. -/
def tokensOfSymbols (symbols : List Symbol) : TokenList where
  tokens := symbols.map (Symbol.token 0)
  lastLine := 0

/-- Whether values that hold no others never stand side by side. -/
def AreApart (symbols : List Symbol) : Prop :=
  symbols.IsChain fun first second => first.isScalar = true → second.isScalar = false

/-- What stands before a bracket, a comma or a colon is no part of a number. -/
theorem Written.head_of_not_isScalar {symbols : List Symbol} {text : List Char}
    (hwritten : Written .strict symbols text)
    (hhead : ∀ next ∈ symbols.head?, next.isScalar = false) :
    ∀ next ∈ text.head?, continuesNumber next = false := by
  intro next hnext
  cases hwritten with
  | ending hending =>
      obtain rfl : text = [] := hending
      cases hnext
  | gap hgap _ =>
      obtain ⟨hspace⟩ := hgap
      obtain rfl := Option.some.inj hnext
      simp only [isSpace, Bool.or_eq_true, beq_iff_eq] at hspace
      rcases hspace with ((rfl | rfl) | rfl) | rfl <;> rfl
  | @symbol symbol symbols front rest hspelling _ =>
      obtain rfl : front = symbol.characters := hspelling
      have hscalar := hhead symbol rfl
      cases symbol with
      | scalar value => cases hscalar
      | _ =>
          obtain rfl := Option.some.inj hnext
          rfl

/-- **Reading symbols.**  The tokens of a text are those of its symbols. -/
theorem Written.tokensFrom_eq {symbols : List Symbol} {text : List Char}
    (hwritten : Written .strict symbols text) (hapart : AreApart symbols) (line : Nat) :
    (tokensFrom line .between text).relabel forgetLine = tokensOfSymbols symbols := by
  induction hwritten generalizing line with
  | ending hending =>
      obtain rfl := hending
      rfl
  | @gap symbols front rest hgap hwritten ih =>
      obtain @⟨character, hspace⟩ := hgap
      rw [List.singleton_append, tokensFrom_of_silent (step_space hspace)]
      exact ih hapart _
  | @symbol symbol symbols front rest hspelling hwritten ih =>
      obtain rfl : front = symbol.characters := hspelling
      obtain ⟨hhead, hapart⟩ := List.isChain_cons.mp hapart
      rw [tokensFrom_symbol symbol fun hscalar =>
        hwritten.head_of_not_isScalar fun next hnext => hhead next hnext hscalar,
        TokenList.relabel_push, ih hapart, symbol.token_relabel]
      rfl

/-- What a character between tokens begins. -/
theorem stepBetween_cases (line : Nat) (character : Char) :
    (isSpace character = true ∧ stepBetween line character = ([], .between)) ∨
    (∃ symbol : Symbol, symbol.characters = [character] ∧
      stepBetween line character = ([symbol.token line], .between)) ∨
    (∃ (symbol : Symbol) (lexeme : Lexeme) (missing : List Char),
      symbol.characters = character :: missing ∧ symbol.token line = ⟨line, lexeme⟩ ∧
        missing ≠ [] ∧ '\n' ∉ missing ∧
        stepBetween line character = ([], .word lexeme missing)) ∨
    (character = '"' ∧ stepBetween line character = ([], .text (.opened line))) ∨
    (∃ stage, stepBetween line character = ([], .number [character] stage) ∧
      ∀ rest, stage.Rest rest → IsNumeral (character :: rest)) ∨
    stepBetween line character = ([brokenToken line ⟨.malformed, line⟩], .halted) := by
  cases hspace : isSpace character with
  | true => exact .inl ⟨rfl, by simp only [stepBetween, hspace, if_true]⟩
  | false =>
      right
      have hnumeral {rest : List Char} (hrest : NumberStage.sign.Rest (character :: rest)) :
          IsNumeral (character :: rest) := isNumeral_cons_iff.mpr (.inr hrest)
      unfold stepBetween
      rw [if_neg (Bool.not_eq_true _ ▸ hspace)]
      split
      · exact .inl ⟨.beginObject, rfl, rfl⟩
      · exact .inl ⟨.endObject, rfl, rfl⟩
      · exact .inl ⟨.beginArray, rfl, rfl⟩
      · exact .inl ⟨.endArray, rfl, rfl⟩
      · exact .inl ⟨.comma, rfl, rfl⟩
      · exact .inl ⟨.colon, rfl, rfl⟩
      · exact .inr (.inl ⟨.scalar .null, _, _, rfl, rfl, by decide, by decide, rfl⟩)
      · exact .inr (.inl ⟨.scalar (.flag true), _, _, rfl, rfl, by decide, by decide, rfl⟩)
      · exact .inr (.inl ⟨.scalar (.flag false), _, _, rfl, rfl, by decide, by decide, rfl⟩)
      · exact .inr (.inr (.inl ⟨rfl, rfl⟩))
      · refine .inr (.inr (.inr (.inl ⟨.sign, rfl, fun rest hrest => ?_⟩)))
        exact isNumeral_cons_iff.mpr (.inl ⟨rfl, hrest⟩)
      · refine .inr (.inr (.inr (.inl ⟨.zero, rfl, fun rest hrest => ?_⟩)))
        exact hnumeral (NumberStage.rest_sign_cons_iff.mpr (.inl ⟨rfl, hrest⟩))
      · cases hdigit : character.isDigit with
        | true =>
            refine .inr (.inr (.inr (.inl ⟨.whole, by simp only [if_true], fun rest hrest => ?_⟩)))
            have hzero : character ≠ '0' := by assumption
            exact hnumeral (NumberStage.rest_sign_cons_iff.mpr (.inr ⟨hzero, hdigit, hrest⟩))
        | false => exact .inr (.inr (.inr (.inr (by simp))))

/-- Where no token is broken, a character that is no blank begins a symbol. -/
theorem exists_symbol {text : List Char} (hspace : isSpace character = false)
    (hwhole : (tokensFrom line .between (character :: text)).IsWhole) :
    ∃ symbol rest, character :: text = Symbol.characters symbol ++ rest ∧
      rest.length < (character :: text).length ∧
      tokensFrom line .between (character :: text) =
        (tokensFrom line .between rest).push (symbol.token line) := by
  have hne : character ≠ '\n' := by
    rintro rfl
    cases hspace
  have hbegun {later : Mode} (hstep : stepBetween line character = ([], later)) :
      tokensFrom line .between (character :: text) = tokensFrom line later text := by
    rw [tokensFrom_of_silent (show Mode.step line character .between = _ from hstep),
      lineAfter_of_ne hne]
  have hshorter {front rest : List Char} (htext : text = front ++ rest) :
      rest.length < (character :: text).length := by
    rw [htext, List.length_cons, List.length_append]
    omega
  rcases stepBetween_cases line character with ⟨hblank, -⟩ | ⟨symbol, hcharacters, hstep⟩ |
    ⟨symbol, lexeme, missing, hcharacters, htoken, hmissing, hlineBreak, hstep⟩ |
    ⟨hquote, hstep⟩ | ⟨stage, hstep, hnumeral⟩ | hstep
  · rw [hspace] at hblank
    cases hblank
  · refine ⟨symbol, text, by rw [hcharacters]; rfl, Nat.lt_succ_self _, ?_⟩
    rw [tokensFrom_of_token (show Mode.step line character .between = _ from hstep),
      lineAfter_of_ne hne]
  · have htokens := hbegun hstep
    obtain ⟨rest, hrest⟩ := exists_of_word hmissing (htokens ▸ hwhole)
    refine ⟨symbol, rest, by rw [hcharacters, hrest]; rfl, hshorter hrest, ?_⟩
    rw [htokens, hrest, tokensFrom_word missing hmissing hlineBreak, htoken]
  · have htokens := hbegun hstep
    obtain ⟨body, rest, hbody, hrest⟩ := exists_body rfl (htokens ▸ hwhole)
    have hclosed : text = (body ++ ['"']) ++ rest := by simp [hrest]
    refine ⟨.scalar (.text ⟨body, hbody⟩), rest, ?_, hshorter hclosed, ?_⟩
    · rw [hquote, hrest, Symbol.characters, Scalar.text_characters_append]
    · rw [htokens, hrest, tokensFrom_body hbody rfl]
      rfl
  · have htokens := hbegun hstep
    obtain ⟨number, rest, hrest, hcomplete, hnumber⟩ := exists_number (htokens ▸ hwhole)
    refine ⟨.scalar (.number ⟨_, hnumeral number hcomplete⟩), rest, by rw [hrest]; rfl,
      hshorter hrest, ?_⟩
    rw [htokens, hnumber, numberToken, List.reverse_append, List.reverse_reverse]
    rfl
  · exact absurd hwhole (not_isWhole_of_broken rfl
      (show Mode.step line character .between = _ from hstep))

/-- **No other rows.**  A text without broken tokens is a row of symbols, and its tokens are those
of the symbols. -/
theorem exists_written {text : List Char} (hwhole : (tokensFrom line .between text).IsWhole) :
    ∃ symbols, Written .strict symbols text ∧
      (tokensFrom line .between text).relabel forgetLine = tokensOfSymbols symbols := by
  induction hlength : text.length using Nat.strong_induction_on generalizing line text with
  | h length ih =>
    subst hlength
    rcases text with - | ⟨character, text⟩
    · exact ⟨[], .ending rfl, rfl⟩
    cases hspace : isSpace character with
    | true =>
        rw [tokensFrom_of_silent (step_space hspace)] at hwhole ⊢
        obtain ⟨symbols, hwritten, hsymbols⟩ := ih text.length (Nat.lt_succ_self _) hwhole rfl
        exact ⟨symbols, .cons_gap (IsStrictGap.space hspace) hwritten, hsymbols⟩
    | false =>
        obtain ⟨symbol, rest, htext, hshorter, htokens⟩ := exists_symbol hspace hwhole
        rw [htokens, TokenList.isWhole_push] at hwhole
        obtain ⟨symbols, hwritten, hsymbols⟩ := ih rest.length hshorter hwhole.2 rfl
        refine ⟨symbol :: symbols, htext ▸ .symbol rfl hwritten, ?_⟩
        rw [htokens, TokenList.relabel_push, hsymbols, symbol.token_relabel]
        rfl

end Dealias.Json
