import Mathlib.Data.Nat.Init
import Dealias.Proofs.Json.Numbers

/-!
# Reading one token

What is read as a number, as a text or as a word, from where the machine stands within it.  Each
kind has two lemmas: what completes the token is read as such, whatever comes behind it, and where
no token is broken the token is completed.

* `tokensFrom_number`, `exists_number`: numbers, which end before a character that cannot go on.
* `tokensFrom_body`, `exists_body`: texts, which end with their quote.
* `tokensFrom_word`, `exists_of_word`: words.
-/

namespace Dealias.Json

variable {line : Nat} {character : Char} {rest : List Char}

/-! ## Lists of tokens -/

/-- Whether a token is broken. -/
def Token.isBroken (token : Token) : Bool :=
  match token.lexeme with
  | .brokenText _ | .broken _ => true
  | _ => false

namespace TokenList

/-- Tokens with one more in front. -/
def push (token : Token) (list : TokenList) : TokenList where
  tokens := token :: list.tokens
  lastLine := list.lastLine

/-- Whether no token is broken. -/
def IsWhole (list : TokenList) : Prop :=
  ∀ token ∈ list.tokens, token.isBroken = false

theorem isWhole_push {token : Token} {list : TokenList} :
    (list.push token).IsWhole ↔ token.isBroken = false ∧ list.IsWhole :=
  List.forall_mem_cons

end TokenList

section

variable {mode later : Mode}

theorem tokensFrom_of_silent (hstep : mode.step line character = ([], later)) :
    tokensFrom line mode (character :: rest) =
      tokensFrom (lineAfter line character) later rest := by
  rw [tokensFrom, hstep]
  rfl

theorem tokensFrom_of_token {token : Token} (hstep : mode.step line character = ([token], later)) :
    tokensFrom line mode (character :: rest) =
      (tokensFrom (lineAfter line character) later rest).push token := by
  rw [tokensFrom, hstep]
  rfl

/-- A broken token is not whole. -/
theorem not_isWhole_of_broken {token : Token} (hbroken : token.isBroken = true)
    (hstep : mode.step line character = ([token], later)) :
    ¬ (tokensFrom line mode (character :: rest)).IsWhole := by
  rw [tokensFrom_of_token hstep, TokenList.isWhole_push]
  simp [hbroken]

end

theorem lineAfter_of_ne (hcharacter : character ≠ '\n') : lineAfter line character = line :=
  if_neg hcharacter

/-! ## Reading numbers -/

/-- Whether a number cannot end before a character. -/
def continuesNumber (character : Char) : Bool :=
  character.isDigit || character == '.' || character == 'e' || character == 'E'

theorem NumberStage.next?_of_isFinal {stage : NumberStage} (hfinal : stage.isFinal = true)
    (hcharacter : continuesNumber character = false) : stage.next? character = none := by
  simp only [continuesNumber, Bool.or_eq_false_iff] at hcharacter
  obtain ⟨⟨⟨hdigit, hdot⟩, hlower⟩, hupper⟩ := hcharacter
  have hne : character ≠ '.' := by simpa using hdot
  cases stage with
  | zero | whole | fraction | exponent => simp [next?, hdigit, hne, hlower, hupper]
  | sign | point | mark | markSign => cases hfinal

/-- A character that goes on with a number. -/
theorem tokensFrom_number_cons {stage next : NumberStage} {characters text : List Char}
    (hnext : stage.next? character = some next) :
    tokensFrom line (.number characters stage) (character :: text) =
      tokensFrom line (.number (character :: characters) next) text := by
  have hstep : (Mode.number characters stage).step line character =
      ([], .number (character :: characters) next) := by
    simp only [Mode.step, stepNumber, hnext]
  rw [tokensFrom_of_silent hstep, lineAfter_of_ne (NumberStage.ne_lineBreak hnext)]

/-- A number that is complete ends before a character that cannot go on with it. -/
theorem tokensFrom_number_end {stage : NumberStage} (hfinal : stage.isFinal = true)
    {characters text : List Char}
    (hend : ∀ next ∈ text.head?, stage.next? next = none ∧ next.isDigit = false) :
    tokensFrom line (.number characters stage) text =
      (tokensFrom line .between text).push (numberToken line characters) := by
  cases text with
  | nil =>
      simp only [tokensFrom, Mode.finish, hfinal]
      rfl
  | cons character text =>
      obtain ⟨hnext, hdigit⟩ := hend character rfl
      simp only [tokensFrom, Mode.step, stepNumber, hnext, hfinal, hdigit]
      rfl

theorem tokensFrom_number {stage : NumberStage} {characters number rest : List Char}
    (hnumber : stage.Rest number)
    (hend : ∀ next ∈ rest.head?, continuesNumber next = false) :
    tokensFrom line (.number characters stage) (number ++ rest) =
      (tokensFrom line .between rest).push (numberToken line (number.reverse ++ characters)) := by
  induction number generalizing stage characters with
  | nil =>
      have hfinal := NumberStage.rest_nil_iff.mp hnumber
      refine tokensFrom_number_end hfinal fun next hnext => ?_
      have hcontinues := hend next hnext
      refine ⟨NumberStage.next?_of_isFinal hfinal hcontinues, ?_⟩
      simp only [continuesNumber, Bool.or_eq_false_iff] at hcontinues
      exact hcontinues.1.1.1
  | cons character number ih =>
      obtain ⟨next, hnext, hnumber⟩ := NumberStage.rest_cons_iff.mp hnumber
      rw [List.cons_append, tokensFrom_number_cons hnext, ih hnumber, List.reverse_cons,
        List.append_assoc]
      rfl

/-- A number that is read without fault is complete somewhere. -/
theorem exists_number {stage : NumberStage} {characters text : List Char}
    (hwhole : (tokensFrom line (.number characters stage) text).IsWhole) :
    ∃ number rest, text = number ++ rest ∧ stage.Rest number ∧
      tokensFrom line (.number characters stage) text =
        (tokensFrom line .between rest).push
          (numberToken line (number.reverse ++ characters)) := by
  induction text generalizing stage characters with
  | nil =>
      cases hfinal : stage.isFinal with
      | true =>
          have hrest := NumberStage.rest_nil_iff.mpr hfinal
          exact ⟨[], [], rfl, hrest, tokensFrom_number_end hfinal nofun⟩
      | false =>
          simp only [tokensFrom, Mode.finish, hfinal] at hwhole
          exact absurd (hwhole _ (List.mem_singleton_self _)) nofun
  | cons character text ih =>
      cases hnext : stage.next? character with
      | some next =>
          rw [tokensFrom_number_cons hnext] at hwhole ⊢
          obtain ⟨number, rest, rfl, hnumber, htokens⟩ := ih hwhole
          refine ⟨character :: number, rest, rfl,
            NumberStage.rest_cons_iff.mpr ⟨next, hnext, hnumber⟩, ?_⟩
          rw [htokens, List.reverse_cons, List.append_assoc]
          rfl
      | none =>
          by_cases hend : stage.isFinal = true ∧ character.isDigit = false
          · refine ⟨[], character :: text, rfl, NumberStage.rest_nil_iff.mpr hend.1,
              tokensFrom_number_end hend.1 fun next hmem => ?_⟩
            obtain rfl : character = next := Option.some.inj hmem
            exact ⟨hnext, hend.2⟩
          · have hcondition : (stage.isFinal && !character.isDigit) = false := by
              simpa using hend
            have hstep : (Mode.number characters stage).step line character =
                ([brokenToken line ⟨.malformed, lineAfter line character⟩], .halted) := by
              simp only [Mode.step, stepNumber, hnext, hcondition]
              rfl
            exact absurd hwhole (not_isWhole_of_broken rfl hstep)

/-! ## Single characters of a text -/

/-- One more digit of an escape's number, unless a character was none. -/
def pushDigit (number : Option Nat) (digit : Char) : Option Nat :=
  number.bind fun high => (hexDigit? digit).map fun low => high * 16 + low

theorem isSome_pushDigit {number : Option Nat}
    (hsome : (pushDigit number character).isSome = true) :
    number.isSome = true ∧ IsHexDigit character := by
  cases number with
  | none => cases hsome
  | some high => exact ⟨rfl, isHexDigit_of_isSome (by simpa [pushDigit] using hsome)⟩

section

variable {state : TextState} {bytes : Nat} {number : Option Nat}

theorem step_quote (hstate : state.escape = .outside) :
    (Mode.text state).step line '"' = ([(state.settleSurrogate line).close], .between) := by
  simp only [Mode.step, stepText, hstate, stepPlain, if_true]

theorem step_backslash (hstate : state.escape = .outside) :
    (Mode.text state).step line '\\' = ([], .text { state with escape := .started }) := by
  simp [Mode.step, stepText, hstate, stepPlain]

theorem step_plain (hstate : state.escape = .outside) (hquote : character ≠ '"')
    (hbackslash : character ≠ '\\') (hplain : 0x20 ≤ character.toNat) :
    (Mode.text state).step line character =
      ([], .text ((state.settleSurrogate line).push character)) := by
  simp only [Mode.step, stepText, hstate, stepPlain, hquote, hbackslash, Nat.not_lt.mpr hplain,
    if_false]

theorem step_control (hstate : state.escape = .outside) (hquote : character ≠ '"')
    (hbackslash : character ≠ '\\') (hcontrol : character.toNat < 0x20) :
    (Mode.text state).step line character =
      ([state.breakOff ⟨.malformed, lineAfter line character⟩ ⟨.malformed, line⟩], .halted) := by
  simp only [Mode.step, stepText, hstate, stepPlain, hquote, hbackslash, hcontrol, if_true,
    if_false]

theorem step_startCode (hstate : state.escape = .started) :
    (Mode.text state).step line 'u' =
      ([], .text { state with escape := .digits 0 (some 0) }) := by
  simp only [Mode.step, stepText, hstate, stepEscape, if_true]

theorem step_shortEscape (hstate : state.escape = .started) {escaped : Char}
    (hescaped : shortEscape? character = some escaped) :
    (Mode.text state).step line character =
      ([], .text ({ state.settleSurrogate line with escape := .outside }.push escaped)) := by
  have hcode : character ≠ 'u' := by
    intro hcode
    subst hcode
    cases hescaped
  simp only [Mode.step, stepText, hstate, stepEscape, hcode, hescaped, if_false]

theorem step_noEscape (hstate : state.escape = .started) (hcode : character ≠ 'u')
    (hescaped : shortEscape? character = none) :
    (Mode.text state).step line character =
      ([state.breakOff ⟨.malformed, lineAfter line character⟩
        ⟨.malformed, lineAfter line character⟩], .halted) := by
  simp only [Mode.step, stepText, hstate, stepEscape, hcode, hescaped, if_false]

theorem step_digit (hstate : state.escape = .digits bytes number)
    (hmore : bytes + character.utf8Size < 4) :
    (Mode.text state).step line character = ([], .text { state with
      escape := .digits (bytes + character.utf8Size) (pushDigit number character) }) := by
  simp only [Mode.step, stepText, hstate, stepDigits, hmore, if_true]
  rfl

theorem step_lastDigit (hstate : state.escape = .digits bytes number)
    (hlast : ¬ bytes + character.utf8Size < 4) {code : Nat}
    (hcode : pushDigit number character = some code) :
    (Mode.text state).step line character = ([], .text (state.pushCode line code)) := by
  unfold pushDigit at hcode
  simp only [Mode.step, stepText, hstate, stepDigits, hlast, if_false, hcode]

theorem step_noDigit (hstate : state.escape = .digits bytes number)
    (hlast : ¬ bytes + character.utf8Size < 4) (hcode : pushDigit number character = none) :
    (Mode.text state).step line character =
      ([state.breakOff ⟨.malformed, lineAfter line character⟩
        ⟨.malformed, lineAfter line character⟩], .halted) := by
  unfold pushDigit at hcode
  simp only [Mode.step, stepText, hstate, stepDigits, hlast, if_false, hcode]

end

/-! ## Reading texts -/

/-- The state behind a character of a text. -/
def TextState.read (line : Nat) (state : TextState) (character : Char) : TextState :=
  match (stepText state line character).2 with
  | .text later => later
  | _ => state

theorem TextState.read_eq {state later : TextState}
    (hstep : (Mode.text state).step line character = ([], .text later)) :
    state.read line character = later := by
  have htext : stepText state line character = ([], .text later) := hstep
  rw [TextState.read, htext]

theorem tokensFrom_read {state later : TextState} (line : Nat) (rest : List Char)
    (hne : character ≠ '\n')
    (hstep : (Mode.text state).step line character = ([], .text later)) :
    tokensFrom line (.text state) (character :: rest) =
        tokensFrom line (.text (state.read line character)) rest ∧
      state.read line character = later := by
  have hread : state.read line character = later := TextState.read_eq hstep
  rw [tokensFrom_of_silent hstep, lineAfter_of_ne hne, hread]
  exact ⟨rfl, rfl⟩

@[simp]
theorem TextState.escape_settleSurrogate (state : TextState) :
    (state.settleSurrogate line).escape = state.escape := by
  unfold settleSurrogate
  split <;> rfl

@[simp]
theorem TextState.escape_pushCode (state : TextState) (code : Nat) :
    (state.pushCode line code).escape = .outside := by
  unfold pushCode
  cases state.surrogate with
  | none =>
      dsimp only
      split
      · rfl
      · split <;> rfl
  | some leading =>
      dsimp only
      split <;> rfl

theorem shortEscape?_isSome_iff : (shortEscape? character).isSome = true ↔
    character ∈ ['"', '\\', '/', 'b', 'f', 'n', 'r', 't'] := by
  constructor
  · intro hsome
    unfold shortEscape? at hsome
    split at hsome
    case h_9 => cases hsome
    all_goals simp
  · intro hmem
    simp only [List.mem_cons, List.not_mem_nil, or_false] at hmem
    rcases hmem with rfl | rfl | rfl | rfl | rfl | rfl | rfl | rfl <;> rfl

theorem IsHexDigit.utf8Size_eq (hdigit : IsHexDigit character) : character.utf8Size = 1 := by
  have hsmall : character.toNat ≤ 'f'.toNat := by
    rcases hdigit with hdigit | ⟨-, hle⟩ | ⟨-, hle⟩
    · simp only [Char.isDigit, Bool.and_eq_true, decide_eq_true_eq] at hdigit
      exact Nat.le_trans (UInt32.le_iff_toNat_le.mp hdigit.2) (by decide)
    · exact UInt32.le_iff_toNat_le.mp hle
    · exact Nat.le_trans (UInt32.le_iff_toNat_le.mp hle) (by decide)
  rw [Char.utf8Size_eq_one_iff]
  exact UInt32.le_iff_toNat_le.mpr (Nat.le_trans hsmall (by decide))

theorem IsHexDigit.ne_lineBreak (hdigit : IsHexDigit character) : character ≠ '\n' := by
  rintro rfl
  exact absurd hdigit.isSome_hexDigit? (by decide)

/-- A digit of an escape's number, which goes on behind it unless it was the last one. -/
theorem tokensFrom_digit {state : TextState} {bytes number : Nat} (line : Nat) (rest : List Char)
    (hdigit : IsHexDigit character)
    (hescape : state.escape = .digits bytes (some number)) :
    tokensFrom line (.text state) (character :: rest) =
        tokensFrom line (.text (state.read line character)) rest ∧
      ∃ code, (state.read line character).escape =
        if bytes + 1 < 4 then .digits (bytes + 1) (some code) else .outside := by
  obtain ⟨low, hlow⟩ := Option.isSome_iff_exists.mp hdigit.isSome_hexDigit?
  have hcode : pushDigit (some number) character = some (number * 16 + low) := by
    rw [pushDigit, hlow]
    rfl
  have hsize := hdigit.utf8Size_eq
  by_cases hmore : bytes + character.utf8Size < 4
  · obtain ⟨htokens, hread⟩ :=
      tokensFrom_read line rest hdigit.ne_lineBreak (step_digit hescape hmore)
    refine ⟨htokens, number * 16 + low, ?_⟩
    rw [hread, hcode, hsize, if_pos (hsize ▸ hmore)]
  · obtain ⟨htokens, hread⟩ :=
      tokensFrom_read line rest hdigit.ne_lineBreak (step_lastDigit hescape hmore hcode)
    refine ⟨htokens, number * 16 + low, ?_⟩
    rw [hread, if_neg (hsize ▸ hmore), state.escape_pushCode]

/-- The state behind the body of a text. -/
theorem tokensFrom_body {body : List Char} (hbody : IsBody body) {state : TextState}
    (hstate : state.escape = .outside) :
    tokensFrom line (.text state) (body ++ '"' :: rest) =
      (tokensFrom line .between rest).push
        ((body.foldl (TextState.read line) state).settleSurrogate line).close := by
  induction hbody generalizing state with
  | nil => exact tokensFrom_of_token (step_quote hstate)
  | @plain character body hquote hbackslash hplain hbody ih =>
      have hne : character ≠ '\n' := by
        rintro rfl
        exact absurd hplain (by decide)
      obtain ⟨htokens, hread⟩ := tokensFrom_read line (body ++ '"' :: rest) hne
        (step_plain hstate hquote hbackslash hplain)
      rw [List.cons_append, htokens, List.foldl_cons]
      refine ih ?_
      rw [hread]
      simpa [TextState.push] using hstate
  | @escape character body hescape hbody ih =>
      obtain ⟨escaped, hescaped⟩ :=
        Option.isSome_iff_exists.mp (shortEscape?_isSome_iff.mpr hescape)
      have hne : character ≠ '\n' := by
        rintro rfl
        cases hescaped
      obtain ⟨hstart, hstarted⟩ := tokensFrom_read line (character :: (body ++ '"' :: rest))
        (by decide) (step_backslash hstate)
      obtain ⟨htokens, hread⟩ := tokensFrom_read line (body ++ '"' :: rest) hne
        (step_shortEscape (congrArg TextState.escape hstarted) hescaped)
      rw [List.cons_append, List.cons_append, hstart, htokens, List.foldl_cons, List.foldl_cons]
      refine ih ?_
      rw [hread]
      rfl
  | @code first second third fourth body hfirst hsecond hthird hfourth hbody ih =>
      obtain ⟨hstart, hstarted⟩ := tokensFrom_read line ('u' :: first :: second :: third ::
        fourth :: (body ++ '"' :: rest)) (by decide) (step_backslash hstate)
      obtain ⟨hcode, hnumber⟩ := tokensFrom_read line (first :: second :: third ::
        fourth :: (body ++ '"' :: rest)) (by decide)
        (step_startCode (congrArg TextState.escape hstarted))
      -- the four digits, one after the other
      obtain ⟨hone, _, hnumber⟩ := tokensFrom_digit line
        (second :: third :: fourth :: (body ++ '"' :: rest)) hfirst
        (congrArg TextState.escape hnumber)
      obtain ⟨htwo, _, hnumber⟩ := tokensFrom_digit line
        (third :: fourth :: (body ++ '"' :: rest)) hsecond hnumber
      obtain ⟨hthree, _, hnumber⟩ := tokensFrom_digit line
        (fourth :: (body ++ '"' :: rest)) hthird hnumber
      obtain ⟨hfour, _, houtside⟩ := tokensFrom_digit line
        (body ++ '"' :: rest) hfourth hnumber
      simp only [List.cons_append, hstart, hcode, hone, htwo, hthree, hfour, List.foldl_cons]
      exact ih houtside

/-- The digits of an escape's number are all there, where nothing breaks. -/
theorem exists_digits {state : TextState} {bytes : Nat} {number : Option Nat} {text : List Char}
    (hescape : state.escape = .digits bytes number) (hbytes : bytes < 4)
    (hwhole : (tokensFrom line (.text state) text).IsWhole) :
    number.isSome = true ∧ ∃ digits rest later line', text = digits ++ rest ∧
      digits.length = 4 - bytes ∧ (∀ digit ∈ digits, IsHexDigit digit) ∧
      later.escape = .outside ∧ (tokensFrom line' (.text later) rest).IsWhole := by
  induction text generalizing line state bytes number with
  | nil => exact absurd (hwhole _ (List.mem_singleton_self _)) nofun
  | cons character text ih =>
      by_cases hmore : bytes + character.utf8Size < 4
      · rw [tokensFrom_of_silent (step_digit hescape hmore)] at hwhole
        obtain ⟨hnext, digits, rest, later, line', rfl, hlength, hdigits, hlater⟩ :=
          ih rfl hmore hwhole
        obtain ⟨hnumber, hdigit⟩ := isSome_pushDigit hnext
        refine ⟨hnumber, character :: digits, rest, later, line', rfl, ?_,
          List.forall_mem_cons.mpr ⟨hdigit, hdigits⟩, hlater⟩
        rw [hdigit.utf8Size_eq] at hmore hlength
        rw [List.length_cons, hlength]
        omega
      · cases hcode : pushDigit number character with
        | none => exact absurd hwhole (not_isWhole_of_broken rfl (step_noDigit hescape hmore hcode))
        | some code =>
            rw [tokensFrom_of_silent (step_lastDigit hescape hmore hcode)] at hwhole
            obtain ⟨hnumber, hdigit⟩ := isSome_pushDigit (Option.isSome_iff_exists.mpr ⟨_, hcode⟩)
            rw [hdigit.utf8Size_eq] at hmore
            refine ⟨hnumber, [character], text, _, _, rfl, ?_, by simpa using hdigit,
              state.escape_pushCode _, hwhole⟩
            rw [List.length_singleton]
            omega

/-- A text that is read without fault has an end. -/
theorem exists_body {state : TextState} {text : List Char} (hstate : state.escape = .outside)
    (hwhole : (tokensFrom line (.text state) text).IsWhole) :
    ∃ body rest, IsBody body ∧ text = body ++ '"' :: rest := by
  -- an escape takes several characters, so the text behind it is not just the tail
  induction hlength : text.length using Nat.strong_induction_on generalizing line state text with
  | h length ih =>
    subst hlength
    rcases text with - | ⟨character, text⟩
    · exact absurd (hwhole _ (List.mem_singleton_self _)) nofun
    by_cases hquote : character = '"'
    · subst hquote
      exact ⟨[], text, .nil, rfl⟩
    by_cases hbackslash : character = '\\'
    · subst hbackslash
      rw [tokensFrom_of_silent (step_backslash hstate)] at hwhole
      rcases text with - | ⟨escaped, text⟩
      · exact absurd (hwhole _ (List.mem_singleton_self _)) nofun
      by_cases hcode : escaped = 'u'
      · subst hcode
        rw [tokensFrom_of_silent (step_startCode rfl)] at hwhole
        obtain ⟨-, digits, rest, later, line', rfl, hdigits, hhex, hlater, hbehind⟩ :=
          exists_digits rfl (by decide) hwhole
        obtain ⟨first, second, third, fourth, rfl⟩ := List.length_eq_four.mp hdigits
        simp only [List.forall_mem_cons, List.not_mem_nil] at hhex
        obtain ⟨body, rest, hbody, rfl⟩ := ih rest.length (by simp; omega) hlater hbehind rfl
        exact ⟨_, rest, .code hhex.1 hhex.2.1 hhex.2.2.1 hhex.2.2.2.1 hbody, rfl⟩
      cases hescaped : shortEscape? escaped with
      | none => exact absurd hwhole (not_isWhole_of_broken rfl (step_noEscape rfl hcode hescaped))
      | some character =>
          rw [tokensFrom_of_silent (step_shortEscape rfl hescaped)] at hwhole
          have hshorter : text.length < ('\\' :: escaped :: text).length := by
            simp only [List.length_cons]
            omega
          obtain ⟨body, rest, hbody, rfl⟩ := ih text.length hshorter rfl hwhole rfl
          have hmem := shortEscape?_isSome_iff.mp (Option.isSome_iff_exists.mpr ⟨_, hescaped⟩)
          exact ⟨_, rest, .escape hmem hbody, rfl⟩
    by_cases hcontrol : character.toNat < 0x20
    · exact absurd hwhole
        (not_isWhole_of_broken rfl (step_control hstate hquote hbackslash hcontrol))
    · have hplain := Nat.le_of_not_lt hcontrol
      rw [tokensFrom_of_silent (step_plain hstate hquote hbackslash hplain)] at hwhole
      have hlater : ((state.settleSurrogate line).push character).escape = .outside := by
        simpa [TextState.push] using hstate
      obtain ⟨body, rest, hbody, rfl⟩ := ih text.length (Nat.lt_succ_self _) hlater hwhole rfl
      exact ⟨_, rest, .plain hquote hbackslash hplain hbody, rfl⟩

/-! ## Reading words -/

theorem tokensFrom_word {lexeme : Lexeme} (missing : List Char) (hmissing : missing ≠ [])
    (hline : '\n' ∉ missing) :
    tokensFrom line (.word lexeme missing) (missing ++ rest) =
      (tokensFrom line .between rest).push ⟨line, lexeme⟩ := by
  induction missing with
  | nil => exact absurd rfl hmissing
  | cons expected missing ih =>
      obtain ⟨hne, hline⟩ := not_or.mp (List.mem_cons.not.mp hline)
      rcases missing with - | ⟨next, missing⟩
      · have hstep : (Mode.word lexeme [expected]).step line expected =
            ([⟨line, lexeme⟩], .between) := by
          simp only [Mode.step, stepWord, if_true]
        rw [List.cons_append, tokensFrom_of_token hstep, lineAfter_of_ne (Ne.symm hne)]
        rfl
      · have hstep : (Mode.word lexeme (expected :: next :: missing)).step line expected =
            ([], .word lexeme (next :: missing)) := by
          simp only [Mode.step, stepWord, if_true]
        rw [List.cons_append, tokensFrom_of_silent hstep, lineAfter_of_ne (Ne.symm hne)]
        exact ih (List.cons_ne_nil _ _) hline

/-- A word that is read without fault is complete. -/
theorem exists_of_word {lexeme : Lexeme} {missing text : List Char} (hmissing : missing ≠ [])
    (hwhole : (tokensFrom line (.word lexeme missing) text).IsWhole) :
    ∃ rest, text = missing ++ rest := by
  induction text generalizing line missing with
  | nil => exact absurd (hwhole _ (List.mem_singleton_self _)) nofun
  | cons character text ih =>
      obtain ⟨expected, missing, rfl⟩ := List.exists_cons_of_ne_nil hmissing
      by_cases hexpected : character = expected
      · subst hexpected
        rcases missing with - | ⟨next, missing⟩
        · exact ⟨text, rfl⟩
        · have hstep : (Mode.word lexeme (character :: next :: missing)).step line character =
              ([], .word lexeme (next :: missing)) := by
            simp only [Mode.step, stepWord, if_true]
          rw [tokensFrom_of_silent hstep] at hwhole
          obtain ⟨rest, rfl⟩ := ih (List.cons_ne_nil _ _) hwhole
          exact ⟨rest, rfl⟩
      · have hstep : (Mode.word lexeme (expected :: missing)).step line character =
            ([brokenToken line ⟨.malformed, lineAfter line character⟩], .halted) := by
          simp only [Mode.step, stepWord, hexpected, if_false]
        exact absurd hwhole (not_isWhole_of_broken rfl hstep)

end Dealias.Json
