import Mathlib.Data.List.DropRight
import Dealias.Settings.Value

/-!
# What the text of a variable denotes

The values of variables as a grammar, apart from the reader that goes through them with its fuel.  A
value is a plain text, or something closed with blanks around it: a word, a text in quotes, a
character in quotes, or items between brackets.  The reader takes just what is written by the
grammar, so a text stands for what it denotes, and for itself if it denotes nothing.

* `SettingValue.betweenQuotes?_eq_some_iff`, `SettingValue.afterAssignment?_append`: quotes and keys.
* `SettingValue.Written.isRead`, `SettingValue.sound`: the reader is complete and sound.
* `SettingValue.ofText_of_denotes`, `SettingValue.ofText_of_not_denotes`: texts of variables.
-/

namespace Dealias.SettingValue

/-! ## The grammar -/

/-- Whether a text is nothing but blanks that values may have around them. -/
def AllBlank (text : List Char) : Prop :=
  ∀ character ∈ text, isAsciiBlank character = true

/-- What stands between quotes.  A backslash takes the next character with it. -/
inductive IsQuotedBody : List Char → Prop
  | nil : IsQuotedBody []
  | pair {character : Char} {rest : List Char} : IsQuotedBody rest →
      IsQuotedBody ('\\' :: character :: rest)
  | other {character : Char} {rest : List Char} : character ≠ '"' → character ≠ '\\' →
      IsQuotedBody rest → IsQuotedBody (character :: rest)

/-- A key of a dictionary. -/
inductive IsKey : List Char → Prop
  | bare {text : List Char} : text ≠ [] → (∀ character ∈ text, isKeyCharacter character = true) →
      IsKey text
  | quoted {body meant : List Char} : IsQuotedBody body → meaning? body = some meant →
      IsKey ('"' :: (body ++ ['"']))

/-- A key with its equals sign. -/
def IsAssignment (text : List Char) : Prop :=
  ∃ lead key trail, text = lead ++ (key ++ (trail ++ ['='])) ∧ AllBlank lead ∧ IsKey key ∧
    AllBlank trail

/-- What stands before the value of an item: nothing in a list, its key in a dictionary. -/
def IsItemKey : (isDictionary : Bool) → List Char → Prop
  | false, key => key = []
  | true, key => IsAssignment key

/-- Whether a text does not begin as the values do that are not plain. -/
def StartsPlain (text : List Char) : Prop :=
  ∀ lead ∈ ["true", "false", "\x7b", "[", "\"", "'"], ¬ lead.toList <+: text

/-- A value that is not closed. -/
structure IsPlain (text : List Char) : Prop where
  noSeparator : ∀ character ∈ text, isSeparator character = false
  startsPlain : StartsPlain (skipBlanks text)

/-- The bracket before items. -/
def opening (isDictionary : Bool) : Char := if isDictionary then '\x7b' else '['

/-- The bracket behind items. -/
def closing (isDictionary : Bool) : Char := if isDictionary then '\x7d' else ']'

/-- The value that items make. -/
def collection (isDictionary : Bool) : SettingValue := if isDictionary then dictionary else list

/-- What is written: a value, a value without the blanks around it, or the items between brackets. -/
inductive Part where
  | value (value : SettingValue)
  | closed (value : SettingValue)
  | items (isDictionary : Bool)

/-- How values are written. -/
inductive Written : Part → List Char → Prop
  | plain {text : List Char} : IsPlain text → Written (.value (ofPlain (trimBlanks text))) text
  | spaced {lead core trail : List Char} {value : SettingValue} : AllBlank lead → AllBlank trail →
      Written (.closed value) core → Written (.value value) (lead ++ (core ++ trail))
  | yes : Written (.closed (.flag true)) ['t', 'r', 'u', 'e']
  | no : Written (.closed (.flag false)) ['f', 'a', 'l', 's', 'e']
  | quoted {body meant : List Char} : IsQuotedBody body → meaning? body = some meant →
      Written (.closed (.text (String.ofList meant))) ('"' :: (body ++ ['"']))
  | character (character : Char) :
      Written (.closed (.text (String.ofList [character]))) ['\'', character, '\'']
  | bracketed {isDictionary : Bool} {items : List Char} : Written (.items isDictionary) items →
      Written (.closed (collection isDictionary))
        (opening isDictionary :: (items ++ [closing isDictionary]))
  | noItems (isDictionary : Bool) : Written (.items isDictionary) []
  | lastItem {isDictionary : Bool} {key text : List Char} {value : SettingValue} :
      IsItemKey isDictionary key → Written (.value value) text →
      Written (.items isDictionary) (key ++ text)
  | moreItems {isDictionary : Bool} {key text rest : List Char} {value : SettingValue} :
      IsItemKey isDictionary key → Written (.value value) text →
      Written (.items isDictionary) rest →
      Written (.items isDictionary) (key ++ (text ++ (',' :: rest)))

/-- Whether a text as a whole is a value. -/
def Denotes (text : List Char) (value : SettingValue) : Prop :=
  Written (.value value) text

/-! ## Blanks -/

theorem skipBlanks_append {lead : List Char} (hlead : AllBlank lead) (text : List Char) :
    skipBlanks (lead ++ text) = skipBlanks text :=
  List.dropWhile_append_of_pos hlead

theorem skipBlanks_cons {character : Char} (hcharacter : isAsciiBlank character = false)
    (text : List Char) : skipBlanks (character :: text) = character :: text :=
  List.dropWhile_cons_of_neg (Bool.eq_false_iff.mp hcharacter)

/-- Blanks are skipped once and for all. -/
theorem skipBlanks_skipBlanks (text : List Char) : skipBlanks (skipBlanks text) = skipBlanks text :=
  List.dropWhile_idempotent _ _

theorem skipBlanks_eq_self {text : List Char}
    (hfirst : ∀ character ∈ text.head?, isAsciiBlank character = false) :
    skipBlanks text = text := by
  cases text with
  | nil => rfl
  | cons character rest => exact skipBlanks_cons (hfirst character rfl) rest

/-- What is dropped is not left at the front. -/
theorem of_mem_head?_dropWhile {dropped : Char → Bool} {text : List Char} :
    ∀ character ∈ (text.dropWhile dropped).head?, dropped character = false := by
  intro character hcharacter
  have hfirst := List.head?_dropWhile_not dropped text
  rw [Option.mem_def.mp hcharacter] at hfirst
  exact hfirst

/-- What is kept is taken up to the first character that is not. -/
theorem takeWhile_dropWhile_append {kept : Char → Bool} {front rest : List Char}
    (hfront : ∀ character ∈ front, kept character = true)
    (hrest : ∀ character ∈ rest.head?, kept character = false) :
    (front ++ rest).takeWhile kept = front ∧ (front ++ rest).dropWhile kept = rest := by
  rw [List.takeWhile_append_of_pos hfront, List.dropWhile_append_of_pos hfront]
  cases rest with
  | nil => simp
  | cons character rest => simp [hrest character rfl]

theorem exists_skipBlanks (text : List Char) :
    ∃ lead, AllBlank lead ∧ text = lead ++ skipBlanks text :=
  ⟨text.takeWhile isAsciiBlank, fun _ hcharacter => List.mem_takeWhile_imp hcharacter,
    List.takeWhile_append_dropWhile.symm⟩

/-- What holds of each blank. -/
theorem forall_isAsciiBlank {property : Char → Prop}
    (hblanks : property ' ' ∧ property '\t' ∧ property '\n' ∧ property '\x0c' ∧ property '\r') :
    ∀ character, isAsciiBlank character = true → property character := by
  obtain ⟨hspace, htab, hline, hpage, hreturn⟩ := hblanks
  intro character hblank
  have hcode : character = Char.ofNat character.toNat := (Char.ofNat_toNat character).symm
  simp only [isAsciiBlank, List.contains_eq_mem, List.mem_cons, List.not_mem_nil, or_false,
    decide_eq_true_eq] at hblank
  rcases hblank with hblank | hblank | hblank | hblank | hblank <;> rw [hcode, hblank]
  · exact hspace
  · exact htab
  · exact hline
  · exact hpage
  · exact hreturn

theorem isBlank_of_isAsciiBlank :
    ∀ character, isAsciiBlank character = true → isBlank character = true :=
  forall_isAsciiBlank (by decide)

theorem isSeparator_of_isAsciiBlank :
    ∀ character, isAsciiBlank character = true → isSeparator character = false :=
  forall_isAsciiBlank (by decide)

/-- Trimming removes all that skipping does. -/
theorem trimBlanks_skipBlanks (text : List Char) : trimBlanks (skipBlanks text) = trimBlanks text := by
  obtain ⟨lead, hlead, htext⟩ := exists_skipBlanks text
  have hdrop : text.dropWhile isBlank = (skipBlanks text).dropWhile isBlank := by
    conv_lhs => rw [htext]
    exact List.dropWhile_append_of_pos fun character hcharacter =>
      isBlank_of_isAsciiBlank character (hlead character hcharacter)
  rw [trimBlanks, trimBlanks, hdrop]

/-! ## Quotes and keys -/

theorem IsQuotedBody.betweenQuotes?_append {body : List Char} (hbody : IsQuotedBody body)
    (rest : List Char) : betweenQuotes? (body ++ '"' :: rest) = some (body, rest) := by
  induction hbody with
  | nil => rfl
  | pair hbody ih => simp [betweenQuotes?, ih]
  | @other character body hquote hbackslash hbody ih =>
      rw [List.cons_append, betweenQuotes?, ih]
      · rfl
      · simpa using hquote
      · intro next later hslash
        exact absurd hslash hbackslash

theorem betweenQuotes?_eq_some_iff {text body rest : List Char} :
    betweenQuotes? text = some (body, rest) ↔ IsQuotedBody body ∧ text = body ++ '"' :: rest := by
  constructor
  · intro hread
    fun_induction betweenQuotes? text generalizing body with
    | case1 => cases hread
    | case2 rest =>
        cases hread
        exact ⟨.nil, rfl⟩
    | case3 character later ih =>
        obtain ⟨⟨found, behind⟩, hfound, hread⟩ := Option.map_eq_some_iff.mp hread
        cases hread
        obtain ⟨hbody, hlater⟩ := ih hfound
        exact ⟨.pair hbody, by rw [hlater]; rfl⟩
    | case4 character later hquote hbackslash ih =>
        obtain ⟨⟨found, behind⟩, hfound, hread⟩ := Option.map_eq_some_iff.mp hread
        cases hread
        obtain ⟨hbody, hlater⟩ := ih hfound
        refine ⟨.other hquote ?_ hbody, by rw [hlater]; rfl⟩
        -- a last backslash would leave no room for the closing quote
        rintro rfl
        cases later with
        | nil => cases hfound
        | cons next later => exact hbackslash next later rfl rfl
  · rintro ⟨hbody, rfl⟩
    exact hbody.betweenQuotes?_append rest

theorem quoted?_eq_some_iff {text meant rest : List Char} :
    quoted? text = some (meant, rest) ↔
      ∃ body, IsQuotedBody body ∧ meaning? body = some meant ∧ text = body ++ '"' :: rest := by
  unfold quoted?
  constructor
  · intro hread
    obtain ⟨⟨body, behind⟩, hbody, hread⟩ := Option.bind_eq_some_iff.mp hread
    obtain ⟨found, hmeaning, hread⟩ := Option.bind_eq_some_iff.mp hread
    cases hread
    obtain ⟨hquoted, htext⟩ := betweenQuotes?_eq_some_iff.mp hbody
    exact ⟨body, hquoted, hmeaning, htext⟩
  · rintro ⟨body, hbody, hmeaning, rfl⟩
    simp [hbody.betweenQuotes?_append, hmeaning]

theorem IsKey.afterKey?_append {key rest : List Char} (hkey : IsKey key)
    (hrest : ∀ character ∈ rest.head?, isKeyCharacter character = false) :
    afterKey? (key ++ rest) = some rest := by
  cases hkey with
  | @quoted body meant hbody hmeaning =>
      have hread : quoted? (body ++ '"' :: rest) = some (meant, rest) :=
        quoted?_eq_some_iff.mpr ⟨body, hbody, hmeaning, rfl⟩
      rw [List.cons_append, List.append_assoc, List.singleton_append, afterKey?, hread]
      rfl
  | bare hnonempty hkey =>
      obtain ⟨htaken, hdropped⟩ := takeWhile_dropWhile_append hkey hrest
      unfold afterKey?
      split
      · next quote behind hstart =>
        cases key with
        | nil => exact absurd rfl hnonempty
        | cons character key =>
            obtain rfl := (List.cons.inj hstart).1
            exact absurd (hkey _ (List.mem_cons_self ..)) (by decide)
      · rw [htaken, hdropped, if_neg]
        simpa using hnonempty

theorem exists_isKey {text rest : List Char} (hread : afterKey? text = some rest) :
    ∃ key, IsKey key ∧ text = key ++ rest := by
  unfold afterKey? at hread
  split at hread
  · next behind =>
    obtain ⟨⟨meant, found⟩, hquoted, rfl⟩ := Option.map_eq_some_iff.mp hread
    obtain ⟨body, hbody, hmeaning, rfl⟩ := quoted?_eq_some_iff.mp hquoted
    exact ⟨_, .quoted hbody hmeaning, by simp⟩
  · split at hread
    · cases hread
    · next hnonempty =>
      cases hread
      refine ⟨text.takeWhile isKeyCharacter, .bare ?_ ?_, List.takeWhile_append_dropWhile.symm⟩
      · intro hempty
        exact hnonempty (by rw [hempty]; rfl)
      · intro character hcharacter
        exact List.mem_takeWhile_imp hcharacter

theorem isKeyCharacter_of_isAsciiBlank :
    ∀ character, isAsciiBlank character = true → isKeyCharacter character = false :=
  forall_isAsciiBlank (by decide)

/-- No key begins with a blank. -/
theorem IsKey.skipBlanks_append {key : List Char} (hkey : IsKey key) (rest : List Char) :
    skipBlanks (key ++ rest) = key ++ rest := by
  cases hkey with
  | quoted => exact skipBlanks_cons (by decide) _
  | bare hnonempty hkey =>
      cases key with
      | nil => exact absurd rfl hnonempty
      | cons character key =>
          apply skipBlanks_cons
          by_contra hblank
          have hkey := hkey character (List.mem_cons_self ..)
          rw [isKeyCharacter_of_isAsciiBlank character (by simpa using hblank)] at hkey
          cases hkey

theorem IsAssignment.afterAssignment?_append {assignment : List Char}
    (hassignment : IsAssignment assignment) (text : List Char) :
    afterAssignment? (assignment ++ text) = some (skipBlanks text) := by
  obtain ⟨lead, key, trail, rfl, hlead, hkey, htrail⟩ := hassignment
  have hnext : ∀ character ∈ (trail ++ '=' :: text).head?, isKeyCharacter character = false := by
    cases trail with
    | nil =>
        rintro character ⟨⟩
        decide
    | cons blank trail =>
        rintro character ⟨⟩
        exact isKeyCharacter_of_isAsciiBlank blank (htrail blank (List.mem_cons_self ..))
  simp only [List.append_assoc, List.singleton_append]
  rw [afterAssignment?, SettingValue.skipBlanks_append hlead, hkey.skipBlanks_append,
    hkey.afterKey?_append hnext]
  simp only [Option.bind_eq_bind, Option.bind_some, SettingValue.skipBlanks_append htrail,
    skipBlanks_cons (by decide : isAsciiBlank '=' = false)]

theorem exists_isAssignment {text rest : List Char} (hread : afterAssignment? text = some rest) :
    ∃ assignment value, IsAssignment assignment ∧ text = assignment ++ value ∧
      rest = skipBlanks value := by
  obtain ⟨behind, hkey, hread⟩ := Option.bind_eq_some_iff.mp hread
  obtain ⟨key, hkey, htext⟩ := exists_isKey hkey
  obtain ⟨lead, hlead, hskip⟩ := exists_skipBlanks text
  obtain ⟨trail, htrail, hbehind⟩ := exists_skipBlanks behind
  split at hread
  · next value hequals =>
    cases hread
    refine ⟨_, value, ⟨lead, key, trail, rfl, hlead, hkey, htrail⟩, ?_, rfl⟩
    rw [hskip, htext, hbehind, hequals]
    simp
  · cases hread

/-! ## The reader is complete -/

/-- Whether a value ends before a text: at the end, before a comma or before a closing bracket. -/
def EndsValue (rest : List Char) : Prop :=
  ∀ character ∈ rest.head?, character ∈ [',', '\x7d', ']']

/-- Whether a part is read at the front of a text, with fuel enough. -/
def Part.IsRead (part : Part) (text : List Char) : Prop :=
  match part with
  | .value found => ∀ fuel rest, text.length < fuel → EndsValue rest →
      value? fuel (text ++ rest) = some (found, rest)
  | .closed found => ∀ fuel lead rest, text.length ≤ fuel → AllBlank lead →
      value? (fuel + 1) (lead ++ (text ++ rest)) = some (found, skipBlanks rest)
  | .items isDictionary => ∀ fuel rest, text.length + 2 ≤ fuel →
      afterItems? fuel isDictionary (text ++ closing isDictionary :: rest) = some rest

theorem EndsValue.isSeparator {rest : List Char} (hrest : EndsValue rest) :
    ∀ character ∈ rest.head?, SettingValue.isSeparator character = true := by
  intro character hcharacter
  have hends := hrest character hcharacter
  simp only [List.mem_cons, List.not_mem_nil, or_false] at hends
  rcases hends with rfl | rfl | rfl <;> rfl

theorem EndsValue.isAsciiBlank {rest : List Char} (hrest : EndsValue rest) :
    ∀ character ∈ rest.head?, Dealias.isAsciiBlank character = false := by
  intro character hcharacter
  have hends := hrest character hcharacter
  simp only [List.mem_cons, List.not_mem_nil, or_false] at hends
  rcases hends with rfl | rfl | rfl <;> rfl

theorem EndsValue.skipBlanks_append {rest : List Char} (hrest : EndsValue rest)
    (text : List Char) : skipBlanks (text ++ rest) = skipBlanks text ++ rest := by
  obtain ⟨lead, hlead, htext⟩ := exists_skipBlanks text
  have hskip : skipBlanks (skipBlanks text ++ rest) = skipBlanks text ++ rest := by
    apply skipBlanks_eq_self
    intro character hcharacter
    rw [List.head?_append] at hcharacter
    cases hskipped : (skipBlanks text).head? with
    | some first =>
        rw [hskipped, Option.some_or] at hcharacter
        exact of_mem_head?_dropWhile character (hskipped.trans hcharacter)
    | none =>
        rw [hskipped, Option.none_or] at hcharacter
        exact hrest.isAsciiBlank character hcharacter
  calc skipBlanks (text ++ rest)
      = skipBlanks (lead ++ (skipBlanks text ++ rest)) := by rw [← List.append_assoc, ← htext]
    _ = skipBlanks (skipBlanks text ++ rest) := SettingValue.skipBlanks_append hlead _
    _ = skipBlanks text ++ rest := hskip

theorem value?_skipBlanks (fuel : Nat) (text : List Char) :
    value? fuel (skipBlanks text) = value? fuel text := by
  cases fuel with
  | zero => rfl
  | succ fuel => simp only [value?, skipBlanks_skipBlanks]

theorem StartsPlain.value?_eq {text : List Char} (hstart : StartsPlain (skipBlanks text))
    (fuel : Nat) :
    value? (fuel + 1) text =
      some (ofPlain (trimBlanks ((skipBlanks text).takeWhile fun character =>
          !isSeparator character)),
        skipBlanks ((skipBlanks text).dropWhile fun character => !isSeparator character)) := by
  rw [value?]
  split
  case h_1 rest heq => exact absurd ⟨rest, heq.symm⟩ (hstart "true" (by simp))
  case h_2 rest heq => exact absurd ⟨rest, heq.symm⟩ (hstart "false" (by simp))
  case h_3 rest heq => exact absurd ⟨rest, heq.symm⟩ (hstart "\x7b" (by simp))
  case h_4 rest heq => exact absurd ⟨rest, heq.symm⟩ (hstart "[" (by simp))
  case h_5 rest heq => exact absurd ⟨rest, heq.symm⟩ (hstart "\"" (by simp))
  case h_6 rest heq => exact absurd ⟨rest, heq.symm⟩ (hstart "'" (by simp))
  case h_7 =>
      have hdrop := @List.drop_left _
        ((skipBlanks text).takeWhile fun character => !isSeparator character)
        ((skipBlanks text).dropWhile fun character => !isSeparator character)
      rw [List.takeWhile_append_dropWhile] at hdrop
      simp only [hdrop]
      rfl

/-- A text that ends before a value ends does not reach beyond. -/
theorem EndsValue.isPrefix_of_append {rest : List Char} (hrest : EndsValue rest)
    {lead text : List Char} (hlead : ∀ character ∈ lead, character ∉ [',', '\x7d', ']'])
    (happend : lead <+: text ++ rest) : lead <+: text := by
  induction lead generalizing text with
  | nil => exact List.nil_prefix
  | cons character lead ih =>
      cases text with
      | nil =>
          obtain ⟨behind, rfl⟩ := happend
          exact absurd (hrest character rfl) (hlead character (List.mem_cons_self ..))
      | cons first text =>
          rw [List.cons_append, List.cons_prefix_cons] at happend
          rw [List.cons_prefix_cons]
          exact ⟨happend.1, ih (fun later hlater => hlead later (List.mem_cons_of_mem _ hlater))
            happend.2⟩

theorem StartsPlain.append {text rest : List Char} (hstart : StartsPlain text)
    (hrest : EndsValue rest) : StartsPlain (text ++ rest) := by
  have hends : ["true", "false", "\x7b", "[", "\"", "'"].all (fun lead => lead.toList.all
      fun character => !([',', '\x7d', ']'].contains character)) = true := by
    decide
  intro lead hlead happend
  refine hstart lead hlead (hrest.isPrefix_of_append ?_ happend)
  intro character hcharacter
  simpa using List.all_eq_true.mp (List.all_eq_true.mp hends lead hlead) character hcharacter

theorem IsPlain.value?_append {text : List Char} (hplain : IsPlain text) (fuel : Nat)
    {rest : List Char} (hrest : EndsValue rest) :
    value? (fuel + 1) (text ++ rest) = some (ofPlain (trimBlanks text), rest) := by
  have hstart : StartsPlain (skipBlanks (text ++ rest)) := by
    rw [hrest.skipBlanks_append]
    exact hplain.startsPlain.append hrest
  have hinside : ∀ character ∈ skipBlanks text, (!isSeparator character) = true := by
    intro character hcharacter
    rw [hplain.noSeparator character (List.dropWhile_subset _ hcharacter)]
    rfl
  have houtside : ∀ character ∈ rest.head?, (!isSeparator character) = false := by
    intro character hcharacter
    rw [hrest.isSeparator character hcharacter]
    rfl
  obtain ⟨htaken, hdropped⟩ := takeWhile_dropWhile_append hinside houtside
  rw [hstart.value?_eq, hrest.skipBlanks_append, htaken, hdropped,
    skipBlanks_eq_self hrest.isAsciiBlank, trimBlanks_skipBlanks]

/-- How closed values begin. -/
theorem Written.exists_head? {value : SettingValue} {core : List Char}
    (hcore : Written (.closed value) core) :
    ∃ character ∈ ['t', 'f', '\x7b', '[', '"', '\''], core.head? = some character := by
  cases hcore with
  | yes => exact ⟨'t', by decide, rfl⟩
  | no => exact ⟨'f', by decide, rfl⟩
  | quoted => exact ⟨'"', by decide, rfl⟩
  | character => exact ⟨'\'', by decide, rfl⟩
  | @bracketed isDictionary => exact ⟨opening isDictionary, by cases isDictionary <;> decide, rfl⟩

theorem closing_ne_of_isAsciiBlank (isDictionary : Bool) :
    ∀ character, isAsciiBlank character = true → character ≠ closing isDictionary :=
  forall_isAsciiBlank (by cases isDictionary <;> decide)

/-- No value begins as what stands behind the last item. -/
theorem Written.head?_ne_closing {value : SettingValue} {text : List Char}
    (hwritten : Written (.value value) text) (isDictionary : Bool) :
    text.head? ≠ some (closing isDictionary) := by
  intro hhead
  cases hwritten with
  | plain hplain =>
      have hseparator : isSeparator (closing isDictionary) = true := by cases isDictionary <;> decide
      rw [hplain.noSeparator _ (List.mem_of_mem_head? hhead)] at hseparator
      cases hseparator
  | @spaced lead core trail value hlead htrail hcore =>
      cases lead with
      | cons blank lead =>
          exact closing_ne_of_isAsciiBlank isDictionary blank (hlead _ (List.mem_cons_self ..))
            (Option.some.inj hhead)
      | nil =>
          obtain ⟨character, hcharacter, hfirst⟩ := hcore.exists_head?
          rw [List.nil_append, List.head?_append, hfirst, Option.some_or, Option.some.injEq] at hhead
          subst hhead
          revert hcharacter
          cases isDictionary <;> decide

/-- No key begins as what stands behind the last item. -/
theorem IsItemKey.head?_ne_closing {isDictionary : Bool} {key : List Char}
    (hkey : IsItemKey isDictionary key) : key.head? ≠ some (closing isDictionary) := by
  cases isDictionary with
  | false =>
      obtain rfl : key = [] := hkey
      exact nofun
  | true =>
      obtain ⟨lead, name, trail, rfl, hlead, hname, htrail⟩ := hkey
      intro hhead
      cases lead with
      | cons blank lead =>
          exact closing_ne_of_isAsciiBlank true blank (hlead _ (List.mem_cons_self ..))
            (Option.some.inj hhead)
      | nil =>
          cases hname with
          | quoted => cases hhead
          | bare hnonempty hname =>
              cases name with
              | nil => exact hnonempty rfl
              | cons character name =>
                  obtain rfl := Option.some.inj hhead
                  have hcharacter := hname _ (List.mem_cons_self ..)
                  revert hcharacter
                  decide

/-- What comes behind the items, once one of them is read. -/
def afterItem? (fuel : Nat) (isDictionary : Bool) (rest : List Char) : Option (List Char) :=
  match rest with
  | ',' :: rest => afterItems? fuel isDictionary rest
  | _ => if rest.head? = some (closing isDictionary) then rest.tail else none

/-- The text of an item's value, behind its key. -/
def itemStart? (isDictionary : Bool) (text : List Char) : Option (List Char) :=
  if isDictionary then afterAssignment? text else some text

theorem afterItems?_succ (fuel : Nat) (isDictionary : Bool) (text : List Char) :
    afterItems? (fuel + 1) isDictionary text =
      if text.head? = some (closing isDictionary) then some text.tail
      else (itemStart? isDictionary text).bind fun start =>
        (value? fuel start).bind fun read => afterItem? fuel isDictionary read.2 := by
  cases isDictionary <;> rfl

/-- A key and a value are read before what comes behind an item. -/
theorem IsItemKey.afterItems?_eq {isDictionary : Bool} {key text rest : List Char}
    {value : SettingValue} {fuel : Nat} (hkey : IsItemKey isDictionary key)
    (hread : value? fuel (text ++ rest) = some (value, rest))
    (hhead : (key ++ (text ++ rest)).head? ≠ some (closing isDictionary)) :
    afterItems? (fuel + 1) isDictionary (key ++ (text ++ rest)) =
      afterItem? fuel isDictionary rest := by
  have hstart : ∃ start, itemStart? isDictionary (key ++ (text ++ rest)) = some start ∧
      value? fuel start = some (value, rest) := by
    cases isDictionary with
    | false =>
        obtain rfl : key = [] := hkey
        exact ⟨_, rfl, hread⟩
    | true =>
        refine ⟨_, IsAssignment.afterAssignment?_append hkey _, ?_⟩
        rw [value?_skipBlanks, hread]
  obtain ⟨start, hstart, hvalue⟩ := hstart
  rw [afterItems?_succ, if_neg hhead, hstart, Option.bind_some, hvalue, Option.bind_some]

/-- An item does not begin as what stands behind the last one. -/
theorem head?_item_ne_closing {isDictionary : Bool} {key text rest : List Char}
    {value : SettingValue} (hkey : IsItemKey isDictionary key)
    (htext : Written (.value value) text)
    (hrest : key ++ text = [] → rest.head? ≠ some (closing isDictionary)) :
    (key ++ (text ++ rest)).head? ≠ some (closing isDictionary) := by
  rw [List.head?_append, List.head?_append]
  cases hfirst : key.head? with
  | some character =>
      rw [Option.some_or, ← hfirst]
      exact hkey.head?_ne_closing
  | none =>
      cases hsecond : text.head? with
      | some character =>
          rw [Option.none_or, Option.some_or, ← hsecond]
          exact htext.head?_ne_closing isDictionary
      | none =>
          rw [List.head?_eq_none_iff] at hfirst hsecond
          rw [Option.none_or, Option.none_or]
          exact hrest (by rw [hfirst, hsecond, List.append_nil])

theorem Written.isRead {part : Part} {text : List Char} (hwritten : Written part text) :
    part.IsRead text := by
  induction hwritten with
  | plain hplain =>
      rintro (- | fuel) rest hfuel hrest
      · exact absurd hfuel (Nat.not_lt_zero _)
      · exact hplain.value?_append fuel hrest
  | @spaced lead core trail value hlead htrail hcore ih =>
      rintro (- | fuel) rest hfuel hrest
      · exact absurd hfuel (Nat.not_lt_zero _)
      · simp only [List.length_append] at hfuel
        rw [List.append_assoc, List.append_assoc, ih fuel lead _ (by omega) hlead,
          skipBlanks_append htrail, skipBlanks_eq_self hrest.isAsciiBlank]
  | yes =>
      intro fuel lead rest hfuel hlead
      rw [value?, skipBlanks_append hlead]
      rfl
  | no =>
      intro fuel lead rest hfuel hlead
      rw [value?, skipBlanks_append hlead]
      rfl
  | @quoted body meant hbody hmeaning =>
      intro fuel lead rest hfuel hlead
      have hread : quoted? (body ++ '"' :: rest) = some (meant, rest) :=
        quoted?_eq_some_iff.mpr ⟨body, hbody, hmeaning, rfl⟩
      rw [value?, skipBlanks_append hlead, List.cons_append, List.append_assoc,
        List.singleton_append, skipBlanks_cons (by decide)]
      simp [hread]
  | character character =>
      intro fuel lead rest hfuel hlead
      rw [value?, skipBlanks_append hlead]
      rfl
  | @bracketed isDictionary items hitems ih =>
      intro fuel lead rest hfuel hlead
      simp only [List.length_cons, List.length_append] at hfuel
      have hread := ih fuel rest (by rw [List.length_nil] at hfuel; omega)
      rw [value?, skipBlanks_append hlead, List.cons_append, List.append_assoc,
        List.singleton_append]
      cases isDictionary with
      | false =>
          rw [skipBlanks_cons (by decide)]
          simp [opening, collection, hread]
      | true =>
          rw [skipBlanks_cons (by decide)]
          simp [opening, collection, hread]
  | noItems isDictionary =>
      rintro (- | fuel) rest hfuel
      · exact absurd hfuel (Nat.not_lt_zero _)
      · cases isDictionary <;> rfl
  | @lastItem isDictionary key text value hkey htext ih =>
      rintro (- | fuel) rest hfuel
      · exact absurd hfuel (Nat.not_lt_zero _)
      · simp only [List.length_append] at hfuel
        have hread := ih fuel (closing isDictionary :: rest) (by omega)
          (by rintro character ⟨⟩; cases isDictionary <;> decide)
        by_cases hempty : key ++ text = []
        · rw [hempty]
          cases isDictionary <;> rfl
        · rw [List.append_assoc, hkey.afterItems?_eq hread
            (head?_item_ne_closing hkey htext fun hnone => absurd hnone hempty)]
          cases isDictionary <;> rfl
  | @moreItems isDictionary key text others value hkey htext hothers ih ihothers =>
      rintro (- | fuel) rest hfuel
      · exact absurd hfuel (Nat.not_lt_zero _)
      · simp only [List.length_append, List.length_cons] at hfuel
        have hread := ih fuel (',' :: (others ++ closing isDictionary :: rest)) (by omega)
          (by rintro character ⟨⟩; decide)
        have hcomma : some ',' ≠ some (closing isDictionary) := by cases isDictionary <;> decide
        simp only [List.append_assoc, List.cons_append]
        rw [hkey.afterItems?_eq hread (head?_item_ne_closing hkey htext fun _ => hcomma)]
        exact ihothers fuel rest (by omega)

/-! ## The reader is sound -/

/-- Whether values that are read are written, and stand in front of what is left. -/
def ValuesSound (fuel : Nat) : Prop :=
  ∀ {text rest : List Char} {value : SettingValue}, value? fuel text = some (value, rest) →
    ∃ front, text = front ++ rest ∧ Written (.value value) front

/-- Whether items that are read are written, and stand in front of their bracket. -/
def ItemsSound (fuel : Nat) : Prop :=
  ∀ {isDictionary : Bool} {text rest : List Char}, afterItems? fuel isDictionary text = some rest →
    ∃ items, text = items ++ closing isDictionary :: rest ∧ Written (.items isDictionary) items

/-- Something closed is a value together with the blanks around it. -/
theorem Written.exists_spaced {value : SettingValue} {core text behind : List Char}
    (hcore : Written (.closed value) core) (htext : skipBlanks text = core ++ behind) :
    ∃ front, text = front ++ skipBlanks behind ∧ Written (.value value) front := by
  obtain ⟨lead, hlead, hskip⟩ := exists_skipBlanks text
  obtain ⟨trail, htrail, hbehind⟩ := exists_skipBlanks behind
  refine ⟨lead ++ (core ++ trail), ?_, .spaced hlead htrail hcore⟩
  rw [List.append_assoc, List.append_assoc, ← hbehind, ← htext, ← hskip]

/-- What is read as a plain value is one. -/
theorem StartsPlain.exists_written {text : List Char} (hstart : StartsPlain (skipBlanks text))
    {fuel : Nat} {value : SettingValue} {rest : List Char}
    (hread : value? (fuel + 1) text = some (value, rest)) :
    ∃ front, text = front ++ rest ∧ Written (.value value) front := by
  obtain ⟨lead, hlead, hskip⟩ := exists_skipBlanks text
  rw [hstart.value?_eq, Option.some.injEq, Prod.mk.injEq] at hread
  obtain ⟨rfl, rfl⟩ := hread
  obtain ⟨front, hfront⟩ : ∃ front, front =
      (skipBlanks text).takeWhile fun character => !isSeparator character := ⟨_, rfl⟩
  obtain ⟨behind, hbehind⟩ : ∃ behind, behind =
      (skipBlanks text).dropWhile fun character => !isSeparator character := ⟨_, rfl⟩
  have htext : skipBlanks text = front ++ behind := by
    rw [hfront, hbehind, List.takeWhile_append_dropWhile]
  have hskipFront : skipBlanks front = front := by
    apply skipBlanks_eq_self
    intro character hcharacter
    apply @of_mem_head?_dropWhile isAsciiBlank text character
    rw [← skipBlanks, htext, List.head?_append, Option.mem_def.mp hcharacter]
    rfl
  have hskipBehind : skipBlanks behind = behind := by
    apply skipBlanks_eq_self
    intro character hcharacter
    rw [hbehind] at hcharacter
    have hseparator := of_mem_head?_dropWhile character hcharacter
    by_contra hblank
    rw [isSeparator_of_isAsciiBlank character (by simpa using hblank)] at hseparator
    cases hseparator
  rw [← hfront, ← hbehind, hskipBehind]
  refine ⟨lead ++ front, by rw [List.append_assoc, ← htext, ← hskip], ?_⟩
  have htrim : trimBlanks (lead ++ front) = trimBlanks front := by
    rw [← trimBlanks_skipBlanks, skipBlanks_append hlead, trimBlanks_skipBlanks]
  rw [← htrim]
  refine .plain ⟨?_, ?_⟩
  · intro character hcharacter
    rcases List.mem_append.mp hcharacter with hblank | hplain
    · exact isSeparator_of_isAsciiBlank character (hlead character hblank)
    · rw [hfront] at hplain
      simpa using List.mem_takeWhile_imp hplain
  · rw [skipBlanks_append hlead, hskipFront]
    intro begin hbegin hprefix
    apply hstart begin hbegin
    rw [htext]
    exact hprefix.trans (List.prefix_append front behind)

theorem exists_isItemKey {isDictionary : Bool} {text start : List Char}
    (hstart : itemStart? isDictionary text = some start) (fuel : Nat) :
    ∃ key value, IsItemKey isDictionary key ∧ text = key ++ value ∧
      value? fuel value = value? fuel start := by
  cases isDictionary with
  | false =>
      cases hstart
      exact ⟨[], text, rfl, rfl, rfl⟩
  | true =>
      obtain ⟨key, value, hkey, htext, rfl⟩ := exists_isAssignment hstart
      exact ⟨key, value, hkey, htext, (value?_skipBlanks fuel value).symm⟩

/-- Behind an item stands a comma or the closing bracket. -/
theorem afterItem?_cases {fuel : Nat} {isDictionary : Bool} {text rest : List Char}
    (hread : afterItem? fuel isDictionary text = some rest) :
    (∃ others, text = ',' :: others ∧ afterItems? fuel isDictionary others = some rest) ∨
      text = closing isDictionary :: rest := by
  unfold afterItem? at hread
  split at hread
  case h_1 others => exact .inl ⟨others, rfl, hread⟩
  case h_2 =>
      split at hread
      case isTrue hclosing =>
          obtain ⟨last, rfl⟩ := List.head?_eq_some_iff.mp hclosing
          cases hread
          exact .inr rfl
      case isFalse => cases hread

/-- Items between brackets are a value together with the blanks around them. -/
theorem ItemsSound.exists_bracketed {fuel : Nat} (hitems : ItemsSound fuel) {isDictionary : Bool}
    {text behind after : List Char} (htext : skipBlanks text = opening isDictionary :: behind)
    (hread : afterItems? fuel isDictionary behind = some after) :
    ∃ front, text = front ++ skipBlanks after ∧
      Written (.value (collection isDictionary)) front := by
  obtain ⟨items, rfl, hwritten⟩ := hitems hread
  apply (Written.bracketed hwritten).exists_spaced
  simpa using htext

theorem ItemsSound.valuesSound_succ {fuel : Nat} (hitems : ItemsSound fuel) :
    ValuesSound (fuel + 1) := by
  intro text rest value hread
  by_cases hstart : StartsPlain (skipBlanks text)
  · exact hstart.exists_written hread
  rw [value?] at hread
  split at hread
  case h_1 behind htext =>
      cases hread
      exact Written.yes.exists_spaced htext
  case h_2 behind htext =>
      cases hread
      exact Written.no.exists_spaced htext
  case h_3 behind htext =>
      obtain ⟨_, hmap, hread⟩ := Option.bind_eq_some_iff.mp hread
      obtain ⟨after, hafter, rfl⟩ := Option.map_eq_some_iff.mp hmap
      cases hread
      exact @hitems.exists_bracketed _ true _ _ _ htext hafter
  case h_4 behind htext =>
      obtain ⟨_, hmap, hread⟩ := Option.bind_eq_some_iff.mp hread
      obtain ⟨after, hafter, rfl⟩ := Option.map_eq_some_iff.mp hmap
      cases hread
      exact @hitems.exists_bracketed _ false _ _ _ htext hafter
  case h_5 behind htext =>
      obtain ⟨_, hmap, hread⟩ := Option.bind_eq_some_iff.mp hread
      obtain ⟨⟨meant, after⟩, hquoted, rfl⟩ := Option.map_eq_some_iff.mp hmap
      cases hread
      obtain ⟨body, hbody, hmeaning, rfl⟩ := quoted?_eq_some_iff.mp hquoted
      apply (Written.quoted hbody hmeaning).exists_spaced
      simpa using htext
  case h_6 behind htext =>
      split at hread
      · cases hread
        exact (Written.character _).exists_spaced htext
      · cases hread
  case h_7 plain hyes hno hbrace hbracket hquote hcharacter =>
      refine absurd ?_ hstart
      intro lead hlead hbegin
      obtain ⟨behind, htext⟩ := hbegin
      simp only [List.mem_cons, List.not_mem_nil, or_false] at hlead
      rcases hlead with rfl | rfl | rfl | rfl | rfl | rfl
      · exact hyes behind htext.symm
      · exact hno behind htext.symm
      · exact hbrace behind htext.symm
      · exact hbracket behind htext.symm
      · exact hquote behind htext.symm
      · exact hcharacter behind htext.symm

theorem ItemsSound.succ {fuel : Nat} (hvalues : ValuesSound fuel) (hitems : ItemsSound fuel) :
    ItemsSound (fuel + 1) := by
  intro isDictionary text rest hread
  rw [afterItems?_succ] at hread
  split at hread
  case isTrue hhead =>
      obtain ⟨behind, rfl⟩ := List.head?_eq_some_iff.mp hhead
      cases hread
      exact ⟨[], rfl, .noItems isDictionary⟩
  case isFalse hhead =>
      obtain ⟨start, hstart, hafter⟩ := Option.bind_eq_some_iff.mp hread
      obtain ⟨⟨value, after⟩, hvalue, hafter⟩ := Option.bind_eq_some_iff.mp hafter
      obtain ⟨key, behind, hkey, rfl, hsame⟩ := exists_isItemKey hstart fuel
      obtain ⟨front, rfl, hfront⟩ := hvalues (hsame.trans hvalue)
      rcases afterItem?_cases hafter with ⟨behind, rfl, hbehind⟩ | rfl
      · obtain ⟨others, rfl, hothers⟩ := hitems hbehind
        exact ⟨key ++ (front ++ ',' :: others), by simp, .moreItems hkey hfront hothers⟩
      · exact ⟨key ++ front, by simp, .lastItem hkey hfront⟩

/-- Values hold items and items hold values, with less fuel. -/
theorem sound (fuel : Nat) : ValuesSound fuel ∧ ItemsSound fuel := by
  induction fuel with
  | zero =>
      constructor
      · intro text rest value hread
        cases hread
      · intro isDictionary text rest hread
        cases hread
  | succ fuel ih =>
      obtain ⟨hvalues, hitems⟩ := ih
      exact ⟨hitems.valuesSound_succ, hitems.succ hvalues⟩

/-! ## Texts of variables -/

theorem value?_eq_some_iff {text : List Char} {value : SettingValue} :
    value? (2 * text.length + 2) text = some (value, []) ↔ Denotes text value := by
  constructor
  · intro hread
    obtain ⟨front, htext, hfront⟩ := (sound _).1 hread
    rw [List.append_nil] at htext
    rw [htext]
    exact hfront
  · intro hdenotes
    have hread := hdenotes.isRead (2 * text.length + 2) [] (by omega) nofun
    rwa [List.append_nil] at hread

theorem ofText_of_denotes {text : String} {value : SettingValue}
    (hdenotes : Denotes text.toList value) : ofText text = value := by
  rw [ofText, value?_eq_some_iff.mpr hdenotes]

/-- What is no value as a whole stands for itself. -/
theorem ofText_of_not_denotes {text : String}
    (hnothing : ∀ value, ¬ Denotes text.toList value) : ofText text = .text text := by
  unfold ofText
  split
  case h_1 value hread => exact absurd (value?_eq_some_iff.mp hread) (hnothing value)
  case h_2 => rfl

end Dealias.SettingValue
