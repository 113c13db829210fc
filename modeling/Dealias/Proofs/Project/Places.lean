import Dealias.Proofs.Project.Relaxed

/-!
# Places of faults in project files

Comments and commas are removed before a project file is read, and faults are found in what is left.
No line break is removed, so each character that is left stands in the line in which it stood, and
so does each fault.

* `strictText_lines`: what is left, the lines of its characters, and the lines of faults.

## Strategy

A fault knows its line only.  To say where it is, the machine that reads tokens is run with the
number of characters read so far in place of the line (`Document.ofPlaces`); the lines of the model
are those of the places (`Document.ofText_eq_relabel`).  A place in what is left is then split off
there, and the file is split at the same character (`IsThinned.exists_append`).
-/

namespace Dealias.Json

/-! ## Thinned texts -/

/-- Whether a text is left when characters are removed, but no line break. -/
inductive IsThinned : (whole left : List Char) → Prop
  | nil : IsThinned [] []
  | keep {whole left : List Char} (character : Char) : IsThinned whole left →
      IsThinned (character :: whole) (character :: left)
  | remove {whole left : List Char} {character : Char} : character ≠ '\n' →
      IsThinned whole left → IsThinned (character :: whole) left

namespace IsThinned

variable {whole middle left : List Char}

theorem sublist (hthinned : IsThinned whole left) : left.Sublist whole := by
  induction hthinned with
  | nil => exact .slnil
  | keep character _ ih => exact ih.cons_cons character
  | remove _ _ ih => exact ih.cons _

theorem trans (hfirst : IsThinned whole middle) (hsecond : IsThinned middle left) :
    IsThinned whole left := by
  induction hfirst generalizing left with
  | nil => exact hsecond
  | keep character _ ih =>
      cases hsecond with
      | keep _ hrest => exact .keep character (ih hrest)
      | remove hne hrest => exact .remove hne (ih hrest)
  | remove hne _ ih => exact .remove hne (ih hsecond)

/-- The line that comes behind characters. -/
theorem foldl_lineAfter_eq (hthinned : IsThinned whole left) (line : Nat) :
    whole.foldl lineAfter line = left.foldl lineAfter line := by
  induction hthinned generalizing line with
  | nil => rfl
  | keep character _ ih => exact ih _
  | remove hne _ ih => rw [List.foldl_cons, lineAfter_of_ne hne, ih]

/-- Where a thinned text is split, the whole text can be split before the same character. -/
theorem exists_append {front back : List Char} (hthinned : IsThinned whole (front ++ back)) :
    ∃ front' back', whole = front' ++ back' ∧ IsThinned front' front ∧ IsThinned back' back ∧
      back'.head? = back.head? := by
  generalize hleft : front ++ back = left at hthinned
  induction hthinned generalizing front with
  | nil =>
      obtain ⟨rfl, rfl⟩ := List.append_eq_nil_iff.mp hleft
      exact ⟨[], [], rfl, .nil, .nil, rfl⟩
  | @keep whole left character hrest ih =>
      rcases front with - | ⟨first, front⟩
      · obtain rfl : back = character :: left := hleft
        exact ⟨[], character :: whole, rfl, .nil, .keep character hrest, rfl⟩
      · obtain ⟨rfl, hlater⟩ := List.cons.inj hleft
        obtain ⟨front', back', rfl, hfront, hback, hhead⟩ := ih hlater
        exact ⟨first :: front', back', rfl, .keep first hfront, hback, hhead⟩
  | @remove whole left character hne hrest ih =>
      obtain ⟨front', back', rfl, hfront, hback, hhead⟩ := ih hleft
      exact ⟨character :: front', back', rfl, .remove hne hfront, hback, hhead⟩

end IsThinned

theorem isThinned_removeCommentsFrom (mode : RelaxedMode) (text : List Char) :
    IsThinned text (removeCommentsFrom mode text) := by
  fun_induction removeCommentsFrom mode text with
  | case1 => exact .nil
  | case2 rest ih | case3 rest ih => exact .remove (by decide) (.remove (by decide) ih)
  | case4 character rest _ _ ih => exact .keep character ih
  | case5 escaped rest ih => exact .keep _ (.keep escaped ih)
  | case6 character rest _ ih => exact .keep character ih
  | case7 rest ih => exact .keep _ ih
  | case8 character rest hbreak ih => exact .remove hbreak ih
  | case9 afterStar rest ih => exact .keep _ ih
  | case10 afterStar character rest hbreak hend ih => exact .remove hbreak ih
  | case11 afterStar character rest hbreak hopen ih => exact .remove hbreak ih

theorem isThinned_removeCommasFrom (inText : Bool) (text : List Char) :
    IsThinned text (removeCommasFrom inText text) := by
  fun_induction removeCommasFrom inText text with
  | case1 => exact .nil
  | case2 character rest hremoved ih =>
      exact .remove (by rw [hremoved.1]; decide) ih
  | case3 character rest hkept ih => exact .keep character ih
  | case4 escaped rest ih => exact .keep _ (.keep escaped ih)
  | case5 character rest _ ih => exact .keep character ih

theorem isThinned_strictText (text : String) : IsThinned text.toList (strictText text).toList := by
  rw [toList_strictText]
  exact (isThinned_removeCommentsFrom .plain text.toList).trans (isThinned_removeCommasFrom false _)

/-! ## Places -/

/-- The line that comes behind characters of a text. -/
def lineBehind (front : List Char) : Nat :=
  front.foldl lineAfter 1

theorem lineBehind_concat (front : List Char) (character : Char) :
    lineBehind (front ++ [character]) = lineAfter (lineBehind front) character := by
  rw [lineBehind, List.foldl_append]
  rfl

theorem lineBehind_eq_count (front : List Char) : lineBehind front = 1 + front.count '\n' := by
  have hfold (line : Nat) : front.foldl lineAfter line = line + front.count '\n' := by
    induction front generalizing line with
    | nil => rfl
    | cons character front ih =>
        rw [List.foldl_cons, ih, List.count_cons, lineAfter]
        by_cases hbreak : character = '\n'
        · simp [hbreak]
          omega
        · simp [hbreak]
  exact hfold 1

/-- The tokens of a text, with the number of characters before them in place of lines. -/
def placesFrom (place : Nat) (mode : Mode) : List Char → TokenList
  | [] => ⟨mode.finish place, place⟩
  | character :: rest =>
    let (tokens, mode) := mode.step place character
    let later := placesFrom (place + 1) mode rest
    ⟨tokens ++ later.tokens, later.lastLine⟩

/-- The document of a text, with places instead of lines. -/
def Document.ofPlaces (text : String) : Document :=
  Document.ofTokens (placesFrom 0 .between text.toList)

/-- The line of a place. -/
def lineOfPlace (text : List Char) (place : Nat) : Nat :=
  lineBehind (text.take place)

theorem lineOfPlace_length (front rest : List Char) :
    lineOfPlace (front ++ rest) front.length = lineBehind front := by
  rw [lineOfPlace, List.take_left]

theorem tokensFrom_eq_relabel (front rest : List Char) (mode : Mode) :
    tokensFrom (lineBehind front) (mode.relabel (lineOfPlace (front ++ rest))) rest =
      (placesFrom front.length mode rest).relabel (lineOfPlace (front ++ rest)) := by
  induction rest generalizing front mode with
  | nil =>
      rw [tokensFrom, ← lineOfPlace_length front [], Mode.finish_relabel]
      rfl
  | cons character rest ih =>
      have hline := lineOfPlace_length front (character :: rest)
      have hnext : lineOfPlace (front ++ character :: rest) (front.length + 1) =
          lineAfter (lineBehind front) character := by
        rw [lineOfPlace, List.take_length_add_append, ← lineBehind_concat]
        rfl
      have hlabel : lineAfter (lineOfPlace (front ++ character :: rest) front.length) character =
          lineOfPlace (front ++ character :: rest) (lineAfter front.length character) := by
        rw [hline, ← hnext]
        by_cases hbreak : character = '\n'
        · rw [lineAfter, if_pos hbreak]
        · rw [lineAfter_of_ne hbreak, hnext, lineAfter_of_ne hbreak, hline]
      have hstep := Mode.step_relabel hlabel mode
      have hlater := ih (front ++ [character]) (mode.step front.length character).2
      rw [List.append_assoc, List.singleton_append, List.length_append, List.length_singleton]
        at hlater
      rw [lineBehind_concat] at hlater
      rw [tokensFrom, placesFrom, ← hline, hstep, hline]
      simp only [relabelStep, hlater, TokenList.relabel, List.map_append]

/-- **Lines of places.**  The document of a text is the one with places, given the lines of the
places. -/
theorem Document.ofText_eq_relabel (text : String) :
    Document.ofText text = (Document.ofPlaces text).relabel (lineOfPlace text.toList) := by
  rw [Document.ofPlaces, ← Document.ofTokens_relabel]
  exact congrArg Document.ofTokens (tokensFrom_eq_relabel [] text.toList .between)

/-- A fault is found at a place, and its line is the one of the place. -/
theorem exists_place_of_readText {Value : Type} {read : Reader Value}
    (hread : Reader.IsRegular read) {text : String} {fault : Fault}
    (hfault : readText read text = .error fault) :
    ∃ place, (Document.ofPlaces text).read read = .error ⟨fault.kind, place⟩ ∧
      fault.line = lineOfPlace text.toList place := by
  rw [readText_eq, Document.ofText_eq_relabel, Document.read_relabel hread] at hfault
  cases hplace : (Document.ofPlaces text).read read with
  | ok value =>
      rw [hplace] at hfault
      cases hfault
  | error found =>
      rw [hplace] at hfault
      obtain rfl := Except.error.inj hfault
      exact ⟨found.line, rfl, rfl⟩

end Dealias.Json

namespace Dealias

open Json

/-- **Lines are kept.**  What is left of a project file are its characters without some, but with
all line breaks.  Each character that is left stands in the line in which it stood.  The line of a
fault is the line, in the file, of the place where reading stops in what is left. -/
theorem strictText_lines (text : String) :
    IsThinned text.toList (strictText text).toList ∧
      (strictText text).toList.Sublist text.toList ∧
      (strictText text).toList.count '\n' = text.toList.count '\n' ∧
      (∀ (front back : List Char) (character : Char),
        (strictText text).toList = front ++ character :: back →
          ∃ front' back', text.toList = front' ++ character :: back' ∧ IsThinned front' front ∧
            lineBehind front' = lineBehind front) ∧
      ∀ (origin : Path) (fault : Fault),
        Project.ofText text origin = .error (.invalidJson origin fault) →
          ∃ place front back,
            (Document.ofPlaces (strictText text)).read Project.shape.read =
              .error ⟨fault.kind, place⟩ ∧
            text.toList = front ++ back ∧
            IsThinned front ((strictText text).toList.take place) ∧
            IsThinned back ((strictText text).toList.drop place) ∧
            back.head? = ((strictText text).toList.drop place).head? ∧
            fault.line = lineBehind front := by
  have hthinned := isThinned_strictText text
  have hlines {whole left : List Char} (hthinned : IsThinned whole left) :
      lineBehind whole = lineBehind left := hthinned.foldl_lineAfter_eq 1
  refine ⟨hthinned, hthinned.sublist, ?_, ?_, ?_⟩
  · have hcount := hlines hthinned
    rw [lineBehind_eq_count, lineBehind_eq_count] at hcount
    omega
  · intro front back character htext
    rw [htext] at hthinned
    obtain ⟨front', back', hwhole, hfront, -, hhead⟩ := hthinned.exists_append
    obtain ⟨later, rfl⟩ := List.head?_eq_some_iff.mp hhead
    exact ⟨front', later, hwhole, hfront, hlines hfront⟩
  · intro origin fault hfault
    have hread : readText Project.shape.read (strictText text) = .error fault := by
      unfold Project.ofText at hfault
      cases hresult : readText Project.shape.read (strictText text) with
      | ok project =>
          rw [hresult] at hfault
          cases hfault
      | error found =>
          rw [hresult] at hfault
          exact congrArg Except.error (ProjectFault.invalidJson.inj (Except.error.inj hfault)).2
    obtain ⟨place, hplace, hline⟩ := exists_place_of_readText Project.isRegular_read hread
    rw [← List.take_append_drop place (strictText text).toList] at hthinned
    obtain ⟨front, back, hwhole, hfront, hback, hhead⟩ := hthinned.exists_append
    have hbehind : fault.line = lineBehind front := hline.trans (hlines hfront).symm
    exact ⟨place, front, back, hplace, hwhole, hfront, hback, hhead, hbehind⟩

/-- A fault behind a comment of two lines is found in the second one. -/
theorem strictText_lines_sample :
    Project.ofText "/*\n*/x" ⟨"tsconfig.json"⟩ =
        .error (.invalidJson ⟨"tsconfig.json"⟩ ⟨.malformed, 2⟩) ∧
      ∃ front back, "/*\n*/x".toList = front ++ back ∧ lineBehind front = 2 := by
  have hread : (readText Project.shape.read (strictText "/*\n*/x")).map (fun _ => ()) =
      .error ⟨.malformed, 2⟩ := by decide +kernel
  have hfault : Project.ofText "/*\n*/x" ⟨"tsconfig.json"⟩ =
      .error (.invalidJson ⟨"tsconfig.json"⟩ ⟨.malformed, 2⟩) := by
    unfold Project.ofText
    cases hresult : readText Project.shape.read (strictText "/*\n*/x") with
    | ok project =>
        rw [hresult] at hread
        cases hread
    | error fault =>
        rw [hresult] at hread
        obtain rfl := Except.error.inj hread
        rfl
  obtain ⟨-, -, -, -, hplaces⟩ := strictText_lines "/*\n*/x"
  obtain ⟨place, front, back, -, hwhole, -, -, -, hline⟩ := hplaces _ _ hfault
  exact ⟨hfault, front, back, hwhole, hline.symm⟩

end Dealias
