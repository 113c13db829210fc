import Dealias.Text.Blank

/-!
# Relaxed JSON

Project files are JSON with comments and with commas after the last item.  Both are removed before
the text is read.  Texts in quotes are kept as they are, and so is every line break, which keeps
the numbers of lines.
-/

namespace Dealias.Json

/-- Where removal stands. -/
inductive RelaxedMode where
  | plain
  | text
  /-- Up to the end of the line. -/
  | lineComment
  /-- Up to the next `*/`; tells whether a star came right before. -/
  | blockComment (afterStar : Bool)
deriving DecidableEq, Repr

/-- Remove comments. -/
def removeCommentsFrom : RelaxedMode → List Char → List Char
  | _, [] => []
  | .plain, '/' :: '/' :: rest => removeCommentsFrom .lineComment rest
  | .plain, '/' :: '*' :: rest => removeCommentsFrom (.blockComment false) rest
  | .plain, character :: rest =>
    character :: removeCommentsFrom (if character = '"' then .text else .plain) rest
  | .text, '\\' :: escaped :: rest => '\\' :: escaped :: removeCommentsFrom .text rest
  | .text, character :: rest =>
    character :: removeCommentsFrom (if character = '"' then .plain else .text) rest
  | .lineComment, character :: rest =>
    if character = '\n' then '\n' :: removeCommentsFrom .plain rest
    else removeCommentsFrom .lineComment rest
  | .blockComment afterStar, character :: rest =>
    if character = '\n' then '\n' :: removeCommentsFrom (.blockComment false) rest
    else if afterStar ∧ character = '/' then removeCommentsFrom .plain rest
    else removeCommentsFrom (.blockComment (character = '*')) rest

/-- Whether a text goes on with a closing bracket, white space apart. -/
def closesNext (text : List Char) : Bool :=
  match text.dropWhile isBlank with
  | '}' :: _ => true
  | ']' :: _ => true
  | _ => false

/-- Remove commas before closing brackets. -/
def removeCommasFrom : (inText : Bool) → List Char → List Char
  | _, [] => []
  | false, character :: rest =>
    if character = ',' ∧ closesNext rest then removeCommasFrom false rest
    else character :: removeCommasFrom (character = '"') rest
  | true, '\\' :: escaped :: rest => '\\' :: escaped :: removeCommasFrom true rest
  | true, character :: rest => character :: removeCommasFrom (character != '"') rest

/-- Remove comments and trailing commas. -/
def strictText (text : String) : String :=
  String.ofList (removeCommasFrom false (removeCommentsFrom .plain text.toList))

end Dealias.Json
