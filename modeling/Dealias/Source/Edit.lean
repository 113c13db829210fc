import Dealias.Source.Occurrence
import Dealias.Text.Bytes

/-!
# Edits

Replacing ranges of a text.  The ranges are in text order and do not overlap; everything outside
of them is kept.
-/

namespace Dealias

/-- The text to put in place of a range. -/
structure Edit where
  span : Span
  replacement : String
deriving DecidableEq, Repr

/-- Make edits in a text that starts at `offset`. -/
def editFrom (offset : Nat) (text : List Char) : List Edit → List Char
  | [] => text
  | edit :: edits =>
    takeBytes (edit.span.start - offset) text ++ edit.replacement.toList ++
      editFrom edit.span.stop (dropBytes (edit.span.stop - offset) text) edits

/-- Make edits in a text. -/
def applyEdits (text : String) (edits : List Edit) : String :=
  String.ofList (editFrom 0 text.toList edits)

end Dealias
