/-!
# Cutting text at byte positions

Positions in a text count the bytes of its UTF-8 form.  A character that a cut would break goes to
the part behind the cut.
-/

namespace Dealias

/-- The characters within the first `bytes` bytes. -/
def takeBytes : (bytes : Nat) → List Char → List Char
  | _, [] => []
  | bytes, character :: rest =>
    if character.utf8Size ≤ bytes then
      character :: takeBytes (bytes - character.utf8Size) rest
    else []

/-- The characters behind the first `bytes` bytes. -/
def dropBytes : (bytes : Nat) → List Char → List Char
  | _, [] => []
  | bytes, character :: rest =>
    if character.utf8Size ≤ bytes then dropBytes (bytes - character.utf8Size) rest
    else character :: rest

end Dealias
