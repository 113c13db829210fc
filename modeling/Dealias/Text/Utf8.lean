/-!
# Reading bytes as text

File contents are bytes.  The strict reading is the one of `String.fromUTF8?`.  The lenient reading
never fails: each maximal part of a character that is broken off, and each byte that starts no
character, becomes one replacement character.
-/

namespace Dealias

/-- The sign for bytes that are no text. -/
def replacementCharacter : Char := '\uFFFD'

/-- The range of the byte after a leading byte, and the number of bytes of the whole character. -/
def leadingByte? (byte : Nat) : Option (Nat × Nat × Nat) :=
  if byte < 0xC2 then none
  else if byte ≤ 0xDF then some (0x80, 0xBF, 2)
  else if byte = 0xE0 then some (0xA0, 0xBF, 3)
  else if byte = 0xED then some (0x80, 0x9F, 3)
  else if byte ≤ 0xEF then some (0x80, 0xBF, 3)
  else if byte = 0xF0 then some (0x90, 0xBF, 4)
  else if byte ≤ 0xF3 then some (0x80, 0xBF, 4)
  else if byte = 0xF4 then some (0x80, 0x8F, 4)
  else none

/-- The payload bits of a leading byte of a character of the given length. -/
def leadingBits (byte size : Nat) : Nat :=
  if size = 2 then byte % 0x20 else if size = 3 then byte % 0x10 else byte % 0x08

/-- A character that is being read: the bits so far, how many bytes are missing, and the range of
the next one. -/
structure PartialCharacter where
  bits : Nat
  missing : Nat
  lowest : Nat
  highest : Nat

/-- Read a byte where a character starts. -/
def startCharacter (byte : Nat) : List Char × Option PartialCharacter :=
  if byte < 0x80 then ([Char.ofNat byte], none)
  else
    match leadingByte? byte with
    | none => ([replacementCharacter], none)
    | some (lowest, highest, size) =>
      ([], some ⟨leadingBits byte size, size - 1, lowest, highest⟩)

/-- Read bytes leniently, `pending` being the character that is under way. -/
def decodeLossy : (pending : Option PartialCharacter) → List UInt8 → List Char
  | none, [] => []
  | some _, [] => [replacementCharacter]
  | none, byte :: rest =>
    let start := startCharacter byte.toNat
    start.1 ++ decodeLossy start.2 rest
  | some part, byte :: rest =>
    if part.lowest ≤ byte.toNat ∧ byte.toNat ≤ part.highest then
      let bits := part.bits * 0x40 + byte.toNat % 0x40
      if part.missing ≤ 1 then Char.ofNat bits :: decodeLossy none rest
      else decodeLossy (some ⟨bits, part.missing - 1, 0x80, 0xBF⟩) rest
    else
      let start := startCharacter byte.toNat
      replacementCharacter :: (start.1 ++ decodeLossy start.2 rest)

/-- The lenient reading of file content. -/
def textOfBytes (content : ByteArray) : String :=
  match String.fromUTF8? content with
  | some text => text
  | none => String.ofList (decodeLossy none content.toList)

end Dealias
