import Dealias.Resolution
import Dealias.Source.Edit

/-!
# Rewiring

Every import occurrence of a file is resolved, in text order.  An occurrence whose specifier
resolves to another specifier becomes an edit, and one that leads nowhere is remembered.  Only the
specifiers themselves are replaced.
-/

namespace Dealias

/-- An aliased import that leads nowhere. -/
structure UnresolvedImport where
  specifier : String
  pattern : String
deriving DecidableEq, Repr

/-- A file's text after rewiring. -/
structure Rewired where
  code : String
  replaced : Nat
  unresolved : List UnresolvedImport
deriving DecidableEq, Repr

/-- A text is changed when at least one specifier is replaced. -/
def Rewired.isChanged (rewired : Rewired) : Bool :=
  rewired.replaced != 0

/-! ## Findings -/

/-- The edit that an occurrence asks for when it resolves as given. -/
def Occurrence.edit? (occurrence : Occurrence) : Resolution → Option Edit
  | .resolved specifier =>
    if specifier = occurrence.specifier then none
    else some ⟨occurrence.specifierSpan, specifier⟩
  | _ => none

/-- The unresolved import that an occurrence is when it resolves as given. -/
def Occurrence.unresolved? (occurrence : Occurrence) : Resolution → Option UnresolvedImport
  | .unresolved pattern => some ⟨occurrence.specifier, pattern⟩
  | _ => none

/-- The rewired text, given how each occurrence resolves. -/
def Rewired.ofFindings (text : String) (findings : List (Occurrence × Resolution)) : Rewired :=
  let edits := findings.filterMap fun finding => finding.1.edit? finding.2
  { code := applyEdits text edits
    replaced := edits.length
    unresolved := findings.filterMap fun finding => finding.1.unresolved? finding.2 }

/-! ## Rewiring a text -/

/-- Resolve occurrences of a file one after the other. -/
def AliasTable.resolveAll (table : AliasTable) (file : Path) :
    List Occurrence → Program (List (Occurrence × Resolution))
  | [] => return []
  | occurrence :: others => do
    let resolution ← table.resolve occurrence.specifier file
    let findings ← table.resolveAll file others
    return (occurrence, resolution) :: findings

/-- Rewire the text of a file. -/
def AliasTable.rewire (table : AliasTable) (text : String) (file : Path) : Program Rewired := do
  let findings ← table.resolveAll file (occurrences text)
  return Rewired.ofFindings text findings

end Dealias
