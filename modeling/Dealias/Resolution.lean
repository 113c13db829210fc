import Dealias.Action
import Dealias.Alias.Table
import Dealias.Path.Relative

/-!
# Resolution

A specifier is resolved by its alias: the targets name candidates, a candidate is located when it
is a file, bare or with one of the known extensions, and the first located candidate is addressed
relative to the importing file.  What is known about candidates and relative specifiers is cached.
-/

namespace Dealias

/-- What becomes of a specifier. -/
inductive Resolution where
  /-- No alias speaks about the specifier, or only the catch-all alias does and finds nothing. -/
  | notAliased
  | resolved (specifier : String)
  /-- The alias matched and no candidate is there. -/
  | unresolved (pattern : String)
deriving DecidableEq, Repr

/-- The extensions tried after the bare candidate, in this order. -/
def probeExtensions : List String := ["js", "jsx", "ts", "tsx", "d.ts", "json"]

/-- The file names that can back a candidate, in the order in which they are tried. -/
def probeNames (candidate : Path) : List Path :=
  candidate :: probeExtensions.map candidate.appendExtension

namespace Program

/-- Whether a regular file stands at a path. -/
def isFile (path : Path) : Program Bool := do
  match ← request (.describe path) with
  | .ok metadata => return metadata.isFile
  | .error _ => return false

/-- The first of the paths at which a file stands. -/
def firstFile : List Path → Program (Option Path)
  | [] => return none
  | path :: others => do
    if ← isFile path then return some path
    firstFile others

/-- The file behind a candidate, by the cache if it knows. -/
def locate (candidate : Path) : Program (Option Path) := do
  match ← request (.lookupProbe candidate) with
  | some found => return found
  | none =>
    let found ← firstFile (probeNames candidate)
    request (.storeProbe candidate found)
    return found

/-- The specifier that reaches a target from a directory, by the cache if it knows. -/
def specifierFrom (directory target : Path) : Program (Option String) := do
  match ← request (.lookupSpecifier target directory) with
  | some specifier => return some specifier
  | none =>
    match relativeSpecifier? directory target with
    | none => return none
    | some specifier =>
      request (.storeSpecifier target directory specifier)
      return some specifier

/-- The relative specifier of the first candidate that is located and can be reached. -/
def firstReachable (directory : Path) : List Path → Program (Option String)
  | [] => return none
  | candidate :: others => do
    match ← locate candidate with
    | none => firstReachable directory others
    | some _ =>
      match ← specifierFrom directory candidate with
      | some specifier => return some specifier
      | none => firstReachable directory others

end Program

/-- The directory that a file's relative specifiers start from. -/
def importingDirectory (file : Path) : Path :=
  file.parent?.getD ⟨"/"⟩

/-- The warning about a specifier that leads nowhere. -/
def unresolvedEvent (specifier : String) (file : Path) : Event where
  level := .warning
  message := "Source file not found for module " ++ specifier
  fields := [("specifier", specifier), ("file", file.text)]

/-- Resolve a specifier of a file. -/
def AliasTable.resolve (table : AliasTable) (specifier : String) (file : Path) :
    Program Resolution := do
  match table.match? specifier with
  | none => return .notAliased
  | some (entry, remainder) =>
    let candidates := entry.targets.map fun target => target.candidate remainder
    match ← Program.firstReachable (importingDirectory file) candidates with
    | some relative => return .resolved relative
    | none =>
      if entry.isCatchAll then return .notAliased
      Program.request (.emit (unresolvedEvent specifier file))
      return .unresolved entry.pattern

end Dealias
