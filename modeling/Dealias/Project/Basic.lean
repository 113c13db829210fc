import Dealias.Json.Relaxed
import Dealias.Options.Json

/-!
# Project files

A project file is relaxed JSON.  Of all that it can say, only the compiler options that matter to
aliases are taken, and the name of a file that it extends, which is not followed.
-/

namespace Dealias

/-! ## Faults -/

/-- Why there are no options for a run. -/
inductive ProjectFault where
  | notFound (path : Path)
  | invalidJson (path : Path) (fault : Json.Fault)
  | missingField (field hint : String)
  | invalidValue (field value hint : String)
  | io (path : Path) (detail : String)
deriving DecidableEq, Repr

/-- What stands for a cause whose wording is left open. -/
def causeSign : String := "<source>"

/-- The wording of a fault. -/
def ProjectFault.message : ProjectFault → String
  | notFound path =>
    "Config file not found: " ++ path.text ++
      "\n\nHint: Pass the path to your tsconfig.json or run from the project directory"
  | invalidJson path _ =>
    "Invalid JSON in " ++ path.text ++ ": " ++ causeSign ++ "\n\nHint: Check tsconfig.json syntax"
  | missingField field hint => "Missing required field: " ++ field ++ "\n\nHint: " ++ hint
  | invalidValue field value hint =>
    "Invalid value for '" ++ field ++ "': " ++ value ++ "\n\nHint: " ++ hint
  | io path detail => "Failed to read config file " ++ path.text ++ ": " ++ detail

/-! ## Contents -/

/-- The compiler options that matter to aliases. -/
structure CompilerOptions where
  outDir : Option Path
  baseUrl : Option Path
  rootDir : Option Path
  paths : Option (OrderedMap (List String))

/-- No compiler options. -/
def CompilerOptions.empty : CompilerOptions where
  outDir := none
  baseUrl := none
  rootDir := none
  paths := none

/-- What a project file says. -/
structure Project where
  compilerOptions : CompilerOptions
  extends? : Option String

/-! ## Reading -/

/-- Compiler options while they are read. -/
structure CompilerOptionsDraft where
  outDir : Option (Option Path)
  baseUrl : Option (Option Path)
  rootDir : Option (Option Path)
  paths : Option (Option (OrderedMap (List String)))

namespace CompilerOptionsDraft

/-- The draft before any field is read. -/
def blank : CompilerOptionsDraft where
  outDir := none
  baseUrl := none
  rootDir := none
  paths := none

/-- The options that were read. -/
def complete (draft : CompilerOptionsDraft) : CompilerOptions where
  outDir := draft.outDir.join
  baseUrl := draft.baseUrl.join
  rootDir := draft.rootDir.join
  paths := draft.paths.join

/-- The fields in their order. -/
def fields : List (Json.Field CompilerOptionsDraft) := [
  .make "outDir" false (Json.optional Json.path) outDir fun draft value =>
    { draft with outDir := some value },
  .make "baseUrl" false (Json.optional Json.path) baseUrl fun draft value =>
    { draft with baseUrl := some value },
  .make "rootDir" false (Json.optional Json.path) rootDir fun draft value =>
    { draft with rootDir := some value },
  .make "paths" false (Json.optional Json.aliasMap) paths fun draft value =>
    { draft with paths := some value }]

end CompilerOptionsDraft

/-- Compiler options as a record to read. -/
def CompilerOptions.shape : Json.RecordShape CompilerOptionsDraft CompilerOptions where
  fields := CompilerOptionsDraft.fields
  blank := .blank
  complete? draft := some draft.complete

/-- A project while it is read. -/
structure ProjectDraft where
  compilerOptions : Option CompilerOptions
  extends? : Option (Option String)

namespace ProjectDraft

/-- The draft before any field is read. -/
def blank : ProjectDraft where
  compilerOptions := none
  extends? := none

/-- The project that was read. -/
def complete (draft : ProjectDraft) : Project where
  compilerOptions := draft.compilerOptions.getD .empty
  extends? := draft.extends?.join

/-- The fields in their order. -/
def fields : List (Json.Field ProjectDraft) := [
  .make "compilerOptions" true CompilerOptions.shape.read compilerOptions fun draft value =>
    { draft with compilerOptions := some value },
  .make "extends" false (Json.optional Json.text) extends? fun draft value =>
    { draft with extends? := some value }]

end ProjectDraft

/-- A project as a record to read. -/
def Project.shape : Json.RecordShape ProjectDraft Project where
  fields := ProjectDraft.fields
  blank := .blank
  complete? draft := some draft.complete

/-- Read a project file's text; `origin` is named in faults. -/
def Project.ofText (text : String) (origin : Path) : Except ProjectFault Project :=
  (Json.readText Project.shape.read (Json.strictText text)).mapError (.invalidJson origin)

end Dealias
