import Dealias.Json.Decode
import Dealias.Json.Value
import Dealias.Options

/-!
# Run options as JSON

Run options are written as one record with a fixed order of fields.  Reading takes the fields in
any order; the base of alias targets and the root of the sources may be left out.
-/

namespace Dealias

/-! ## Writing -/

/-- A path that may be left out. -/
def optionalPathValue : Option Path → Json.Value
  | some path => .text path.text
  | none => .null

/-- An alias map. -/
def aliasMapValue (paths : OrderedMap (List String)) : Json.Value :=
  .record (paths.entries.map fun entry => (entry.1, .list (entry.2.map .text)))

/-- Run options as a record. -/
def RunOptions.toValue (options : RunOptions) : Json.Value :=
  .record [
    ("projectDir", .text options.projectDir.text),
    ("outDir", .text options.outDir.text),
    ("baseUrl", optionalPathValue options.baseUrl),
    ("rootDir", optionalPathValue options.rootDir),
    ("paths", aliasMapValue options.paths),
    ("concurrency", .natural options.concurrency),
    ("dryRun", .flag options.dryRun)]

/-- Run options as a text. -/
def RunOptions.toText (options : RunOptions) : String :=
  options.toValue.compact

/-! ## Reading -/

/-- Read a path. -/
def Json.path : Json.Reader Path := fun node =>
  (Json.text node).map Path.mk

/-- Read an alias map. -/
def Json.aliasMap : Json.Reader (OrderedMap (List String)) :=
  Json.dictionary (Json.list Json.text)

/-- Run options while they are read. -/
structure RunOptionsDraft where
  projectDir : Option Path
  outDir : Option Path
  baseUrl : Option (Option Path)
  rootDir : Option (Option Path)
  paths : Option (OrderedMap (List String))
  concurrency : Option Nat
  dryRun : Option Bool

namespace RunOptionsDraft

/-- The draft before any field is read. -/
def blank : RunOptionsDraft where
  projectDir := none
  outDir := none
  baseUrl := none
  rootDir := none
  paths := none
  concurrency := none
  dryRun := none

/-- The options, if no field is missing that has to be there. -/
def complete? (draft : RunOptionsDraft) : Option RunOptions := do
  return {
    projectDir := ← draft.projectDir
    outDir := ← draft.outDir
    baseUrl := draft.baseUrl.join
    rootDir := draft.rootDir.join
    paths := ← draft.paths
    concurrency := ← draft.concurrency
    dryRun := ← draft.dryRun }

/-- The fields in their order. -/
def fields : List (Json.Field RunOptionsDraft) := [
  .make "projectDir" false Json.path projectDir fun draft value =>
    { draft with projectDir := some value },
  .make "outDir" false Json.path outDir fun draft value => { draft with outDir := some value },
  .make "baseUrl" false (Json.optional Json.path) baseUrl fun draft value =>
    { draft with baseUrl := some value },
  .make "rootDir" false (Json.optional Json.path) rootDir fun draft value =>
    { draft with rootDir := some value },
  .make "paths" false Json.aliasMap paths fun draft value => { draft with paths := some value },
  .make "concurrency" false Json.natural concurrency fun draft value =>
    { draft with concurrency := some value },
  .make "dryRun" false Json.flag dryRun fun draft value => { draft with dryRun := some value }]

end RunOptionsDraft

/-- Run options as a record to read. -/
def RunOptions.shape : Json.RecordShape RunOptionsDraft RunOptions where
  fields := RunOptionsDraft.fields
  blank := .blank
  complete? := RunOptionsDraft.complete?

/-- Read run options from a text. -/
def RunOptions.ofText (text : String) : Except Json.Fault RunOptions :=
  Json.readText RunOptions.shape.read text

end Dealias
