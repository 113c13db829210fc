import Dealias.Alias.Table

/-!
# Run options

What a run is asked to do, and the configuration that it works with: the same with all directories
anchored and the alias table built.
-/

namespace Dealias

/-- What a run is asked to do. -/
structure RunOptions where
  /-- Relative directories are seen from here. -/
  projectDir : Path
  outDir : Path
  /-- Alias targets are seen from here; by default from the output directory itself. -/
  baseUrl : Option Path
  rootDir : Option Path
  paths : OrderedMap (List String)
  concurrency : Nat
  dryRun : Bool

/-- How many files are worked on at a time unless something else is asked for. -/
def defaultConcurrency : Nat := 5

/-- What a run works with. -/
structure RunConfig where
  outDir : Path
  baseUrl : Path
  rootDir : Option Path
  aliases : AliasTable
  /-- How many files are worked on at a time; at least one. -/
  concurrency : Nat
  dryRun : Bool

/-- The number of workers that a requested concurrency stands for. -/
def effectiveConcurrency (requested : Nat) : Nat :=
  max requested 1

/-- Anchor the directories and build the alias table. -/
def RunOptions.configure (options : RunOptions) : Except AliasFault RunConfig := do
  let outDir := options.outDir.anchor options.projectDir
  let baseUrl := options.baseUrl.getD ⟨"."⟩
  let aliases ← AliasTable.build options.paths outDir baseUrl
  return {
    outDir
    baseUrl
    rootDir := options.rootDir.map fun rootDir => rootDir.anchor options.projectDir
    aliases
    concurrency := effectiveConcurrency options.concurrency
    dryRun := options.dryRun }

end Dealias
