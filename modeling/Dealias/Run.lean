import Dealias.Batch.Pool
import Dealias.Discovery

/-!
# Runs

A run configures itself from its options, discovers the files below the output directory and works
on all of them, with one worker or with several.  It ends in a fault only before any file is
touched.
-/

namespace Dealias

/-- Why a run does not start. -/
inductive RunFault where
  | invalidAlias (fault : AliasFault)
  | outDirNotFound (path : Path)
  | store (fault : StoreFault)
deriving DecidableEq, Repr

/-- The wording of a fault. -/
def RunFault.message : RunFault → String
  | invalidAlias fault =>
    "Invalid path alias configuration: " ++ fault.message ++
      "\n\nHint: Check compilerOptions.paths in tsconfig.json"
  | outDirNotFound path =>
    "Output directory not found: " ++ path.text ++
      "\n\nHint: Run the TypeScript compiler before rewriting aliases"
  | store fault => "Runtime error: " ++ fault.message

/-! ## Events of a run -/

/-- The event at the start of a run. -/
def RunConfig.startEvent (config : RunConfig) : Event where
  level := .info
  message := "Rewriting path aliases"
  fields := [("out_dir", config.outDir.text),
    ("root_dir", (config.rootDir.map Path.text).getD ""),
    ("aliases", toString config.aliases.entries.length)]

/-- The event of a run without aliases. -/
def nothingToDoEvent : Event where
  level := .info
  message := "No path aliases configured, nothing to rewrite"
  fields := []

/-- The event at the end of a run. -/
def RunReport.finishEvent (report : RunReport) : Event where
  level := .info
  message := "Alias rewrite finished"
  fields := [("scanned", toString report.filesScanned),
    ("rewritten", toString report.filesReplaced),
    ("replacements", toString report.replacements),
    ("unresolved", toString report.unresolved.length),
    ("failed", toString report.faults.length)]

/-! ## The run -/

/-- The report of a run that does nothing. -/
def RunReport.empty (dryRun : Bool) : RunReport where
  files := []
  lostWorkers := []
  cache := ⟨0, 0⟩
  dryRun := dryRun

/-- What a run does before it works on files: it finds them, or that there is nothing to do. -/
def RunConfig.prepare (config : RunConfig) (budget : Nat) :
    Program (Except RunFault (Option (List Path))) := do
  if !(← Program.request (.isPresent config.outDir)) then
    return .error (.outDirNotFound config.outDir)
  Program.request (.emit config.startEvent)
  if config.aliases.entries.isEmpty then
    Program.request (.emit nothingToDoEvent)
    return .ok none
  match ← discover budget config.outDir with
  | .error fault => return .error (.store fault)
  | .ok files => return .ok (some files)

/-- What a run does after its batch. -/
def RunConfig.conclude (config : RunConfig) (batch : BatchOutcome) : Program RunReport := do
  let report : RunReport :=
    { files := batch.files
      lostWorkers := batch.lostWorkers
      cache := ← Program.request .cacheCounts
      dryRun := config.dryRun }
  Program.request (.emit report.finishEvent)
  return report

/-- Run with a configuration. -/
def RunConfig.run (config : RunConfig) (budget : Nat) :
    Program (Except RunFault RunReport) := do
  match ← config.prepare budget with
  | .error fault => return .error fault
  | .ok none => return .ok (.empty config.dryRun)
  | .ok (some files) => return .ok (← config.conclude (← config.processAll files))

/-- Run, listing at most `budget` directories. -/
def RunOptions.runWithin (options : RunOptions) (budget : Nat) :
    Program (Except RunFault RunReport) :=
  match options.configure with
  | .error fault => return .error (.invalidAlias fault)
  | .ok config => config.run budget

/-- The number of directories that a run can have to list. -/
def RunOptions.directoryBound {Store : Type} [FileStore Store] (options : RunOptions)
    (store : Store) : Nat :=
  FileStore.directoryBound (options.outDir.anchor options.projectDir) store

/-- Run on a store, with an empty cache. -/
def RunOptions.run {Store : Type} [FileStore Store] (options : RunOptions) (store : Store) :
    Except RunFault RunReport × World Store :=
  (options.runWithin (options.directoryBound store)).run (World.start store)

/-! ## Runs of several workers -/

/-- Run with a configuration, the workers acting in the order of a schedule.  There is no answer
when the schedule calls a worker that cannot act, or ends before the workers do. -/
def RunConfig.runScheduled {Store : Type} [FileStore Store] (config : RunConfig) (budget : Nat)
    (schedule : List Nat) (store : Store) : Option (Except RunFault RunReport × World Store) :=
  match (config.prepare budget).run (World.start store) with
  | (.error fault, world) => some (.error fault, world)
  | (.ok none, world) => some (.ok (.empty config.dryRun), world)
  | (.ok (some files), world) =>
    match (Pool.start config.concurrency files world).follow? config.isolateFile schedule with
    | none => none
    | some pool =>
      if pool.hasReturned then
        let (report, world) := (config.conclude pool.outcome).run pool.world
        some (.ok report, world)
      else none

/-- Run on a store, with an empty cache, the workers acting in the order of a schedule. -/
def RunOptions.runScheduled {Store : Type} [FileStore Store] (options : RunOptions)
    (schedule : List Nat) (store : Store) : Option (Except RunFault RunReport × World Store) :=
  match options.configure with
  | .error fault => some (.error (.invalidAlias fault), World.start store)
  | .ok config => config.runScheduled (options.directoryBound store) schedule store

end Dealias
