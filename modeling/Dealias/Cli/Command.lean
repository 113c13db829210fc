import Dealias.Cli.Arguments
import Dealias.Cli.Fault
import Dealias.Cli.Summary
import Dealias.Project.Loading

/-!
# The command

The command loads the project named by its arguments, runs, and tells how it went.  It is a program
of requests, so it can be carried out on any store.
-/

namespace Dealias.Cli

/-- The lines before a run. -/
def openingLines (coloured : Bool) (arguments : Arguments) (options : RunOptions) : List String :=
  if options.dryRun && !arguments.quiet then
    [infoLine coloured "Dry run: no files will be written"]
  else []

/-- The lines after a run. -/
def closingLines (coloured : Bool) (arguments : Arguments) (report : RunReport)
    (elapsed : Duration) : List String :=
  if arguments.quiet then []
  else
    summaryLines coloured report elapsed ++
      if 0 < report.filesReplaced ∧ report.dryRun = false then
        [successLine coloured
          ("Rewrote " ++ toString report.replacements ++ " aliased imports in " ++
            toString report.filesReplaced ++ " files")]
      else []

/-- How the command goes, up to its closing lines. -/
structure CommandResult where
  opening : List String
  outcome : Except CommandFault RunReport

/-- Load the project and run, listing at most `budget` directories. -/
def runCommand (coloured : Bool) (arguments : Arguments) (workingDirectory : Path)
    (environment : Environment) (budget : Nat) : Program CommandResult := do
  match ← Project.load workingDirectory arguments.project environment arguments.overrides with
  | .error fault => return ⟨[], .error (.project fault)⟩
  | .ok options =>
    let opening := openingLines coloured arguments options
    match ← options.runWithin budget with
    | .error fault => return ⟨opening, .error (.run fault)⟩
    | .ok report => return ⟨opening, .ok report⟩

/-- The lines that the command prints. -/
def CommandResult.lines (result : CommandResult) (coloured : Bool) (arguments : Arguments)
    (elapsed : Duration) : List String :=
  match result.outcome with
  | .error _ => result.opening
  | .ok report => result.opening ++ closingLines coloured arguments report elapsed

/-- A command that fails says so in its exit code. -/
def CommandResult.exitCode (result : CommandResult) : Nat :=
  match result.outcome with
  | .error _ => 1
  | .ok _ => 0

end Dealias.Cli
