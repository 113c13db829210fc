import Dealias.Cache
import Dealias.Rewiring
import Dealias.Store.Basic

/-!
# Reports

What became of each file of a run, and the totals of the run.
-/

namespace Dealias

/-- A fault that is confined to one file. -/
inductive FileFault where
  | unreadable (path : Path) (cause : StoreFault)
  | unwritable (path : Path) (cause : StoreFault)
  | notText (path : Path)
  | crashed (path : Path) (message : String)
deriving DecidableEq, Repr

/-- The wording of a fault. -/
def FileFault.message : FileFault → String
  | unreadable path cause => "Failed to read " ++ path.text ++ ": " ++ cause.message
  | unwritable path cause => "Failed to write " ++ path.text ++ ": " ++ cause.message
  | notText path => path.text ++ " is not valid UTF-8"
  | crashed path message => "Processing " ++ path.text ++ " panicked: " ++ message

/-- What became of a file. -/
inductive FileOutcome where
  | unchanged
  /-- The content changed, and was written unless the run only tries. -/
  | replaced (count : Nat)
  | failed (fault : FileFault)
deriving DecidableEq, Repr

namespace FileOutcome

/-- Whether the content changed. -/
def isReplaced : FileOutcome → Bool
  | replaced _ => true
  | _ => false

/-- The number of replaced specifiers. -/
def replacements : FileOutcome → Nat
  | replaced count => count
  | _ => 0

/-- The fault of a failed file. -/
def fault? : FileOutcome → Option FileFault
  | failed fault => some fault
  | _ => none

end FileOutcome

/-- The report about one file. -/
structure FileReport where
  path : Path
  outcome : FileOutcome
  unresolved : List UnresolvedImport
deriving DecidableEq, Repr

/-- The order of reports. -/
def FileReport.le (first second : FileReport) : Bool :=
  Path.le first.path second.path

/-- The report about a run. -/
structure RunReport where
  /-- One report for each file, in ascending order of paths. -/
  files : List FileReport
  /-- The messages of workers that were lost. -/
  lostWorkers : List String
  cache : CacheCounts
  dryRun : Bool
deriving DecidableEq, Repr

namespace RunReport

/-- The number of files looked at. -/
def filesScanned (report : RunReport) : Nat :=
  report.files.length

/-- The number of files whose content changed. -/
def filesReplaced (report : RunReport) : Nat :=
  report.files.countP fun file => file.outcome.isReplaced

/-- The number of replaced specifiers. -/
def replacements (report : RunReport) : Nat :=
  report.files.foldr (fun file total => file.outcome.replacements + total) 0

/-- The unresolved imports, each with its file. -/
def unresolved (report : RunReport) : List (Path × UnresolvedImport) :=
  report.files.flatMap fun file => file.unresolved.map fun missing => (file.path, missing)

/-- The faults of failed files. -/
def faults (report : RunReport) : List FileFault :=
  report.files.filterMap fun file => file.outcome.fault?

/-- Whether anything failed. -/
def hasFailures (report : RunReport) : Bool :=
  !report.faults.isEmpty || !report.lostWorkers.isEmpty

end RunReport
end Dealias
