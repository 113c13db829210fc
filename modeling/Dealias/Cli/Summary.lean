import Dealias.Cli.Duration
import Dealias.Cli.Style
import Dealias.Report

/-!
# The summary of a run

A titled table of totals, and below it a line for each unresolved import and for each failure.
-/

namespace Dealias.Cli

/-- One row of the summary. -/
structure SummaryRow where
  label : String
  value : String
  style : Style
deriving DecidableEq, Repr

/-- The style of a count that should be zero. -/
def alarmStyle (alarm : Style) (count : Nat) : Style :=
  if count = 0 then .good else alarm

/-- How the cache did. -/
def cacheText (counts : CacheCounts) : String :=
  toString counts.hits ++ " of " ++ toString (counts.hits + counts.misses) ++ " (" ++
    toFixed 0 (roundToDouble (counts.hitRate * 100)) ++ "%)"

/-- The rows of the summary. -/
def summaryRows (report : RunReport) (elapsed : Duration) : List SummaryRow :=
  let unresolved := report.unresolved.length
  let failures := report.faults.length + report.lostWorkers.length
  [⟨"Files scanned", toString report.filesScanned, .good⟩,
    ⟨if report.dryRun then "Would rewrite" else "Files rewritten",
      toString report.filesReplaced, .good⟩,
    ⟨"Replacements", toString report.replacements, .good⟩,
    ⟨"Unresolved", toString unresolved, alarmStyle .notice unresolved⟩,
    ⟨"Failures", toString failures, alarmStyle .bad failures⟩,
    ⟨"Cache hits", cacheText report.cache, .good⟩,
    ⟨"Duration", elapsed.text, .good⟩]

/-- A text filled up with blanks to a width. -/
def padRight (width : Nat) (text : String) : String :=
  text ++ String.ofList (List.replicate (width - text.length) ' ')

/-- A row as a line. -/
def SummaryRow.line (coloured : Bool) (row : SummaryRow) : String :=
  "  " ++ padRight 16 (row.label ++ ":") ++ " " ++ paint coloured row.style row.value

/-- The line above and below the table. -/
def ruleLine : String :=
  String.ofList (List.replicate 60 '─')

/-- The title, behind an empty line. -/
def titleLine (coloured dryRun : Bool) : String :=
  "\n" ++ paint coloured .title
    (if dryRun then "Alias Rewrite Summary (dry run)" else "Alias Rewrite Summary")

/-- The line about an unresolved import of a file. -/
def unresolvedLine (coloured : Bool) (file : Path) (missing : UnresolvedImport) : String :=
  warningLine coloured
    ("Source file not found for module " ++ missing.specifier ++ " (" ++ file.text ++
      ", alias " ++ missing.pattern ++ ")")

/-- The summary. -/
def summaryLines (coloured : Bool) (report : RunReport) (elapsed : Duration) : List String :=
  [titleLine coloured report.dryRun, ruleLine] ++
    (summaryRows report elapsed).map (SummaryRow.line coloured) ++
    [ruleLine] ++
    (report.unresolved.map fun entry => unresolvedLine coloured entry.1 entry.2) ++
    (report.faults.map fun fault => errorLine coloured fault.message) ++
    report.lostWorkers.map (errorLine coloured)

end Dealias.Cli
