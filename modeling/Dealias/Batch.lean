import Dealias.Options
import Dealias.Report

/-!
# Batches

A batch is a queue of files.  Each file is read, rewired, and written back if it changed.  Whatever
goes wrong with a file ends in the report about that file, and the batch goes on.
-/

namespace Dealias

/-! ## One file -/

/-- The event that tells about a fault of a file. -/
def FileFault.event (fault : FileFault) : Event where
  level := match fault with
    | .crashed _ _ => .failure
    | _ => .warning
  message := fault.message
  fields := []

/-- Tell about a fault, and fail. -/
def Program.fail (fault : FileFault) : Program FileOutcome := do
  request (.emit fault.event)
  return .failed fault

/-- Write back a rewired file if it changed. -/
def RunConfig.settle (config : RunConfig) (path : Path) (rewired : Rewired) :
    Program FileOutcome := do
  if !rewired.isChanged then return .unchanged
  if config.dryRun then return .replaced rewired.replaced
  match ← Program.request (.write path rewired.code.toUTF8) with
  | .ok () => return .replaced rewired.replaced
  | .error cause => Program.fail (.unwritable path cause)

/-- Work on the content of a file. -/
def RunConfig.processContent (config : RunConfig) (path : Path) (content : ByteArray) :
    Program FileReport := do
  match String.fromUTF8? content with
  | none => return ⟨path, ← Program.fail (.notText path), []⟩
  | some text =>
    let rewired ← config.aliases.rewire text path
    return ⟨path, ← config.settle path rewired, rewired.unresolved⟩

/-- How a task ends: with the report about its file, or with the message of a crash. -/
abbrev TaskEnd := Except String FileReport

/-- Work on one file.  A crash of the store leaves no report. -/
def RunConfig.processFile (config : RunConfig) (path : Path) : Program TaskEnd := do
  match ← Program.request (.read path) with
  | .content content => return .ok (← config.processContent path content)
  | .failed cause => return .ok ⟨path, ← Program.fail (.unreadable path cause), []⟩
  | .crashed message => return .error message

/-- Work on one file in a task of its own, so that a crash fails only that file. -/
def RunConfig.isolateFile (config : RunConfig) (path : Path) : Program TaskEnd := do
  match ← config.processFile path with
  | .ok report => return .ok report
  | .error message => return .ok ⟨path, ← Program.fail (.crashed path message), []⟩

/-! ## Queues -/

/-- The files that wait, the next one first. -/
structure WorkQueue where
  waiting : List Path

namespace WorkQueue

/-- The next file, and the queue without it. -/
def next? (queue : WorkQueue) : Option (Path × WorkQueue) :=
  match queue.waiting with
  | [] => none
  | path :: waiting => some (path, ⟨waiting⟩)

/-- The number of files that wait. -/
def size (queue : WorkQueue) : Nat :=
  queue.waiting.length

/-- Whether no file waits. -/
def isEmpty (queue : WorkQueue) : Bool :=
  queue.waiting.isEmpty

end WorkQueue

/-! ## Whole batches -/

/-- What a batch ends with. -/
structure BatchOutcome where
  files : List FileReport
  lostWorkers : List String

/-- The outcome that reports make, given in the order in which they came. -/
def BatchOutcome.ofReports (reports : List FileReport) (lostWorkers : List String) :
    BatchOutcome where
  files := reports.mergeSort FileReport.le
  lostWorkers := lostWorkers

/-- What is kept about a worker that a crash has ended. -/
def lostWorkerMessage (message : String) : String :=
  "Rewrite worker panicked: " ++ message

/-- The event about a worker that a crash has ended. -/
def lostWorkerEvent (message : String) : Event where
  level := .failure
  message := "Rewrite worker panicked"
  fields := [("error", message)]

/-- Work on files one after the other, after the reports so far, the latest first. -/
def RunConfig.processFrom (config : RunConfig) (reports : List FileReport) :
    List Path → Program BatchOutcome
  | [] => return .ofReports reports.reverse []
  | path :: waiting => do
    match ← config.isolateFile path with
    | .ok report => config.processFrom (report :: reports) waiting
    | .error message =>
      Program.request (.emit (lostWorkerEvent message))
      return .ofReports reports.reverse [lostWorkerMessage message]

/-- Work on all files of a batch with a single worker. -/
def RunConfig.processAll (config : RunConfig) (files : List Path) : Program BatchOutcome :=
  config.processFrom [] files

end Dealias
