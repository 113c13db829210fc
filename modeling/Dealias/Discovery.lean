import Dealias.Action

/-!
# Discovery

The source files below a directory are found by a walk that keeps a stack of directories yet to be
listed.  Links are never followed.  Only a failure to list the directory that the walk starts from
ends it; whatever else is unreadable is skipped with a warning.
-/

namespace Dealias

/-- The extensions of source files. -/
def sourceExtensions : List String := ["js", "jsx", "ts", "tsx"]

/-- Whether a path has the extension of a source file. -/
def Path.isSource (path : Path) : Bool :=
  match path.extension? with
  | some extension => sourceExtensions.contains extension
  | none => false

/-- The warning about a directory that is left out. -/
def skippedDirectory (path : Path) (fault : StoreFault) : Event where
  level := .warning
  message := "Skipping unreadable directory"
  fields := [("path", path.text), ("error", fault.message)]

/-- The warning about an entry that is left out. -/
def skippedEntry (path : Path) (fault : StoreFault) : Event where
  level := .warning
  message := "Skipping unreadable entry"
  fields := [("path", path.text), ("error", fault.message)]

/-- The state of a walk: the directories to list, the next one first, and the files found so far,
the latest first. -/
structure Walk where
  pending : List Path
  found : List Path
deriving DecidableEq, Repr

namespace Walk

/-- The state before the first directory is listed. -/
def start (root : Path) : Walk where
  pending := [root]
  found := []

/-- What was found, in ascending order. -/
def files (walk : Walk) : List Path :=
  walk.found.reverse.mergeSort Path.le

/-- Sort an entry that can be described. -/
def addDescribed (walk : Walk) (path : Path) (metadata : Metadata) : Walk :=
  if metadata.isLink then walk
  else if metadata.isDirectory then { walk with pending := path :: walk.pending }
  else if metadata.isFile && path.isSource then { walk with found := path :: walk.found }
  else walk

/-- Look at one entry. -/
def addEntry (walk : Walk) (path : Path) : Program Walk := do
  match ← Program.request (.describe path) with
  | .ok metadata => return walk.addDescribed path metadata
  | .error fault =>
    Program.request (.emit (skippedEntry path fault))
    return walk

/-- Look at the named entries of a directory. -/
def addEntries (directory : Path) : List String → Walk → Program Walk
  | [], walk => return walk
  | name :: names, walk => do
    let walk ← walk.addEntry (directory.join ⟨name⟩)
    addEntries directory names walk

/-- List one directory on a walk from `root`. -/
def visit (root directory : Path) (walk : Walk) : Program (Except StoreFault Walk) := do
  match ← Program.request (.list directory) with
  | .ok names => return .ok (← addEntries directory names walk)
  | .error fault =>
    if directory.sameAs root then return .error fault
    Program.request (.emit (skippedDirectory directory fault))
    return .ok walk

/-- Go on until no directory is left, or until `budget` directories are listed.  A walk that the
budget cut short is answered like one that came to its end; what tells them apart is the directories
that are pending still. -/
def explore (root : Path) : (budget : Nat) → Walk → Program (Except StoreFault Walk)
  | 0, walk => return .ok walk
  | budget + 1, walk =>
    match walk.pending with
    | [] => return .ok walk
    | directory :: pending => do
      match ← visit root directory { walk with pending } with
      | .ok walk => explore root budget walk
      | .error fault => return .error fault

end Walk

/-- The source files below a directory, in ascending order.  When the budget is too small, these are
the files found until then. -/
def discover (budget : Nat) (root : Path) : Program (Except StoreFault (List Path)) := do
  return (← Walk.explore root budget (Walk.start root)).map Walk.files

end Dealias
