import Dealias.Resolution
import Dealias.Settings.Layers

/-!
# Loading a project

A project is named by its file or by the directory that holds it, seen from the working directory.
The file is found, read and turned into options for a run.
-/

namespace Dealias

/-- The name of a project file where only its directory is given. -/
def projectFileName : Path := ⟨"tsconfig.json"⟩

/-- The warning about a project file that extends another one. -/
def extendsEvent (path : Path) (extended : String) : Event where
  level := .warning
  message := "tsconfig extends another config; only options in " ++ path.text ++ " are used"
  fields := [("extends", extended)]

namespace Project

/-- Whether a directory stands at a path. -/
def isDirectory (path : Path) : Program Bool := do
  match ← Program.request (.describe path) with
  | .ok metadata => return metadata.isDirectory
  | .error _ => return false

/-- Find the project file. -/
def find (workingDirectory : Path) (project : Option Path) :
    Program (Except ProjectFault Path) := do
  let named := (project.getD projectFileName).anchor workingDirectory
  let path := if ← isDirectory named then named.join projectFileName else named
  if ← Program.isFile path then return .ok path
  return .error (.notFound path)

/-- What the content of a project file says. -/
def ofContent (path : Path) (content : ByteArray) : Except ProjectFault Project :=
  match String.fromUTF8? content with
  | none => .error (.io path "stream did not contain valid UTF-8")
  | some text => ofText text path

/-- The fault of a project file that cannot be read. -/
def readFault (path : Path) : StoreFault → ProjectFault
  | .notFound _ => .notFound path
  | .io detail => .io path detail
  | .other detail => .io path detail

/-- Read a project file. -/
def read (path : Path) : Program (Except ProjectFault Project) := do
  match ← Program.request (.read path) with
  | .crashed message => return .error (.io path message)
  | .failed fault => return .error (readFault path fault)
  | .content content =>
    match ofContent path content with
    | .error fault => return .error fault
    | .ok project =>
      match project.extends? with
      | some extended => Program.request (.emit (extendsEvent path extended))
      | none => pure ()
      return .ok project

/-- Find and read a project and make its options for a run. -/
def load (workingDirectory : Path) (project : Option Path) (environment : Environment)
    (overrides : SettingsLayer) : Program (Except ProjectFault RunOptions) := do
  match ← find workingDirectory project with
  | .error fault => return .error fault
  | .ok path =>
    match ← read path with
    | .error fault => return .error fault
    | .ok found =>
      return found.runOptions environment overrides (path.parent?.getD workingDirectory)

end Project
end Dealias
