import Dealias.Cli.Command
import Dealias.Cli.LogFilter

/-!
# The program

Carries out the requests of the command on the real disk, and prints what it has to say to the
standard error stream.
-/

namespace Dealias.Cli

/-! ## The disk -/

/-- The wording of a refusal of the system. -/
def refusalText : IO.Error → String
  | .noFileOrDirectory _ code details => details ++ " (os error " ++ toString code ++ ")"
  | .inappropriateType _ code details => details ++ " (os error " ++ toString code ++ ")"
  | .permissionDenied _ code details => details ++ " (os error " ++ toString code ++ ")"
  | error => toString error

/-- A refusal of the system as a fault. -/
def refusal (activity : String) (path : Path) : IO.Error → StoreFault
  | .noFileOrDirectory _ _ _ => .notFound path
  | error => .io ("Failed to " ++ activity ++ " " ++ path.text ++ ": " ++ refusalText error)

/-- Read a file. -/
def readDisk (path : Path) : IO ReadResult := do
  try
    return .content (← IO.FS.readBinFile ⟨path.text⟩)
  catch error => return .failed (refusal "read" path error)

/-- Write a file. -/
def writeDisk (path : Path) (content : ByteArray) : IO (Except StoreFault Unit) := do
  try
    IO.FS.writeBinFile ⟨path.text⟩ content
    return .ok ()
  catch error =>
    return .error (.io ("Failed to write " ++ path.text ++ ": " ++ refusalText error))

/-- Tell what stands behind a link. -/
def describeTarget (path : Path) : IO Metadata := do
  let file := (← IO.currentDir) / path.text
  try
    let type := (← file.metadata).type
    return ⟨type == .dir, type == .file, true⟩
  catch _ => return ⟨false, false, true⟩

/-- Tell what stands at a path; of a link, what stands behind it. -/
def describeDisk (path : Path) : IO (Except StoreFault Metadata) := do
  let file := (← IO.currentDir) / path.text
  try
    let type := (← file.symlinkMetadata).type
    if type == .symlink then return .ok (← describeTarget path)
    return .ok ⟨type == .dir, type == .file, false⟩
  catch error => return .error (refusal "get metadata for" path error)

/-- List the names in a directory. -/
def listDisk (path : Path) : IO (Except StoreFault (List String)) := do
  let directory := (← IO.currentDir) / path.text
  try
    return .ok ((← directory.readDir).toList.map fun entry => entry.fileName)
  catch error => return .error (refusal "read directory" path error)

/-! ## Events -/

/-- The levels that are shown when a level is asked for. -/
def shownLevels : String → List Level
  | "off" => []
  | "error" => [.failure]
  | "warn" => [.failure, .warning]
  | _ => [.failure, .warning, .info]

/-- Whether a filter shows an event: the most specific directive about the program decides. -/
def showsEvent (filter : LogFilter) (event : Event) : Bool :=
  let concerning := filter.plain.find? fun directive =>
    directive.field.isNone && directive.target.all fun target => ownTargets.contains target
  match concerning with
  | some directive => (shownLevels directive.level).contains event.level
  | none => false

/-- An event as it is shown. -/
def shownEvent (event : Event) : String :=
  String.intercalate " "
    (event.level.label :: event.message ::
      event.fields.map fun field => field.1 ++ "=" ++ field.2)

/-! ## Carrying out requests -/

/-- Answer a request, keeping the cache as state. -/
def answerOnDisk (filter : LogFilter) :
    (request : Request) → StateT Cache IO request.Reply
  | .read path => readDisk path
  | .write path content => writeDisk path content
  | .describe path => describeDisk path
  | .list path => listDisk path
  | .isPresent path => do
    let file := (← IO.currentDir) / path.text
    file.pathExists
  | .lookupProbe candidate => modifyGet fun cache => cache.lookupProbe candidate
  | .storeProbe candidate found => modify fun cache => cache.storeProbe candidate found
  | .lookupSpecifier target directory =>
    modifyGet fun cache => cache.lookupSpecifier target directory
  | .storeSpecifier target directory specifier =>
    modify fun cache => cache.storeSpecifier target directory specifier
  | .emit event => do
    if showsEvent filter event then IO.eprintln (shownEvent event)
  | .cacheCounts => do return (← get).counts

/-- The variables that the program looks at. -/
def knownVariables : List String :=
  ["TSALIAS_OUT_DIR", "TSALIAS_BASE_URL", "TSALIAS_ROOT_DIR", "TSALIAS_CONCURRENCY", "NO_COLOR",
    "FORCE_COLOR", "RUST_LOG"]

/-- The environment as far as the program looks at it. -/
def readEnvironment : IO Environment := do
  let mut environment : Environment := .empty
  for name in knownVariables do
    if let some value ← IO.getEnv name then
      environment := environment.insert name value
  return environment

/-! ## Help -/

/-- How the program is called. -/
def usage : String :=
  String.intercalate "\n" [
    "Rewrite tsconfig path aliases in compiled output into relative imports",
    "",
    "Usage: tsalias [OPTIONS] [PROJECT]",
    "",
    "Arguments:",
    "  [PROJECT]  tsconfig.json, or a directory containing one",
    "",
    "Options:",
    "      --out-dir <DIR>    Compiled output directory (overrides compilerOptions.outDir)",
    "      --base-url <DIR>   Path-mapping base relative to the output directory",
    "      --root-dir <DIR>   Source root (overrides compilerOptions.rootDir)",
    "  -j, --concurrency <N>  Maximum number of files processed at once",
    "      --dry-run          Report what would change without writing any file",
    "  -v, --verbose          Enable verbose logging (debug level)",
    "  -q, --quiet            Suppress all output except errors",
    "      --no-color         Disable colored output",
    "  -h, --help             Print help",
    "  -V, --version          Print version"]

/-- What is said about arguments that do not lead to a run. -/
def argumentFaultText : ArgumentFault → String
  | .invalidValue => "error: a value is required for an option, and a path must not be empty"
  | .invalidNumber => "error: invalid number for '--concurrency'"
  | .unknownArgument => "error: unexpected argument found"
  | .conflict => "error: an argument cannot be used here"
  | .unexpectedValue => "error: unexpected value for a flag"
  | .helpRequested => usage
  | .versionRequested => "tsalias 0.4.1"

/-! ## The whole program -/

/-- Run the command with arguments that could be read. -/
def runOnDisk (arguments : Arguments) : IO UInt32 := do
  let environment ← readEnvironment
  let coloured := coloursOn arguments.noColor environment (← (← IO.getStderr).isTty)
  let workingDirectory : Path := ⟨toString (← IO.currentDir)⟩
  let filter := logFilter arguments.verbose arguments.quiet environment
  let started ← IO.monoMsNow
  let command := runCommand coloured arguments workingDirectory environment maxNatural
  let (result, _) ← (command.runIn (answerOnDisk filter)).run .empty
  let elapsed := (← IO.monoMsNow) - started
  for line in result.lines coloured arguments (.make 0 (elapsed * 1000000)) do
    IO.eprintln line
  if let .error fault := result.outcome then
    IO.eprintln fault.report
  return result.exitCode.toUInt32

end Dealias.Cli

/-- Read the arguments and run the command. -/
def main (texts : List String) : IO UInt32 := do
  match Dealias.Cli.Arguments.ofList texts with
  | .ok arguments => Dealias.Cli.runOnDisk arguments
  | .error fault =>
    IO.eprintln (Dealias.Cli.argumentFaultText fault)
    return fault.exitCode.toUInt32
