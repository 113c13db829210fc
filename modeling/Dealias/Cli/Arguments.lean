import Dealias.Number.Numeral
import Dealias.Settings.Layers

/-!
# Command-line arguments

Arguments are read from left to right.  An option takes its value from behind an equals sign, from
the rest of its short group, or from the next argument.  A value taken from the next argument, and
the project, are settled late: when the next known option, the next project or the end of the
arguments is reached.  So an unknown argument wins over a fault in the value before it.
-/

namespace Dealias.Cli

/-! ## What can be said -/

/-- What takes a value. -/
inductive Slot where
  | project
  | outDir
  | baseUrl
  | rootDir
  | concurrency
deriving DecidableEq, Repr

/-- What is said by its presence alone. -/
inductive Switch where
  | dryRun
  | verbose
  | quiet
  | noColor
  | help
  | version
deriving DecidableEq, Repr

/-- An option by its long name. -/
def longOption? : String → Option (Slot ⊕ Switch)
  | "out-dir" => some (.inl .outDir)
  | "base-url" => some (.inl .baseUrl)
  | "root-dir" => some (.inl .rootDir)
  | "concurrency" => some (.inl .concurrency)
  | "dry-run" => some (.inr .dryRun)
  | "verbose" => some (.inr .verbose)
  | "quiet" => some (.inr .quiet)
  | "no-color" => some (.inr .noColor)
  | "help" => some (.inr .help)
  | "version" => some (.inr .version)
  | _ => none

/-- An option by its short name. -/
def shortOption? : Char → Option (Slot ⊕ Switch)
  | 'j' => some (.inl .concurrency)
  | 'v' => some (.inr .verbose)
  | 'q' => some (.inr .quiet)
  | 'h' => some (.inr .help)
  | 'V' => some (.inr .version)
  | _ => none

/-- Why arguments do not lead to a run. -/
inductive ArgumentFault where
  /-- A value is missing, or a path is empty. -/
  | invalidValue
  | invalidNumber
  | unknownArgument
  /-- An option is repeated, or excludes another one. -/
  | conflict
  /-- A switch is given a value. -/
  | unexpectedValue
  | helpRequested
  | versionRequested
deriving DecidableEq, Repr

/-- Asking for help or for the version is no failure. -/
def ArgumentFault.exitCode : ArgumentFault → Nat
  | helpRequested | versionRequested => 0
  | _ => 2

/-- What the arguments say. -/
structure Arguments where
  project : Option Path
  outDir : Option Path
  baseUrl : Option Path
  rootDir : Option Path
  concurrency : Option Nat
  dryRun : Bool
  verbose : Bool
  quiet : Bool
  noColor : Bool
deriving DecidableEq, Repr

namespace Arguments

/-- Nothing is said. -/
def empty : Arguments where
  project := none
  outDir := none
  baseUrl := none
  rootDir := none
  concurrency := none
  dryRun := false
  verbose := false
  quiet := false
  noColor := false

/-- The layer of settings that arguments make.  A switch that is absent leaves its setting to the
layers below. -/
def overrides (arguments : Arguments) : SettingsLayer where
  outDir := arguments.outDir
  baseUrl := arguments.baseUrl
  rootDir := arguments.rootDir
  paths := none
  concurrency := arguments.concurrency
  dryRun := if arguments.dryRun then some true else none

/-- Whether a value is said. -/
def has (arguments : Arguments) : Slot → Bool
  | .project => arguments.project.isSome
  | .outDir => arguments.outDir.isSome
  | .baseUrl => arguments.baseUrl.isSome
  | .rootDir => arguments.rootDir.isSome
  | .concurrency => arguments.concurrency.isSome

/-- A path must not be empty. -/
def readPath (text : String) : Except ArgumentFault Path :=
  if text = "" then .error .invalidValue else .ok ⟨text⟩

/-- Read a value. -/
def assign (arguments : Arguments) (text : String) : Slot → Except ArgumentFault Arguments
  | .project => do return { arguments with project := ← readPath text }
  | .outDir => do return { arguments with outDir := ← readPath text }
  | .baseUrl => do return { arguments with baseUrl := ← readPath text }
  | .rootDir => do return { arguments with rootDir := ← readPath text }
  | .concurrency =>
    match natural? text.toList with
    | some number => .ok { arguments with concurrency := some number }
    | none => .error .invalidNumber

/-- Say a value.  It has to be there, and to be the first one of its kind. -/
def put (arguments : Arguments) (slot : Slot) (value : Option String) :
    Except ArgumentFault Arguments :=
  match value with
  | none => .error .invalidValue
  | some text => if arguments.has slot then .error .conflict else arguments.assign text slot

/-- Turn on a switch, for the first time. -/
def turnOn (arguments : Arguments) : Switch → Except ArgumentFault Arguments
  | .dryRun => if arguments.dryRun then .error .conflict else .ok { arguments with dryRun := true }
  | .verbose =>
    if arguments.verbose then .error .conflict else .ok { arguments with verbose := true }
  | .quiet => if arguments.quiet then .error .conflict else .ok { arguments with quiet := true }
  | .noColor =>
    if arguments.noColor then .error .conflict else .ok { arguments with noColor := true }
  | .help => .error .helpRequested
  | .version => .error .versionRequested

end Arguments

/-! ## Reading -/

/-- A value that is not settled yet; none while it has still to come. -/
structure PendingValue where
  slot : Slot
  value : Option String

/-- Arguments while they are read. -/
structure ArgumentState where
  arguments : Arguments
  pending : Option PendingValue
  hasProject : Bool
  /-- Behind `--` there are no options. -/
  optionsEnded : Bool

namespace ArgumentState

/-- The state before the first argument. -/
def start : ArgumentState where
  arguments := .empty
  pending := none
  hasProject := false
  optionsEnded := false

/-- Settle the pending value. -/
def settle (state : ArgumentState) : Except ArgumentFault ArgumentState :=
  match state.pending with
  | none => .ok state
  | some pending => do
    let arguments ← state.arguments.put pending.slot pending.value
    return { state with arguments, pending := none }

/-- Read a switch. -/
def readSwitch (state : ArgumentState) (switch : Switch) : Except ArgumentFault ArgumentState := do
  let state ← state.settle
  let arguments ← state.arguments.turnOn switch
  return { state with arguments }

/-- Read an option whose value is attached, or comes next. -/
def readOption (state : ArgumentState) (slot : Slot) (attached : Option String) :
    Except ArgumentFault ArgumentState := do
  let state ← state.settle
  match attached with
  | none => return { state with pending := some ⟨slot, none⟩ }
  | some text =>
    let arguments ← state.arguments.put slot (some text)
    return { state with arguments }

/-- Read the project. -/
def readProject (state : ArgumentState) (text : String) : Except ArgumentFault ArgumentState :=
  if state.hasProject then .error .unknownArgument
  else do
    let state ← state.settle
    return { state with pending := some ⟨.project, some text⟩, hasProject := true }

/-- Read an argument behind two dashes. -/
def readLong (state : ArgumentState) (text : List Char) : Except ArgumentFault ArgumentState :=
  let attached := match text.dropWhile fun character => character != '=' with
    | _ :: value => some (String.ofList value)
    | [] => none
  match longOption? (String.ofList (text.takeWhile fun character => character != '=')) with
  | none => .error .unknownArgument
  | some (.inl slot) => state.readOption slot attached
  | some (.inr switch) =>
    if attached.isSome then .error .unexpectedValue else state.readSwitch switch

/-- The value attached to a short option. -/
def attachedValue? : List Char → Option String
  | [] => none
  | '=' :: value => some (String.ofList value)
  | value => some (String.ofList value)

/-- Read a group of short options. -/
def readShort (state : ArgumentState) : List Char → Except ArgumentFault ArgumentState
  | [] => .ok state
  | character :: rest =>
    match shortOption? character with
    | none => .error .unknownArgument
    | some (.inl slot) => state.readOption slot (attachedValue? rest)
    | some (.inr switch) =>
      match state.readSwitch switch with
      | .error fault => .error fault
      | .ok state => state.readShort rest

/-- Read an argument that is no option: the value that has to come, or the project. -/
def readPlain (state : ArgumentState) (text : String) : Except ArgumentFault ArgumentState :=
  match state.pending with
  | some ⟨slot, none⟩ =>
    if state.optionsEnded then state.readProject text
    else .ok { state with pending := some ⟨slot, some text⟩ }
  | _ => state.readProject text

/-- Read an argument. -/
def read (state : ArgumentState) (text : String) : Except ArgumentFault ArgumentState :=
  if state.optionsEnded then state.readPlain text
  else
    match text.toList with
    | ['-', '-'] => .ok { state with optionsEnded := true }
    | '-' :: '-' :: rest => state.readLong rest
    | '-' :: first :: rest => state.readShort (first :: rest)
    | _ => state.readPlain text

/-- Settle what is pending, and refuse options that exclude each other. -/
def finish (state : ArgumentState) : Except ArgumentFault Arguments := do
  let state ← state.settle
  if state.arguments.verbose && state.arguments.quiet then throw .conflict
  return state.arguments

end ArgumentState

/-- Read all arguments. -/
def Arguments.ofList (texts : List String) : Except ArgumentFault Arguments := do
  let state ← texts.foldlM ArgumentState.read ArgumentState.start
  state.finish

end Dealias.Cli
