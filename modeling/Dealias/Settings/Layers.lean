import Dealias.Project.Basic
import Dealias.Settings.Value

/-!
# Layers of settings

Settings come from four layers: the defaults, the compiler options of the project, the environment
and the overrides of the caller.  Layers are laid over each other without a look at what they give;
only alias maps are united, key by key.  Then the settings are taken out, each with its kind, and
checked.
-/

namespace Dealias

/-- The environment: variables in the order in which they were first set. -/
abbrev Environment := OrderedMap String

/-- What one layer says.  What it leaves out is left to the layers below. -/
structure SettingsLayer where
  outDir : Option Path
  baseUrl : Option Path
  rootDir : Option Path
  paths : Option (OrderedMap (List String))
  concurrency : Option Nat
  dryRun : Option Bool

/-- The layer that says nothing. -/
def SettingsLayer.empty : SettingsLayer where
  outDir := none
  baseUrl := none
  rootDir := none
  paths := none
  concurrency := none
  dryRun := none

/-- The layer below all others. -/
def SettingsLayer.defaults : SettingsLayer where
  outDir := none
  baseUrl := none
  rootDir := none
  paths := some .empty
  concurrency := some defaultConcurrency
  dryRun := some false

/-- The layer of a project. -/
def CompilerOptions.toLayer (options : CompilerOptions) : SettingsLayer where
  outDir := options.outDir
  baseUrl := options.baseUrl
  rootDir := options.rootDir
  paths := options.paths
  concurrency := none
  dryRun := none

/-- Settings after all layers. -/
structure Settings where
  outDir : Option Path
  baseUrl : Option Path
  rootDir : Option Path
  paths : OrderedMap (List String)
  concurrency : Nat
  dryRun : Bool

/-! ## The environment -/

/-- What the names of all variables that are settings begin with. -/
def variableLead : String := "TSALIAS_"

/-- Whether a variable is the one for a setting.  Neither the case of its name matters nor white
space around it. -/
def isVariableFor (setting name : String) : Bool :=
  (String.ofList (trimBlanks name.toList)).toUpper == (variableLead ++ setting).toUpper

/-- The value of a setting's variable; of several variables for it the last one counts. -/
def Environment.setting? (environment : Environment) (setting : String) : Option SettingValue :=
  (environment.entries.reverse.find? fun entry => isVariableFor setting entry.1).map fun entry =>
    SettingValue.ofText entry.2

/-! ## Laying layers over each other -/

/-- What can be set. -/
inductive Setting where
  | outDir
  | baseUrl
  | rootDir
  | paths
  | concurrency
  | dryRun
deriving DecidableEq, Repr

/-- A setting's variable, without what the names of all of them begin with. -/
def Setting.variableName? : Setting → Option String
  | outDir => some "OUT_DIR"
  | baseUrl => some "BASE_URL"
  | rootDir => some "ROOT_DIR"
  | concurrency => some "CONCURRENCY"
  | paths | dryRun => none

/-- What a layer gives to a setting. -/
inductive GivenValue where
  | plain (value : SettingValue)
  /-- Alias patterns with their targets, the patterns in ascending order. -/
  | aliases (map : OrderedMap (List String))

/-- What is given to settings. -/
abbrev GivenValues := Setting → Option GivenValue

/-- What a layer gives. -/
def SettingsLayer.given (layer : SettingsLayer) : GivenValues
  | .outDir => layer.outDir.map fun path => .plain (.text path.text)
  | .baseUrl => layer.baseUrl.map fun path => .plain (.text path.text)
  | .rootDir => layer.rootDir.map fun path => .plain (.text path.text)
  | .paths => layer.paths.map fun map => .aliases map.sortKeys
  | .concurrency => layer.concurrency.map fun (number : Nat) => .plain (.integer number)
  | .dryRun => layer.dryRun.map fun flag => .plain (.flag flag)

/-- What the environment gives. -/
def Environment.given (environment : Environment) : GivenValues := fun setting =>
  (setting.variableName?.bind environment.setting?).map .plain

/-- Unite alias maps.  Where both have a key, the upper one's targets are taken. -/
def unitePaths (lower upper : OrderedMap (List String)) : OrderedMap (List String) :=
  (lower.insertAll upper.entries).sortKeys

/-- Lay what is given over what is given below. -/
def GivenValues.atop (upper lower : GivenValues) : GivenValues := fun setting =>
  match upper setting, lower setting with
  | none, below => below
  | some (.aliases above), some (.aliases below) => some (.aliases (unitePaths below above))
  | above, _ => above

/-- Lay layers over each other, the lowest one first. -/
def GivenValues.stack (layers : List GivenValues) : GivenValues :=
  layers.foldl (fun lower upper => upper.atop lower) fun _ => none

/-! ## Taking settings out -/

/-- The fault of a value of the wrong kind. -/
def unusableSetting : ProjectFault :=
  .invalidValue "configuration" causeSign
    ("Check compilerOptions in tsconfig.json and " ++ variableLead ++ "* environment variables")

/-- The path that a value is. -/
def SettingValue.path? : SettingValue → Option Path
  | text path => some ⟨path⟩
  | _ => none

/-- The natural number that a value is. -/
def SettingValue.natural? : SettingValue → Option Nat
  | integer (.ofNat number) => some number
  | _ => none

/-- The flag that a value is. -/
def SettingValue.flag? : SettingValue → Option Bool
  | flag value => some value
  | _ => none

namespace GivenValues

/-- Take a single value of a kind, if anything is given. -/
def take {Value : Type} (values : GivenValues) (setting : Setting)
    (ofValue? : SettingValue → Option Value) : Except ProjectFault (Option Value) :=
  match values setting with
  | none => .ok none
  | some (.plain value) =>
    match ofValue? value with
    | some usable => .ok (some usable)
    | none => .error unusableSetting
  | some (.aliases _) => .error unusableSetting

/-- Take a single value of a kind that has to be given. -/
def require {Value : Type} (values : GivenValues) (setting : Setting)
    (ofValue? : SettingValue → Option Value) : Except ProjectFault Value := do
  match ← values.take setting ofValue? with
  | some value => return value
  | none => throw unusableSetting

/-- Take the alias map. -/
def paths (values : GivenValues) : Except ProjectFault (OrderedMap (List String)) :=
  match values .paths with
  | none => .ok .empty
  | some (.aliases map) => .ok map
  | some (.plain _) => .error unusableSetting

/-- Take all settings. -/
def settings (values : GivenValues) : Except ProjectFault Settings := do
  return {
    outDir := ← values.take .outDir SettingValue.path?
    baseUrl := ← values.take .baseUrl SettingValue.path?
    rootDir := ← values.take .rootDir SettingValue.path?
    paths := ← values.paths
    concurrency := ← values.require .concurrency SettingValue.natural?
    dryRun := (← values.take .dryRun SettingValue.flag?).getD false }

end GivenValues

namespace Settings

/-- The settings that layers make. -/
def merge (declared : SettingsLayer) (environment : Environment) (overrides : SettingsLayer) :
    Except ProjectFault Settings :=
  (GivenValues.stack
    [SettingsLayer.defaults.given, declared.given, environment.given, overrides.given]).settings

/-! ## Checking -/

/-- The fault of settings without an output directory. -/
def missingOutDir : ProjectFault :=
  .missingField "compilerOptions.outDir"
    ("Set outDir in tsconfig.json, " ++ variableLead ++ "OUT_DIR or pass --out-dir")

/-- The fault of settings that leave no worker. -/
def zeroConcurrency : ProjectFault :=
  .invalidValue "concurrency" "0" "Use at least 1"

/-- Refuse settings that no run can use. -/
def validate (settings : Settings) : Except ProjectFault Unit :=
  if settings.outDir = none then .error missingOutDir
  else if settings.concurrency = 0 then .error zeroConcurrency
  else .ok ()

/-- The settings for a project's compiler options, as far as a run can use them. -/
def load (declared : CompilerOptions) (environment : Environment) (overrides : SettingsLayer) :
    Except ProjectFault Settings := do
  let settings ← merge declared.toLayer environment overrides
  settings.validate
  return settings

/-- Turn settings into options for a run in a project directory. -/
def toOptions (settings : Settings) (projectDir : Path) : Except ProjectFault RunOptions :=
  match settings.outDir with
  | none => .error (.missingField "compilerOptions.outDir" "Set outDir in tsconfig.json")
  | some outDir =>
    .ok {
      projectDir
      outDir
      baseUrl := settings.baseUrl
      rootDir := settings.rootDir
      paths := settings.paths
      concurrency := settings.concurrency
      dryRun := settings.dryRun }

end Settings

/-- The options for a run of a project. -/
def Project.runOptions (project : Project) (environment : Environment) (overrides : SettingsLayer)
    (projectDir : Path) : Except ProjectFault RunOptions := do
  let settings ← Settings.load project.compilerOptions environment overrides
  settings.toOptions projectDir

end Dealias
