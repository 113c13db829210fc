import Mathlib.Data.List.Induction
import Dealias.Proofs.Outcome
import Dealias.Settings.Layers

/-!
# The highest layer decides

Layers are laid over each other with all that they give, whatever its kind, and the settings are
taken out and checked only then.  So each setting with a single value is what the highest layer says
about it that says anything (`SingleSetting.decided?`), and what a lower layer says does not matter
at all, not even as a fault.

* `GivenValues.stack_eq_findSome?`: laying layers over each other keeps the highest one's value.
* `Layers.merge_eq_ok_iff`, `Layers.merge_eq_error_iff`: the merged settings, or why there are none.
* `Settings.load_decides`: which fault there is, if any, and what the settings are if there is none.
-/

namespace Dealias

/-! ## What layers say -/

/-- What a layer says about a setting. -/
inductive Saying (Value : Type) where
  | usable (value : Value)
  /-- A value of the wrong kind. -/
  | unusable

/-- The layers above the defaults. -/
structure Layers where
  declared : SettingsLayer
  environment : Environment
  overrides : SettingsLayer

/-- All that is given, once the layers are laid over each other. -/
def Layers.given (layers : Layers) : GivenValues :=
  GivenValues.stack [SettingsLayer.defaults.given, layers.declared.given, layers.environment.given,
    layers.overrides.given]

/-- A setting with a single value: where layers have it, and which values are of its kind. -/
structure SingleSetting (Value : Type) where
  setting : Setting
  inLayer? : SettingsLayer → Option Value
  ofValue? : SettingValue → Option Value
  toValue : Value → SettingValue
  given_eq : ∀ layer : SettingsLayer,
    layer.given setting = (inLayer? layer).map fun value => .plain (toValue value)
  ofValue?_toValue : ∀ value, ofValue? (toValue value) = some value

namespace SingleSetting

variable {Value : Type}

/-- What is said by a value. -/
def ofValue (single : SingleSetting Value) (value : SettingValue) : Saying Value :=
  match single.ofValue? value with
  | some usable => .usable usable
  | none => .unusable

/-- What the layers say about a setting, the highest one first. -/
def sayings (single : SingleSetting Value) (layers : Layers) : List (Option (Saying Value)) := [
  (single.inLayer? layers.overrides).map .usable,
  (single.setting.variableName?.bind layers.environment.setting?).map single.ofValue,
  (single.inLayer? layers.declared).map .usable,
  (single.inLayer? .defaults).map .usable]

/-- What the highest layer says that says anything. -/
def decided? (single : SingleSetting Value) (layers : Layers) : Option (Saying Value) :=
  (single.sayings layers).findSome? id

/-- The output directory. -/
def outDir : SingleSetting Path where
  setting := .outDir
  inLayer? := SettingsLayer.outDir
  ofValue? := SettingValue.path?
  toValue path := .text path.text
  given_eq _ := rfl
  ofValue?_toValue _ := rfl

/-- The directory that alias targets are seen from. -/
def baseUrl : SingleSetting Path where
  setting := .baseUrl
  inLayer? := SettingsLayer.baseUrl
  ofValue? := SettingValue.path?
  toValue path := .text path.text
  given_eq _ := rfl
  ofValue?_toValue _ := rfl

/-- The directory of the sources. -/
def rootDir : SingleSetting Path where
  setting := .rootDir
  inLayer? := SettingsLayer.rootDir
  ofValue? := SettingValue.path?
  toValue path := .text path.text
  given_eq _ := rfl
  ofValue?_toValue _ := rfl

/-- The concurrency. -/
def concurrency : SingleSetting Nat where
  setting := .concurrency
  inLayer? := SettingsLayer.concurrency
  ofValue? := SettingValue.natural?
  toValue number := .integer number
  given_eq _ := rfl
  ofValue?_toValue _ := rfl

/-- Whether nothing is to be written. -/
def dryRun : SingleSetting Bool where
  setting := .dryRun
  inLayer? := SettingsLayer.dryRun
  ofValue? := SettingValue.flag?
  toValue := .flag
  given_eq _ := rfl
  ofValue?_toValue _ := rfl

end SingleSetting

/-! ## Layers over each other -/

namespace GivenValues

theorem stack_concat (layers : List GivenValues) (highest : GivenValues) :
    stack (layers ++ [highest]) = highest.atop (stack layers) := by
  rw [stack, List.foldl_append]
  rfl

/-- What is no alias map covers what lies below. -/
theorem atop_eq_or {upper : GivenValues} {setting : Setting}
    (hplain : ∀ map, upper setting ≠ some (.aliases map)) (lower : GivenValues) :
    upper.atop lower setting = (upper setting).or (lower setting) := by
  unfold atop
  cases hupper : upper setting with
  | none => rfl
  | some value =>
      cases value with
      | plain value => rfl
      | aliases map => exact absurd hupper (hplain map)

/-- Where no layer gives an alias map, the highest one that gives anything decides. -/
theorem stack_eq_findSome? {layers : List GivenValues} {setting : Setting}
    (hplain : ∀ layer ∈ layers, ∀ map, layer setting ≠ some (.aliases map)) :
    stack layers setting = layers.reverse.findSome? fun layer => layer setting := by
  -- the highest layer is the last one of the list
  induction layers using List.reverseRecOn with
  | nil => rfl
  | append_singleton layers highest ih =>
      have hlower := ih fun layer hlayer => hplain layer (List.mem_append_left _ hlayer)
      have hhighest := hplain highest (List.mem_append_right _ (List.mem_singleton_self highest))
      rw [stack_concat, atop_eq_or hhighest, hlower, List.reverse_append, List.reverse_singleton,
        List.singleton_append, List.findSome?_cons]
      cases highest setting <;> rfl

end GivenValues

namespace SingleSetting

variable {Value : Type} {single : SingleSetting Value}

/-- What is said by what is given. -/
def read (single : SingleSetting Value) : GivenValue → Saying Value
  | .plain value => single.ofValue value
  | .aliases _ => .unusable

theorem map_read_given (layer : SettingsLayer) :
    (layer.given single.setting).map single.read = (single.inLayer? layer).map .usable := by
  rw [single.given_eq, Option.map_map]
  apply congrArg (Option.map · (single.inLayer? layer))
  funext value
  change single.ofValue (single.toValue value) = _
  rw [ofValue, single.ofValue?_toValue]

theorem given_ne_aliases (layer : SettingsLayer) (map : OrderedMap (List String)) :
    layer.given single.setting ≠ some (.aliases map) := by
  rw [single.given_eq]
  cases single.inLayer? layer <;> simp

/-- What is given once the layers are laid over each other says what is decided. -/
theorem decided?_eq (layers : Layers) :
    single.decided? layers = (layers.given single.setting).map single.read := by
  have henvironment (map : OrderedMap (List String)) :
      layers.environment.given single.setting ≠ some (.aliases map) := by
    rw [Environment.given]
    cases single.setting.variableName?.bind layers.environment.setting? <;> simp
  have hsaid : (layers.environment.given single.setting).map single.read =
      (single.setting.variableName?.bind layers.environment.setting?).map single.ofValue :=
    Option.map_map ..
  rw [Layers.given, GivenValues.stack_eq_findSome?, List.map_findSome?]
  · simp only [decided?, sayings, List.reverse_cons, List.reverse_nil, List.nil_append,
      List.cons_append, List.findSome?_cons, List.findSome?_nil, Function.comp_apply,
      map_read_given, hsaid, id]
  · simp only [List.forall_mem_cons]
    exact ⟨given_ne_aliases _, given_ne_aliases _, henvironment, given_ne_aliases _, nofun⟩

theorem decided?_ne_none (hdefault : (single.inLayer? .defaults).isSome = true) (layers : Layers) :
    single.decided? layers ≠ none := by
  obtain ⟨value, hvalue⟩ := Option.isSome_iff_exists.mp hdefault
  intro hnone
  rw [decided?, List.findSome?_eq_none_iff] at hnone
  have hlast := hnone ((single.inLayer? .defaults).map .usable) (by simp [sayings])
  rw [hvalue] at hlast
  cases hlast

end SingleSetting

/-! ## Taking settings out -/

namespace Layers

variable {layers : Layers} {Value : Type} {single : SingleSetting Value}

theorem take_eq_ok_iff {value? : Option Value} :
    layers.given.take single.setting single.ofValue? = .ok value? ↔
      single.decided? layers = value?.map .usable := by
  rw [SingleSetting.decided?_eq, GivenValues.take]
  rcases layers.given single.setting with - | ⟨value⟩ | map
  · cases value? <;> simp
  · simp only [Option.map_some, SingleSetting.read, SingleSetting.ofValue]
    cases single.ofValue? value <;> cases value? <;> simp
  · cases value? <;> simp [SingleSetting.read]

theorem take_eq_error_iff {fault : ProjectFault} :
    layers.given.take single.setting single.ofValue? = .error fault ↔
      single.decided? layers = some .unusable ∧ fault = unusableSetting := by
  rw [SingleSetting.decided?_eq, GivenValues.take]
  rcases layers.given single.setting with - | ⟨value⟩ | map
  · simp
  · simp only [Option.map_some, SingleSetting.read, SingleSetting.ofValue]
    cases single.ofValue? value <;> simp [eq_comm]
  · simp [SingleSetting.read, eq_comm]

theorem require_eq_ok_iff {value : Value} :
    layers.given.require single.setting single.ofValue? = .ok value ↔
      single.decided? layers = some (.usable value) := by
  have htake := @take_eq_ok_iff layers Value single
  rw [GivenValues.require, bind_eq_ok_iff]
  constructor
  · rintro ⟨value?, hvalue, hrequire⟩
    cases value? with
    | none => cases hrequire
    | some found =>
        cases hrequire
        exact htake.mp hvalue
  · intro hdecided
    exact ⟨some value, htake.mpr hdecided, rfl⟩

/-- What has a default is never missed. -/
theorem require_eq_error_iff (hdefault : (single.inLayer? .defaults).isSome = true)
    {fault : ProjectFault} :
    layers.given.require single.setting single.ofValue? = .error fault ↔
      single.decided? layers = some .unusable ∧ fault = unusableSetting := by
  rw [GivenValues.require, bind_eq_error_iff, take_eq_error_iff]
  constructor
  · rintro (hunusable | ⟨value?, hvalue, hrequire⟩)
    · exact hunusable
    · cases value? with
      | none => exact absurd (take_eq_ok_iff.mp hvalue) (single.decided?_ne_none hdefault layers)
      | some found => cases hrequire
  · intro hunusable
    exact .inl hunusable

/-- Alias maps are always taken as they are given. -/
theorem exists_paths (layers : Layers) : ∃ map, layers.given.paths = .ok map := by
  have hgiven : ∃ map, layers.given .paths = some (.aliases map) := by
    simp only [Layers.given, GivenValues.stack, List.foldl_cons, List.foldl_nil, GivenValues.atop,
      SettingsLayer.given, SettingsLayer.defaults, Environment.given, Setting.variableName?]
    cases layers.declared.paths <;> cases layers.overrides.paths <;> exact ⟨_, rfl⟩
  obtain ⟨map, hmap⟩ := hgiven
  refine ⟨map, ?_⟩
  rw [GivenValues.paths, hmap]

/-! ## Merged settings -/

/-- Whether a value of the wrong kind decides. -/
def HasUnusable (layers : Layers) : Prop :=
  SingleSetting.outDir.decided? layers = some .unusable ∨
    SingleSetting.baseUrl.decided? layers = some .unusable ∨
    SingleSetting.rootDir.decided? layers = some .unusable ∨
    SingleSetting.concurrency.decided? layers = some .unusable ∨
    SingleSetting.dryRun.decided? layers = some .unusable

/-- Whether settings with a single value are what is decided about them. -/
structure Decides (layers : Layers) (settings : Settings) : Prop where
  outDir : SingleSetting.outDir.decided? layers = settings.outDir.map .usable
  baseUrl : SingleSetting.baseUrl.decided? layers = settings.baseUrl.map .usable
  rootDir : SingleSetting.rootDir.decided? layers = settings.rootDir.map .usable
  concurrency : SingleSetting.concurrency.decided? layers = some (.usable settings.concurrency)
  dryRun : SingleSetting.dryRun.decided? layers = some (.usable settings.dryRun)

theorem merge_eq_ok_iff {settings : Settings} :
    Settings.merge layers.declared layers.environment layers.overrides = .ok settings ↔
      layers.Decides settings ∧ layers.given.paths = .ok settings.paths := by
  have houtDir := @take_eq_ok_iff layers Path .outDir
  have hbaseUrl := @take_eq_ok_iff layers Path .baseUrl
  have hrootDir := @take_eq_ok_iff layers Path .rootDir
  have hconcurrency := @require_eq_ok_iff layers Nat .concurrency
  have hdryRun := @take_eq_ok_iff layers Bool .dryRun
  change layers.given.settings = _ ↔ _
  rw [GivenValues.settings]
  simp only [bind_eq_ok_iff]
  constructor
  · rintro ⟨outDir, hout, baseUrl, hbase, rootDir, hroot, map, hmap, number, hnumber, flag?, hflag,
      hsettings⟩
    obtain rfl := Except.ok.inj hsettings
    refine ⟨⟨houtDir.mp hout, hbaseUrl.mp hbase, hrootDir.mp hroot, hconcurrency.mp hnumber, ?_⟩,
      hmap⟩
    cases flag? with
    | none => exact absurd (hdryRun.mp hflag) (SingleSetting.dryRun.decided?_ne_none rfl layers)
    | some flag => exact hdryRun.mp hflag
  · rintro ⟨hdecides, hmap⟩
    exact ⟨_, houtDir.mpr hdecides.outDir, _, hbaseUrl.mpr hdecides.baseUrl, _,
      hrootDir.mpr hdecides.rootDir, _, hmap, _, hconcurrency.mpr hdecides.concurrency,
      some settings.dryRun, hdryRun.mpr hdecides.dryRun, rfl⟩

/-- Where a value of the wrong kind decides, nothing else can be decided about that setting. -/
theorem Decides.not_hasUnusable {settings : Settings} (hdecides : layers.Decides settings) :
    ¬ layers.HasUnusable := by
  have hdirectory (path? : Option Path) : path?.map Saying.usable ≠ some .unusable := by
    cases path? <;> simp
  rintro (hunusable | hunusable | hunusable | hunusable | hunusable)
  · exact hdirectory _ (hdecides.outDir.symm.trans hunusable)
  · exact hdirectory _ (hdecides.baseUrl.symm.trans hunusable)
  · exact hdirectory _ (hdecides.rootDir.symm.trans hunusable)
  · cases hdecides.concurrency.symm.trans hunusable
  · cases hdecides.dryRun.symm.trans hunusable

/-- There are no merged settings just if a value of the wrong kind decides. -/
theorem merge_eq_error_iff {fault : ProjectFault} :
    Settings.merge layers.declared layers.environment layers.overrides = .error fault ↔
      layers.HasUnusable ∧ fault = unusableSetting := by
  have hfault {fault : ProjectFault} (hmerge : Settings.merge layers.declared layers.environment
      layers.overrides = .error fault) : layers.HasUnusable ∧ fault = unusableSetting := by
    have houtDir := @take_eq_error_iff layers Path .outDir
    have hbaseUrl := @take_eq_error_iff layers Path .baseUrl
    have hrootDir := @take_eq_error_iff layers Path .rootDir
    have hconcurrency := @require_eq_error_iff layers Nat .concurrency rfl
    have hdryRun := @take_eq_error_iff layers Bool .dryRun
    change layers.given.settings = _ at hmerge
    rw [GivenValues.settings] at hmerge
    simp only [bind_eq_error_iff] at hmerge
    rcases hmerge with hout | ⟨_, -, hbase | ⟨_, -, hroot | ⟨_, -, hpaths | ⟨_, -, hnumber |
      ⟨_, -, hflag | ⟨_, -, hsettings⟩⟩⟩⟩⟩⟩
    · exact ⟨.inl (houtDir.mp hout).1, (houtDir.mp hout).2⟩
    · exact ⟨.inr (.inl (hbaseUrl.mp hbase).1), (hbaseUrl.mp hbase).2⟩
    · exact ⟨.inr (.inr (.inl (hrootDir.mp hroot).1)), (hrootDir.mp hroot).2⟩
    · obtain ⟨map, hmap⟩ := layers.exists_paths
      cases hmap.symm.trans hpaths
    · exact ⟨.inr (.inr (.inr (.inl (hconcurrency.mp hnumber).1))), (hconcurrency.mp hnumber).2⟩
    · exact ⟨.inr (.inr (.inr (.inr (hdryRun.mp hflag).1))), (hdryRun.mp hflag).2⟩
    · cases hsettings
  constructor
  · exact hfault
  · rintro ⟨hunusable, rfl⟩
    cases hmerge : Settings.merge layers.declared layers.environment layers.overrides with
    | ok settings => exact absurd hunusable (merge_eq_ok_iff.mp hmerge).1.not_hasUnusable
    | error fault => rw [(hfault hmerge).2]

end Layers

/-! ## Checked settings -/

/-- The layers above the defaults, for a project's compiler options. -/
def CompilerOptions.layers (declared : CompilerOptions) (environment : Environment)
    (overrides : SettingsLayer) : Layers where
  declared := declared.toLayer
  environment := environment
  overrides := overrides

namespace Settings

theorem unusableSetting_ne_missingOutDir : unusableSetting ≠ missingOutDir := by
  intro heq
  unfold unusableSetting missingOutDir at heq
  cases heq

theorem unusableSetting_ne_zeroConcurrency : unusableSetting ≠ zeroConcurrency := by
  intro heq
  unfold unusableSetting zeroConcurrency at heq
  injection heq with hfield
  exact absurd hfield (by decide)

theorem missingOutDir_ne_zeroConcurrency : missingOutDir ≠ zeroConcurrency := by
  intro heq
  unfold missingOutDir zeroConcurrency at heq
  cases heq

variable {declared : CompilerOptions} {environment : Environment} {overrides : SettingsLayer}
  {settings : Settings} {fault : ProjectFault}

theorem load_eq_ok_iff :
    load declared environment overrides = .ok settings ↔
      merge declared.toLayer environment overrides = .ok settings ∧ settings.outDir ≠ none ∧
        settings.concurrency ≠ 0 := by
  have hvalidate (settings : Settings) : settings.validate = .ok () ↔
      settings.outDir ≠ none ∧ settings.concurrency ≠ 0 := by
    unfold validate
    split
    case isTrue hmissing => simp [hmissing]
    case isFalse hpresent => split <;> simp [*]
  rw [load, bind_eq_ok_iff]
  constructor
  · rintro ⟨merged, hmerge, hload⟩
    obtain ⟨_, hvalid, hmerged⟩ := bind_eq_ok_iff.mp hload
    cases hmerged
    exact ⟨hmerge, (hvalidate _).mp hvalid⟩
  · rintro ⟨hmerge, hvalid⟩
    exact ⟨settings, hmerge, bind_eq_ok_iff.mpr ⟨(), (hvalidate settings).mpr hvalid, rfl⟩⟩

/-- Kinds come before what is missing, and that before what is too small. -/
theorem load_eq_error_iff :
    load declared environment overrides = .error fault ↔
      merge declared.toLayer environment overrides = .error fault ∨
        ∃ settings, merge declared.toLayer environment overrides = .ok settings ∧
          (settings.outDir = none ∧ fault = missingOutDir ∨
            settings.outDir ≠ none ∧ settings.concurrency = 0 ∧ fault = zeroConcurrency) := by
  have hvalidate (settings : Settings) : (settings.validate >>= fun _ => return settings) =
      .error fault ↔ settings.outDir = none ∧ fault = missingOutDir ∨
        settings.outDir ≠ none ∧ settings.concurrency = 0 ∧ fault = zeroConcurrency := by
    unfold validate
    split
    case isTrue hmissing => simp [hmissing, eq_comm]
    case isFalse hpresent =>
      split
      case isTrue hzero => simp [hpresent, hzero, eq_comm]
      case isFalse hpositive => simp [hpresent, hpositive, bind_eq_error_iff, pure, Except.pure]
  rw [load, bind_eq_error_iff]
  simp only [hvalidate]

theorem merge_eq_ok_iff_decides :
    merge declared.toLayer environment overrides = .ok settings ↔
      (declared.layers environment overrides).Decides settings ∧
        (declared.layers environment overrides).given.paths = .ok settings.paths :=
  @Layers.merge_eq_ok_iff (declared.layers environment overrides) settings

theorem merge_eq_error_iff_hasUnusable :
    merge declared.toLayer environment overrides = .error fault ↔
      (declared.layers environment overrides).HasUnusable ∧ fault = unusableSetting :=
  @Layers.merge_eq_error_iff (declared.layers environment overrides) fault

theorem exists_merge (husable : ¬ (declared.layers environment overrides).HasUnusable) :
    ∃ settings, merge declared.toLayer environment overrides = .ok settings := by
  cases hmerge : merge declared.toLayer environment overrides with
  | ok settings => exact ⟨settings, rfl⟩
  | error fault => exact absurd (merge_eq_error_iff_hasUnusable.mp hmerge).1 husable

theorem load_eq_unusableSetting_iff :
    load declared environment overrides = .error unusableSetting ↔
      (declared.layers environment overrides).HasUnusable := by
  rw [load_eq_error_iff, merge_eq_error_iff_hasUnusable]
  constructor
  · rintro (⟨hunusable, -⟩ | ⟨settings, -, ⟨-, hfault⟩ | ⟨-, -, hfault⟩⟩)
    · exact hunusable
    · exact absurd hfault unusableSetting_ne_missingOutDir
    · exact absurd hfault unusableSetting_ne_zeroConcurrency
  · intro hunusable
    exact .inl ⟨hunusable, rfl⟩

theorem load_eq_missingOutDir_iff :
    load declared environment overrides = .error missingOutDir ↔
      ¬ (declared.layers environment overrides).HasUnusable ∧
        SingleSetting.outDir.decided? (declared.layers environment overrides) = none := by
  rw [load_eq_error_iff, merge_eq_error_iff_hasUnusable]
  constructor
  · rintro (⟨-, hfault⟩ | ⟨settings, hmerge, ⟨hmissing, -⟩ | ⟨-, -, hfault⟩⟩)
    · exact absurd hfault.symm unusableSetting_ne_missingOutDir
    · have hdecides := (merge_eq_ok_iff_decides.mp hmerge).1
      refine ⟨hdecides.not_hasUnusable, ?_⟩
      rw [hdecides.outDir, hmissing]
      rfl
    · exact absurd hfault missingOutDir_ne_zeroConcurrency
  · rintro ⟨husable, hmissing⟩
    obtain ⟨settings, hmerge⟩ := exists_merge husable
    rw [(merge_eq_ok_iff_decides.mp hmerge).1.outDir, Option.map_eq_none_iff] at hmissing
    exact .inr ⟨settings, hmerge, .inl ⟨hmissing, rfl⟩⟩

theorem load_eq_zeroConcurrency_iff :
    load declared environment overrides = .error zeroConcurrency ↔
      ¬ (declared.layers environment overrides).HasUnusable ∧
        SingleSetting.outDir.decided? (declared.layers environment overrides) ≠ none ∧
        SingleSetting.concurrency.decided? (declared.layers environment overrides) =
          some (.usable 0) := by
  rw [load_eq_error_iff, merge_eq_error_iff_hasUnusable]
  constructor
  · rintro (⟨-, hfault⟩ | ⟨settings, hmerge, ⟨-, hfault⟩ | ⟨hpresent, hzero, -⟩⟩)
    · exact absurd hfault.symm unusableSetting_ne_zeroConcurrency
    · exact absurd hfault.symm missingOutDir_ne_zeroConcurrency
    · have hdecides := (merge_eq_ok_iff_decides.mp hmerge).1
      rw [hdecides.outDir, hdecides.concurrency, hzero, ne_eq, Option.map_eq_none_iff]
      exact ⟨hdecides.not_hasUnusable, hpresent, rfl⟩
  · rintro ⟨husable, hpresent, hzero⟩
    obtain ⟨settings, hmerge⟩ := exists_merge husable
    have hdecides := (merge_eq_ok_iff_decides.mp hmerge).1
    rw [hdecides.outDir, ne_eq, Option.map_eq_none_iff] at hpresent
    rw [hdecides.concurrency, Option.some.injEq, Saying.usable.injEq] at hzero
    exact .inr ⟨settings, hmerge, .inr ⟨hpresent, hzero, rfl⟩⟩

/-- There are no other faults. -/
theorem fault_of_load_eq_error (hload : load declared environment overrides = .error fault) :
    fault = unusableSetting ∨ fault = missingOutDir ∨ fault = zeroConcurrency := by
  rcases load_eq_error_iff.mp hload with hmerge | ⟨settings, -, ⟨-, hfault⟩ | ⟨-, -, hfault⟩⟩
  · exact .inl (merge_eq_error_iff_hasUnusable.mp hmerge).2
  · exact .inr (.inl hfault)
  · exact .inr (.inr hfault)

/-- Settings that were checked make options. -/
theorem toOptions_of_load (hload : load declared environment overrides = .ok settings)
    (projectDir : Path) :
    ∃ outDir, settings.outDir = some outDir ∧
      settings.toOptions projectDir = .ok {
        projectDir
        outDir
        baseUrl := settings.baseUrl
        rootDir := settings.rootDir
        paths := settings.paths
        concurrency := settings.concurrency
        dryRun := settings.dryRun } := by
  obtain ⟨-, hpresent, -⟩ := load_eq_ok_iff.mp hload
  obtain ⟨outDir, houtDir⟩ := Option.ne_none_iff_exists'.mp hpresent
  refine ⟨outDir, houtDir, ?_⟩
  rw [toOptions, houtDir]

/-- **The highest layer decides.**  Each setting with a single value is what the highest layer says
about it that says anything.  There are no settings just if what decides has the wrong kind, or else
if nothing decides about the output directory, or else if what decides about the concurrency is
zero.  All others make options, with a worker at least. -/
theorem load_decides (declared : CompilerOptions) (environment : Environment)
    (overrides : SettingsLayer) :
    (∀ settings, merge declared.toLayer environment overrides = .ok settings →
        (declared.layers environment overrides).Decides settings) ∧
      (load declared environment overrides = .error unusableSetting ↔
        (declared.layers environment overrides).HasUnusable) ∧
      (load declared environment overrides = .error missingOutDir ↔
        ¬ (declared.layers environment overrides).HasUnusable ∧
          SingleSetting.outDir.decided? (declared.layers environment overrides) = none) ∧
      (load declared environment overrides = .error zeroConcurrency ↔
        ¬ (declared.layers environment overrides).HasUnusable ∧
          SingleSetting.outDir.decided? (declared.layers environment overrides) ≠ none ∧
          SingleSetting.concurrency.decided? (declared.layers environment overrides) =
            some (.usable 0)) ∧
      (∀ fault, load declared environment overrides = .error fault →
        fault = unusableSetting ∨ fault = missingOutDir ∨ fault = zeroConcurrency) ∧
      ∀ settings, load declared environment overrides = .ok settings →
        (declared.layers environment overrides).Decides settings ∧ 1 ≤ settings.concurrency ∧
          ∀ projectDir, ∃ outDir, settings.outDir = some outDir ∧
            settings.toOptions projectDir = .ok {
              projectDir
              outDir
              baseUrl := settings.baseUrl
              rootDir := settings.rootDir
              paths := settings.paths
              concurrency := settings.concurrency
              dryRun := settings.dryRun } := by
  refine ⟨?_, load_eq_unusableSetting_iff, load_eq_missingOutDir_iff, load_eq_zeroConcurrency_iff,
    ?_, ?_⟩
  · intro settings hmerge
    exact (merge_eq_ok_iff_decides.mp hmerge).1
  · intro fault hload
    exact fault_of_load_eq_error hload
  · intro settings hload
    obtain ⟨hmerge, -, hpositive⟩ := load_eq_ok_iff.mp hload
    refine ⟨(merge_eq_ok_iff_decides.mp hmerge).1, Nat.one_le_iff_ne_zero.mpr hpositive, ?_⟩
    intro projectDir
    exact toOptions_of_load hload projectDir

/-- A variable that is no number does no harm below an override. -/
theorem load_decides_masked :
    let declared := { CompilerOptions.empty with outDir := some ⟨"dist"⟩ }
    let environment : Environment :=
      .ofList [("TSALIAS_OUT_DIR", "build"), ("TSALIAS_CONCURRENCY", "lots")]
    let overrides := { SettingsLayer.empty with concurrency := some 3 }
    ∃ settings, load declared environment overrides = .ok settings ∧
      (declared.layers environment overrides).Decides settings ∧
      settings.outDir = some ⟨"build"⟩ ∧ settings.concurrency = 3 ∧ 1 ≤ settings.concurrency := by
  intro declared environment overrides
  have hload : (load declared environment overrides).toOption.map
      (fun settings => (settings.outDir, settings.concurrency)) = some (some ⟨"build"⟩, 3) := by
    decide +kernel
  obtain ⟨settings, hok, hvalues⟩ := exists_of_map_toOption hload
  obtain ⟨houtDir, hnumber⟩ := Prod.mk.inj hvalues
  obtain ⟨-, -, -, -, -, hdecides⟩ := load_decides declared environment overrides
  obtain ⟨hdecided, hpositive, -⟩ := hdecides settings hok
  exact ⟨settings, hok, hdecided, houtDir, hnumber, hpositive⟩

end Settings

end Dealias
