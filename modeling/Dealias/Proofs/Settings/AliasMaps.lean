import Dealias.Proofs.OrderedMap
import Dealias.Proofs.Settings.Layers

/-!
# Alias maps of several layers

Alias maps do not cover each other as other settings do: they are united key by key, and the keys
come out in ascending order, whatever order they were declared in.

* `GivenValues.GivesAliases.atop_layer`: what one more layer adds.
* `Layers.givesAliases`: what all layers give together.
* `Project.runOptions_paths`: the aliases of a run, and when they are those of the highest layer.
-/

namespace Dealias

/-! ## Two maps -/

theorem get?_unitePaths (lower upper : OrderedMap (List String)) (key : String) :
    (unitePaths lower upper).get? key = (upper.get? key).or (lower.get? key) := by
  rw [unitePaths, OrderedMap.get?_sortKeys, OrderedMap.get?_insertAll_entries]

theorem isAscending_unitePaths (lower upper : OrderedMap (List String)) :
    (unitePaths lower upper).IsAscending :=
  OrderedMap.isAscending_sortKeys _

/-! ## Layer by layer -/

namespace GivenValues

/-- Whether an alias map is given, in ascending order, that has the given targets of each key. -/
def GivesAliases (values : GivenValues) (targets? : String → Option (List String)) : Prop :=
  ∃ map, values .paths = some (.aliases map) ∧ map.IsAscending ∧
    ∀ key, map.get? key = targets? key

variable {lower : GivenValues} {targets? : String → Option (List String)}

/-- A layer with a map adds its keys and takes over those that are there already. -/
theorem GivesAliases.atop_layer (hlower : lower.GivesAliases targets?) (layer : SettingsLayer) :
    (layer.given.atop lower).GivesAliases fun key =>
      (layer.paths.bind (·.get? key)).or (targets? key) := by
  obtain ⟨below, hbelow, hascending, htargets⟩ := hlower
  cases hpaths : layer.paths with
  | none =>
      refine ⟨below, ?_, hascending, ?_⟩
      · simp only [atop, SettingsLayer.given, hpaths, hbelow, Option.map_none]
      · intro key
        simp only [htargets, Option.bind_none, Option.none_or]
  | some above =>
      refine ⟨unitePaths below above.sortKeys, ?_, isAscending_unitePaths .., ?_⟩
      · simp only [atop, SettingsLayer.given, hpaths, hbelow, Option.map_some]
      · intro key
        simp only [get?_unitePaths, OrderedMap.get?_sortKeys, htargets, Option.bind_some]

/-- No variable is an alias map. -/
theorem GivesAliases.atop_environment (hlower : lower.GivesAliases targets?)
    (environment : Environment) : (environment.given.atop lower).GivesAliases targets? := by
  obtain ⟨below, hbelow, hmap⟩ := hlower
  exact ⟨below, hbelow, hmap⟩

end GivenValues

theorem SettingsLayer.givesAliases_defaults :
    SettingsLayer.defaults.given.GivesAliases fun _ => none := by
  refine ⟨OrderedMap.sortKeys .empty, rfl, OrderedMap.isAscending_sortKeys _, ?_⟩
  intro key
  rw [OrderedMap.get?_sortKeys, OrderedMap.get?_empty]

namespace Layers

/-- The targets of a key in the highest layer that has the key. -/
def targets? (layers : Layers) (key : String) : Option (List String) :=
  (layers.overrides.paths.bind (·.get? key)).or (layers.declared.paths.bind (·.get? key))

/-- The alias map of the highest layer that has one. -/
def highestPaths (layers : Layers) : OrderedMap (List String) :=
  (layers.overrides.paths.or layers.declared.paths).getD .empty

/-- Whether no key of the lower map is missing in the upper one, if there are both. -/
def OverridesCover (layers : Layers) : Prop :=
  ∀ upper, layers.overrides.paths = some upper → ∀ lower, layers.declared.paths = some lower →
    lower.keys ⊆ upper.keys

theorem givesAliases (layers : Layers) : layers.given.GivesAliases layers.targets? := by
  have hdeclared := SettingsLayer.givesAliases_defaults.atop_layer layers.declared
  have hall := (hdeclared.atop_environment layers.environment).atop_layer layers.overrides
  obtain ⟨map, hmap, hascending, htargets⟩ := hall
  refine ⟨map, hmap, hascending, ?_⟩
  intro key
  simp only [htargets, Option.or_none, targets?]

/-- The highest layer has the targets of all keys just if it covers the lower one. -/
theorem get?_highestPaths_iff (layers : Layers) :
    (∀ key, layers.targets? key = layers.highestPaths.get? key) ↔ layers.OverridesCover := by
  unfold targets? highestPaths OverridesCover
  cases layers.overrides.paths with
  | none =>
      cases layers.declared.paths with
      | none => simp
      | some lower => simp
  | some upper =>
      cases layers.declared.paths with
      | none => simp
      | some lower =>
          simp only [Option.bind_some, Option.some_or, Option.getD_some, Option.some.injEq,
            forall_eq']
          constructor
          · intro hsame key hkey
            rw [← OrderedMap.isSome_get?] at hkey ⊢
            rw [← hsame key, Option.isSome_or, hkey, Bool.or_true]
          · intro hcovers key
            cases hupper : upper.get? key with
            | some targets => rfl
            | none =>
                -- the key is in neither map
                have hlower : ¬ (lower.get? key).isSome = true := by
                  intro hsome
                  have hkey := hcovers (OrderedMap.isSome_get?.mp hsome)
                  rw [← OrderedMap.isSome_get?, hupper] at hkey
                  cases hkey
                rw [Option.none_or, ← Option.not_isSome_iff_eq_none]
                exact hlower

end Layers

/-! ## Aliases of a run -/

namespace Project

variable {project : Project} {environment : Environment} {overrides : SettingsLayer}
  {projectDir : Path} {options : RunOptions}

/-- A run's aliases are those of all layers. -/
theorem united_of_runOptions
    (hoptions : project.runOptions environment overrides projectDir = .ok options) :
    options.paths.IsAscending ∧ ∀ key, options.paths.get? key =
      (project.compilerOptions.layers environment overrides).targets? key := by
  obtain ⟨settings, hload, htoOptions⟩ := bind_eq_ok_iff.mp hoptions
  obtain ⟨outDir, -, hfields⟩ := Settings.toOptions_of_load hload projectDir
  obtain rfl := Except.ok.inj (hfields.symm.trans htoOptions)
  have hmerge := (Settings.load_eq_ok_iff.mp hload).1
  have hpaths := (Settings.merge_eq_ok_iff_decides.mp hmerge).2
  obtain ⟨map, hmap, hunited⟩ :=
    (project.compilerOptions.layers environment overrides).givesAliases
  rw [GivenValues.paths, hmap] at hpaths
  obtain rfl := Except.ok.inj hpaths
  exact hunited

/-- **Alias maps are united.**  A run's aliases are those of all layers, each key with the targets
of the highest layer that has it, in ascending order.  So they are the map of the highest layer just
if that map is in ascending order and no key of the lower map is missing in it. -/
theorem runOptions_paths
    (hoptions : project.runOptions environment overrides projectDir = .ok options) :
    options.paths.IsAscending ∧
      (∀ key, options.paths.get? key =
        (project.compilerOptions.layers environment overrides).targets? key) ∧
      (options.paths = (project.compilerOptions.layers environment overrides).highestPaths ↔
        (project.compilerOptions.layers environment overrides).highestPaths.IsAscending ∧
          (project.compilerOptions.layers environment overrides).OverridesCover) := by
  obtain ⟨hascending, htargets⟩ := united_of_runOptions hoptions
  refine ⟨hascending, htargets, ?_⟩
  rw [← Layers.get?_highestPaths_iff]
  constructor
  · intro hsame
    rw [← hsame]
    exact ⟨hascending, fun key => (htargets key).symm⟩
  · rintro ⟨hhighest, hsame⟩
    apply hascending.ext hhighest
    intro key
    rw [htargets, hsame]

/-- A map in ascending order that has the lower one's keys is taken as it is. -/
theorem runOptions_paths_covering :
    let project : Project :=
      ⟨{ CompilerOptions.empty with
        outDir := some ⟨"dist"⟩, paths := some (.ofList [("b", ["x"])]) }, none⟩
    let overrides :=
      { SettingsLayer.empty with paths := some (.ofList [("a", ["y"]), ("b", ["z"])]) }
    ∃ options, project.runOptions .empty overrides ⟨"/p"⟩ = .ok options ∧
      options.paths = .ofList [("a", ["y"]), ("b", ["z"])] := by
  intro project overrides
  have hrun : ((project.runOptions .empty overrides ⟨"/p"⟩).toOption.map fun _ => ()) = some () := by
    decide +kernel
  obtain ⟨options, hoptions, -⟩ := exists_of_map_toOption hrun
  obtain ⟨-, -, hhighest⟩ := runOptions_paths hoptions
  refine ⟨options, hoptions, hhighest.mpr ⟨?_, ?_⟩⟩
  · unfold OrderedMap.IsAscending
    decide +kernel
  · intro upper hupper lower hlower
    obtain rfl := Option.some.inj hupper
    obtain rfl := Option.some.inj hlower
    decide +kernel

/-- A lower layer's key stays beside those of the overrides, and a single map whose keys are not in
ascending order does not stay as it is. -/
theorem runOptions_paths_leak_sample :
    let project (pairs : List (String × List String)) : Project :=
      ⟨{ CompilerOptions.empty with outDir := some ⟨"dist"⟩, paths := some (.ofList pairs) }, none⟩
    let overrides := { SettingsLayer.empty with paths := some (.ofList [("a", ["y"])]) }
    (∃ options, (project [("b", ["x"])]).runOptions .empty overrides ⟨"/p"⟩ = .ok options ∧
      options.paths.get? "b" = some ["x"] ∧ options.paths ≠ .ofList [("a", ["y"])]) ∧
    ∃ options, (project [("b", ["x"]), ("a", ["y"])]).runOptions .empty .empty ⟨"/p"⟩ =
        .ok options ∧
      options.paths ≠ .ofList [("b", ["x"]), ("a", ["y"])] := by
  intro project overrides
  have hrun : (((project [("b", ["x"])]).runOptions .empty overrides ⟨"/p"⟩).toOption.map
      fun _ => ()) = some () := by
    decide +kernel
  have hrun' : (((project [("b", ["x"]), ("a", ["y"])]).runOptions .empty .empty
      ⟨"/p"⟩).toOption.map fun _ => ()) = some () := by
    decide +kernel
  obtain ⟨options, hoptions, -⟩ := exists_of_map_toOption hrun
  obtain ⟨options', hoptions', -⟩ := exists_of_map_toOption hrun'
  have hleak : options.paths.get? "b" = some ["x"] := by
    rw [(united_of_runOptions hoptions).2]
    decide +kernel
  refine ⟨⟨options, hoptions, hleak, ?_⟩, options', hoptions', ?_⟩
  · intro hsame
    rw [hsame] at hleak
    revert hleak
    decide +kernel
  · intro hsame
    have hascending := (united_of_runOptions hoptions').1
    rw [hsame, OrderedMap.IsAscending] at hascending
    revert hascending
    decide +kernel

end Project
end Dealias
