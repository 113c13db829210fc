import Dealias.Proofs.Settings.Layers
import Dealias.Proofs.Settings.Values

/-!
# Directories from variables

A directory is a text, but the text of a variable is read as a value first.  So a directory is not
always the text of its variable: it is what that text denotes, and the text itself only if that is a
plain name or no value at all.

* `SettingValue.denotes_self_iff`: the texts that denote themselves.
* `Settings.hasUnusable_iff`: nothing but a variable can be of the wrong kind.
* `Settings.load_directory`: what a variable makes of a directory.
-/

namespace Dealias

/-! ## Texts that stand for themselves -/

namespace SettingValue

/-- Whether a text is read as a number. -/
def IsNumeral (text : List Char) : Prop :=
  (text.contains '.' = true ∧ isDecimal text = true) ∨ Dealias.natural? text ≠ none ∨
    integer? text ≠ none

/-- A text that is not changed by reading it: a plain one with no blanks around it, and no number. -/
structure IsPlainName (text : List Char) : Prop where
  isPlain : IsPlain text
  trimmed : trimBlanks text = text
  notNumeral : ¬ IsNumeral text

theorem ofPlain_eq_text_iff {text : List Char} {value : String} :
    ofPlain text = .text value ↔ ¬ IsNumeral text ∧ value = String.ofList text := by
  unfold ofPlain IsNumeral
  split
  case isTrue hdecimal =>
      constructor
      · intro hvalue
        cases hvalue
      · rintro ⟨hnumeral, -⟩
        exact absurd (.inl hdecimal) hnumeral
  case isFalse hdecimal =>
      cases hnatural : Dealias.natural? text with
      | some number => simp
      | none =>
          cases hinteger : integer? text with
          | some number => simp
          | none =>
              constructor
              · intro hvalue
                refine ⟨?_, (SettingValue.text.inj hvalue).symm⟩
                rintro (hnumeral | hnumeral | hnumeral)
                · exact hdecimal hnumeral
                · exact hnumeral rfl
                · exact hnumeral rfl
              · rintro ⟨-, rfl⟩
                rfl

theorem length_takeBytes_le (bytes : Nat) (text : List Char) :
    (takeBytes bytes text).length ≤ text.length := by
  fun_induction takeBytes bytes text with
  | case1 => exact Nat.le_refl _
  | case2 bytes character rest hfits ih => exact Nat.succ_le_succ ih
  | case3 => exact Nat.zero_le _

/-- Escapes are no shorter than what they stand for. -/
theorem length_resolveEscapes?_le {mode : QuotedMode} {text meant : List Char}
    (hmeant : resolveEscapes? mode text = some meant) : meant.length ≤ text.length := by
  induction text generalizing mode meant with
  | nil =>
      cases mode <;> cases hmeant
      exact Nat.le_refl _
  | cons character rest ih =>
      rw [List.length_cons]
      cases mode with
      | plain =>
          rw [resolveEscapes?] at hmeant
          split at hmeant
          · exact Nat.le_succ_of_le (ih hmeant)
          · split at hmeant
            · obtain ⟨later, hlater, rfl⟩ := Option.map_eq_some_iff.mp hmeant
              exact Nat.succ_le_succ (ih hlater)
            · cases hmeant
      | escape =>
          rw [resolveEscapes?] at hmeant
          split at hmeant
          · exact Nat.le_succ_of_le (ih hmeant)
          · split at hmeant
            · exact Nat.le_succ_of_le (ih hmeant)
            · split at hmeant
              · cases hmeant
              · obtain ⟨later, hlater, rfl⟩ := Option.map_eq_some_iff.mp hmeant
                exact Nat.succ_le_succ (ih hlater)
      | digits read missing =>
          rw [resolveEscapes?] at hmeant
          split at hmeant
          · exact Nat.le_succ_of_le (ih hmeant)
          · split at hmeant
            · cases hmeant
            · obtain ⟨later, hlater, rfl⟩ := Option.map_eq_some_iff.mp hmeant
              exact Nat.succ_le_succ (ih hlater)

theorem length_meaning?_le {body meant : List Char} (hmeant : meaning? body = some meant) :
    meant.length ≤ body.length := by
  have hplain := (body.takeWhile_prefix fun character => character != '\\').length_le
  unfold meaning? at hmeant
  dsimp only at hmeant
  split at hmeant
  case isFalse => cases hmeant
  case isTrue =>
      split at hmeant
      · cases hmeant
        exact hplain
      · obtain ⟨later, hlater, rfl⟩ := Option.map_eq_some_iff.mp hmeant
        have hresolved := length_resolveEscapes?_le hlater
        rw [List.length_drop] at hresolved
        rw [List.length_append]
        have htaken := length_takeBytes_le (body.takeWhile fun character => character != '\\').length
          (body.takeWhile fun character => character != '\\')
        omega

/-- A text with quotes is longer than what stands between them. -/
theorem Written.length_lt {value : SettingValue} {core : List Char} {meant : String}
    (hcore : Written (.closed value) core) (hvalue : value = .text meant) :
    meant.toList.length < core.length := by
  cases hcore with
  | yes => cases hvalue
  | no => cases hvalue
  | @quoted body found hbody hmeaning =>
      obtain rfl := SettingValue.text.inj hvalue
      have hlength := length_meaning?_le hmeaning
      rw [String.toList_ofList, List.length_cons, List.length_append, List.length_singleton]
      omega
  | character character =>
      obtain rfl := SettingValue.text.inj hvalue
      rw [String.toList_ofList]
      exact (by decide : 1 < 3)
  | @bracketed isDictionary => cases isDictionary <;> cases hvalue

/-- A text that is not read as a plain one is longer than what it stands for. -/
theorem Written.text_cases {value : SettingValue} {text : List Char} {meant : String}
    (hwritten : Written (.value value) text) (hvalue : value = .text meant) :
    (IsPlain text ∧ ¬ IsNumeral (trimBlanks text) ∧ meant = String.ofList (trimBlanks text)) ∨
      meant.toList.length < text.length := by
  cases hwritten with
  | plain hplain =>
      obtain ⟨hnumeral, hmeant⟩ := ofPlain_eq_text_iff.mp hvalue
      exact .inl ⟨hplain, hnumeral, hmeant⟩
  | @spaced lead core trail value hlead htrail hcore =>
      have hlength := hcore.length_lt hvalue
      rw [List.length_append, List.length_append]
      exact .inr (by omega)

theorem denotes_self_iff {text : String} :
    Denotes text.toList (.text text) ↔ IsPlainName text.toList := by
  constructor
  · intro hdenotes
    rcases hdenotes.text_cases rfl with ⟨hplain, hnumeral, htext⟩ | hlength
    · have htrimmed : trimBlanks text.toList = text.toList := by
        conv_rhs => rw [htext]
        rw [String.toList_ofList]
      rw [htrimmed] at hnumeral
      exact ⟨hplain, htrimmed, hnumeral⟩
    · exact absurd hlength (Nat.lt_irrefl _)
  · intro hname
    have hplain := Written.plain hname.isPlain
    rw [hname.trimmed, ofPlain_eq_text_iff.mpr ⟨hname.notNumeral, String.ofList_toList.symm⟩]
      at hplain
    exact hplain

/-- Reading leaves a text as it is just if it is a plain name or no value at all. -/
theorem ofText_eq_self_iff {text : String} :
    ofText text = .text text ↔
      IsPlainName text.toList ∨ ∀ value, ¬ Denotes text.toList value := by
  constructor
  · intro hself
    by_cases hvalue : ∃ value, Denotes text.toList value
    · obtain ⟨value, hdenotes⟩ := hvalue
      obtain rfl : value = .text text := (ofText_of_denotes hdenotes).symm.trans hself
      exact .inl (denotes_self_iff.mp hdenotes)
    · exact .inr (not_exists.mp hvalue)
  · rintro (hname | hnothing)
    · exact ofText_of_denotes (denotes_self_iff.mpr hname)
    · exact ofText_of_not_denotes hnothing

/-- A text is no path just if it denotes something else than a text. -/
theorem path?_ofText_eq_none_iff {text : String} :
    (ofText text).path? = none ↔
      ∃ value, Denotes text.toList value ∧ ∀ meant, value ≠ .text meant := by
  constructor
  · intro hpath
    by_cases hvalue : ∃ value, Denotes text.toList value
    · obtain ⟨value, hdenotes⟩ := hvalue
      refine ⟨value, hdenotes, ?_⟩
      rintro meant rfl
      rw [ofText_of_denotes hdenotes] at hpath
      cases hpath
    · rw [ofText_of_not_denotes (not_exists.mp hvalue)] at hpath
      cases hpath
  · rintro ⟨value, hdenotes, hkind⟩
    rw [ofText_of_denotes hdenotes]
    cases value with
    | text meant => exact absurd rfl (hkind meant)
    | _ => rfl

end SettingValue

/-! ## Variables for directories -/

/-- What the variable for a setting holds; of several variables for it the last one counts. -/
def Environment.text? (environment : Environment) (name : String) : Option String :=
  (environment.entries.reverse.find? fun entry => isVariableFor name entry.1).map Prod.snd

theorem Environment.setting?_eq (environment : Environment) (name : String) :
    environment.setting? name = (environment.text? name).map SettingValue.ofText := by
  rw [setting?, text?, Option.map_map]
  rfl

/-- The directories that variables can set. -/
inductive Directory where
  | outDir
  | baseUrl
  | rootDir

namespace Directory

/-- A directory as a setting. -/
def single : Directory → SingleSetting Path
  | outDir => .outDir
  | baseUrl => .baseUrl
  | rootDir => .rootDir

/-- A directory's variable, without what the names of all variables begin with. -/
def variableName : Directory → String
  | outDir => "OUT_DIR"
  | baseUrl => "BASE_URL"
  | rootDir => "ROOT_DIR"

/-- A directory in settings. -/
def get? : Directory → Settings → Option Path
  | outDir => Settings.outDir
  | baseUrl => Settings.baseUrl
  | rootDir => Settings.rootDir

theorem single_ofValue (directory : Directory) (value : SettingValue) :
    directory.single.ofValue value =
      match value.path? with
      | some path => .usable path
      | none => .unusable := by
  cases directory <;> cases value <;> rfl

end Directory

/-- Whether an environment has the variable of one directory, with the given text, and of no other
setting. -/
structure Environment.SetsOnly (environment : Environment) (directory : Directory) (text : String) :
    Prop where
  sets : environment.text? directory.variableName = some text
  others : ∀ setting name, Setting.variableName? setting = some name →
    name ≠ directory.variableName → environment.text? name = none

/-- An environment of a single variable. -/
theorem Environment.setsOnly_single (directory : Directory) (text : String) :
    Environment.SetsOnly (.ofList [(variableLead ++ directory.variableName, text)]) directory
      text := by
  have hfind (name : String) : Environment.text?
      (.ofList [(variableLead ++ directory.variableName, text)]) name =
        if isVariableFor name (variableLead ++ directory.variableName) then some text else none := by
    change Option.map _ (List.find? _ [_]) = _
    rw [List.find?_singleton]
    split <;> rfl
  constructor
  · rw [hfind]
    cases directory <;> exact if_pos (by decide +kernel)
  · intro setting name hname hother
    rw [hfind]
    cases setting <;> cases hname <;> cases directory <;>
      first | exact absurd rfl hother | exact if_neg (by decide +kernel)

/-- Of the layers above the defaults, only variables have values of the wrong kind. -/
theorem SingleSetting.exists_of_unusable {Value : Type} {single : SingleSetting Value}
    {layers : Layers} (hunusable : single.decided? layers = some .unusable) :
    ∃ name value, single.setting.variableName? = some name ∧
      layers.environment.setting? name = some value ∧ single.ofValue? value = none := by
  have husable (value? : Option Value) : value?.map Saying.usable ≠ some .unusable := by
    cases value? <;> simp
  obtain ⟨saying, hsaying, hsaid⟩ := List.exists_of_findSome?_eq_some hunusable
  obtain rfl : saying = some .unusable := hsaid
  simp only [sayings, List.mem_cons, List.not_mem_nil, or_false] at hsaying
  rcases hsaying with hsaying | hsaying | hsaying | hsaying
  · exact absurd hsaying.symm (husable _)
  · obtain ⟨value, hvalue, hkind⟩ := Option.map_eq_some_iff.mp hsaying.symm
    obtain ⟨name, hname, hsetting⟩ := Option.bind_eq_some_iff.mp hvalue
    refine ⟨name, value, hname, hsetting, ?_⟩
    unfold ofValue at hkind
    split at hkind
    case h_1 => cases hkind
    case h_2 hnone => exact hnone
  · exact absurd hsaying.symm (husable _)
  · exact absurd hsaying.symm (husable _)

theorem Layers.Decides.decided?_single {layers : Layers} {settings : Settings}
    (hdecides : layers.Decides settings) (directory : Directory) :
    directory.single.decided? layers = (directory.get? settings).map .usable := by
  cases directory with
  | outDir => exact hdecides.outDir
  | baseUrl => exact hdecides.baseUrl
  | rootDir => exact hdecides.rootDir

namespace Settings

variable {declared : CompilerOptions} {environment : Environment} {directory : Directory}
  {text : String}

/-- A variable decides about its directory, if there is no override. -/
theorem decided?_directory (hsets : environment.SetsOnly directory text) :
    directory.single.decided? (declared.layers environment .empty) =
      some (directory.single.ofValue (.ofText text)) := by
  have hvariable : directory.single.setting.variableName? = some directory.variableName := by
    cases directory <;> rfl
  have hsetting : environment.setting? directory.variableName = some (.ofText text) := by
    rw [environment.setting?_eq, hsets.sets, Option.map_some]
  have hoverride : directory.single.inLayer? .empty = none := by
    cases directory <;> rfl
  simp only [SingleSetting.decided?, SingleSetting.sayings, CompilerOptions.layers, hoverride,
    hvariable, Option.bind_some, hsetting, Option.map_none, Option.map_some, List.findSome?_cons, id]

/-- Nothing but the variable of the directory can be of the wrong kind. -/
theorem hasUnusable_iff (hsets : environment.SetsOnly directory text) :
    (declared.layers environment .empty).HasUnusable ↔
      (SettingValue.ofText text).path? = none := by
  have hvariable {Value : Type} {single : SingleSetting Value}
      (hunusable : single.decided? (declared.layers environment .empty) = some .unusable) :
      single.setting.variableName? = some directory.variableName ∧
        single.ofValue? (.ofText text) = none := by
    obtain ⟨name, value, hname, hsetting, hkind⟩ := SingleSetting.exists_of_unusable hunusable
    change environment.setting? name = some value at hsetting
    rw [environment.setting?_eq] at hsetting
    by_cases hsame : name = directory.variableName
    · rw [hsame, hsets.sets] at hsetting
      obtain rfl := Option.some.inj hsetting
      exact ⟨hsame ▸ hname, hkind⟩
    · rw [hsets.others _ name hname hsame] at hsetting
      cases hsetting
  constructor
  · rintro (hunusable | hunusable | hunusable | hunusable | hunusable)
    · exact (hvariable hunusable).2
    · exact (hvariable hunusable).2
    · exact (hvariable hunusable).2
    · have hname := (hvariable hunusable).1
      cases directory <;> exact absurd (Option.some.inj hname) (by decide)
    · cases (hvariable hunusable).1
  · intro hpath
    have hdecided := @decided?_directory declared environment directory text hsets
    rw [directory.single_ofValue, hpath] at hdecided
    cases directory with
    | outDir => exact .inl hdecided
    | baseUrl => exact .inr (.inl hdecided)
    | rootDir => exact .inr (.inr (.inl hdecided))

/-- Without a variable and an override there is the default concurrency. -/
theorem decided?_concurrency (hsets : environment.SetsOnly directory text) :
    SingleSetting.concurrency.decided? (declared.layers environment .empty) =
      some (.usable defaultConcurrency) := by
  have hname : "CONCURRENCY" ≠ directory.variableName := by cases directory <;> decide
  have hsetting : environment.setting? "CONCURRENCY" = none := by
    rw [environment.setting?_eq, hsets.others .concurrency _ rfl hname, Option.map_none]
  have hvariable : Setting.variableName? .concurrency = some "CONCURRENCY" := rfl
  simp only [SingleSetting.decided?, SingleSetting.sayings, SingleSetting.concurrency,
    CompilerOptions.layers, hvariable, Option.bind_some, hsetting]
  rfl

theorem decided?_outDir_ne_none {outDir : Path} (hdeclared : declared.outDir = some outDir) :
    SingleSetting.outDir.decided? (declared.layers environment .empty) ≠ none := by
  intro hnone
  rw [SingleSetting.decided?, List.findSome?_eq_none_iff] at hnone
  have hsaying := hnone (declared.outDir.map .usable) (by
    rw [SingleSetting.sayings]
    exact .tail _ (.tail _ (.head _)))
  rw [hdeclared] at hsaying
  cases hsaying

/-- A variable that denotes a text sets its directory to it. -/
theorem load_of_path {outDir path : Path} (hdeclared : declared.outDir = some outDir)
    (hsets : environment.SetsOnly directory text)
    (hpath : (SettingValue.ofText text).path? = some path) :
    ∃ settings, load declared environment .empty = .ok settings ∧
      directory.get? settings = some path := by
  have husable : ¬ (declared.layers environment .empty).HasUnusable := by
    rw [hasUnusable_iff hsets, hpath]
    exact nofun
  obtain ⟨settings, hmerge⟩ := exists_merge husable
  have hdecides := (merge_eq_ok_iff_decides.mp hmerge).1
  have houtDir : settings.outDir ≠ none := by
    intro hnone
    have hdecided := hdecides.outDir
    rw [hnone] at hdecided
    exact decided?_outDir_ne_none hdeclared hdecided
  have hconcurrency : settings.concurrency ≠ 0 := by
    have hdecided := hdecides.concurrency.symm.trans (decided?_concurrency hsets)
    rw [Option.some.injEq, Saying.usable.injEq] at hdecided
    rw [hdecided]
    decide
  have hdirectory := (hdecides.decided?_single directory).symm.trans (decided?_directory hsets)
  rw [directory.single_ofValue, hpath] at hdirectory
  obtain ⟨found, hfound, hsame⟩ := Option.map_eq_some_iff.mp hdirectory
  obtain rfl := Saying.usable.inj hsame
  exact ⟨settings, load_eq_ok_iff.mpr ⟨hmerge, houtDir, hconcurrency⟩, hfound⟩

/-- The directory is what the variable's text is read as. -/
theorem exists_load_iff {outDir : Path} (hdeclared : declared.outDir = some outDir)
    (hsets : environment.SetsOnly directory text) {meant : String} :
    (∃ settings, load declared environment .empty = .ok settings ∧
        directory.get? settings = some ⟨meant⟩) ↔ SettingValue.ofText text = .text meant := by
  constructor
  · rintro ⟨settings, hload, hdirectory⟩
    cases hvalue : SettingValue.ofText text with
    | text found =>
        obtain ⟨_, hfound, hsame⟩ :=
          @load_of_path declared environment directory text outDir ⟨found⟩ hdeclared hsets
            (by rw [hvalue]; rfl)
        obtain rfl := Except.ok.inj (hload.symm.trans hfound)
        obtain rfl := Path.mk.inj (Option.some.inj (hdirectory.symm.trans hsame))
        rfl
    | _ =>
        have hunusable : (declared.layers environment .empty).HasUnusable := by
          rw [hasUnusable_iff hsets, hvalue]
          rfl
        cases hload.symm.trans (load_eq_unusableSetting_iff.mpr hunusable)
  · intro hvalue
    apply load_of_path hdeclared hsets
    rw [hvalue]
    rfl

/-- **What a variable makes of a directory.**  A directory is the text of its variable just if that
is a plain name or no value at all.  There are no settings just if it is a value of another kind,
such as a number, and if it denotes another text then that is the directory. -/
theorem load_directory {outDir : Path} (hdeclared : declared.outDir = some outDir)
    (hsets : environment.SetsOnly directory text) :
    ((∃ settings, load declared environment .empty = .ok settings ∧
        directory.get? settings = some ⟨text⟩) ↔
      SettingValue.IsPlainName text.toList ∨ ∀ value, ¬ SettingValue.Denotes text.toList value) ∧
    (load declared environment .empty = .error unusableSetting ↔
      ∃ value, SettingValue.Denotes text.toList value ∧ ∀ meant, value ≠ .text meant) ∧
    ∀ meant, SettingValue.Denotes text.toList (.text meant) →
      ∃ settings, load declared environment .empty = .ok settings ∧
        directory.get? settings = some ⟨meant⟩ := by
  refine ⟨?_, ?_, ?_⟩
  · rw [exists_load_iff hdeclared hsets, SettingValue.ofText_eq_self_iff]
  · rw [load_eq_unusableSetting_iff, hasUnusable_iff hsets, SettingValue.path?_ofText_eq_none_iff]
  · intro meant hdenotes
    rw [exists_load_iff hdeclared hsets]
    exact SettingValue.ofText_of_denotes hdenotes

/-- A plain name is taken as it is. -/
theorem load_directory_plain :
    ∃ settings, load { CompilerOptions.empty with outDir := some ⟨"dist"⟩ }
        (.ofList [("TSALIAS_BASE_URL", "src/web-2")]) .empty = .ok settings ∧
      settings.baseUrl = some ⟨"src/web-2"⟩ := by
  have hsets := Environment.setsOnly_single .baseUrl "src/web-2"
  obtain ⟨hverbatim, -, -⟩ := @load_directory { CompilerOptions.empty with outDir := some ⟨"dist"⟩ }
    _ _ _ ⟨"dist"⟩ rfl hsets
  apply hverbatim.mpr
  refine .inl ⟨⟨?_, ?_⟩, ?_, ?_⟩
  · have hplain : "src/web-2".toList.all (fun character =>
        !SettingValue.isSeparator character) = true := by
      decide +kernel
    intro character hcharacter
    simpa using List.all_eq_true.mp hplain character hcharacter
  · unfold SettingValue.StartsPlain
    decide +kernel
  · decide +kernel
  · unfold SettingValue.IsNumeral
    decide +kernel

/-- A number is refused, and blanks around a name are lost. -/
theorem load_directory_number_sample :
    load { CompilerOptions.empty with outDir := some ⟨"dist"⟩ }
        (.ofList [("TSALIAS_OUT_DIR", "123")]) .empty = .error unusableSetting ∧
      ∃ settings, load { CompilerOptions.empty with outDir := some ⟨"dist"⟩ }
          (.ofList [("TSALIAS_OUT_DIR", " build ")]) .empty = .ok settings ∧
        settings.outDir = some ⟨"build"⟩ := by
  have hnumber := Environment.setsOnly_single .outDir "123"
  have hblanks := Environment.setsOnly_single .outDir " build "
  constructor
  · apply load_eq_unusableSetting_iff.mpr
    apply (hasUnusable_iff hnumber).mpr
    decide +kernel
  · apply (@exists_load_iff { CompilerOptions.empty with outDir := some ⟨"dist"⟩ } _ _ _ ⟨"dist"⟩ rfl
      hblanks _).mpr
    decide +kernel

end Settings
end Dealias
